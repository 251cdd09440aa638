import Mos.CopyCalls
import Mos.TlbMod

/-!
# Entering and leaving the kernel

The program that runs enters the kernel with a trap, and the kernel leaves with a frame. An
env gets out of user mode only with a frame that `sys_set_trapframe` was given, or where the
kernel stores at addresses of the user's choice.
-/

namespace Mos

/-- What a trap asks of the kernel. -/
inductive Entry
  | tick
  | sys (call : SysCall)
  /-- A system call that touches no env and stores nothing, or that is none. -/
  | plain
  | refill (va asid : Word)
  | mod

/-- The kernel handles an entry in the state `s`, and leaves with a frame. What it reads of
the user's memory may be mapped on the way. Where `do_tlb_mod` stores to a page that is not
writable, it is entered again and again, and nothing is known of what follows. -/
inductive handles (s : Kernel) : Entry → Kernel → Trapframe → Prop
  | tick {s' : Kernel} {e : EnvIx} : schedule s false = .ok s' → s'.curenv = some e →
      handles s .tick s' (s'.envs e).envTf
  | switch {call : SysCall} {s' : Kernel} {r : Ret} {e : EnvIx} : call.Switches s →
      call.exec s.skip = .ok (s', r) → s'.curenv = some e →
      handles s (.sys call) s' (s'.envs e).envTf
  | ret {call : SysCall} {s' : Kernel} {r : Ret} : ¬ call.Switches s →
      call.exec s.skip = .ok (s', r) →
        handles s (.sys call) (s'.setV0 r.word) (s'.setV0 r.word).kstackTf
  | plain (value : Word) (pm : Pmap) :
      handles s .plain ((s.skip.setV0 value).withPm pm) (s.skip.setV0 value).kstackTf
  | noSys : handles s .plain (s.setV0 (-Err.noSys.code)) (s.setV0 (-Err.noSys.code)).kstackTf
  | refill {va asid : Word} {fuel : Nat} {s' : Kernel} {pte : Word} :
      doTlbRefill s va asid fuel = .ok (some (s', pte)) → handles s (.refill va asid) s' s'.kstackTf
  | mod {s' : Kernel} (pm : Pmap) : doTlbMod s = some s' →
      handles s .mod (s'.withPm pm) s'.kstackTf
  | modAgain {k : Nat} (s' : Kernel) (tf : Trapframe) : k < sizeofTrapframe.toNat →
      ¬ StoreFits s (exceptionFrame s.kstackTf + BitVec.ofNat 32 k) → handles s .mod s' tf

/-- The kernel with its `pwd`, and the frame that was given to the program which runs, if
any. -/
structure Machine where
  system : System
  running : Option Trapframe

inductive MachineEv
  | create (binary : Icode) (priority : Word)
  | start
  | enter (tf : Trapframe) (entry : Entry)
  | copy (tf : Trapframe) (call : CopyCall) (acts : List CopyAct)

/-- Envs are created before the first of them is started; then traps enter the
kernel, from the program that runs. -/
inductive machineStep (pwd : Word) : Machine → MachineEv → Machine → Prop
  | create {s s' : Kernel} {path : List Byte} {binary : Icode} {priority : Word} {e : EnvIx} :
      envCreate s binary priority = .ok (s', e) →
      machineStep pwd ⟨⟨s, path⟩, none⟩ (.create binary priority) ⟨⟨s', path⟩, none⟩
  | start {s s' : Kernel} {path : List Byte} {e : EnvIx} : s.curenv = none →
      schedule s false = .ok s' → s'.curenv = some e →
      machineStep pwd ⟨⟨s, path⟩, none⟩ .start ⟨⟨s', path⟩, some (s'.envs e).envTf⟩
  | enter {s s' : Kernel} {path : List Byte} {old tf tf' : Trapframe} {entry : Entry} :
      Traps old tf → handles { s with kstackTf := tf } entry s' tf' →
      machineStep pwd ⟨⟨s, path⟩, some old⟩ (.enter tf entry) ⟨⟨s', path⟩, some tf'⟩
  | copy {s s' : Kernel} {path path' : List Byte} {old tf : Trapframe} {call : CopyCall}
      {acts : List CopyAct} (value : Word) : Traps old tf →
      call.Returns pwd ⟨Kernel.skip { s with kstackTf := tf }, path⟩ acts ⟨s', path'⟩ →
      machineStep pwd ⟨⟨s, path⟩, some old⟩ (.copy tf call acts)
        ⟨⟨s'.setV0 value, path'⟩, some (s'.setV0 value).kstackTf⟩

/-- `sys_set_trapframe` is given a frame that stays in user mode, and `do_tlb_mod` has a stack
that it can write to. -/
def Entry.FrameLegal (s : Kernel) : Entry → Prop
  | .sys call => call.FrameLegal s
  | .mod => ∀ k < sizeofTrapframe.toNat,
      StoreFits s (exceptionFrame s.kstackTf + BitVec.ofNat 32 k)
  | _ => True

/-- Every byte goes to a device, or to user memory, where it can be written to by then. -/
def CopyFits (s : Kernel) (acts : List CopyAct) : Prop :=
  ∀ before a c after s₁, acts = before ++ .store a c :: after → Run copyStep s before s₁ →
    StoreFits s₁ a

def MachineEv.FrameLegal (s : Kernel) : MachineEv → Prop
  | .enter tf entry => entry.FrameLegal { s with kstackTf := tf }
  | .copy tf _ acts => CopyFits (Kernel.skip { s with kstackTf := tf }) acts
  | _ => True

/-- A step in which `sys_set_trapframe` uses no frame out of user mode, and every store of the
kernel at an address of the user fits. -/
def framedStep (pwd : Word) (m : Machine) (ev : MachineEv) (m' : Machine) : Prop :=
  ev.FrameLegal m.system.kernel ∧ machineStep pwd m ev m'

variable {s s' : Kernel} {cur : EnvIx} {acts : List CopyAct} {act : CopyAct} {m m' : Machine}
  {ev : MachineEv} {evs : List MachineEv} {b : Boot} {pwd : Word} {path : List Byte}

/-- A store that fits changes the memory only. -/
theorem copyStep_withPm (step : copyStep s act s')
    (fits : ∀ a c, act = .store a c → StoreFits s a) : ∃ pm, s' = s.withPm pm := by
  cases step with
  | user => exact ⟨_, rfl⟩
  | @mod a w c cur _ user hcur entry notWritable =>
      obtain ⟨-, writable⟩ := (fits a c rfl).of_user user
      exact absurd (writable cur w hcur entry) notWritable
  | device => exact ⟨s.pm, rfl⟩
  | page => exact ⟨_, rfl⟩
  | @image a c _ high other =>
      have below := ((fits a c rfl).not_physical other).1
      rw [BitVec.lt_def, utop_toNat] at below
      rw [BitVec.le_def, ulim_toNat] at high
      omega
  | fault hcur hva run => exact doTlbRefill_ok run

/-- So does a call whose stores all fit. -/
theorem CopyFits.withPm (fits : CopyFits s acts) (run : Run copyStep s acts s') :
    ∃ pm, s' = s.withPm pm := by
  induction run with
  | refl => exact ⟨s.pm, rfl⟩
  | @snoc s₁ s₂ acts act first last ih =>
      have before : CopyFits s acts := by
        intro pre a c after s₃ eq
        exact fits pre a c (after ++ [act]) s₃ (by rw [eq, List.append_assoc, List.cons_append])
      obtain ⟨pm, rfl⟩ := ih before
      obtain ⟨pm', rfl⟩ := copyStep_withPm last fun a c eq =>
        fits acts a c [] _ (by rw [eq]) first
      exact ⟨pm', rfl⟩

/-- What holds of the kernel when a program runs. -/
structure ModeInv (s : Kernel) : Prop where
  slots : SlotInv s
  envTf : EnvFrames s

/-- What the kernel leaves with keeps the program in user mode. -/
theorem UserFrames.handles {entry : Entry} {tf : Trapframe} (user : UserFrames s)
    (slots : SlotInv s) (legal : entry.FrameLegal s) (h : Mos.handles s entry s' tf) :
    ModeInv s' ∧ UserStatus tf.cp0Status := by
  have skipped : SlotInv s.skip := ⟨slots.free_nodup, slots.free_status, slots.current⟩
  cases h with
  | tick scheduled current =>
      have slots' := (slots.refl.resumed (schedule_ok scheduled).1).inv
      have user' := user.schedule scheduled
      exact ⟨⟨slots', user'.envTf⟩, user'.envTf _ (slots'.current _ current)⟩
  | @switch call _ _ _ _ run current =>
      have slots' := skipped.sys run
      have user' := @UserFrames.sys _ _ user.skip call _ legal run
      exact ⟨⟨slots', user'.envTf⟩, user'.envTf _ (slots'.current _ current)⟩
  | @ret call _ r _ run =>
      have slots' := skipped.sys run
      have user' := (@UserFrames.sys _ _ user.skip call _ legal run).setV0 r.word
      exact ⟨⟨⟨slots'.free_nodup, slots'.free_status, slots'.current⟩, user'.envTf⟩, user'.kstackTf⟩
  | plain value pm =>
      have user' := user.skip.setV0 value
      exact ⟨⟨⟨slots.free_nodup, slots.free_status, slots.current⟩, user'.envTf⟩, user'.kstackTf⟩
  | noSys =>
      have user' := user.setV0 (-Err.noSys.code)
      exact ⟨⟨⟨slots.free_nodup, slots.free_status, slots.current⟩, user'.envTf⟩, user'.kstackTf⟩
  | refill run =>
      obtain ⟨pm, rfl⟩ := doTlbRefill_ok run
      exact ⟨⟨⟨slots.free_nodup, slots.free_status, slots.current⟩, user.envTf⟩, user.kstackTf⟩
  | mod pm run =>
      obtain ⟨tf, rfl, status⟩ := doTlbMod_ok run
      have kept : UserStatus tf.cp0Status := by
        rw [status]
        exact user.kstackTf
      exact ⟨⟨⟨slots.free_nodup, slots.free_status, slots.current⟩, user.envTf⟩, kept⟩
  | modAgain _ _ inFrame unfit => exact absurd (legal _ inFrame) unfit

structure MachineInv (m : Machine) : Prop where
  mode : ModeInv m.system.kernel
  running : ∀ tf, m.running = some tf → UserStatus tf.cp0Status

theorem MachineInv.step (inv : MachineInv m) (step : framedStep pwd m ev m') : MachineInv m' := by
  obtain ⟨legal, step⟩ := step
  obtain ⟨⟨slots, envTf⟩, running⟩ := inv
  cases step with
  | create created =>
      exact ⟨⟨(slots.envCreate created).inv, envTf.envCreate created⟩, fun _ h => nomatch h⟩
  | start idle scheduled current =>
      have slots' := (slots.refl.resumed (schedule_ok scheduled).1).inv
      have envTf' := envTf.start idle scheduled
      exact ⟨⟨slots', envTf'⟩, fun tf h => by cases h; exact envTf' _ (slots'.current _ current)⟩
  | @enter s s' _ old tf tf' entry traps run =>
      have status := (running old rfl).trap traps
      have framed : UserFrames { s with kstackTf := tf } := ⟨envTf, status⟩
      obtain ⟨mode, left⟩ := framed.handles ⟨slots.free_nodup, slots.free_status, slots.current⟩
        legal run
      exact ⟨mode, fun tf h => by cases h; exact left⟩
  | @copy s s' _ _ old tf call acts value traps returns =>
      have status := (running old rfl).trap traps
      have framed : UserFrames { s with kstackTf := tf } := ⟨envTf, status⟩
      obtain ⟨pm, rfl⟩ := legal.withPm returns.run
      have left := (framed.skip.withPm pm).setV0 value
      exact ⟨⟨⟨slots.free_nodup, slots.free_status, slots.current⟩, envTf⟩,
        fun tf h => by cases h; exact left.kstackTf⟩

theorem MachineInv.of_envInit (boot : envInit b = .ok s) : MachineInv ⟨⟨s, path⟩, none⟩ := by
  obtain ⟨pm, p, rfl⟩ := envInit_ok boot
  exact ⟨⟨(AskInv.of_envInit boot).slots, fun e inUse => absurd (mem_slots e) inUse⟩,
    fun _ h => nomatch h⟩

end Mos
