import Mos.IpcAsked
import Mos.KernelRun
import Mos.SchedInv

/-!
# Frames that keep a program in user mode

A trap pushes the mode bits of the status register and saves the registers below
`KSTACKTOP`; `ret_from_exception` restores a trap frame, from there or from an
env that `env_run` picked, and `rfe` pops the mode bits again. What the kernel does
with the frames keeps these bits, but for `sys_set_trapframe`.
-/

namespace Mos

def statusCu0 : Word := 0x10000000#32
def statusKup : Word := 0x8#32
def statusIep : Word := 0x4#32
def statusKuc : Word := 0x2#32

/-- `rfe`: the previous mode bits become the current ones. -/
def rfe (status : Word) : Word := (status &&& ~~~0xf#32) ||| ((status >>> 2) &&& 0xf#32)

/-- An exception pushes the mode bits, and the processor is in kernel mode. -/
def pushMode (status : Word) : Word := (status &&& ~~~0x3f#32) ||| ((status <<< 2) &&& 0x3f#32)

/-- The frame `tf` is saved by a trap out of a program that was given the frame
`old`. In user mode, without coprocessor 0, the program cannot write the status. -/
def Traps (old tf : Trapframe) : Prop :=
  (rfe old.cp0Status).Has statusKuc → ¬ (rfe old.cp0Status).Has statusCu0 →
    tf.cp0Status = pushMode (rfe old.cp0Status)

/-- The number of an error. -/
def Err.code : Err → Word
  | .badEnv => 2
  | .inval => 3
  | .noMem => 4
  | .noSys => 5
  | .noFreeEnv => 6
  | .ipcNotRecv => 7

/-- What the caller of a system call finds in `$v0`. -/
def Ret.word : Ret → Word
  | .ok value => value
  | .error err => -err.code

/-- Write `$v0` in the frame below `KSTACKTOP`. -/
def Kernel.setV0 (s : Kernel) (value : Word) : Kernel :=
  { s with kstackTf := { s.kstackTf with regs := Function.update s.kstackTf.regs 2 value } }

/-- `tf->cp0_epc += 4`, in `do_syscall`. -/
def Kernel.skip (s : Kernel) : Kernel :=
  { s with kstackTf := { s.kstackTf with cp0Epc := s.kstackTf.cp0Epc + 4 } }

/-- `do_tlb_mod`, but for the copy of the frame that it stores on the user's
exception stack. It panics when no user handler is registered. -/
def doTlbMod (s : Kernel) : Option Kernel := do
  let cur ← s.curenv
  let tf := s.kstackTf
  let sp := if tf.regs 29 < ustacktop ∨ uxstacktop ≤ tf.regs 29 then uxstacktop else tf.regs 29
  let sp := sp - sizeofTrapframe
  if (s.envs cur).envUserTlbModEntry ≠ 0 then
    some { s with kstackTf :=
      { tf with
        regs := Function.update (Function.update tf.regs 4 sp) 29 (sp - 4)
        cp0Epc := (s.envs cur).envUserTlbModEntry } }
  else none

/-- The call gives up the processor, and does not return to `do_syscall`. -/
def SysCall.Switches (s : Kernel) : SysCall → Prop
  | .yield => True
  | .ipcRecv dstva => ¬ (dstva ≠ 0 ∧ isIllegalVa dstva)
  | .env (.envDestroy envid) => ∃ cur, s.curenv = some cur ∧ envid2env s envid true = .ok (.ok cur)
  | _ => False

/-! ## The mode bits -/

/-- A status that keeps the program in user mode, with interrupts enabled. -/
structure UserStatus (status : Word) : Prop where
  kup : status.Has statusKup
  iep : status.Has statusIep
  cu0 : ¬ status.Has statusCu0

theorem userStatus_user : UserStatus userStatus := ⟨by decide, by decide, by decide⟩

/-- A bit of a status. -/
theorem has_twoPow (status : Word) {k : Nat} (h : k < 32) :
    status.Has (BitVec.twoPow 32 k) ↔ status.getLsbD k = true := by
  unfold Word.Has
  rw [BitVec.and_twoPow]
  by_cases bit : status.getLsbD k = true
  · rw [if_pos bit]
    refine iff_of_true (fun zero => ?_) bit
    have one := congrArg (fun w => BitVec.getLsbD w k) zero
    simp [h] at one
  · rw [if_neg bit]
    exact iff_of_false (not_not_intro rfl) bit

theorem has_statusKuc (status : Word) : status.Has statusKuc ↔ status.getLsbD 1 = true :=
  has_twoPow status (k := 1) (by decide)

theorem userStatus_iff (status : Word) : UserStatus status ↔
    status.getLsbD 3 = true ∧ status.getLsbD 2 = true ∧ ¬ status.getLsbD 28 = true := by
  have kup : status.Has statusKup ↔ _ := has_twoPow status (k := 3) (by decide)
  have iep : status.Has statusIep ↔ _ := has_twoPow status (k := 2) (by decide)
  have cu0 : status.Has statusCu0 ↔ _ := has_twoPow status (k := 28) (by decide)
  rw [← kup, ← iep, ← cu0]
  exact ⟨fun user => ⟨user.kup, user.iep, user.cu0⟩, fun user => ⟨user.1, user.2.1, user.2.2⟩⟩

/-- A trap saves the mode that the frame restored. -/
theorem UserStatus.trap {old tf : Trapframe} (user : UserStatus old.cp0Status)
    (traps : Traps old tf) : UserStatus tf.cp0Status := by
  have bits := (userStatus_iff _).mp user
  have inUser : (rfe old.cp0Status).Has statusKuc := by
    rw [has_statusKuc]
    simpa [rfe] using bits.1
  have noCu0 : ¬ (rfe old.cp0Status).Has statusCu0 := by
    have same : (rfe old.cp0Status).Has statusCu0 ↔ _ := has_twoPow _ (k := 28) (by decide)
    rw [same]
    simpa [rfe] using bits.2.2
  rw [traps inUser noCu0, userStatus_iff]
  simpa [pushMode, rfe] using bits

/-! ## Where frames come from -/

variable {s s' : Kernel} {e cur : EnvIx}

/-- The frames of the envs in use keep them in user mode. -/
def EnvFrames (s : Kernel) : Prop :=
  ∀ e, e ∉ s.envFreeList → UserStatus (s.envs e).envTf.cp0Status

/-- An env is given a frame that keeps it in user mode. -/
theorem EnvFrames.setEnv {f : Env → Env} (user : EnvFrames s)
    (status : e ∉ s.envFreeList → UserStatus (f (s.envs e)).envTf.cp0Status) :
    EnvFrames (s.setEnv e f) := by
  intro x inUse
  rcases eq_or_ne x e with rfl | hne
  · simpa [Kernel.setEnv] using status inUse
  · simpa [Kernel.setEnv, hne] using user x inUse

/-- An env is changed, but for its frame. -/
theorem EnvFrames.setField {f : Env → Env} (user : EnvFrames s)
    (same : (f (s.envs e)).envTf = (s.envs e).envTf) : EnvFrames (s.setEnv e f) :=
  user.setEnv fun inUse => by
    rw [same]
    exact user e inUse

/-- A new env starts in user mode. -/
theorem EnvFrames.envAlloc {parentId : Word} {r : Except Err EnvIx} (user : EnvFrames s)
    (h : Mos.envAlloc s parentId = .ok (s', r)) :
    EnvFrames s' ∧ s'.kstackTf = s.kstackTf := by
  rcases envAlloc_ok h with ⟨pm, err, -, rfl⟩ | ⟨e, rest, p, pm, err, hfree, -, rfl⟩ |
    ⟨e, rest, p, pm, i, hfree, -, -, rfl⟩
  · exact ⟨user, rfl⟩
  · refine ⟨fun x inUse => ?_, rfl⟩
    have hne : x ≠ e := fun eq => inUse (by
      rw [eq, show (s.setupEnv e p pm).envFreeList = s.envFreeList from rfl, hfree]
      exact List.mem_cons_self)
    simpa [Kernel.setupEnv, hne] using user x inUse
  · refine ⟨fun x inUse => ?_, rfl⟩
    rcases eq_or_ne x e with rfl | hne
    · simpa [Kernel.admitEnv] using userStatus_user
    · have used : x ∉ s.envFreeList := by
        rw [hfree]
        exact List.not_mem_cons_of_ne_of_not_mem hne inUse
      simpa [Kernel.admitEnv, Kernel.setupEnv, hne] using user x used

theorem EnvFrames.envCreate {binary : Icode} {priority : Word} (user : EnvFrames s)
    (h : Mos.envCreate s binary priority = .ok (s', e)) : EnvFrames s' := by
  obtain ⟨s₁, s₂, alloc, pages, rfl⟩ := envCreate_ok h
  have user₁ := (user.envAlloc alloc).1
  obtain ⟨pm, rfl⟩ := loadPages_ok pages
  have started := user₁.setField (e := e)
    (f := fun env => { env with envPri := priority, envStatus := .runnable }) rfl
  exact started.setEnv (e := e)
    (f := fun env => { env with envTf := { env.envTf with cp0Epc := binary.entry } })
    fun inUse => started e inUse

/-- The first env starts in user mode. -/
theorem EnvFrames.start (user : EnvFrames s) (idle : s.curenv = none)
    (h : schedule s false = .ok s') : EnvFrames s' := by
  unfold schedule runFirst envRun Kernel.saveTf at h
  simp only [idle] at h
  split at h
  · cases h
  · split at h
    · split at h
      · cases h
      · cases h
        exact user.setField (f := fun env => { env with envRuns := env.envRuns + 1 }) rfl
    · cases h

/-- Every frame the kernel can restore for an env in use keeps it in user mode. -/
structure UserFrames (s : Kernel) : Prop where
  envTf : EnvFrames s
  kstackTf : UserStatus s.kstackTf.cp0Status

section Frames

variable (user : UserFrames s)

include user

/-- The queue, its counter and the current env do not matter. -/
theorem UserFrames.requeue (q : Tailq EnvIx) (n : Word) (c : Option EnvIx) :
    UserFrames { s with envSchedList := q, schedCount := n, curenv := c } :=
  ⟨user.envTf, user.kstackTf⟩

theorem UserFrames.setEnv {f : Env → Env}
    (status : e ∉ s.envFreeList → UserStatus (f (s.envs e)).envTf.cp0Status) :
    UserFrames (s.setEnv e f) :=
  ⟨user.envTf.setEnv status, user.kstackTf⟩

theorem UserFrames.setField {f : Env → Env} (same : (f (s.envs e)).envTf = (s.envs e).envTf) :
    UserFrames (s.setEnv e f) :=
  ⟨user.envTf.setField same, user.kstackTf⟩

theorem UserFrames.saveTf : UserFrames s.saveTf := by
  unfold Kernel.saveTf
  cases s.curenv with
  | none => exact user
  | some cur => exact user.setEnv fun _ => user.kstackTf

theorem UserFrames.envRun (h : Mos.envRun s e = .ok s') : UserFrames s' := by
  unfold Mos.envRun at h
  split at h
  · cases h
  · cases h
    have counted := user.saveTf.setField (e := e)
      (f := fun env => { env with envRuns := env.envRuns + 1 }) rfl
    exact ⟨counted.envTf, counted.kstackTf⟩

theorem UserFrames.runFirst (h : Mos.runFirst s = .ok s') : UserFrames s' := by
  unfold Mos.runFirst at h
  cases first : s.envSchedList.tqhFirst with
  | none =>
      simp only [first] at h
      cases h
  | some e =>
      simp only [first] at h
      exact (user.requeue s.envSchedList (s.envs e).envPri s.curenv).envRun h

theorem UserFrames.schedule {yield : Bool} (h : Mos.schedule s yield = .ok s') :
    UserFrames s' := by
  have requeued : ∀ (q : Tailq EnvIx) (n : Word) (s' : Kernel),
      Mos.runFirst { s with envSchedList := q, schedCount := n } = .ok s' → UserFrames s' :=
    fun q n s' run => (user.requeue q n s.curenv).runFirst run
  unfold Mos.schedule at h
  cases hcur : s.curenv with
  | none =>
      simp only [hcur] at h
      split at h
      · cases h
      · exact requeued s.envSchedList (s.schedCount - 1) s' (by rw [hcur]; exact h)
  | some e =>
      simp only [hcur] at h
      split at h
      case isFalse =>
        exact (user.requeue s.envSchedList (s.schedCount - 1) (some e)).envRun h
      case isTrue =>
          split at h
          · cases h
          · split at h
            all_goals
              obtain ⟨s₁, removed, h⟩ := bind_eq_ok.mp h
              obtain ⟨q, -, rfl⟩ := schedRemove_ok removed
            · exact requeued (q.insertTail e) (s.schedCount - 1) s' (by rw [hcur]; exact h)
            · exact requeued q (s.schedCount - 1) s' (by rw [hcur]; exact h)

theorem UserFrames.envDestroy (h : Mos.envDestroy s e = .ok s') : UserFrames s' := by
  unfold Mos.envDestroy at h
  obtain ⟨s₁, freed, h⟩ := bind_eq_ok.mp h
  obtain ⟨pm, q, -, rfl, -⟩ := envFree_ok freed
  have reclaimed : UserFrames { s.reclaim e pm with envSchedList := q } := by
    refine ⟨fun x inUse => ?_, user.kstackTf⟩
    have hne : x ≠ e := fun eq => inUse (by rw [eq]; exact List.mem_cons_self)
    have same : (s.reclaim e pm).envs x = s.envs x := Function.update_of_ne hne _ _
    have used : x ∉ s.envFreeList := fun mem => inUse (List.mem_cons_of_mem _ mem)
    show UserStatus ((s.reclaim e pm).envs x).envTf.cp0Status
    rw [same]
    exact user.envTf x used
  split at h
  · exact (reclaimed.requeue q s.schedCount none).schedule h
  · cases h
    exact reclaimed

end Frames

/-! ## System calls -/

/-- `sys_set_trapframe` is given a frame that keeps its env in user mode, or it does
not get as far as using it. -/
def SysCall.FrameLegal (s : Kernel) : SysCall → Prop
  | .env (.setTrapframe envid va tf) => ¬ isIllegalVaRange va sizeofTrapframe →
      ∀ e, envid2env s envid true = .ok (.ok e) → UserStatus tf.cp0Status
  | _ => True

/-- Memory calls change the memory only. -/
theorem sysMemAlloc_ok {envid va perm : Word} {r : Ret}
    (h : sysMemAlloc s envid va perm = .ok (s', r)) : ∃ pm, s' = s.withPm pm := by
  unfold sysMemAlloc at h
  split at h
  · cases h
    exact ⟨s.pm, rfl⟩
  · obtain ⟨found, -, h⟩ := bind_eq_ok.mp h
    cases found with
    | error err =>
        cases h
        exact ⟨s.pm, rfl⟩
    | ok e =>
        obtain ⟨⟨pm, page⟩, -, h⟩ := bind_eq_ok.mp h
        cases page with
        | error err =>
            cases h
            exact ⟨pm, rfl⟩
        | ok pp =>
            obtain ⟨⟨pm', inserted⟩, -, h⟩ := bind_eq_ok.mp h
            cases h
            exact ⟨pm', rfl⟩

theorem sysMemMap_ok {srcid srcva dstid dstva perm : Word} {r : Ret}
    (h : sysMemMap s srcid srcva dstid dstva perm = .ok (s', r)) : ∃ pm, s' = s.withPm pm := by
  rcases sysMemMap_cases h with ⟨rfl, -⟩ | ⟨-, -, -, -, pm, -, -, -, -, -, -, -, rfl, -⟩
  · exact ⟨s'.pm, rfl⟩
  · exact ⟨pm, rfl⟩

theorem sysMemUnmap_ok {envid va : Word} {r : Ret} (h : sysMemUnmap s envid va = .ok (s', r)) :
    ∃ pm, s' = s.withPm pm := by
  rcases sysMemUnmap_cases h with ⟨rfl, -⟩ | ⟨-, pm, -, -, -, rfl, -⟩
  · exact ⟨s'.pm, rfl⟩
  · exact ⟨pm, rfl⟩

/-- A fault that the kernel can serve changes the memory only. -/
theorem doTlbRefill_ok {va asid pte : Word} {fuel : Nat}
    (h : doTlbRefill s va asid fuel = .ok (some (s', pte))) : ∃ pm, s' = s.withPm pm := by
  unfold doTlbRefill at h
  cases hdir : s.curPgdir with
  | none =>
      simp only [hdir] at h
      cases h
  | some pgdir =>
      simp only [hdir] at h
      obtain ⟨r, -, h⟩ := bind_eq_ok.mp h
      cases r with
      | none => cases h
      | some found =>
          obtain ⟨pm, pte'⟩ := found
          cases h
          exact ⟨pm, rfl⟩

/-- The user's handler runs in the mode of the program that faulted. -/
theorem doTlbMod_ok (h : doTlbMod s = some s') :
    ∃ tf, s' = { s with kstackTf := tf } ∧ tf.cp0Status = s.kstackTf.cp0Status := by
  unfold doTlbMod at h
  obtain ⟨cur, -, h⟩ := Option.bind_eq_some_iff.mp h
  simp only at h
  split at h
  · cases h
    exact ⟨_, rfl, rfl⟩
  · cases h

section Calls

variable (user : UserFrames s)

include user

theorem UserFrames.withPm (pm : Pmap) : UserFrames (s.withPm pm) :=
  ⟨user.envTf, user.kstackTf⟩

theorem UserFrames.sysExofork {r : Ret} (h : Mos.sysExofork s = .ok (s', r)) :
    UserFrames s' := by
  have made : ∀ {parentId s₁ found}, envAlloc s parentId = .ok (s₁, found) → UserFrames s₁ := by
    intro parentId s₁ found alloc
    obtain ⟨envTf₁, same⟩ := user.envTf.envAlloc alloc
    exact ⟨envTf₁, by rw [same]; exact user.kstackTf⟩
  obtain ⟨cur, ⟨err, alloc⟩ | ⟨s₁, e, alloc, rfl⟩⟩ := sysExofork_ok h
  · exact made alloc
  · exact (made alloc).setEnv fun _ => (made alloc).kstackTf

theorem UserFrames.envCall {call : EnvCall} {r : Ret} (legal : (SysCall.env call).FrameLegal s)
    (h : call.exec s = .ok (s', r)) : UserFrames s' := by
  cases call with
  | envDestroy envid =>
      rcases sysEnvDestroy_ok h with rfl | ⟨e, -, destroyed⟩
      · exact user
      · exact user.envDestroy destroyed
  | setTlbModEntry envid func =>
      rcases sysSetTlbModEntry_ok h with rfl | ⟨e, -, rfl⟩
      · exact user
      · exact user.setField rfl
  | memAlloc envid va perm =>
      obtain ⟨pm, rfl⟩ := sysMemAlloc_ok h
      exact user.withPm pm
  | memMap srcid srcva dstid dstva perm =>
      obtain ⟨pm, rfl⟩ := sysMemMap_ok h
      exact user.withPm pm
  | memUnmap envid va =>
      obtain ⟨pm, rfl⟩ := sysMemUnmap_ok h
      exact user.withPm pm
  | setEnvStatus envid status =>
      rcases sysSetEnvStatus_ok h with rfl | ⟨new, e, q, -, -, rfl⟩
      · exact user
      · exact (user.requeue q s.schedCount s.curenv).setField rfl
  | setTrapframe envid va tf =>
      rcases sysSetTrapframe_ok h with rfl | ⟨e, range, lookup, ⟨-, rfl, -⟩ | ⟨-, rfl⟩⟩
      · exact user
      · exact ⟨user.envTf, legal range e lookup⟩
      · exact user.setEnv fun _ => legal range e lookup

theorem UserFrames.sysIpcRecv {dstva : Word} {r : Ret}
    (h : Mos.sysIpcRecv s dstva = .ok (s', r)) : UserFrames s' := by
  rcases sysIpcRecv_ok h with ⟨-, -, rfl, -⟩ | ⟨-, -, cur, q, -, -, scheduled⟩
  · exact user
  · have waiting : UserFrames (ipcAwait s cur dstva) := user.setField rfl
    have blocked : UserFrames (s.await cur dstva q) := ⟨waiting.envTf, user.kstackTf⟩
    exact blocked.schedule scheduled

theorem UserFrames.sysIpcTrySend {envid value srcva perm : Word} {r : Ret}
    (h : Mos.sysIpcTrySend s envid value srcva perm = .ok (s', r)) : UserFrames s' := by
  rcases sysIpcTrySend_ok h with ⟨err, -, rfl, -⟩ | ⟨e, cur, pm, -, -, -, -, -, rfl, -⟩
  · exact user
  · have woken := user.setField (e := e) (f := fun env =>
      { env with
        envIpcValue := value
        envIpcFrom := (s.envs cur).envId
        envIpcPerm := pteV ||| perm
        envIpcRecving := 0
        envStatus := .runnable }) rfl
    exact ⟨woken.envTf, woken.kstackTf⟩

/-- No system call but `sys_set_trapframe` can change the mode of an env. -/
theorem UserFrames.sys {call : SysCall} {r : Ret} (legal : call.FrameLegal s)
    (h : call.exec s = .ok (s', r)) : UserFrames s' := by
  cases call with
  | env call => exact user.envCall legal h
  | yield =>
      obtain ⟨s₁, scheduled, eq⟩ := map_eq_ok.mp h
      cases eq
      exact user.schedule scheduled
  | exofork => exact user.sysExofork h
  | ipcRecv dstva => exact user.sysIpcRecv h
  | ipcTrySend envid value srcva perm => exact user.sysIpcTrySend h

theorem UserFrames.setV0 (value : Word) : UserFrames (s.setV0 value) :=
  ⟨user.envTf, user.kstackTf⟩

theorem UserFrames.skip : UserFrames s.skip := ⟨user.envTf, user.kstackTf⟩

end Calls

/-! ## Slots -/

/-- The current env is in use after every system call. -/
theorem SlotInv.sys {call : SysCall} {r : Ret} (slots : SlotInv s)
    (h : call.exec s = .ok (s', r)) : SlotInv s' := by
  have memory : ∀ pm, SlotInv (s.withPm pm) := fun pm =>
    ⟨slots.free_nodup, slots.free_status, slots.current⟩
  cases call with
  | env call =>
      cases call with
      | envDestroy envid =>
          rcases sysEnvDestroy_ok h with rfl | ⟨e, lookup, destroyed⟩
          · exact slots
          · exact (slots.envDestroy (slots.envid2env lookup) destroyed).inv
      | setTlbModEntry envid func =>
          rcases sysSetTlbModEntry_ok h with rfl | ⟨e, lookup, rfl⟩
          · exact slots
          · exact (slots.refl.setEnv (slots.envid2env lookup) rfl rfl).inv
      | memAlloc envid va perm =>
          obtain ⟨pm, rfl⟩ := sysMemAlloc_ok h
          exact memory pm
      | memMap srcid srcva dstid dstva perm =>
          obtain ⟨pm, rfl⟩ := sysMemMap_ok h
          exact memory pm
      | memUnmap envid va =>
          obtain ⟨pm, rfl⟩ := sysMemUnmap_ok h
          exact memory pm
      | setEnvStatus envid status => exact (slots.sysSetEnvStatus h).inv
      | setTrapframe envid va tf =>
          rcases sysSetTrapframe_ok h with rfl | ⟨e, -, lookup, ⟨-, rfl, -⟩ | ⟨-, rfl⟩⟩
          · exact slots
          · exact ⟨slots.free_nodup, slots.free_status, slots.current⟩
          · exact (slots.refl.setEnv (slots.envid2env lookup) rfl rfl).inv
  | yield =>
      obtain ⟨s₁, scheduled, eq⟩ := map_eq_ok.mp h
      cases eq
      exact (slots.refl.resumed (schedule_ok scheduled).1).inv
  | exofork => exact (slots.sysExofork h).inv
  | ipcRecv dstva =>
      rcases slots.sysIpcRecv h with ⟨rfl, -⟩ | ⟨-, slots', -⟩
      · exact slots
      · exact slots'
  | ipcTrySend envid value srcva perm =>
      rcases slots.sysIpcTrySend h with ⟨rfl, -⟩ | ⟨slots', -⟩
      · exact slots
      · exact slots'

theorem sysSetTrapframe_self (va : Word) (tf : Trapframe) (hcur : s.curenv = some cur)
    (legal : ¬ isIllegalVaRange va sizeofTrapframe) :
    sysSetTrapframe s 0 va tf = .ok ({ s with kstackTf := tf }, .ok (tf.regs 2)) := by
  have self : envid2env s 0 true = .ok (.ok cur) := by
    unfold envid2env
    rw [if_pos rfl, Kernel.current, hcur]
    rfl
  unfold sysSetTrapframe
  rw [if_neg legal, self]
  simp only [Bind.bind, Except.bind, tryRet, if_pos hcur]

end Mos
