import Mos.Lib.Run
import Mos.SyscallReturn

/-!
# Faults on copy-on-write pages

`do_tlb_mod` saves the frame of a faulting store on the user's exception stack
and enters the handler of the program, which resumes the store with
`syscall_set_trapframe(0, frame)`. Handlers may fault in turn. As long as the
frames fit in the page of the exception stack, and a handler uses the stack below
the frame it was given only, no frame lies over an outer one, and each resumption
restores the frame of the fault it belongs to.
-/

namespace Mos

open Stack (Memory)

/-- Where `do_tlb_mod` puts the frame: below the stack pointer, if this is on the
exception stack, else at its top. -/
def exceptionFrame (tf : Trapframe) : Word :=
  (if tf.regs 29 < ustacktop ∨ uxstacktop ≤ tf.regs 29 then uxstacktop else tf.regs 29) -
    sizeofTrapframe

/-- `do_tlb_mod`, with the copy of the frame that it stores. -/
def doTlbModCopy (s : Kernel) (mem : Memory) : Option (Kernel × Memory) :=
  (doTlbMod s).map fun s' => (s', storeTf mem (exceptionFrame s.kstackTf) s.kstackTf)

/-- A program with its active faults, the last one first: the pointer that its
handler was given, and the frame of the faulting store. -/
structure Faults where
  kernel : Kernel
  mem : Memory
  active : List (Word × Trapframe)

inductive FaultEv
  | runs
  | fault
  | resume
  deriving DecidableEq

/-- The frame fits in the page of the exception stack. -/
def FitsStack (ptr : Word) : Prop := uxstacktop - by2pg ≤ ptr

instance (ptr : Word) : Decidable (FitsStack ptr) := inferInstanceAs (Decidable (_ ≤ _))

/-- The handler of an active fault runs on the exception stack, below the frame
it was given. -/
def UsesStackBelow (sp : Word) (active : List (Word × Trapframe)) : Prop :=
  ∀ ptr tf rest, active = (ptr, tf) :: rest → ustacktop ≤ sp ∧ sp ≤ ptr

/-- The program asks for `syscall_set_trapframe(0, ptr)`. -/
structure AsksResume (s : Kernel) (ptr : Word) : Prop where
  sysno : s.kstackTf.regs 4 = 11
  envid : s.kstackTf.regs 5 = 0
  frame : s.kstackTf.regs 6 = ptr
  running : ∃ cur, s.curenv = some cur

/-- The program runs, and enters the kernel with some frame; a store faults; or a
handler returns. -/
inductive faultStep (pwd : Word) : Faults → FaultEv → Faults → Prop
  | runs {s s' : Kernel} {mem mem' : Memory} {active : List (Word × Trapframe)} :
      (∀ f ∈ active, ∀ k < trapframeBytes,
        mem' (f.1 + BitVec.ofNat 32 k) = mem (f.1 + BitVec.ofNat 32 k)) →
      faultStep pwd ⟨s, mem, active⟩ .runs ⟨s', mem', active⟩
  | fault {s s' : Kernel} {mem mem' : Memory} {active : List (Word × Trapframe)} :
      UsesStackBelow (s.kstackTf.regs 29) active → FitsStack (exceptionFrame s.kstackTf) →
      doTlbModCopy s mem = some (s', mem') →
      faultStep pwd ⟨s, mem, active⟩ .fault
        ⟨s', mem', (exceptionFrame s.kstackTf, s.kstackTf) :: active⟩
  | resume {s s' : Kernel} {mem : Memory} {ptr v0 : Word} {tf : Trapframe}
      {rest : List (Word × Trapframe)} :
      AsksResume s ptr → doSyscall pwd mem s s' v0 →
      faultStep pwd ⟨s, mem, (ptr, tf) :: rest⟩ .resume ⟨s', mem, rest⟩

/-- No byte belongs to both of the frames at `p` and `q`. -/
def FramesApart (p q : Word) : Prop :=
  ∀ a : Word, (a - p).toNat < trapframeBytes → trapframeBytes ≤ (a - q).toNat

/-- The active frames lie in the page one below the other, and are intact. -/
structure FaultInv (st : Faults) : Prop where
  inPage : ∀ f ∈ st.active,
    0x7f3ff000 ≤ f.1.toNat ∧ f.1.toNat + trapframeBytes ≤ 0x7f400000
  ordered : st.active.Pairwise fun f g => f.1.toNat + trapframeBytes ≤ g.1.toNat
  saved : ∀ f ∈ st.active, loadTf st.mem f.1 = f.2

variable {pwd : Word} {st st' : Faults} {ev : FaultEv} {evs : List FaultEv} {s s' : Kernel}
  {mem mem' : Memory} {active : List (Word × Trapframe)} {ptr p q v0 : Word} {tf : Trapframe}

theorem framesApart_of_le (below : p.toNat + trapframeBytes ≤ q.toNat)
    (inside : q.toNat + trapframeBytes ≤ 2 ^ 32) : FramesApart p q ∧ FramesApart q p := by
  unfold FramesApart trapframeBytes at *
  constructor <;>
    · intro a near
      have bound := a.isLt
      rw [BitVec.toNat_sub] at *
      omega

/-- A frame stored elsewhere does not change a saved one. -/
theorem loadTf_storeTf_of_apart (apart : FramesApart p q) :
    loadTf (storeTf mem q tf) p = loadTf mem p := by
  apply loadTf_congr
  intro k inside
  apply storeTf_outside
  apply apart
  have small : k < 152 := inside
  rw [add_ofNat_sub (by omega)]
  exact inside

/-- The new frame lies below the stack pointer, or at the top of the page. -/
theorem exceptionFrame_toNat (tf : Trapframe) :
    (exceptionFrame tf).toNat + trapframeBytes ≤ 0x7f400000 ∧
      (ustacktop ≤ tf.regs 29 → tf.regs 29 < uxstacktop →
        (exceptionFrame tf).toNat + trapframeBytes = (tf.regs 29).toNat) := by
  have size : sizeofTrapframe.toNat = 152 := rfl
  have top : uxstacktop.toNat = 0x7f400000 := rfl
  have bottom : ustacktop.toNat = 0x7f3fe000 := rfl
  unfold exceptionFrame trapframeBytes
  rw [BitVec.toNat_sub, size]
  split
  · next outside =>
      rw [top]
      refine ⟨by decide, fun low high => ?_⟩
      rw [BitVec.lt_def, BitVec.le_def, bottom, top] at outside
      rw [BitVec.le_def, bottom] at low
      rw [BitVec.lt_def, top] at high
      omega
  · next inside =>
      rw [not_or, BitVec.lt_def, BitVec.le_def, bottom, top] at inside
      refine ⟨?_, fun _ _ => ?_⟩ <;> omega

/-- The frame of a nested fault lies below those that are active. -/
theorem FaultInv.below (inv : FaultInv ⟨s, mem, active⟩)
    (uses : UsesStackBelow (s.kstackTf.regs 29) active) :
    ∀ f ∈ active, (exceptionFrame s.kstackTf).toNat + trapframeBytes ≤ f.1.toNat := by
  intro f isActive
  cases active with
  | nil => cases isActive
  | cons last rest =>
      obtain ⟨ptr, tf⟩ := last
      obtain ⟨onStack, low⟩ := uses ptr tf rest rfl
      have inPage := inv.inPage (ptr, tf) List.mem_cons_self
      dsimp only at inPage
      rw [BitVec.le_def] at low
      have top : s.kstackTf.regs 29 < uxstacktop := by
        rw [BitVec.lt_def]
        have size : trapframeBytes = 152 := rfl
        have value : uxstacktop.toNat = 0x7f400000 := rfl
        omega
      have placed := (exceptionFrame_toNat s.kstackTf).2 onStack top
      obtain rfl | older := List.mem_cons.mp isActive
      · exact placed.le.trans low
      · have above := (List.pairwise_cons.mp inv.ordered).1 f older
        dsimp only at above
        omega

/-- What a fault does: the handler gets the pointer to the frame, which is intact. -/
theorem FaultInv.fault (inv : FaultInv ⟨s, mem, active⟩)
    (uses : UsesStackBelow (s.kstackTf.regs 29) active)
    (fits : FitsStack (exceptionFrame s.kstackTf))
    (run : doTlbModCopy s mem = some (s', mem')) :
    FaultInv ⟨s', mem', (exceptionFrame s.kstackTf, s.kstackTf) :: active⟩ ∧
      s'.kstackTf.regs 4 = exceptionFrame s.kstackTf ∧
      ∀ f ∈ active, FramesApart (exceptionFrame s.kstackTf) f.1 := by
  have below := inv.below uses
  have room : ∀ f ∈ active, f.1.toNat + trapframeBytes ≤ 2 ^ 32 := fun f isActive =>
    (inv.inPage f isActive).2.trans (by decide)
  obtain ⟨s₁, handled, same⟩ := Option.map_eq_some_iff.mp run
  cases same
  have page : (uxstacktop - by2pg).toNat = 0x7f3ff000 := rfl
  unfold FitsStack at fits
  rw [BitVec.le_def, page] at fits
  refine ⟨⟨?_, ?_, ?_⟩, ?_, fun f isActive =>
    (framesApart_of_le (below f isActive) (room f isActive)).1⟩
  · intro f isActive
    obtain rfl | older := List.mem_cons.mp isActive
    · exact ⟨fits, (exceptionFrame_toNat s.kstackTf).1⟩
    · exact inv.inPage f older
  · exact List.pairwise_cons.mpr ⟨below, inv.ordered⟩
  · intro f isActive
    obtain rfl | older := List.mem_cons.mp isActive
    · exact loadTf_storeTf
    · have apart := (framesApart_of_le (below f older) (room f older)).2
      exact (loadTf_storeTf_of_apart apart).trans (inv.saved f older)
  · unfold doTlbMod at handled
    obtain ⟨cur, -, handled⟩ := Option.bind_eq_some_iff.mp handled
    dsimp only at handled
    split at handled
    · cases handled
      rfl
    · cases handled

theorem AsksResume.own (asks : AsksResume s ptr) (low : 0x7f3ff000 ≤ ptr.toNat)
    (high : ptr.toNat + trapframeBytes ≤ 0x7f400000) : SetsOwnFrame s := by
  obtain ⟨cur, current⟩ := asks.running
  refine ⟨asks.sysno, ?_, cur, current, ?_⟩
  · have size : sizeofTrapframe.toNat = trapframeBytes := rfl
    rw [asks.frame, Dev.legal_range_iff, utemp_toNat, utop_toNat, size]
    exact Or.inr ⟨by omega, high⟩
  · rw [asks.envid]
    unfold envid2env
    rw [if_pos rfl, Kernel.current, current]
    rfl

/-- What a resumption does: the frame below `KSTACKTOP` is the one of the fault. -/
theorem FaultInv.resume {rest : List (Word × Trapframe)}
    (inv : FaultInv ⟨s, mem, (ptr, tf) :: rest⟩) (asks : AsksResume s ptr)
    (run : doSyscall pwd mem s s' v0) : s'.kstackTf = tf := by
  obtain ⟨low, high⟩ := inv.inPage (ptr, tf) List.mem_cons_self
  have apart := (framesApart_of_le (q := kstackTfAddr)
    (show ptr.toNat + trapframeBytes ≤ kstackTfAddr.toNat from high.trans (by decide))
    (by decide)).1
  calc s'.kstackTf = loadTf (s.skip.frameMemory mem) (s.kstackTf.regs 6) :=
        (asks.own low high).returns run
    _ = loadTf (s.skip.frameMemory mem) ptr := by rw [asks.frame]
    _ = loadTf mem ptr := loadTf_storeTf_of_apart apart
    _ = tf := inv.saved (ptr, tf) List.mem_cons_self

/-- Every step keeps the active frames apart and intact. -/
theorem FaultInv.step (inv : FaultInv st) (h : faultStep pwd st ev st') : FaultInv st' := by
  cases h with
  | runs kept =>
      refine ⟨inv.inPage, inv.ordered, fun f isActive => ?_⟩
      exact (loadTf_congr (kept f isActive)).trans (inv.saved f isActive)
  | fault uses fits run => exact (inv.fault uses fits run).1
  | resume asks run =>
      exact ⟨fun f older => inv.inPage f (List.mem_cons_of_mem _ older),
        (List.pairwise_cons.mp inv.ordered).2,
        fun f older => inv.saved f (List.mem_cons_of_mem _ older)⟩

theorem FaultInv.start (s : Kernel) (mem : Memory) : FaultInv ⟨s, mem, []⟩ :=
  ⟨fun f none => (by cases none), List.Pairwise.nil, fun f none => (by cases none)⟩

/-- In a run of faults and resumptions of any depth: a fault saves the frame apart
from those that are active, and gives the handler a pointer to it; a handler that
resumes its fault returns, and restores the whole frame. -/
theorem tlb_mod_transparent (pwd : Word) (s : Kernel) (mem : Memory) (evs : List FaultEv)
    (st : Faults) (run : Run (faultStep pwd) ⟨s, mem, []⟩ evs st) :
    (∀ st', faultStep pwd st .fault st' → ∃ ptr,
      st'.active = (ptr, st.kernel.kstackTf) :: st.active ∧
      st'.kernel.kstackTf.regs 4 = ptr ∧
      loadTf st'.mem ptr = st.kernel.kstackTf ∧
      ∀ f ∈ st.active, FramesApart ptr f.1) ∧
    (∀ ptr tf rest, st.active = (ptr, tf) :: rest →
      (∀ st', faultStep pwd st .resume st' → st'.active = rest ∧ st'.kernel.kstackTf = tf) ∧
      (AsksResume st.kernel ptr → ∃ st', faultStep pwd st .resume st')) := by
  have inv : FaultInv st :=
    run.invariant FaultInv (.start s mem) fun _ _ _ inv step => inv.step step
  refine ⟨fun st' step => ?_, fun ptr tf rest isActive => ⟨fun st' step => ?_, fun asks => ?_⟩⟩
  · cases step with
    | @fault s _ _ _ _ uses fits call =>
        obtain ⟨after, pointer, apart⟩ := inv.fault uses fits call
        have saved := after.saved (exceptionFrame s.kstackTf, s.kstackTf) List.mem_cons_self
        exact ⟨exceptionFrame s.kstackTf, rfl, pointer, saved, apart⟩
  · cases step with
    | resume asks call =>
        cases isActive
        exact ⟨rfl, inv.resume asks call⟩
  · obtain ⟨kernel, mem', active⟩ := st
    cases isActive
    obtain ⟨low, high⟩ := inv.inPage (ptr, tf) List.mem_cons_self
    obtain ⟨s', v0, call⟩ := (asks.own low high).exists_return pwd mem'
    exact ⟨_, .resume asks call⟩

/-- A program with a handler, about to store to a copy-on-write page. -/
def withHandler : Kernel :=
  { asks 0 with
    curenv := some 0
    envs := fun _ => { Env.zero with envUserTlbModEntry := 0x400000 } }

/-- Its handler, about to store to another one, with the stack where it was started. -/
def inHandler : Kernel :=
  { withHandler with
    kstackTf := { Trapframe.zero with regs := fun r => if r = 29 then 0x7f3fff64 else 0 } }

/-- `syscall_set_trapframe(0, ptr)` -/
def resuming (ptr : Word) : Kernel :=
  { withHandler with
    kstackTf := { Trapframe.zero with
      regs := fun r => if r = 4 then 11 else if r = 6 then ptr else 0 } }

theorem asksResume_resuming (ptr : Word) : AsksResume (resuming ptr) ptr :=
  ⟨rfl, rfl, rfl, 0, rfl⟩

theorem usesStackBelow_cons (onStack : ustacktop ≤ sp) (below : sp ≤ ptr) :
    UsesStackBelow sp ((ptr, tf) :: active) := by
  intro ptr' tf' rest same
  cases same
  exact ⟨onStack, below⟩

/-- The handler runs without touching memory. -/
theorem faultStep.runsTo (s' : Kernel) :
    faultStep pwd ⟨s, mem, active⟩ .runs ⟨s', mem, active⟩ :=
  .runs fun _ _ _ _ => rfl

/-- The handler faults in turn. It is restored to where it was, and so is the program. -/
theorem tlb_mod_transparent_nested : ∃ st st',
    Run (faultStep 0x80020000) ⟨withHandler, fun _ => 0, []⟩ [.fault, .runs, .fault, .runs, .resume]
      st ∧ st.kernel.kstackTf = inHandler.kstackTf ∧
    Run (faultStep 0x80020000) st [.runs, .resume] st' ∧ st'.active = [] ∧
    st'.kernel.kstackTf = withHandler.kstackTf := by
  have fault : faultStep 0x80020000 ⟨withHandler, fun _ => 0, []⟩ .fault ⟨_, _, _⟩ :=
    .fault (fun _ _ _ none => by cases none) (by decide) rfl
  have called := (Run.single fault).snoc (.runsTo inHandler)
  have nested := called.snoc (.fault (usesStackBelow_cons (by decide) (by decide)) (by decide) rfl)
  have asked := nested.snoc (.runsTo (resuming (exceptionFrame inHandler.kstackTf)))
  obtain ⟨-, resumes⟩ := tlb_mod_transparent _ _ _ _ _ asked
  obtain ⟨restores, returns⟩ := resumes _ _ _ rfl
  obtain ⟨⟨s, mem, active⟩, resumed⟩ := returns (asksResume_resuming _)
  obtain ⟨rest, inner⟩ := restores _ resumed
  cases rest
  have again := (asked.snoc resumed).snoc (.runsTo (resuming (exceptionFrame withHandler.kstackTf)))
  obtain ⟨-, resumes⟩ := tlb_mod_transparent _ _ _ _ _ again
  obtain ⟨restores, returns⟩ := resumes _ _ _ rfl
  obtain ⟨st', resumed'⟩ := returns (asksResume_resuming _)
  obtain ⟨none, outer⟩ := restores _ resumed'
  exact ⟨_, st', asked.snoc resumed, inner, (Run.single (.runsTo _)).snoc resumed', none, outer⟩

end Mos
