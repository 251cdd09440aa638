import Mos.Mmu
import Mos.Lib.Run
import Mathlib.Data.Fintype.Card
import Mathlib.Logic.Function.Basic

/-!
# Pipes

`pipe_read`, `pipe_write` and `pipe_close` of `user/lib/pipe.c`, cut into the
loads and stores between which a process can be preempted. One process holds the
read end and each process of `W` holds the write end. All of them see the page of
the `Pipe`; the rest of their state is their own.
-/

namespace Mos

/-- `u_char`. -/
abbrev Byte := BitVec 8

/-- `BY2PIPE`. -/
def by2pipe : Nat := 32

structure Pipe where
  pRpos : Word
  pWpos : Word
  pBuf : Nat → Byte

/-- `p_buf[pos % BY2PIPE]`. -/
def Pipe.at (p : Pipe) (pos : Word) : Byte := p.pBuf (pos.toNat % by2pipe)

/-- `p_buf[pos % BY2PIPE] = b`. -/
def Pipe.put (p : Pipe) (pos : Word) (b : Byte) : Pipe :=
  { p with pBuf := Function.update p.pBuf (pos.toNat % by2pipe) b }

/-! ## The reader -/

/-- Where the reader is in `pipe_read` and `pipe_close`, with the value it has loaded
and not used yet. -/
inductive ReadPc
  | idle
  /-- The condition of the `for` loop. -/
  | loop
  | loadRpos
  | loadWpos (rpos : Word)
  /-- The buffer was found empty when `p_rpos` was `rpos`. -/
  | empty (rpos : Word)
  | loadSlot
  | loadByte (rpos : Word)
  | loadInc
  | storeInc (rpos : Word)
  | unmapFd
  | unmapData
  | gone
  deriving DecidableEq

/-- The arguments and locals of `pipe_read`; `rbuf` holds what was stored in it. -/
structure Reader where
  pc : ReadPc
  n : Word
  i : Word
  rbuf : List Byte

/-- The reader outside `pipe_read`. -/
def Reader.out : Reader := ⟨.idle, 0, 0, []⟩

/-- One step of the reader. `closed` is what `_pipe_is_closed` would return. The last
component is what `pipe_read` returns, if it does. -/
def readStep (p : Pipe) (closed : Bool) (rd : Reader) : Pipe × Reader × Option (List Byte) :=
  match rd.pc with
  | .idle => (p, rd, none)
  | .loop =>
      if rd.i < rd.n then (p, { rd with pc := .loadRpos }, none)
      else (p, .out, some rd.rbuf)
  | .loadRpos => (p, { rd with pc := .loadWpos p.pRpos }, none)
  | .loadWpos rpos =>
      (p, { rd with pc := if rpos = p.pWpos then .empty rpos else .loadSlot }, none)
  | .empty _ =>
      if (0#32).slt rd.i ∨ closed then (p, .out, some rd.rbuf)
      else (p, { rd with pc := .loadRpos }, none)
  | .loadSlot => (p, { rd with pc := .loadByte p.pRpos }, none)
  | .loadByte rpos => (p, { rd with pc := .loadInc, rbuf := rd.rbuf ++ [p.at rpos] }, none)
  | .loadInc => (p, { rd with pc := .storeInc p.pRpos }, none)
  | .storeInc rpos =>
      ({ p with pRpos := rpos + 1 }, { rd with pc := .loop, i := rd.i + 1 }, none)
  | .unmapFd => (p, { rd with pc := .unmapData }, none)
  | .unmapData => (p, { rd with pc := .gone }, none)
  | .gone => (p, rd, none)

/-! ## A writer -/

/-- Where a writer is in `pipe_write` and `pipe_close`. -/
inductive WritePc
  | idle
  | loop
  | loadWpos
  | loadRpos (wpos : Word)
  /-- The buffer was found full. -/
  | full
  | loadSlot
  | storeByte (wpos : Word)
  | loadInc
  | storeInc (wpos : Word)
  | unmapFd
  | unmapData
  | gone
  deriving DecidableEq

/-- The arguments and locals of `pipe_write`. -/
structure Writer where
  pc : WritePc
  n : Word
  i : Word
  wbuf : Word → Byte

/-- One step of a writer. The last component is the byte it has written, once
`p_wpos` counts it. -/
def writeStep (p : Pipe) (closed : Bool) (wr : Writer) : Pipe × Writer × Option Byte :=
  match wr.pc with
  | .idle => (p, wr, none)
  | .loop => (p, { wr with pc := if wr.i < wr.n then .loadWpos else .idle }, none)
  | .loadWpos => (p, { wr with pc := .loadRpos p.pWpos }, none)
  | .loadRpos wpos =>
      (p, { wr with pc := if wpos - p.pRpos = BitVec.ofNat 32 by2pipe then .full else .loadSlot },
        none)
  | .full => (p, { wr with pc := if closed then .idle else .loadWpos }, none)
  | .loadSlot => (p, { wr with pc := .storeByte p.pWpos }, none)
  | .storeByte wpos => (p.put wpos (wr.wbuf wr.i), { wr with pc := .loadInc }, none)
  | .loadInc => (p, { wr with pc := .storeInc p.pWpos }, none)
  | .storeInc wpos =>
      ({ p with pWpos := wpos + 1 }, { wr with pc := .loop, i := wr.i + 1 }, some (wr.wbuf wr.i))
  | .unmapFd => (p, { wr with pc := .unmapData }, none)
  | .unmapData => (p, { wr with pc := .gone }, none)
  | .gone => (p, wr, none)

/-! ## The processes together -/

structure PipeState (W : Type) where
  pipe : Pipe
  reader : Reader
  writers : W → Writer

/-- The process still has its `Fd` page mapped. -/
def ReadPc.HasFd (pc : ReadPc) : Prop := pc ≠ .unmapData ∧ pc ≠ .gone

/-- The process still has the page of the `Pipe` mapped. -/
def ReadPc.HasData (pc : ReadPc) : Prop := pc ≠ .gone

def WritePc.HasFd (pc : WritePc) : Prop := pc ≠ .unmapData ∧ pc ≠ .gone

def WritePc.HasData (pc : WritePc) : Prop := pc ≠ .gone

instance (pc : ReadPc) : Decidable pc.HasFd := inferInstanceAs (Decidable (_ ∧ _))
instance (pc : ReadPc) : Decidable pc.HasData := inferInstanceAs (Decidable (_ ≠ _))
instance (pc : WritePc) : Decidable pc.HasFd := inferInstanceAs (Decidable (_ ∧ _))
instance (pc : WritePc) : Decidable pc.HasData := inferInstanceAs (Decidable (_ ≠ _))

section State

variable {W : Type} [Fintype W] [DecidableEq W]

namespace PipeState

/-- `pageref` of the `Fd` page of the read end. -/
def fd0Ref (s : PipeState W) : Nat := if s.reader.pc.HasFd then 1 else 0

/-- `pageref` of the `Fd` page of the write end. -/
def fd1Ref (s : PipeState W) : Nat :=
  (Finset.univ.filter fun w => (s.writers w).pc.HasFd).card

/-- `pageref` of the page of the `Pipe`. -/
def pipeRef (s : PipeState W) : Nat :=
  (if s.reader.pc.HasData then 1 else 0) +
    (Finset.univ.filter fun w => (s.writers w).pc.HasData).card

/-- `_pipe_is_closed` for the read end. -/
def readEndClosed (s : PipeState W) : Bool := s.fd0Ref = s.pipeRef

/-- `_pipe_is_closed` for the write end. -/
def writeEndClosed (s : PipeState W) : Bool := s.fd1Ref = s.pipeRef

end PipeState

/-- Who goes on, or calls one of the functions. -/
inductive PipeAct (W : Type)
  | reader
  | callRead (n : Word)
  | closeRead
  | writer (w : W)
  | callWrite (w : W) (n : Word) (wbuf : Word → Byte)
  | closeWrite (w : W)

/-- What is seen of a step: `pipe_read` returns these bytes, or a writer has written
this one. -/
inductive PipeEvent
  | quiet
  | returns (n : Word) (bytes : List Byte)
  | writes (b : Byte)
  deriving DecidableEq

/-- A call needs an idle process. -/
def pipeStep (s : PipeState W) : PipeAct W → Option (PipeState W × PipeEvent)
  | .reader =>
      let (p, rd, ret) := readStep s.pipe s.readEndClosed s.reader
      some ({ s with pipe := p, reader := rd },
        match ret with
        | some bytes => .returns s.reader.n bytes
        | none => .quiet)
  | .callRead n =>
      if s.reader.pc = .idle then
        some ({ s with reader := ⟨.loop, n, 0, []⟩ }, .quiet)
      else none
  | .closeRead =>
      if s.reader.pc = .idle then
        some ({ s with reader := { s.reader with pc := .unmapFd } }, .quiet)
      else none
  | .writer w =>
      let (p, wr, written) := writeStep s.pipe s.writeEndClosed (s.writers w)
      some ({ s with pipe := p, writers := Function.update s.writers w wr },
        match written with
        | some b => .writes b
        | none => .quiet)
  | .callWrite w n wbuf =>
      if (s.writers w).pc = .idle then
        some ({ s with writers := Function.update s.writers w ⟨.loop, n, 0, wbuf⟩ }, .quiet)
      else none
  | .closeWrite w =>
      if (s.writers w).pc = .idle then
        some ({ s with
          writers := Function.update s.writers w { s.writers w with pc := .unmapFd } }, .quiet)
      else none

end State

/-- The state in which `pipe` leaves the `Pipe`, whose page is zeroed, with nobody in
a call. -/
def PipeState.init (W : Type) : PipeState W where
  pipe := ⟨0, 0, fun _ => 0⟩
  reader := .out
  writers := fun _ => ⟨.idle, 0, 0, fun _ => 0⟩

/-- The bytes `pipe_read` returns in this step. -/
def PipeEvent.readBytes : PipeEvent → List Byte
  | .returns _ bytes => bytes
  | _ => []

/-- The bytes put into the pipe in this step. -/
def PipeEvent.writtenBytes : PipeEvent → List Byte
  | .writes b => [b]
  | _ => []

section Runs

variable {W : Type}

/-- The bytes the reads have returned, in order. -/
def returned (evs : List (PipeAct W × PipeEvent)) : List Byte := evs.flatMap fun x => x.2.readBytes

/-- The bytes the writes have put into the pipe, in order. -/
def written (evs : List (PipeAct W × PipeEvent)) : List Byte :=
  evs.flatMap fun x => x.2.writtenBytes

theorem returned_snoc (evs : List (PipeAct W × PipeEvent)) (x : PipeAct W × PipeEvent) :
    returned (evs ++ [x]) = returned evs ++ x.2.readBytes := by
  simp [returned]

theorem written_snoc (evs : List (PipeAct W × PipeEvent)) (x : PipeAct W × PipeEvent) :
    written (evs ++ [x]) = written evs ++ x.2.writtenBytes := by
  simp [written]

/-- One step and what is seen of it. -/
def pipeRel [Fintype W] [DecidableEq W] (s : PipeState W) (x : PipeAct W × PipeEvent)
    (s' : PipeState W) : Prop :=
  pipeStep s x.1 = some (s', x.2)

/-- The run in which these actions follow each other. -/
def pipeExec [Fintype W] [DecidableEq W] (s : PipeState W) :
    List (PipeAct W) → Option (PipeState W × List (PipeAct W × PipeEvent))
  | [] => some (s, [])
  | act :: acts => do
      let (s, ev) ← pipeStep s act
      let (s, evs) ← pipeExec s acts
      some (s, (act, ev) :: evs)

theorem pipeExec_run [Fintype W] [DecidableEq W] {s s' : PipeState W} {acts : List (PipeAct W)}
    {evs : List (PipeAct W × PipeEvent)} (h : pipeExec s acts = some (s', evs)) :
    Run pipeRel s evs s' := by
  induction acts generalizing s evs with
  | nil =>
      cases h
      exact .refl _
  | cons act acts ih =>
      unfold pipeExec at h
      cases step : pipeStep s act with
      | none =>
          rw [step] at h
          cases h
      | some next =>
          obtain ⟨s₁, ev⟩ := next
          cases rest : pipeExec s₁ acts with
          | none =>
              simp only [step, rest, Bind.bind, Option.bind] at h
              cases h
          | some last =>
              obtain ⟨s₂, evs₂⟩ := last
              simp only [step, rest, Bind.bind, Option.bind] at h
              cases h
              exact (Run.single step).trans (ih rest)

end Runs

end Mos
