import Mos.PipeInv

/-!
# The end of a pipe

`pipe_read` takes an empty buffer for the end of the file once `_pipe_is_closed`
says so. The two tests are steps of their own, and a writer that fits between
them is missed.
-/

namespace Mos

variable {W : Type} [Fintype W] [DecidableEq W] {s s' : PipeState W} {act : PipeAct W}
  {evs : List (PipeAct W × PipeEvent)} {n : Word} {c : Nat}

/-- When `pipe_read` is about to report the end of the file, nothing has been written
since it found the buffer empty. -/
def PipeAct.Unmoved (s : PipeState W) : PipeAct W → Prop
  | .reader => ∀ rpos, s.reader.pc = .empty rpos → s.reader.i = 0 → s.readEndClosed →
      s.pipe.pWpos = rpos
  | _ => True

def orderlyPipeStep (s : PipeState W) (x : PipeAct W × PipeEvent) (s' : PipeState W) : Prop :=
  x.1.Exclusive s ∧ x.1.Unmoved s ∧ pipeRel s x s'

/-- A reader that returns no bytes although it was asked for some has found the
buffer empty and the pipe closed. -/
theorem PipeInv.eof (inv : PipeInv evs s c) (step : pipeRel s (act, .returns n []) s')
    (some : n ≠ 0) : act = .reader ∧ ∃ rpos, s.reader.pc = .empty rpos ∧ s.reader.i = 0 ∧
      s.reader.rbuf = [] ∧ s.readEndClosed := by
  have unread : ∀ k, s.reader.rbuf = [] → s.reader.rbuf.length = k + s.reader.pc.pending →
      s.reader.i = BitVec.ofNat 32 k → s.reader.i = 0 := by
    intro k nothing length i
    rw [nothing, List.length_nil] at length
    have zero : k = 0 := by omega
    rw [i, zero]
    rfl
  obtain ⟨k, length, i⟩ := inv.count
  cases act with
  | reader =>
      refine ⟨rfl, ?_⟩
      cases hpc : s.reader.pc with
      | loop =>
          by_cases more : s.reader.i < s.reader.n
          · simp only [pipeRel, pipeStep, readStep, hpc, if_pos more] at step
            cases step
          · simp only [pipeRel, pipeStep, readStep, hpc, if_neg more, Option.some.injEq,
              Prod.mk.injEq, PipeEvent.returns.injEq] at step
            obtain ⟨-, rfl, nothing⟩ := step
            rw [unread k nothing length i] at more
            have zero : s.reader.n = 0 := by
              apply BitVec.eq_of_toNat_eq
              simp only [BitVec.lt_def, Nat.not_lt] at more
              exact Nat.le_zero.mp more
            exact absurd zero some
      | empty rpos =>
          by_cases done : (0#32).slt s.reader.i ∨ s.readEndClosed
          · simp only [pipeRel, pipeStep, readStep, hpc, if_pos done, Option.some.injEq,
              Prod.mk.injEq, PipeEvent.returns.injEq] at step
            obtain ⟨-, -, nothing⟩ := step
            have zero := unread k nothing length i
            rw [zero] at done
            exact ⟨rpos, rfl, zero, nothing, done.resolve_left (by decide)⟩
          · simp only [pipeRel, pipeStep, readStep, hpc, if_neg done] at step
            cases step
      | _ =>
          simp only [pipeRel, pipeStep, readStep, hpc] at step
          cases step
  | writer w =>
      simp only [pipeRel, pipeStep, Option.some.injEq, Prod.mk.injEq] at step
      obtain ⟨-, seen⟩ := step
      split at seen <;> cases seen
  | _ =>
      simp only [pipeRel, pipeStep] at step
      split at step
      · cases step
      · cases step

/-- As long as the writers keep out of each other's way and nothing is written between
the two tests, no read reports the end of the file while a byte is left. -/
theorem pipe_no_early_eof
    (run : Run orderlyPipeStep (PipeState.init W) (evs ++ [(act, .returns n [])]) s)
    (some : n ≠ 0) : returned evs = written evs := by
  obtain ⟨s₁, run, -, unmoved, step⟩ := run.snoc_inv
  have alone : Run exclusiveStep (PipeState.init W) evs s₁ := run.mono fun _ _ _ h => ⟨h.1, h.2.2⟩
  obtain ⟨c, inv⟩ := pipeRun_inv alone
  obtain ⟨rfl, rpos, hpc, zero, nothing, closed⟩ := inv.eof step some
  have loaded := inv.reader
  simp only [Reader.Ok, hpc] at loaded
  have same : (written evs).length = c := by
    refine pos_eq inv.ring.le inv.ring.fits ?_
    rw [← inv.wpos, ← inv.rpos, unmoved rpos hpc zero closed, loaded]
  have taken := inv.taken
  rw [hpc, nothing, List.append_nil] at taken
  rw [taken]
  exact List.take_of_length_le (Nat.le_of_eq same)

/-- With one writer, a run in which nothing is written is orderly. -/
theorem orderly_of_unwritten {s₀ s : PipeState Unit} {evs : List (PipeAct Unit × PipeEvent)}
    (init : s₀ = PipeState.init Unit) (run : Run pipeRel s₀ evs s) (unwritten : written evs = []) :
    Run orderlyPipeStep s₀ evs s := by
  induction run with
  | refl => exact .refl _
  | @snoc s₁ s₂ evs x _ step ih =>
      rw [written_snoc, List.append_eq_nil_iff] at unwritten
      have run := ih unwritten.1
      have alone : Run exclusiveStep s₀ evs s₁ := run.mono fun _ _ _ h => ⟨h.1, h.2.2⟩
      obtain ⟨c, inv⟩ := pipeRun_inv (init ▸ alone)
      refine run.snoc ⟨?_, ?_, step⟩
      · cases h : x.1 with
        | writer w => exact fun _ _ _ => rfl
        | _ => trivial
      · cases h : x.1 with
        | reader =>
            intro rpos hpc _ _
            have loaded := inv.reader
            have le := inv.ring.le
            simp only [Reader.Ok, hpc] at loaded
            rw [unwritten.1] at le
            rw [inv.wpos, loaded, inv.rpos, unwritten.1, Nat.le_zero.mp le]
            rfl
        | _ => trivial

/-- The writer closes, and the reader finds the end of the file. -/
def closedPipe : List (PipeAct Unit) :=
  .closeWrite () :: List.replicate 2 (.writer ()) ++ .callRead 1 :: List.replicate 3 .reader

theorem pipe_no_early_eof_closed : ∃ s evs,
    Run orderlyPipeStep (PipeState.init Unit) (evs ++ [(.reader, .returns 1 [])]) s ∧
      returned evs = written evs := by
  have run : ∃ s s' evs, pipeExec (PipeState.init Unit) closedPipe = some (s, evs) ∧
      pipeStep s .reader = some (s', .returns 1 []) ∧ written evs = [] := ⟨_, _, _, rfl, rfl, rfl⟩
  obtain ⟨s, s', evs, run, eof, unwritten⟩ := run
  have last : pipeRel s (.reader, .returns 1 []) s' := eof
  have orderly := orderly_of_unwritten rfl ((pipeExec_run run).snoc last)
    (by rw [written_snoc, unwritten]; rfl)
  exact ⟨s', evs, orderly, pipe_no_early_eof orderly (by decide)⟩

/-- The reader finds the buffer empty; before it looks whether the pipe is closed, the
writer writes a byte and closes. -/
def missedByte : List (PipeAct Unit) :=
  .callRead 1 :: List.replicate 3 .reader ++
    .callWrite () 1 (fun _ => 7) :: List.replicate 9 (.writer ()) ++
    .closeWrite () :: List.replicate 2 (.writer ())

theorem pipe_early_eof : ¬ ∀ (evs : List (PipeAct Unit × PipeEvent)) (act : PipeAct Unit)
    (n : Word) (s : PipeState Unit),
    Run pipeRel (PipeState.init Unit) (evs ++ [(act, .returns n [])]) s → n ≠ 0 →
      returned evs = written evs := by
  intro always
  have run : ∃ s s' evs, pipeExec (PipeState.init Unit) missedByte = some (s, evs) ∧
      pipeStep s .reader = some (s', .returns 1 []) ∧ returned evs = [] ∧ written evs = [7] :=
    ⟨_, _, _, rfl, rfl, rfl, rfl⟩
  obtain ⟨s, s', evs, run, eof, read, put⟩ := run
  have all := always evs .reader 1 s' ((pipeExec_run run).snoc eof) (by decide)
  rw [read, put] at all
  cases all

end Mos
