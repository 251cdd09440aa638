import Mathlib.Logic.Function.Iterate
import Mathlib.Tactic.Common

/-!
# While loops

`whileLoop test body fuel` runs `body` as long as `test` holds, and gives no result
when the fuel does not reach. A loop whose test holds for the first `m` states only
ends in the state after `m` turns, and a loop that keeps its test true never ends.
-/

namespace Mos

variable {σ : Type} {test : σ → Prop} [DecidablePred test] {body : σ → σ} {s t : σ}
  {k m fuel fuel' : Nat}

/-- `while (test) body` -/
def whileLoop (test : σ → Prop) [DecidablePred test] (body : σ → σ) : Nat → σ → Option σ
  | 0, _ => none
  | fuel + 1, s => if test s then whileLoop test body fuel (body s) else some s

/-- The loop ends after `m` turns if the test holds before each of them, and not
after the last. -/
theorem whileLoop_iterate (turns : ∀ i < m, test (body^[i] s)) (ends : ¬test (body^[m] s))
    (enough : m < fuel) : whileLoop test body fuel s = some (body^[m] s) := by
  induction m generalizing s fuel with
  | zero =>
      obtain ⟨fuel, rfl⟩ := Nat.exists_eq_add_of_lt enough
      have stops : ¬test s := ends
      rw [whileLoop, if_neg stops]
      rfl
  | succ m ih =>
      cases fuel with
      | zero => exact absurd enough (Nat.not_lt_zero _)
      | succ fuel =>
          have holds : test s := turns 0 (Nat.succ_pos m)
          rw [whileLoop, if_pos holds, Function.iterate_succ_apply]
          exact ih (fun i lt => turns (i + 1) (Nat.succ_lt_succ lt)) ends
            (Nat.lt_of_succ_lt_succ enough)

/-- More fuel gives the same result. -/
theorem whileLoop_mono (run : whileLoop test body fuel s = some t) (le : fuel ≤ fuel') :
    whileLoop test body fuel' s = some t := by
  induction fuel generalizing s fuel' with
  | zero => cases run
  | succ fuel ih =>
      cases fuel' with
      | zero => exact absurd le (Nat.not_succ_le_zero _)
      | succ fuel' =>
          rw [whileLoop] at run ⊢
          split at run
          · next holds =>
              rw [if_pos holds]
              exact ih run (Nat.le_of_succ_le_succ le)
          · next stops => rw [if_neg stops, run]

/-- What a loop keeps holds when it ends, and its test does not. -/
theorem whileLoop_keeps {P : σ → Prop} (step : ∀ s, P s → test s → P (body s)) (init : P s)
    (run : whileLoop test body fuel s = some t) : P t ∧ ¬test t := by
  induction fuel generalizing s with
  | zero => cases run
  | succ fuel ih =>
      rw [whileLoop] at run
      split at run
      · next holds => exact ih (step s init holds) run
      · next stops =>
          cases run
          exact ⟨init, stops⟩

/-- A loop that keeps its test true does not end. -/
theorem whileLoop_diverges {P : σ → Prop} (step : ∀ s, P s → test s ∧ P (body s)) (init : P s)
    (fuel : Nat) : whileLoop test body fuel s = none := by
  cases run : whileLoop test body fuel s with
  | none => rfl
  | some t =>
      obtain ⟨keeps, stops⟩ := whileLoop_keeps (fun s hs _ => (step s hs).2) init run
      exact absurd (step t keeps).1 stops

end Mos
