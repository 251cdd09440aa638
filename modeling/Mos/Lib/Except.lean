import Mathlib.Tactic.Common

/-!
# Computations that stop at the first error

The bind rule of `Except`, and counted loops: `loop body k n` runs `body k`,
`body (k + 1)`, …, `n` times in all. `loop_spec` is its invariant rule.
-/

namespace Mos

variable {σ ε α β : Type}

/-- A sequence succeeds when both of its parts do. -/
theorem bind_eq_ok {x : Except ε α} {f : α → Except ε β} {b : β} :
    (x >>= f) = .ok b ↔ ∃ a, x = .ok a ∧ f a = .ok b := by
  cases x with
  | error e => simp [Bind.bind, Except.bind]
  | ok a => simp [Bind.bind, Except.bind]

theorem ok_bind (a : α) (f : α → Except ε β) : ((.ok a : Except ε α) >>= f) = f a := rfl

theorem map_eq_ok {x : Except ε α} {f : α → β} {b : β} :
    x.map f = .ok b ↔ ∃ a, x = .ok a ∧ f a = b := by
  cases x with
  | error e => simp [Except.map]
  | ok a => simp [Except.map]

theorem map_bind {γ : Type} (x : Except ε α) (f : α → Except ε β) (g : β → γ) :
    (x.bind f).map g = x.bind fun a => (f a).map g := by
  cases x with
  | error e => rfl
  | ok a => rfl

/-- The loop `for (i = k; i < k + n; i++) body(i)` over the state `σ`. -/
def loop (body : Nat → σ → Except ε σ) : Nat → Nat → σ → Except ε σ
  | _, 0, s => .ok s
  | k, n + 1, s => (body k s).bind (loop body (k + 1) n)

/-- An invariant that every iteration re-establishes for the next counter holds
after the loop, and the loop reports no error. -/
theorem loop_spec (body : Nat → σ → Except ε σ) (I : Nat → σ → Prop) {k n : Nat} {s : σ}
    (step : ∀ i s, k ≤ i → i < k + n → I i s → ∃ s', body i s = .ok s' ∧ I (i + 1) s')
    (init : I k s) : ∃ s', loop body k n s = .ok s' ∧ I (k + n) s' := by
  induction n generalizing k s with
  | zero => exact ⟨s, rfl, init⟩
  | succ n ih =>
      obtain ⟨s₁, run, inv⟩ := step k s (Nat.le_refl k) (by omega) init
      obtain ⟨s₂, run₂, inv₂⟩ := ih
        (fun i s lo hi hI => step i s (by omega) (by omega) hI) inv
      refine ⟨s₂, ?_, ?_⟩
      · simp only [loop, run, Except.bind, run₂]
      · rwa [Nat.add_right_comm] at inv₂

/-- What every successful iteration keeps holds after a successful loop. -/
theorem loop_keeps {body : Nat → σ → Except ε σ} {P : σ → Prop} {k n : Nat} {s s' : σ}
    (step : ∀ i s s', body i s = .ok s' → P s → P s') (init : P s)
    (run : loop body k n s = .ok s') : P s' := by
  induction n generalizing k s with
  | zero =>
      cases run
      exact init
  | succ n ih =>
      obtain ⟨s₁, first, rest⟩ := bind_eq_ok.mp run
      exact ih (step k s s₁ first init) rest

end Mos
