import Mathlib.Data.List.Induction
import Mathlib.Tactic.Common

/-!
# Runs of a labelled transition system

A run is a finite sequence of steps with the events it shows, grown at its end.
`Run.invariant` carries what one step preserves over a whole run, and
`Run.history` does so for what relates a state to the events that led to it.
-/

namespace Mos

variable {σ ε : Type} {step : σ → ε → σ → Prop} {s s' s'' : σ} {es es' : List ε} {e : ε}

inductive Run (step : σ → ε → σ → Prop) : σ → List ε → σ → Prop
  | refl (s : σ) : Run step s [] s
  | snoc {s s' s'' : σ} {es : List ε} {e : ε} :
      Run step s es s' → step s' e s'' → Run step s (es ++ [e]) s''

namespace Run

theorem single (h : step s e s') : Run step s [e] s' := snoc (refl s) h

theorem trans (first : Run step s es s') (second : Run step s' es' s'') :
    Run step s (es ++ es') s'' := by
  induction second with
  | refl => rwa [List.append_nil]
  | snoc _ last ih =>
      rw [← List.append_assoc]
      exact snoc ih last

/-- What relates a state to its past holds along the run. -/
theorem history (I : List ε → σ → Prop) (run : Run step s es s') (init : I [] s)
    (preserved : ∀ es s₁ e s₂, I es s₁ → step s₁ e s₂ → I (es ++ [e]) s₂) : I es s' := by
  induction run with
  | refl => exact init
  | snoc _ last ih => exact preserved _ _ _ _ ih last

theorem invariant (I : σ → Prop) (run : Run step s es s') (init : I s)
    (preserved : ∀ s₁ e s₂, I s₁ → step s₁ e s₂ → I s₂) : I s' :=
  run.history (fun _ => I) init fun _ s₁ e s₂ => preserved s₁ e s₂

/-- A map that takes steps to steps takes runs to runs. -/
theorem map {σ' ε' : Type} {step' : σ' → ε' → σ' → Prop} (f : σ → σ') (g : ε → ε')
    (sim : ∀ s e s', step s e s' → step' (f s) (g e) (f s')) (run : Run step s es s') :
    Run step' (f s) (es.map g) (f s') := by
  induction run with
  | refl => exact refl _
  | snoc _ last ih =>
      rw [List.map_append]
      exact snoc ih (sim _ _ _ last)

theorem nil_inv (run : Run step s [] s') : s' = s := by
  generalize h : [] = all at run
  cases run with
  | refl => rfl
  | snoc first last => simp at h

theorem snoc_inv (run : Run step s (es ++ [e]) s'') : ∃ s', Run step s es s' ∧ step s' e s'' := by
  generalize h : es ++ [e] = all at run
  cases run with
  | refl => simp at h
  | @snoc s' _ es₁ e₁ first last =>
      obtain ⟨same, tail⟩ := List.append_inj' h rfl
      cases same
      cases tail
      exact ⟨s', first, last⟩

/-- A run passes through a state after each of its prefixes. -/
theorem split (run : Run step s (es ++ es') s'') :
    ∃ s', Run step s es s' ∧ Run step s' es' s'' := by
  induction es' using List.reverseRecOn generalizing s'' with
  | nil => exact ⟨s'', by rwa [List.append_nil] at run, refl s''⟩
  | append_singleton es' e ih =>
      rw [← List.append_assoc] at run
      obtain ⟨s₁, first, last⟩ := snoc_inv run
      obtain ⟨s', before, after⟩ := ih first
      exact ⟨s', before, after.snoc last⟩

theorem cons_inv (run : Run step s (e :: es) s'') : ∃ s', step s e s' ∧ Run step s' es s'' := by
  obtain ⟨s', first, rest⟩ := @split _ _ _ _ _ [e] _ run
  obtain ⟨s₀, empty, last⟩ := @snoc_inv _ _ _ _ _ [] _ first
  cases nil_inv empty
  exact ⟨s', last, rest⟩

/-- A run of stronger steps is a run. -/
theorem mono {step' : σ → ε → σ → Prop} (run : Run step s es s')
    (h : ∀ s₁ e s₂, step s₁ e s₂ → step' s₁ e s₂) : Run step' s es s' := by
  induction run with
  | refl => exact refl s
  | snoc _ last ih => exact ih.snoc (h _ _ _ last)

end Run

end Mos
