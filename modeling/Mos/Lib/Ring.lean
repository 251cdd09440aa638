import Mathlib.Data.List.Basic
import Mathlib.Logic.Function.Basic
import Mathlib.Tactic.Common

/-!
# Ring buffers

A ring of `n` cells holds the elements of a sequence that were put in and not yet
taken out: element `k` lies in cell `k % n`. Positions only grow here; that a
program keeps them modulo a power of two is its own affair.
-/

namespace Mos

variable {α : Type} {n c : Nat} {buf : Nat → α} {l : List α} {a : α}

/-- Two positions less than `n` apart share no cell. -/
theorem cell_ne {j k : Nat} (lt : j < k) (near : k < j + n) : k % n ≠ j % n := by
  intro same
  have split := Nat.sub_mod_eq_zero_of_mod_eq same
  rw [Nat.mod_eq_of_lt (by omega)] at split
  omega

/-- The ring `buf` holds the elements of `l` from position `c` on. -/
structure Ring (n : Nat) (buf : Nat → α) (l : List α) (c : Nat) : Prop where
  le : c ≤ l.length
  fits : l.length ≤ c + n
  cell : ∀ k (h : k < l.length), c ≤ k → buf (k % n) = l[k]

namespace Ring

theorem empty (n : Nat) (buf : Nat → α) : Ring n buf [] 0 :=
  ⟨Nat.le_refl 0, Nat.zero_le _, fun _ h => absurd h (Nat.not_lt_zero _)⟩

/-- The first element can be taken out. -/
theorem pop (ring : Ring n buf l c) (some : c < l.length) : Ring n buf l (c + 1) :=
  ⟨some, by have := ring.fits; omega, fun k h lo => ring.cell k h (by omega)⟩

/-- The first element, and what has been taken out with it. -/
theorem take_succ (ring : Ring n buf l c) (some : c < l.length) :
    l.take c ++ [buf (c % n)] = l.take (c + 1) := by
  rw [ring.cell c some (Nat.le_refl c), List.take_append_getElem some]

/-- The next free cell may be written before its element counts. -/
theorem store (ring : Ring n buf l c) (room : l.length < c + n) (a : α) :
    Ring n (Function.update buf (l.length % n) a) l c where
  le := ring.le
  fits := ring.fits
  cell k h lo := by
    have apart : k % n ≠ l.length % n := (cell_ne h (by omega)).symm
    rw [Function.update_of_ne apart]
    exact ring.cell k h lo

/-- The element in the next free cell is put in. -/
theorem push (ring : Ring n buf l c) (room : l.length < c + n) (stored : buf (l.length % n) = a) :
    Ring n buf (l ++ [a]) c where
  le := by
    have := ring.le
    rw [List.length_append]
    omega
  fits := by
    rw [List.length_append, List.length_singleton]
    omega
  cell k h lo := by
    rw [List.length_append, List.length_singleton] at h
    rcases Nat.lt_succ_iff_lt_or_eq.mp h with old | rfl
    · rw [List.getElem_append_left old]
      exact ring.cell k old lo
    · rw [List.getElem_append_right (Nat.le_refl _)]
      simpa using stored

end Ring

end Mos
