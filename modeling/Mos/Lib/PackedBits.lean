import Mathlib.Logic.Function.Basic
import Mathlib.Tactic.Common

/-!
# Sets of numbers packed into words

Bit `i % w` of word `i / w` tells whether `i` belongs to the set. Setting and
clearing one bit by a mask changes the membership of that number only.
-/

namespace Mos

namespace PackedBits

variable {w : Nat} {a : Nat → BitVec w} {i j : Nat}

/-- Membership of `i`, the way programs test it: `a[i / w] & (1 << (i % w))`. -/
def test (a : Nat → BitVec w) (i : Nat) : Bool :=
  a (i / w) &&& (1#w <<< (i % w)) != 0#w

/-- `a[i / w] |= 1 << (i % w)`. -/
def set (a : Nat → BitVec w) (i : Nat) : Nat → BitVec w :=
  Function.update a (i / w) (a (i / w) ||| (1#w <<< (i % w)))

/-- `a[i / w] &= ~(1 << (i % w))`. -/
def clear (a : Nat → BitVec w) (i : Nat) : Nat → BitVec w :=
  Function.update a (i / w) (a (i / w) &&& ~~~(1#w <<< (i % w)))

theorem getLsbD_mask {k l : Nat} (bound : l < w) :
    (1#w <<< k).getLsbD l = decide (l = k) := by
  rw [BitVec.getLsbD_shiftLeft]
  by_cases same : l = k
  · subst same
    have positive : 0 < w := by omega
    simp [bound, positive]
  · by_cases below : l < k
    · simp [same, below]
    · have positive : l - k ≠ 0 := by omega
      simp [same, positive]

/-- A mask of one bit tests that bit. -/
theorem test_eq (positive : 0 < w) : test a i = (a (i / w)).getLsbD (i % w) := by
  have bound : i % w < w := Nat.mod_lt _ positive
  unfold test
  cases bit : (a (i / w)).getLsbD (i % w)
  · have zero : a (i / w) &&& (1#w <<< (i % w)) = 0#w := by
      apply BitVec.eq_of_getLsbD_eq
      intro l hl
      rw [BitVec.getLsbD_and, getLsbD_mask hl, BitVec.getLsbD_zero]
      by_cases same : l = i % w
      · simp [same, bit]
      · simp [same]
    simp [zero]
  · have nonzero : a (i / w) &&& (1#w <<< (i % w)) ≠ 0#w := by
      intro zero
      have := congrArg (fun x => x.getLsbD (i % w)) zero
      simp [getLsbD_mask bound, bit] at this
    simp [nonzero]

/-- Two numbers in one word are told apart by their bits. -/
theorem mod_ne (same : j / w = i / w) (differ : j ≠ i) : j % w ≠ i % w := by
  intro bits
  apply differ
  rw [← Nat.div_add_mod j w, ← Nat.div_add_mod i w, same, bits]

theorem test_set (positive : 0 < w) : test (set a i) j = (decide (j = i) || test a j) := by
  rw [test_eq positive, test_eq positive]
  unfold set
  by_cases word : j / w = i / w
  · rw [word, Function.update_self, BitVec.getLsbD_or, getLsbD_mask (Nat.mod_lt _ positive)]
    by_cases same : j = i
    · simp [same]
    · simp [same, mod_ne word same]
  · have differ : j ≠ i := fun same => word (by rw [same])
    simp [Function.update_of_ne word, differ]

theorem test_clear (positive : 0 < w) : test (clear a i) j = (!decide (j = i) && test a j) := by
  rw [test_eq positive, test_eq positive]
  unfold clear
  have bound : j % w < w := Nat.mod_lt _ positive
  by_cases word : j / w = i / w
  · rw [word, Function.update_self, BitVec.getLsbD_and, BitVec.getLsbD_not, getLsbD_mask bound]
    by_cases same : j = i
    · simp [same]
    · simp [same, mod_ne word same, bound]
  · have differ : j ≠ i := fun same => word (by rw [same])
    simp [Function.update_of_ne word, differ]

end PackedBits

end Mos
