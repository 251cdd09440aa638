import Mathlib.Algebra.Order.Ring.Nat
import Mathlib.Data.List.Rotate
import Mathlib.Tactic.Common

/-!
# Turns

A server serves one customer at a time: turn `k` belongs to `holder k` and lasts
`size (holder k)` ticks, unless its holder gives the rest of it up. When the
holders go round a line, so do the ticks, and who gives up a turn waits for the
rest of the line.
-/

namespace Mos

variable {α : Type} {size : α → Nat} {holder : Nat → α} {line : List α}

/-- The turn that is being served, and how many of its ticks are left. -/
structure Turn where
  index : Nat
  left : Nat

namespace Turn

variable {t : Turn} {ys : List Bool}

def fresh (size : α → Nat) (holder : Nat → α) (k : Nat) : Turn := ⟨k, size (holder k)⟩

/-- The turn at the next tick, before which the holder may give up. -/
def next (size : α → Nat) (holder : Nat → α) (t : Turn) (giveUp : Bool) : Turn :=
  if giveUp ∨ t.left = 1 then fresh size holder (t.index + 1)
  else { t with left := t.left - 1 }

/-- Who is served at this tick and at the ticks that follow. -/
def picks (size : α → Nat) (holder : Nat → α) (t : Turn) : List Bool → List α
  | [] => [holder t.index]
  | y :: ys => holder t.index :: picks size holder (t.next size holder y) ys

theorem next_index (size : α → Nat) (holder : Nat → α) (t : Turn) (y : Bool) :
    (t.next size holder y).index = t.index ∨ (t.next size holder y).index = t.index + 1 := by
  unfold next
  split
  · exact .inr rfl
  · exact .inl rfl

/-- Before `holder k` is served in turn `k`, all turns up to it are. -/
theorem picks_before {k : Nat} {before after : List α} (le : t.index ≤ k)
    (others : ∀ j, t.index ≤ j → j < k → holder j ≠ holder k)
    (served : t.picks size holder ys = before ++ holder k :: after) :
    ∀ j, t.index ≤ j → j < k → holder j ∈ before := by
  induction ys generalizing t before with
  | nil =>
      intro j lo hi
      cases before with
      | nil => exact absurd (List.cons.inj served).1 (others t.index (Nat.le_refl _) (by omega))
      | cons b bs => simp [picks] at served
  | cons y ys ih =>
      intro j lo hi
      cases before with
      | nil => exact absurd (List.cons.inj served).1 (others t.index (Nat.le_refl _) (by omega))
      | cons b bs =>
          obtain ⟨first, rest⟩ := List.cons.inj served
          rcases Nat.eq_or_lt_of_le lo with rfl | lt
          · rw [← first]
            exact List.mem_cons_self
          · have step := next_index size holder t y
            exact List.mem_cons_of_mem _
              (ih (by omega) (fun i lo => others i (by omega)) rest j (by omega) hi)

/-! ## Going round a line -/

/-- The holders go round the line. -/
def Cyclic (line : List α) (holder : Nat → α) : Prop :=
  ∀ k, (line)[k % line.length]? = some (holder k)

/-- Everybody in the line is served once. -/
def round (line : List α) (size : α → Nat) : List α :=
  line.flatMap fun a => List.replicate (size a) a

/-- The ticks are those of the line served round and round. -/
def GoRound (line : List α) (size : α → Nat) (ticks : List α) : Prop :=
  ∀ i, i < ticks.length → ticks[i]? = (round line size)[i % (round line size).length]?

/-- The ticks before turn `k` when no turn is given up. -/
def due (size : α → Nat) (holder : Nat → α) : Nat → Nat
  | 0 => 0
  | k + 1 => due size holder k + size (holder k)

theorem Cyclic.pos (cyclic : Cyclic line holder) : 0 < line.length := by
  obtain ⟨lt, -⟩ := List.getElem?_eq_some_iff.mp (cyclic 0)
  omega

theorem Cyclic.add (cyclic : Cyclic line holder) (k : Nat) :
    holder (line.length + k) = holder k := by
  have here := cyclic (line.length + k)
  rw [Nat.add_mod_left, cyclic k] at here
  exact (Option.some.inj here).symm

theorem exists_cyclic (h : line ≠ []) : ∃ holder, Cyclic line holder := by
  have pos := List.length_pos_of_ne_nil h
  exact ⟨fun k => line.get ⟨k % line.length, Nat.mod_lt _ pos⟩,
    fun k => List.getElem?_eq_getElem (Nat.mod_lt _ pos)⟩

theorem length_round (line : List α) (size : α → Nat) :
    (round line size).length = (line.map size).sum := by
  induction line with
  | nil => rfl
  | cons a line ih =>
      rw [List.map_cons, List.sum_cons, ← ih]
      simp [round]

theorem Cyclic.due_eq (cyclic : Cyclic line holder) {k : Nat} (h : k ≤ line.length) :
    due size holder k = ((line.take k).map size).sum := by
  induction k with
  | zero => simp [due]
  | succ k ih =>
      have here := cyclic k
      rw [Nat.mod_eq_of_lt (by omega)] at here
      rw [due, ih (by omega), List.take_add_one, here]
      simp

theorem Cyclic.due_length (cyclic : Cyclic line holder) :
    due size holder line.length = (round line size).length := by
  rw [cyclic.due_eq (Nat.le_refl _), List.take_length, length_round]

theorem Cyclic.due_add (cyclic : Cyclic line holder) (k : Nat) :
    due size holder (line.length + k) = (round line size).length + due size holder k := by
  induction k with
  | zero => rw [Nat.add_zero, cyclic.due_length, due, Nat.add_zero]
  | succ k ih => rw [← Nat.add_assoc, due, due, ih, cyclic.add, Nat.add_assoc]

theorem round_getElem? {k j : Nat} {a : α} (at_k : (line)[k]? = some a) (h : j < size a) :
    (round line size)[((line.take k).map size).sum + j]? = some a := by
  induction line generalizing k with
  | nil => simp at at_k
  | cons b line ih =>
      cases k with
      | zero =>
          cases Option.some.inj at_k
          simp [round, List.getElem?_append_left, h]
      | succ k =>
          rw [List.getElem?_cons_succ] at at_k
          have rest := ih at_k
          simp only [round, List.flatMap_cons, List.take_succ_cons, List.map_cons, List.sum_cons]
            at rest ⊢
          rw [List.getElem?_append_right (by simp; omega), List.length_replicate]
          rwa [Nat.add_assoc, Nat.add_sub_cancel_left]

/-- Tick `j` of turn `k` in the endless round. -/
theorem Cyclic.round_at (cyclic : Cyclic line holder) {k j : Nat} (h : j < size (holder k)) :
    (round line size)[(due size holder k + j) % (round line size).length]? =
      some (holder k) := by
  induction k using Nat.strongRecOn with
  | ind k ih =>
      rcases Nat.lt_or_ge k line.length with lt | ge
      · have here := cyclic k
        rw [Nat.mod_eq_of_lt lt] at here
        have tick := round_getElem? here h
        rw [← cyclic.due_eq (by omega)] at tick
        obtain ⟨inside, -⟩ := List.getElem?_eq_some_iff.mp tick
        rwa [Nat.mod_eq_of_lt inside]
      · obtain ⟨k, rfl⟩ := Nat.exists_eq_add_of_le ge
        have pos := cyclic.pos
        rw [cyclic.add] at h ⊢
        rw [cyclic.due_add, Nat.add_assoc, Nat.add_mod_left]
        exact ih k (by omega) h

/-- At tick `i` the turn is as far as it should be. -/
structure OnTime (size : α → Nat) (holder : Nat → α) (t : Turn) (i : Nat) : Prop where
  pos : 0 < t.left
  le : t.left ≤ size (holder t.index)
  tick : i + t.left = due size holder (t.index + 1)

theorem onTime_fresh (pos : ∀ k, 0 < size (holder k)) :
    (fresh size holder 0).OnTime size holder 0 :=
  ⟨pos 0, Nat.le_refl _, rfl⟩

theorem OnTime.next {i : Nat} (onTime : t.OnTime size holder i)
    (pos : ∀ k, 0 < size (holder k)) : (t.next size holder false).OnTime size holder (i + 1) := by
  obtain ⟨left, le, tick⟩ := onTime
  rcases Nat.eq_or_lt_of_le (Nat.succ_le_of_lt left) with last | more
  · have ends : t.next size holder false = fresh size holder (t.index + 1) := by
      simp [Turn.next, ← last]
    rw [ends]
    refine ⟨pos _, Nat.le_refl _, ?_⟩
    simp only [fresh, due] at tick ⊢
    omega
  · have stays : t.next size holder false = { t with left := t.left - 1 } := by
      simp only [Turn.next, Bool.false_eq_true, false_or]
      rw [if_neg (by omega)]
    rw [stays]
    exact ⟨Nat.sub_pos_of_lt more, by simp only; omega, by simp only; omega⟩

/-- A turn that is on time belongs to whom the round has at this tick. -/
theorem OnTime.now {i : Nat} (onTime : t.OnTime size holder i) (cyclic : Cyclic line holder) :
    some (holder t.index) = (round line size)[i % (round line size).length]? := by
  obtain ⟨left, le, tick⟩ := onTime
  rw [due] at tick
  have inside : size (holder t.index) - t.left < size (holder t.index) := by omega
  rw [← cyclic.round_at inside]
  congr 2
  omega

theorem OnTime.picks {i : Nat} (onTime : t.OnTime size holder i) (cyclic : Cyclic line holder)
    (pos : ∀ k, 0 < size (holder k)) (quiet : ∀ y ∈ ys, y = false) :
    ∀ j, j < (t.picks size holder ys).length → (t.picks size holder ys)[j]? =
      (round line size)[(i + j) % (round line size).length]? := by
  induction ys generalizing t i with
  | nil =>
      intro j h
      cases j with
      | zero => exact onTime.now cyclic
      | succ j => simp [Turn.picks] at h
  | cons y ys ih =>
      intro j h
      cases quiet y List.mem_cons_self
      cases j with
      | zero => exact onTime.now cyclic
      | succ j =>
          have rest := ih (onTime.next pos) (fun y mem => quiet y (List.mem_cons_of_mem _ mem)) j
            (by simpa [Turn.picks] using h)
          rw [Turn.picks, List.getElem?_cons_succ, rest]
          congr 2
          omega

/-- When nobody gives up a turn the ticks go round the line. -/
theorem goRound_picks (cyclic : Cyclic line holder) (pos : ∀ k, 0 < size (holder k))
    (quiet : ∀ y ∈ ys, y = false) :
    GoRound line size ((fresh size holder 0).picks size holder ys) := by
  intro i h
  rw [(onTime_fresh pos).picks cyclic pos quiet i h, Nat.zero_add]

end Turn

end Mos
