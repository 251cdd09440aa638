import Mathlib.Data.Option.Defs
import Mathlib.Logic.Function.Basic
import Mathlib.Tactic.Common

/-!
# Buffers

A buffer is an array of a fixed size. Reads and writes are at integer indices, as
those of a C program, and have no result outside the array. A buffer `Holds` the
list it begins with; what is behind it is left open.
-/

namespace Mos

/-- An array of `n` elements. -/
abbrev Buffer (n : Nat) (α : Type) := Fin n → α

variable {α β γ δ : Type} {n m : Nat} {a a' : Buffer n α} {l l' : List α} {x : α} {i : Nat}

namespace Buffer

/-- `a[i]` -/
def load (a : Buffer n α) (i : Int) : Option α :=
  if h : 0 ≤ i ∧ i < n then some (a ⟨i.toNat, by omega⟩) else none

/-- `a[i] = x` -/
def store (a : Buffer n α) (i : Int) (x : α) : Option (Buffer n α) :=
  if h : 0 ≤ i ∧ i < n then some (Function.update a ⟨i.toNat, by omega⟩ x) else none

/-- The buffer begins with `l`. -/
structure Holds (a : Buffer n α) (l : List α) : Prop where
  le : l.length ≤ n
  eq : ∀ i (h : i < l.length), a ⟨i, Nat.lt_of_lt_of_le h le⟩ = l[i]

theorem load_natCast (h : i < n) : a.load i = some (a ⟨i, h⟩) := by
  have inside : 0 ≤ (i : Int) ∧ (i : Int) < n := by omega
  simp [load, inside]

theorem load_outside {i : Int} (h : ¬ (0 ≤ i ∧ i < n)) : a.load i = none := dif_neg h

theorem store_natCast (h : i < n) : a.store i x = some (Function.update a ⟨i, h⟩ x) := by
  have inside : 0 ≤ (i : Int) ∧ (i : Int) < n := by omega
  simp [store, inside]

theorem store_outside {i : Int} (h : ¬ (0 ≤ i ∧ i < n)) : a.store i x = none := dif_neg h

theorem load_inside {i : Int} (lo : 0 ≤ i) (hi : i < n) (a : Buffer n α) :
    ∃ x, a.load i = some x := ⟨_, dif_pos ⟨lo, hi⟩⟩

theorem store_inside {i : Int} (lo : 0 ≤ i) (hi : i < n) (a : Buffer n α) (x : α) :
    ∃ a', a.store i x = some a' := ⟨_, dif_pos ⟨lo, hi⟩⟩

/-- A write is read back, and changes nothing else. -/
theorem load_store {i j : Int} (run : a.store i x = some a') :
    a'.load j = if j = i then some x else a.load j := by
  unfold store at run
  split at run
  case isTrue inside =>
    cases run
    split
    case isTrue eq =>
      subst eq
      simp [load, inside]
    case isFalse ne =>
      unfold load
      split
      case isTrue other =>
        rw [Function.update_of_ne]
        simp only [ne_eq, Fin.mk.injEq]
        omega
      case isFalse => rfl
  case isFalse => cases run

theorem Holds.nil (a : Buffer n α) : Holds a [] := ⟨Nat.zero_le n, fun i h => by cases h⟩

theorem Holds.load (h : Holds a l) (hi : i < l.length) : a.load i = some l[i] := by
  rw [load_natCast (Nat.lt_of_lt_of_le hi h.le), h.eq i hi]

theorem holds_of_load (le : l.length ≤ n) (h : ∀ i (hi : i < l.length), a.load i = some l[i]) :
    Holds a l := by
  refine ⟨le, fun i hi => ?_⟩
  have read := h i hi
  rw [load_natCast (Nat.lt_of_lt_of_le hi le)] at read
  exact Option.some.inj read

/-- Reading the list from the start gives the list. -/
theorem Holds.loads (h : Holds a l) :
    (List.range l.length).mapM (fun i : Nat => a.load i) = some l := by
  have reads : ∀ k, k ≤ l.length →
      (List.range k).mapM (fun i : Nat => a.load i) = some (l.take k) := by
    intro k le
    induction k with
    | zero => rfl
    | succ k ih =>
        rw [List.range_succ, List.mapM_append, ih (Nat.le_of_succ_le le),
          List.take_succ_eq_append_getElem le]
        simp [h.load le]
  rw [reads l.length (Nat.le_refl _), List.take_length]

theorem Holds.of_append (h : Holds a (l ++ l')) : Holds a l := by
  have le : l.length ≤ n := by
    have whole := h.le
    rw [List.length_append] at whole
    exact Nat.le_of_add_right_le whole
  refine ⟨le, fun i hi => ?_⟩
  rw [h.eq i (by rw [List.length_append]; omega), List.getElem_append_left hi]

/-- A write behind the list makes it longer by one. -/
theorem Holds.push (h : Holds a l) (lt : l.length < n) (x : α) :
    ∃ a', a.store l.length x = some a' ∧ Holds a' (l ++ [x]) := by
  refine ⟨_, store_natCast lt, ⟨by rw [List.length_append]; exact lt, fun i hi => ?_⟩⟩
  rcases Nat.lt_or_ge i l.length with inside | last
  · rw [Function.update_of_ne (by simp only [ne_eq, Fin.mk.injEq]; omega), h.eq i inside,
      List.getElem_append_left inside]
  · have here : i = l.length := by
      rw [List.length_append, List.length_singleton] at hi
      omega
    subst here
    simp

/-- A full buffer takes no more. -/
theorem Holds.push_full (h : Holds a l) (full : ¬ l.length < n) (x : α) :
    a.store l.length x = none :=
  store_outside (by have := h.le; omega)

/-- A write behind the list leaves it alone. -/
theorem Holds.store {i : Int} (h : Holds a l) (behind : l.length ≤ i) (run : a.store i x = some a') :
    Holds a' l := by
  refine ⟨h.le, fun j hj => ?_⟩
  have read := @load_store _ _ _ _ _ i j run
  rw [load_natCast (Nat.lt_of_lt_of_le hj h.le), if_neg (by omega), h.load hj] at read
  exact Option.some.inj read

section Strings

variable [Zero α]

/-- The buffer holds the characters of `l` and a terminator. -/
structure IsString (a : Buffer n α) (l : List α) : Prop where
  holds : Holds a (l ++ [0])
  chars : (0 : α) ∉ l

theorem IsString.lt (str : IsString a l) : l.length < n := by
  have le := str.holds.le
  rw [List.length_append, List.length_singleton] at le
  exact le

theorem IsString.load_char (str : IsString a l) (hi : i < l.length) : a.load i = some l[i] :=
  str.holds.of_append.load hi

theorem IsString.load_end (str : IsString a l) : a.load l.length = some 0 := by
  rw [str.holds.load (by simp), List.getElem_append_right (Nat.le_refl _)]
  simp

variable [DecidableEq α]

/-- `strcpy(dst, src)`, from index `i` on. -/
def copyFrom (src : Buffer m α) : Nat → Nat → Buffer n α → Option (Buffer n α)
  | 0, _, _ => none
  | fuel + 1, i, dst => do
      let c ← src.load i
      let dst ← dst.store i c
      if c = 0 then some dst else copyFrom src fuel (i + 1) dst

/-- `strcpy(dst, src)`; the read ends it at the end of `src`. -/
def strcpy (dst : Buffer n α) (src : Buffer m α) : Option (Buffer n α) := copyFrom src (m + 1) 0 dst

theorem IsString.copyFrom {src : Buffer m α} {copied rest : List α} {fuel : Nat}
    (str : IsString src (copied ++ rest)) (fits : (copied ++ rest).length < n)
    (enough : rest.length < fuel) (h : Holds a copied) :
    ∃ a', Buffer.copyFrom src fuel copied.length a = some a' ∧ IsString a' (copied ++ rest) := by
  induction rest generalizing copied fuel a with
  | nil =>
      obtain ⟨fuel, rfl⟩ := Nat.exists_eq_add_of_lt enough
      rw [List.append_nil] at str fits
      obtain ⟨a', stored, h'⟩ := h.push fits 0
      refine ⟨a', ?_, ⟨by rwa [List.append_nil], by rw [List.append_nil]; exact str.chars⟩⟩
      simp [Buffer.copyFrom, str.load_end, stored]
  | cons c rest ih =>
      cases fuel with
      | zero => exact absurd enough (Nat.not_lt_zero _)
      | succ fuel =>
          rw [List.length_append, List.length_cons] at fits
          obtain ⟨a', stored, h'⟩ := h.push (by omega) c
          have char : src.load copied.length = some c := by
            rw [str.load_char (by simp)]
            simp
          have nonzero : c ≠ 0 := fun eq => str.chars (by simp [eq])
          rw [List.append_cons] at str ⊢
          obtain ⟨final, run, whole⟩ := ih str (by simp; omega) (Nat.lt_of_succ_lt_succ enough) h'
          refine ⟨final, ?_, whole⟩
          rw [List.length_append, List.length_singleton] at run
          simp [Buffer.copyFrom, char, stored, nonzero, run]

theorem IsString.strcpy {src : Buffer m α} (str : IsString src l) (fits : l.length < n)
    (dst : Buffer n α) : ∃ dst', Buffer.strcpy dst src = some dst' ∧ IsString dst' l :=
  @IsString.copyFrom _ _ _ dst _ _ src [] l (m + 1) str fits (Nat.lt_succ_of_lt str.lt) (.nil dst)

/-- Whether `strcmp(a, l)` is zero, from index `i` on. -/
def sameFrom (a : Buffer n α) (i : Nat) : List α → Option Bool
  | [] => do
      let c ← a.load i
      some (decide (c = 0))
  | x :: l => do
      let c ← a.load i
      if c = x then sameFrom a (i + 1) l else some false

/-- `strcmp(a, l) == 0` -/
def same (a : Buffer n α) (l : List α) : Option Bool := sameFrom a 0 l

theorem IsString.sameFrom {seen rest : List α} (str : IsString a (seen ++ rest)) {other : List α}
    (clean : (0 : α) ∉ other) :
    Buffer.sameFrom a seen.length other = some (decide (rest = other)) := by
  induction other generalizing seen rest with
  | nil =>
      cases rest with
      | nil =>
          rw [List.append_nil] at str
          simp [Buffer.sameFrom, str.load_end]
      | cons c rest =>
          have nonzero : c ≠ 0 := fun eq => str.chars (by simp [eq])
          have char : a.load seen.length = some c := by
            rw [str.load_char (by simp)]
            simp
          simp [Buffer.sameFrom, char, nonzero]
  | cons x other ih =>
      rw [List.mem_cons, not_or] at clean
      cases rest with
      | nil =>
          rw [List.append_nil] at str
          simp [Buffer.sameFrom, str.load_end, clean.1]
      | cons c rest =>
          have char : a.load seen.length = some c := by
            rw [str.load_char (by simp)]
            simp
          by_cases eq : c = x
          · rw [List.append_cons] at str
            have next := ih str clean.2
            rw [List.length_append, List.length_singleton] at next
            simp [Buffer.sameFrom, char, eq, next]
          · simp [Buffer.sameFrom, char, eq]

theorem IsString.same (str : IsString a l) {other : List α} (clean : (0 : α) ∉ other) :
    Buffer.same a other = some (decide (l = other)) :=
  @IsString.sameFrom _ _ a _ _ [] l str other clean

end Strings

end Buffer

/-! ## Simulation of programs that may fail -/

theorem exists_of_rel_some {R : α → β → Prop} {x : Option α} {b : β}
    (related : Option.Rel R x (some b)) : ∃ a, x = some a ∧ R a b := by
  cases related with
  | some h => exact ⟨_, rfl, h⟩

theorem eq_none_of_rel {R : α → β → Prop} {x : Option α}
    (related : Option.Rel R x (none : Option β)) : x = none := by
  cases related
  rfl

theorem rel_of_ite {R : α → β → Prop} {p : Prop} [Decidable p] {x : Option α} {b : β}
    (spec : if p then ∃ a, x = some a ∧ R a b else x = none) :
    Option.Rel R x (if p then some b else none) := by
  split at spec
  case isTrue holds =>
    obtain ⟨a, rfl, related⟩ := spec
    rw [if_pos holds]
    exact .some related
  case isFalse fails =>
    rw [spec, if_neg fails]
    exact .none

/-- Programs that fail together, and whose steps preserve a relation. -/
theorem rel_bind {R : α → β → Prop} {S : γ → δ → Prop} {x : Option α} {y : Option β}
    {f : α → Option γ} {g : β → Option δ} (first : Option.Rel R x y)
    (step : ∀ s t, R s t → Option.Rel S (f s) (g t)) : Option.Rel S (x.bind f) (y.bind g) := by
  cases first with
  | none => exact .none
  | some related => exact step _ _ related

end Mos
