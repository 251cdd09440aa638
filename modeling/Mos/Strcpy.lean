import Mos.InitStack

/-!
# `strcpy`

The loop of `strcpy` reads a byte, stores it and goes on until the byte was
zero. When it returns it has copied the string as it was before the call, even
if the two ranges overlap: a copy onto a later part of its own source never
meets a terminator.
-/

namespace Mos

open Stack (Memory)

variable {mem mem' : Memory} {dst src p : Word} {n fuel k : Nat}

/-- `strcpy(dst, src)`; `none` when it has not returned after `fuel` bytes. -/
def strcpy (mem : Memory) (dst src : Word) : Nat → Option Memory
  | 0 => none
  | fuel + 1 =>
      let c := mem src
      let mem := Function.update mem dst c
      if c = 0 then some mem else strcpy mem (dst + 1) (src + 1) fuel

/-- A string of `n` characters at `p`, and its terminator. -/
structure IsStr (mem : Memory) (p : Word) (n : Nat) : Prop where
  chars : ∀ i < n, mem (p + BitVec.ofNat 32 i) ≠ 0
  terminated : mem (p + BitVec.ofNat 32 n) = 0

theorem IsStr.unique {m : Nat} (left : IsStr mem p n) (right : IsStr mem p m) : n = m := by
  obtain lt | eq | gt := Nat.lt_trichotomy n m
  · exact absurd left.terminated (right.chars n lt)
  · exact eq
  · exact absurd right.terminated (left.chars m gt)

/-- `mem'` holds at `dst` the `n` bytes that `mem` holds at `src`. -/
def CopiedTo (mem mem' : Memory) (dst src : Word) (n : Nat) : Prop :=
  ∀ a, mem' a = if (a - dst).toNat < n then mem (src + (a - dst)) else mem a

theorem next_addr (p : Word) (k : Nat) :
    p + BitVec.ofNat 32 k + 1 = p + BitVec.ofNat 32 (k + 1) := by
  rw [BitVec.ofNat_add, BitVec.add_assoc]
  rfl

/-- With `d` characters between the source and the destination, and no
terminator among them, there will be none. -/
theorem strcpy_never {d : Nat} (positive : 0 < d)
    (chars : ∀ i < d, mem (src + BitVec.ofNat 32 i) ≠ 0) :
    strcpy mem (src + BitVec.ofNat 32 d) src fuel = none := by
  induction fuel generalizing mem src with
  | zero => rfl
  | succ fuel ih =>
      have first : mem src ≠ 0 := by simpa using chars 0 positive
      have shift : src + BitVec.ofNat 32 d + 1 = src + 1 + BitVec.ofNat 32 d := by
        rw [BitVec.add_assoc, BitVec.add_assoc, BitVec.add_comm (BitVec.ofNat 32 d)]
      simp only [strcpy, first, if_false]
      rw [shift]
      apply ih
      intro i hi
      by_cases last : src + 1 + BitVec.ofNat 32 i = src + BitVec.ofNat 32 d
      · rw [last, Function.update_self]
        exact first
      · rw [Function.update_of_ne last]
        have next : src + 1 + BitVec.ofNat 32 i = src + BitVec.ofNat 32 (i + 1) := by
          rw [← next_addr, BitVec.add_assoc, BitVec.add_comm 1, ← BitVec.add_assoc]
        rw [next] at last ⊢
        apply chars
        rcases Nat.lt_or_ge (i + 1) d with low | high
        · exact low
        · have same : i + 1 = d := by omega
          exact absurd (by rw [same]) last

/-- Before the source reaches what was written, the next byte is one of the
string, and it goes behind those copied. -/
theorem CopiedTo.next {d : Nat} (behind : dst = src + BitVec.ofNat 32 d) (range : d ≤ 2 ^ 32)
    (low : k < d) (copied : CopiedTo mem mem' dst src k) :
    mem' (src + BitVec.ofNat 32 k) = mem (src + BitVec.ofNat 32 k) ∧
      CopiedTo mem (Function.update mem' (dst + BitVec.ofNat 32 k)
        (mem (src + BitVec.ofNat 32 k))) dst src (k + 1) := by
  have unread : ¬ (src + BitVec.ofNat 32 k - dst).toNat < k := by
    have wraps : src + BitVec.ofNat 32 k - dst = BitVec.ofNat 32 k - BitVec.ofNat 32 d := by
      rw [behind, add_sub_add_left_eq_sub]
    rw [wraps, BitVec.toNat_sub, BitVec.toNat_ofNat, BitVec.toNat_ofNat]
    omega
  refine ⟨by rw [copied, if_neg unread], fun a => ?_⟩
  by_cases here : a = dst + BitVec.ofNat 32 k
  · have off : a - dst = BitVec.ofNat 32 k := by
      rw [here]
      exact add_sub_cancel_left _ _
    have small : (BitVec.ofNat 32 k).toNat < k + 1 := by
      rw [BitVec.toNat_ofNat]
      exact Nat.lt_succ_of_le (Nat.mod_le _ _)
    rw [off, if_pos small, here, Function.update_self]
  · rw [Function.update_of_ne here, copied]
    have apart : (a - dst).toNat ≠ k := by
      intro off
      apply here
      rw [← off, BitVec.ofNat_toNat, BitVec.setWidth_eq, BitVec.add_comm, BitVec.sub_add_cancel]
    have same : (a - dst).toNat < k ↔ (a - dst).toNat < k + 1 := by omega
    simp only [same]

/-- The loop after `k` bytes, none of them zero, with the destination `d` bytes
behind the source. -/
theorem strcpy_from {d : Nat} (behind : dst = src + BitVec.ofNat 32 d) (range : d ≤ 2 ^ 32)
    (copied : CopiedTo mem mem' dst src k) (chars : ∀ i < k, mem (src + BitVec.ofNat 32 i) ≠ 0)
    (inside : k ≤ d) (positive : 0 < d) {final : Memory}
    (run : strcpy mem' (dst + BitVec.ofNat 32 k) (src + BitVec.ofNat 32 k) fuel = some final) :
    ∃ n, n < d ∧ IsStr mem src n ∧ CopiedTo mem final dst src (n + 1) := by
  induction fuel generalizing mem' k with
  | zero => cases run
  | succ fuel ih =>
      rcases Nat.lt_or_ge k d with low | high
      · obtain ⟨read, stored⟩ := copied.next behind range low
        simp only [strcpy, read] at run
        by_cases zero : mem (src + BitVec.ofNat 32 k) = 0
        · rw [if_pos zero] at run
          cases run
          exact ⟨k, low, ⟨chars, zero⟩, stored⟩
        · rw [if_neg zero, next_addr, next_addr] at run
          refine ih stored (fun i hi => ?_) low run
          rcases Nat.lt_succ_iff_lt_or_eq.mp hi with before | rfl
          · exact chars i before
          · exact zero
      · -- the source has reached what was written first
        have same : k = d := Nat.le_antisymm inside high
        subst same
        rw [behind] at run
        rw [strcpy_never positive] at run
        · cases run
        · intro i hi
          have written : (src + BitVec.ofNat 32 k + BitVec.ofNat 32 i - dst) =
            BitVec.ofNat 32 i := by
            rw [behind]
            exact add_sub_cancel_left _ _
          have small : (BitVec.ofNat 32 i).toNat < k := by
            rw [BitVec.toNat_ofNat]
            exact Nat.lt_of_le_of_lt (Nat.mod_le _ _) hi
          rw [copied, written, if_pos small]
          exact chars i hi

/-! ## The addresses it uses -/

/-- The addresses that the loop reads and stores to, in `fuel` iterations. -/
def strcpyAccesses (mem : Memory) (dst src : Word) : Nat → List (Word × Word)
  | 0 => []
  | fuel + 1 =>
      let c := mem src
      let mem := Function.update mem dst c
      (src, dst) :: if c = 0 then [] else strcpyAccesses mem (dst + 1) (src + 1) fuel

/-- Byte `j` of a copy. -/
def accessAt (dst src : Word) (j : Nat) : Word × Word :=
  (src + BitVec.ofNat 32 j, dst + BitVec.ofNat 32 j)

/-- The bytes of the string that lie before what is written are all accessed. -/
theorem accessAt_mem {d j : Nat} (behind : dst = src + BitVec.ofNat 32 d) (range : d ≤ 2 ^ 32)
    (str : IsStr mem src n) (copied : CopiedTo mem mem' dst src k) (from_le : k ≤ j) (upto : j ≤ n)
    (before : j < d) (enough : j < k + fuel) :
    accessAt dst src j ∈
      strcpyAccesses mem' (dst + BitVec.ofNat 32 k) (src + BitVec.ofNat 32 k) fuel := by
  induction fuel generalizing mem' k with
  | zero => omega
  | succ fuel ih =>
      obtain ⟨read, stored⟩ := copied.next behind range (by omega)
      simp only [strcpyAccesses, read]
      obtain rfl | later := Nat.eq_or_lt_of_le from_le
      · exact List.mem_cons_self
      · rw [if_neg (str.chars k (by omega)), next_addr, next_addr]
        exact List.mem_cons_of_mem _ (ih stored later (by omega))

/-- A string that ends before what is written: the loop uses the addresses of
its bytes only. -/
theorem exists_accessAt {d : Nat} {e : Word × Word} (behind : dst = src + BitVec.ofNat 32 d)
    (range : d ≤ 2 ^ 32) (str : IsStr mem src n) (copied : CopiedTo mem mem' dst src k)
    (inside : k ≤ n) (before : n < d)
    (used : e ∈ strcpyAccesses mem' (dst + BitVec.ofNat 32 k) (src + BitVec.ofNat 32 k) fuel) :
    ∃ j ≤ n, e = accessAt dst src j := by
  induction fuel generalizing mem' k with
  | zero => cases used
  | succ fuel ih =>
      obtain ⟨read, stored⟩ := copied.next behind range (by omega)
      simp only [strcpyAccesses, read] at used
      obtain rfl | rest := List.mem_cons.mp used
      · exact ⟨k, inside, rfl⟩
      · obtain rfl | later := Nat.eq_or_lt_of_le inside
        · rw [if_pos str.terminated] at rest
          cases rest
        · rw [if_neg (str.chars k later), next_addr, next_addr] at rest
          exact ih stored later rest

/-- Such a string is copied in full, and the loop returns. -/
theorem strcpy_returns {d : Nat} (behind : dst = src + BitVec.ofNat 32 d) (range : d ≤ 2 ^ 32)
    (str : IsStr mem src n) (copied : CopiedTo mem mem' dst src k) (inside : k ≤ n)
    (before : n < d) (enough : n < k + fuel) :
    ∃ final, strcpy mem' (dst + BitVec.ofNat 32 k) (src + BitVec.ofNat 32 k) fuel = some final := by
  induction fuel generalizing mem' k with
  | zero => omega
  | succ fuel ih =>
      obtain ⟨read, stored⟩ := copied.next behind range (by omega)
      simp only [strcpy, read]
      obtain rfl | later := Nat.eq_or_lt_of_le inside
      · rw [if_pos str.terminated]
        exact ⟨_, rfl⟩
      · rw [if_neg (str.chars k later), next_addr, next_addr]
        exact ih stored later (by omega)

/-- How far the destination is behind the source, 2^32 if it is the source. -/
theorem exists_behind (dst src : Word) :
    ∃ d, 0 < d ∧ d ≤ 2 ^ 32 ∧ dst = src + BitVec.ofNat 32 d ∧
      (dst ≠ src → d = (dst - src).toNat) := by
  by_cases same : dst = src
  · refine ⟨2 ^ 32, by decide, Nat.le_refl _, ?_, fun differ => absurd same differ⟩
    rw [same]
    exact (BitVec.add_zero src).symm
  · have behind : dst = src + BitVec.ofNat 32 (dst - src).toNat := by
      rw [BitVec.ofNat_toNat, BitVec.setWidth_eq, BitVec.add_comm, BitVec.sub_add_cancel]
    refine ⟨(dst - src).toNat, ?_, Nat.le_of_lt (dst - src).isLt, behind, fun _ => rfl⟩
    apply Nat.pos_of_ne_zero
    intro zero
    apply same
    rw [behind, zero]
    exact BitVec.add_zero src

theorem CopiedTo.start : CopiedTo mem mem dst src 0 := fun a => by rw [if_neg (Nat.not_lt_zero _)]

/-- A `strcpy` that returns has copied the string and its terminator. -/
theorem strcpy_spec (run : strcpy mem dst src fuel = some mem') :
    ∃ n, n < 2 ^ 32 ∧ IsStr mem src n ∧ CopiedTo mem mem' dst src (n + 1) := by
  have begin : strcpy mem (dst + BitVec.ofNat 32 0) (src + BitVec.ofNat 32 0) fuel = some mem' := by
    simpa using run
  obtain ⟨d, positive, range, behind, -⟩ := exists_behind dst src
  obtain ⟨n, low, str, copied⟩ :=
    strcpy_from behind range .start (fun i hi => absurd hi (Nat.not_lt_zero i))
      (Nat.zero_le _) positive begin
  exact ⟨n, by omega, str, copied⟩

end Mos
