import Mos.Dev
import Mos.Lib.While

/-!
# Copying and filling memory

`memcpy` and `memset` of `lib/string.c` with their loops as they are: chars up to a
word boundary, words, and the chars that are left. All pointers are 32 bits wide, so
that the bound `dst + 4` of the loop by words wraps when the range ends right below
the last word of the address space; that loop then never ends.
-/

namespace Mos

open Dev (Memory Copy)

namespace MemString

/-- `memcpy`: memory afterwards, and what it returns. -/
def memcpy (mem : Memory) (dst src n : Word) (fuel : Nat) : Option (Memory × Word) := do
  let max := dst + n
  let c : Copy := ⟨mem, dst, src⟩
  if src &&& 3 ≠ dst &&& 3 then
    let c ← whileLoop (fun c : Copy => c.dst < max) (Copy.move 1) fuel c
    return (c.mem, dst)
  let c ← whileLoop (fun c : Copy => c.dst &&& 3 ≠ 0 ∧ c.dst < max) (Copy.move 1) fuel c
  let c ← whileLoop (fun c : Copy => c.dst + 4 ≤ max) (Copy.move 4) fuel c
  let c ← whileLoop (fun c : Copy => c.dst < max) (Copy.move 1) fuel c
  return (c.mem, dst)

/-- The loops of `memset`: memory and the pointer. -/
structure Fill where
  mem : Memory
  dst : Word

/-- A byte is stored. -/
def Fill.putByte (byte : Byte) (f : Fill) : Fill :=
  ⟨Function.update f.mem f.dst byte, f.dst + 1⟩

/-- A word is stored, the low byte first. -/
def Fill.putWord (word : Word) (f : Fill) : Fill where
  mem := fun a =>
    if (a - f.dst).toNat < 4 then (word >>> (8 * (a - f.dst).toNat)).setWidth 8 else f.mem a
  dst := f.dst + 4

/-- `memset` -/
def memset (mem : Memory) (dst c n : Word) (fuel : Nat) : Option (Memory × Word) := do
  let max := dst + n
  let byte : Byte := (c &&& 0xff).setWidth 8
  let wide : Word := byte.setWidth 32
  let word := wide ||| wide <<< 8 ||| wide <<< 16 ||| wide <<< 24
  let f ← whileLoop (fun f : Fill => f.dst &&& 3 ≠ 0 ∧ f.dst < max) (Fill.putByte byte) fuel
    ⟨mem, dst⟩
  let f ← whileLoop (fun f : Fill => f.dst + 4 ≤ max) (Fill.putWord word) fuel f
  let f ← whileLoop (fun f : Fill => f.dst < max) (Fill.putByte byte) fuel f
  return (f.mem, dst)

/-- Memory after a loop that copies `n` bytes one by one. -/
def bytewiseCopy (mem : Memory) (dst src : Word) (n : Nat) : Memory :=
  ((Copy.move 1)^[n] ⟨mem, dst, src⟩).mem

/-- Memory after a loop that stores `byte` in `n` bytes one by one. -/
def bytewiseFill (mem : Memory) (dst : Word) (byte : Byte) (n : Nat) : Memory :=
  ((Fill.putByte byte)^[n] ⟨mem, dst⟩).mem

/-- The bytes outside of the range are as they were. -/
def OnlyIn (mem mem' : Memory) (dst : Word) (n : Nat) : Prop :=
  ∀ a, ¬(a - dst).toNat < n → mem' a = mem a

/-- `memcpy` returns `dst`, with memory as the loop by bytes leaves it. -/
def CopiesBytes (mem : Memory) (dst src n : Word) : Prop :=
  ∃ fuel, memcpy mem dst src n fuel = some (bytewiseCopy mem dst src n.toNat, dst) ∧
    OnlyIn mem (bytewiseCopy mem dst src n.toNat) dst n.toNat

/-- `memset` returns `dst`, with memory as the loop by bytes leaves it. -/
def FillsBytes (mem : Memory) (dst c n : Word) : Prop :=
  ∃ fuel, memset mem dst c n fuel = some (bytewiseFill mem dst (c.setWidth 8) n.toNat, dst) ∧
    OnlyIn mem (bytewiseFill mem dst (c.setWidth 8) n.toNat) dst n.toNat

variable {mem : Memory} {dst src n max : Word} {c : Copy} {f : Fill} {byte : Byte} {k m w : Nat}

/-! ## Alignment -/

theorem and_three (a : Word) : (a &&& 3).toNat = a.toNat % 4 := by
  rw [BitVec.toNat_and]
  exact Nat.and_two_pow_sub_one_eq_mod a.toNat 2

theorem and_three_eq_zero {a : Word} : a &&& 3 = 0 ↔ a.toNat % 4 = 0 := by
  rw [← and_three, BitVec.toNat_eq]
  rfl

theorem and_three_eq {a b : Word} : a &&& 3 = b &&& 3 ↔ a.toNat % 4 = b.toNat % 4 := by
  rw [← and_three, ← and_three, BitVec.toNat_eq]

/-! ## Words are four bytes -/

theorem sub_lt_one {d : Word} (small : w < 4) :
    (d - BitVec.ofNat 32 w).toNat < 1 ↔ d.toNat = w := by
  have := d.isLt
  rw [BitVec.toNat_sub, BitVec.toNat_ofNat]
  omega

/-- Moving one more byte at once, if that byte is not overwritten. -/
theorem move_succ (small : w < 4) (apart : w ≤ (c.src + BitVec.ofNat 32 w - c.dst).toNat) :
    Copy.move (w + 1) c = Copy.move 1 (Copy.move w c) := by
  have next : ∀ p : Word, p + BitVec.ofNat 32 (w + 1) = p + BitVec.ofNat 32 w + BitVec.ofNat 32 1 :=
    fun p => by rw [add_assoc, BitVec.ofNat_add]
  unfold Copy.move
  simp only [next, Copy.mk.injEq, and_self, and_true]
  funext a
  rw [sub_add_eq_sub_sub]
  generalize a - c.dst = d
  have step : c.src + BitVec.ofNat 32 w + (d - BitVec.ofNat 32 w) = c.src + d := by
    rw [add_assoc, add_sub_cancel]
  rw [step]
  by_cases last : d.toNat = w
  · have d_eq : BitVec.ofNat 32 w = d := by
      rw [← last, BitVec.ofNat_toNat, BitVec.setWidth_eq]
    rw [d_eq] at apart
    rw [if_pos (by omega), if_pos ((sub_lt_one small).mpr last), if_neg (by omega)]
  · rw [if_neg (mt (sub_lt_one small).mp last)]
    by_cases inside : d.toNat < w
    · rw [if_pos (by omega), if_pos inside]
    · rw [if_neg (by omega), if_neg inside]

/-- With pointers that are equally aligned, a word is copied like its four bytes. -/
theorem move_four (aligned : c.src.toNat % 4 = c.dst.toNat % 4) :
    Copy.move 4 c = (Copy.move 1)^[4] c := by
  have one := move_succ (c := c) (w := 1) (by decide) (by bv_omega)
  have two := move_succ (c := c) (w := 2) (by decide) (by bv_omega)
  have three := move_succ (c := c) (w := 3) (by decide) (by bv_omega)
  rw [three, two, one]
  rfl

/-! ## The three loops -/

section Loops

variable {σ : Type} {ptr : σ → Word} {one four : σ → σ} {s : σ} {fuel : Nat}
  (step : ∀ s, ptr (one s) = ptr s + 1)

include step

theorem ptr_iterate (m : Nat) (s : σ) : ptr (one^[m] s) = ptr s + BitVec.ofNat 32 m := by
  induction m generalizing s with
  | zero => simp
  | succ m ih =>
      rw [Function.iterate_succ_apply, ih, step, add_assoc, Nat.add_comm, BitVec.ofNat_add]
      rfl

theorem ptr_iterate_toNat (inside : (ptr s).toNat + k = max.toNat) (le : m ≤ k) :
    (ptr (one^[m] s)).toNat = (ptr s).toNat + m := by
  have bound := max.isLt
  rw [ptr_iterate step, BitVec.toNat_add, BitVec.toNat_ofNat]
  omega

/-- The loop by chars, `k` bytes before the end. -/
theorem chars_run (inside : (ptr s).toNat + k = max.toNat) (enough : k < fuel) :
    whileLoop (fun s => ptr s < max) one fuel s = some (one^[k] s) := by
  refine whileLoop_iterate (fun i lt => ?_) ?_ enough
  · rw [BitVec.lt_def, ptr_iterate_toNat step inside (Nat.le_of_lt lt)]
    omega
  · rw [BitVec.lt_def, ptr_iterate_toNat step inside (Nat.le_refl k)]
    omega

/-- The loop up to a word boundary, or to the end. -/
theorem head_run (inside : (ptr s).toNat + k = max.toNat) (enough : k < fuel) :
    ∃ m ≤ k, whileLoop (fun s => ptr s &&& 3 ≠ 0 ∧ ptr s < max) one fuel s = some (one^[m] s) ∧
      (((ptr s).toNat + m) % 4 = 0 ∨ m = k) := by
  have here : ∀ m ≤ k, (ptr (one^[m] s)).toNat = (ptr s).toNat + m := fun m le =>
    ptr_iterate_toNat step inside le
  let m := min k ((4 - (ptr s).toNat % 4) % 4)
  have le : m ≤ k := Nat.min_le_left ..
  have ends : ((ptr s).toNat + m) % 4 = 0 ∨ m = k := by omega
  refine ⟨m, le, whileLoop_iterate (fun i lt => ⟨?_, ?_⟩) ?_ (Nat.lt_of_le_of_lt le enough), ends⟩
  · rw [ne_eq, and_three_eq_zero, here i (by omega)]
    omega
  · rw [BitVec.lt_def, here i (by omega)]
    omega
  · rintro ⟨odd, below⟩
    rw [ne_eq, and_three_eq_zero, here m le] at odd
    rw [BitVec.lt_def, here m le] at below
    omega

variable {P : σ → Prop} (keeps : ∀ s, P s → P (one s)) (word : ∀ s, P s → four s = one^[4] s)

include keeps

omit step in
theorem keeps_iterate (holds : P s) (m : Nat) : P (one^[m] s) := by
  induction m generalizing s with
  | zero => exact holds
  | succ m ih => exact ih (keeps s holds)

include word

omit step in
theorem words_eq (holds : P s) (m : Nat) : four^[m] s = one^[m * 4] s := by
  induction m generalizing s with
  | zero => rfl
  | succ m ih =>
      have next : P (four s) := by
        rw [word s holds]
        exact keeps_iterate keeps holds 4
      rw [Function.iterate_succ_apply, ih next, word s holds, ← Function.iterate_add_apply,
        Nat.succ_mul]

/-- The loop by words, if there is a word behind the end. -/
theorem words_run (holds : P s) (inside : (ptr s).toNat + k = max.toNat)
    (room : max.toNat + 4 < 2 ^ 32) (enough : k < fuel) :
    whileLoop (fun s => ptr s + 4 ≤ max) four fuel s = some (one^[k / 4 * 4] s) := by
  have test : ∀ m ≤ k, ptr (one^[m] s) + 4 ≤ max ↔ m + 4 ≤ k := by
    intro m le
    rw [BitVec.le_def, BitVec.toNat_add, ptr_iterate_toNat step inside le]
    change ((ptr s).toNat + m + 4) % 2 ^ 32 ≤ _ ↔ _
    omega
  rw [← words_eq keeps word holds]
  refine whileLoop_iterate (fun i lt => ?_) ?_ (by omega)
  · rw [words_eq keeps word holds, test _ (by omega)]
    omega
  · rw [words_eq keeps word holds, test _ (by omega)]
    omega

/-- The loop by words does not end if the end is the last word of the address space. -/
theorem words_diverge (holds : P s) (last : max.toNat + 4 = 2 ^ 32)
    (aligned : (ptr s).toNat % 4 = 0) (fuel : Nat) :
    whileLoop (fun s => ptr s + 4 ≤ max) four fuel s = none := by
  refine whileLoop_diverges (P := fun s => P s ∧ (ptr s).toNat % 4 = 0) ?_ ⟨holds, aligned⟩ fuel
  rintro s ⟨holds, aligned⟩
  have bound := (ptr s).isLt
  have next : ptr (one^[4] s) = ptr s + 4 := ptr_iterate step 4 s
  have value : (ptr s + 4).toNat = ((ptr s).toNat + 4) % 2 ^ 32 := BitVec.toNat_add ..
  refine ⟨?_, ?_, ?_⟩
  · rw [BitVec.le_def, value]
    omega
  · rw [word s holds]
    exact keeps_iterate keeps holds 4
  · rw [word s holds, next, value]
    omega

/-- The three loops, one after the other. -/
def threeLoops (ptr : σ → Word) (one four : σ → σ) (max : Word) (fuel : Nat) (s : σ) :
    Option σ := do
  let s ← whileLoop (fun s => ptr s &&& 3 ≠ 0 ∧ ptr s < max) one fuel s
  let s ← whileLoop (fun s => ptr s + 4 ≤ max) four fuel s
  whileLoop (fun s => ptr s < max) one fuel s

/-- The loops meet: together they go through all `k` bytes. -/
theorem threeLoops_run (holds : P s) (inside : (ptr s).toNat + k = max.toNat)
    (room : max.toNat + 4 < 2 ^ 32) : threeLoops ptr one four max (k + 1) s = some (one^[k] s) := by
  obtain ⟨m, le, head, -⟩ := head_run step inside (Nat.lt_succ_self k)
  have at_m : (ptr (one^[m] s)).toNat + (k - m) = max.toNat := by
    rw [ptr_iterate_toNat step inside le]
    omega
  have words := words_run step keeps word (keeps_iterate keeps holds m) at_m room
    (show k - m < k + 1 by omega)
  rw [← Function.iterate_add_apply] at words
  have at_tail : (ptr (one^[(k - m) / 4 * 4 + m] s)).toNat + (k - m) % 4 = max.toNat := by
    rw [ptr_iterate_toNat step inside (by omega)]
    omega
  have tail := chars_run step at_tail (show (k - m) % 4 < k + 1 by omega)
  rw [← Function.iterate_add_apply, show (k - m) % 4 + ((k - m) / 4 * 4 + m) = k by omega] at tail
  rw [threeLoops, head, Option.bind_eq_bind, Option.bind_some, words, Option.bind_some, tail]

theorem threeLoops_diverge (holds : P s) (inside : (ptr s).toNat + k = max.toNat)
    (last : max.toNat + 4 = 2 ^ 32) (fuel : Nat) : threeLoops ptr one four max fuel s = none := by
  rw [threeLoops]
  cases head : whileLoop (fun s => ptr s &&& 3 ≠ 0 ∧ ptr s < max) one fuel s with
  | none => rfl
  | some t =>
      obtain ⟨m, le, run, ends⟩ := head_run step inside (Nat.lt_succ_self k)
      have more := whileLoop_mono head (Nat.le_max_left fuel (k + 1))
      rw [whileLoop_mono run (Nat.le_max_right fuel (k + 1))] at more
      cases more
      have aligned : (ptr (one^[m] s)).toNat % 4 = 0 := by
        rw [ptr_iterate_toNat step inside le]
        omega
      rw [Option.bind_eq_bind, Option.bind_some,
        words_diverge step keeps word (keeps_iterate keeps holds m) last aligned]
      rfl

end Loops

/-! ## `memcpy` -/

theorem memcpy_eq (fuel : Nat) : memcpy mem dst src n fuel =
    if src &&& 3 ≠ dst &&& 3 then
      (whileLoop (fun c : Copy => c.dst < dst + n) (Copy.move 1) fuel ⟨mem, dst, src⟩).map
        fun c => (c.mem, dst)
    else
      (threeLoops Copy.dst (Copy.move 1) (Copy.move 4) (dst + n) fuel ⟨mem, dst, src⟩).map
        fun c => (c.mem, dst) := by
  unfold memcpy threeLoops
  simp only [Option.map_eq_bind, Option.bind_eq_bind, Option.bind_assoc]
  rfl

theorem end_toNat (below : dst.toNat + n.toNat < 2 ^ 32) :
    dst.toNat + n.toNat = (dst + n).toNat := by
  rw [BitVec.toNat_add, Nat.mod_eq_of_lt below]

/-- The pointers stay equally aligned. -/
theorem aligned_move (aligned : c.src.toNat % 4 = c.dst.toNat % 4) :
    (Copy.move 1 c).src.toNat % 4 = (Copy.move 1 c).dst.toNat % 4 := by
  unfold Copy.move
  bv_omega

theorem onlyIn_bytewiseCopy (mem : Memory) (dst src : Word) {n : Nat} (small : n < 2 ^ 32) :
    OnlyIn mem (bytewiseCopy mem dst src n) dst n := by
  intro a outside
  induction n with
  | zero => rfl
  | succ n ih =>
      have here : ((Copy.move 1)^[n] ⟨mem, dst, src⟩).dst = dst + BitVec.ofNat 32 n :=
        @ptr_iterate _ Copy.dst _ (fun _ => rfl) n _
      rw [← ih (by omega) (by omega), bytewiseCopy, Function.iterate_succ_apply']
      refine if_neg ?_
      rw [here, sub_add_eq_sub_sub, BitVec.toNat_sub, BitVec.toNat_ofNat]
      have := (a - dst).isLt
      omega

/-- `memcpy` is the loop by bytes unless its loop by words never ends. -/
theorem copiesBytes_iff (fits : dst.toNat + n.toNat + 4 ≤ 2 ^ 32) :
    CopiesBytes mem dst src n ↔
      dst.toNat + n.toNat + 4 < 2 ^ 32 ∨ src.toNat % 4 ≠ dst.toNat % 4 := by
  have inside := @end_toNat dst n (by omega)
  have only := onlyIn_bytewiseCopy mem dst src n.isLt
  have step : ∀ c : Copy, (Copy.move 1 c).dst = c.dst + 1 := fun _ => rfl
  have word : ∀ c : Copy, c.src.toNat % 4 = c.dst.toNat % 4 → Copy.move 4 c = (Copy.move 1)^[4] c :=
    fun _ => move_four
  by_cases same : src.toNat % 4 = dst.toNat % 4
  · have test : ¬(src &&& 3 ≠ dst &&& 3) := not_not_intro (and_three_eq.mpr same)
    by_cases room : dst.toNat + n.toNat + 4 < 2 ^ 32
    · refine iff_of_true ⟨n.toNat + 1, ?_, only⟩ (.inl room)
      rw [memcpy_eq, if_neg test, @threeLoops_run _ _ _ Copy.dst _ _ _ step
        (fun c => c.src.toNat % 4 = c.dst.toNat % 4) (fun _ => aligned_move) word same
        inside (by omega)]
      rfl
    · refine iff_of_false ?_ (by omega)
      rintro ⟨fuel, run, -⟩
      rw [memcpy_eq, if_neg test, @threeLoops_diverge _ _ _ Copy.dst _ _ _ step
        (fun c => c.src.toNat % 4 = c.dst.toNat % 4) (fun _ => aligned_move) word same
        inside (by omega)] at run
      cases run
  · refine iff_of_true ⟨n.toNat + 1, ?_, only⟩ (.inr same)
    rw [memcpy_eq, if_pos (mt and_three_eq.mp same),
      @chars_run _ _ _ Copy.dst _ _ _ step inside (Nat.lt_succ_self _)]
    rfl

/-- The copy between user memory and the devices, whose loops are counted, is this one. -/
theorem memcpy_dev (room : dst.toNat + n.toNat + 4 < 2 ^ 32) :
    ∃ fuel, memcpy mem dst src n fuel = some (Dev.memcpy mem dst src n, dst) := by
  obtain ⟨fuel, run, -⟩ := (@copiesBytes_iff mem dst src n (by omega)).mpr (.inl room)
  refine ⟨fuel, run.trans (congrArg (fun m => some (m, dst)) ?_)⟩
  have inside := @end_toNat dst n (by omega)
  have step : ∀ c : Copy, (Copy.move 1 c).dst = c.dst + 1 := fun _ => rfl
  have left : ∀ m ≤ n.toNat, ((Copy.move 1)^[m] ⟨mem, dst, src⟩).left (dst + n) = n.toNat - m := by
    intro m le
    have here : ((Copy.move 1)^[m] ⟨mem, dst, src⟩).dst.toNat = dst.toNat + m :=
      @ptr_iterate_toNat _ _ _ _ Copy.dst _ _ step inside le
    rw [Copy.left, here]
    omega
  have none_yet : (Copy.mk mem dst src).left (dst + n) = n.toNat := left 0 (Nat.zero_le _)
  unfold Dev.memcpy bytewiseCopy
  by_cases same : src.toNat % 4 = dst.toNat % 4
  · simp only [if_neg (not_not_intro (and_three_eq.mpr same)), Copy.align, Copy.words, Copy.chars,
      none_yet]
    generalize head : min n.toNat ((0 - dst) &&& 3).toNat = m
    have le : m ≤ n.toNat := by omega
    have words := words_eq (P := fun c : Copy => c.src.toNat % 4 = c.dst.toNat % 4)
      (s := (Copy.move 1)^[m] ⟨mem, dst, src⟩) (fun _ => aligned_move) (fun _ => move_four)
      (keeps_iterate (P := fun c : Copy => c.src.toNat % 4 = c.dst.toNat % 4)
        (fun _ => aligned_move) same m) ((n.toNat - m) / 4)
    rw [← Function.iterate_add_apply] at words
    rw [left m le, words, left _ (by omega), ← Function.iterate_add_apply,
      show n.toNat - ((n.toNat - m) / 4 * 4 + m) + ((n.toNat - m) / 4 * 4 + m) = n.toNat by omega]
  · simp only [if_pos (mt and_three_eq.mp same), Copy.chars, none_yet]

/-! ## `memset` -/

/-- The word of four equal bytes. -/
def wordOf (byte : Byte) : Word :=
  let wide : Word := byte.setWidth 32
  wide ||| wide <<< 8 ||| wide <<< 16 ||| wide <<< 24

theorem memset_eq (c : Word) (fuel : Nat) : memset mem dst c n fuel =
    (threeLoops Fill.dst (Fill.putByte (c.setWidth 8)) (Fill.putWord (wordOf (c.setWidth 8)))
      (dst + n) fuel ⟨mem, dst⟩).map fun f => (f.mem, dst) := by
  have low : (c &&& 0xff).setWidth 8 = c.setWidth 8 := by
    apply BitVec.eq_of_toNat_eq
    rw [BitVec.toNat_setWidth, BitVec.toNat_setWidth, BitVec.toNat_and]
    exact (congrArg (· % 2 ^ 8) (Nat.and_two_pow_sub_one_eq_mod c.toNat 8)).trans (Nat.mod_mod ..)
  unfold memset threeLoops
  rw [low]
  simp only [Option.map_eq_bind, Option.bind_eq_bind, Option.bind_assoc]
  rfl

/-- Each byte of the word is that byte. -/
theorem byte_wordOf (byte : Byte) {i : Nat} (inside : i < 4) :
    (wordOf byte >>> (8 * i)).setWidth 8 = byte := by
  have all : ∀ byte : Byte, ∀ i : Fin 4, (wordOf byte >>> (8 * i.val)).setWidth 8 = byte := by
    decide +kernel
  exact all byte ⟨i, inside⟩

theorem putBytes_mem (byte : Byte) (f : Fill) (small : m ≤ 2 ^ 32) (a : Word) :
    ((Fill.putByte byte)^[m] f).mem a = if (a - f.dst).toNat < m then byte else f.mem a := by
  induction m with
  | zero => rfl
  | succ m ih =>
      have here : ((Fill.putByte byte)^[m] f).dst = f.dst + BitVec.ofNat 32 m :=
        @ptr_iterate _ Fill.dst _ (fun _ => rfl) m _
      have bound := (a - f.dst).isLt
      rw [Function.iterate_succ_apply', Fill.putByte, here]
      by_cases last : (a - f.dst).toNat = m
      · have at_a : a = f.dst + BitVec.ofNat 32 m := by
          rw [← last, BitVec.ofNat_toNat, BitVec.setWidth_eq, add_sub_cancel]
        rw [if_pos (by omega), at_a]
        exact Function.update_self ..
      · have other : a ≠ f.dst + BitVec.ofNat 32 m := by
          rintro rfl
          rw [add_sub_cancel_left, BitVec.toNat_ofNat] at last
          omega
        refine (Function.update_of_ne other ..).trans ?_
        rw [ih (by omega)]
        by_cases inside : (a - f.dst).toNat < m
        · rw [if_pos inside, if_pos (by omega)]
        · rw [if_neg inside, if_neg (by omega)]

theorem putWord_eq (byte : Byte) (f : Fill) :
    Fill.putWord (wordOf byte) f = (Fill.putByte byte)^[4] f := by
  have mem : (Fill.putWord (wordOf byte) f).mem = ((Fill.putByte byte)^[4] f).mem := by
    funext a
    rw [putBytes_mem byte f (by decide)]
    unfold Fill.putWord
    by_cases inside : (a - f.dst).toNat < 4
    · simp only [if_pos inside, byte_wordOf byte inside]
    · simp only [if_neg inside]
  have ptr : ((Fill.putByte byte)^[4] f).dst = f.dst + 4 :=
    @ptr_iterate _ Fill.dst _ (fun _ => rfl) 4 f
  calc
    Fill.putWord (wordOf byte) f = ⟨(Fill.putWord (wordOf byte) f).mem, f.dst + 4⟩ := rfl
    _ = (Fill.putByte byte)^[4] f := by rw [mem, ← ptr]

/-- `memset` is the loop by bytes unless its loop by words never ends. -/
theorem fillsBytes_iff (c : Word) (fits : dst.toNat + n.toNat + 4 ≤ 2 ^ 32) :
    FillsBytes mem dst c n ↔ dst.toNat + n.toNat + 4 < 2 ^ 32 := by
  have inside := @end_toNat dst n (by omega)
  have step : ∀ f : Fill, (Fill.putByte (c.setWidth 8) f).dst = f.dst + 1 := fun _ => rfl
  have word : ∀ f : Fill, True →
      Fill.putWord (wordOf (c.setWidth 8)) f = (Fill.putByte (c.setWidth 8))^[4] f :=
    fun f _ => putWord_eq _ f
  by_cases room : dst.toNat + n.toNat + 4 < 2 ^ 32
  · refine iff_of_true ⟨n.toNat + 1, ?_, fun a outside => ?_⟩ room
    · rw [memset_eq, @threeLoops_run _ _ _ Fill.dst _ _ _ step (fun _ => True)
        (fun _ holds => holds) word trivial inside (by omega)]
      rfl
    · rw [bytewiseFill, putBytes_mem _ _ (Nat.le_of_lt n.isLt), if_neg outside]
  · refine iff_of_false ?_ room
    rintro ⟨fuel, run, -⟩
    rw [memset_eq, @threeLoops_diverge _ _ _ Fill.dst _ _ _ step (fun _ => True)
      (fun _ holds => holds) word trivial inside (by omega)] at run
    cases run

end MemString

open MemString

/-- Both routines do what the loops by bytes do, except for a range that ends four bytes
below the end of the address space and is filled, or copied by words. -/
theorem memory_bytewise_iff (mem : Memory) (dst src c n : Word)
    (fits : dst.toNat + n.toNat + 4 ≤ 2 ^ 32) :
    (CopiesBytes mem dst src n ↔
      dst.toNat + n.toNat + 4 < 2 ^ 32 ∨ src.toNat % 4 ≠ dst.toNat % 4) ∧
    (FillsBytes mem dst c n ↔ dst.toNat + n.toNat + 4 < 2 ^ 32) :=
  ⟨copiesBytes_iff fits, fillsBytes_iff c fits⟩

theorem memory_bytewise_iff_page :
    (CopiesBytes (fun _ => 0) 0x80400000 0x80401000 0x1000 ↔
      (0x80400000 : Word).toNat + (0x1000 : Word).toNat + 4 < 2 ^ 32 ∨
        (0x80401000 : Word).toNat % 4 ≠ (0x80400000 : Word).toNat % 4) ∧
    (FillsBytes (fun _ => 0) 0x80400000 0 0x1000 ↔
      (0x80400000 : Word).toNat + (0x1000 : Word).toNat + 4 < 2 ^ 32) :=
  memory_bytewise_iff _ 0x80400000 0x80401000 0 0x1000 (by decide)

/-- Copying nothing to the last word never ends, nor does filling nothing there. -/
theorem memory_not_bytewise :
    ¬∀ (mem : Memory) (dst src c n : Word), dst.toNat + n.toNat + 4 ≤ 2 ^ 32 →
      src.toNat + n.toNat + 4 ≤ 2 ^ 32 → CopiesBytes mem dst src n ∧ FillsBytes mem dst c n := by
  intro all
  have filled := (all (fun _ => 0) 0xfffffffc 0 0 0 (by decide) (by decide)).2
  exact absurd ((fillsBytes_iff 0 (by decide)).mp filled) (by decide)

end Mos
