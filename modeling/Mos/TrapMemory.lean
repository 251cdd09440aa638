import Mos.Env
import Mos.InitStack

/-!
# Trap frames in memory

A `struct Trapframe` is 38 words. Storing one at an address and loading it from
there again gives the same frame, whatever is stored elsewhere in between.
-/

namespace Mos

open Stack (Memory loadWord)

variable {mem mem' : Memory} {a b w : Word} {tf : Trapframe} {j k : Nat}

/-- `sizeof(struct Trapframe)`, as a number. -/
def trapframeBytes : Nat := 152

/-- Word `j` of the structure. -/
def Trapframe.word (tf : Trapframe) (j : Nat) : Word :=
  if h : j < 32 then tf.regs ⟨j, h⟩
  else match j with
    | 32 => tf.cp0Status
    | 33 => tf.hi
    | 34 => tf.lo
    | 35 => tf.cp0Badvaddr
    | 36 => tf.cp0Cause
    | _ => tf.cp0Epc

/-- Byte `k` of the structure. -/
def Trapframe.byte (tf : Trapframe) (k : Nat) : Byte :=
  (tf.word (k / 4) >>> (8 * (k % 4))).setWidth 8

/-- `*(struct Trapframe *)a` -/
def loadTf (mem : Memory) (a : Word) : Trapframe where
  regs := fun i => loadWord mem (a + BitVec.ofNat 32 (4 * i.val))
  cp0Status := loadWord mem (a + 128)
  hi := loadWord mem (a + 132)
  lo := loadWord mem (a + 136)
  cp0Badvaddr := loadWord mem (a + 140)
  cp0Cause := loadWord mem (a + 144)
  cp0Epc := loadWord mem (a + 148)

/-- `*(struct Trapframe *)a = tf` -/
def storeTf (mem : Memory) (a : Word) (tf : Trapframe) : Memory := fun x =>
  if (x - a).toNat < trapframeBytes then tf.byte (x - a).toNat else mem x

theorem storeTf_outside (h : trapframeBytes ≤ (b - a).toNat) : storeTf mem a tf b = mem b :=
  if_neg (Nat.not_lt.mpr h)

theorem storeTf_inside (h : k < trapframeBytes) :
    storeTf mem a tf (a + BitVec.ofNat 32 k) = tf.byte k := by
  have small : k < 152 := h
  have off : (a + BitVec.ofNat 32 k - a).toNat = k := by bv_omega
  rw [storeTf, off, if_pos h]

/-- A word is made of its bytes. -/
theorem loadWord_eq (bytes : ∀ k < 4, mem (a + BitVec.ofNat 32 k) = (w >>> (8 * k)).setWidth 8) :
    loadWord mem a = w := by
  have first := bytes 0 (by decide)
  rw [show a + BitVec.ofNat 32 0 = a from BitVec.add_zero a] at first
  have load : loadWord mem a = (w >>> (8 * 3)).setWidth 8 ++
      (w >>> (8 * 2)).setWidth 8 ++ (w >>> (8 * 1)).setWidth 8 ++ (w >>> (8 * 0)).setWidth 8 := by
    rw [loadWord, ← bytes 3 (by decide), ← bytes 2 (by decide), ← bytes 1 (by decide), ← first]
    rfl
  rw [load]
  apply BitVec.eq_of_getLsbD_eq
  intro i hi
  simp only [BitVec.getLsbD_append, BitVec.getLsbD_setWidth, BitVec.getLsbD_ushiftRight]
  split_ifs <;> rw [decide_eq_true (by omega), Bool.true_and] <;> congr 1 <;> omega

/-- A word shows its bytes. -/
theorem byte_of_loadWord (mem : Memory) (a : Word) (hk : k < 4) :
    mem (a + BitVec.ofNat 32 k) = (loadWord mem a >>> (8 * k)).setWidth 8 := by
  have first : a + BitVec.ofNat 32 0 = a := BitVec.add_zero a
  unfold loadWord
  apply BitVec.eq_of_getLsbD_eq
  intro i hi
  rw [BitVec.getLsbD_setWidth, BitVec.getLsbD_ushiftRight, decide_eq_true hi, Bool.true_and]
  simp only [BitVec.getLsbD_append]
  match k, hk with
  | 0, _ => rw [first]; simp [hi]
  | 1, _ => simp [show ¬ 8 + i < 8 by omega, show 8 + i - 8 = i by omega, hi]
  | 2, _ =>
      simp [show ¬ 16 + i < 8 by omega, show ¬ 16 + i - 8 < 8 by omega,
        show 16 + i - 8 - 8 = i by omega, hi]
  | 3, _ =>
      simp [show ¬ 24 + i < 8 by omega, show ¬ 24 + i - 8 < 8 by omega,
        show ¬ 24 + i - 8 - 8 < 8 by omega, show 24 + i - 8 - 8 - 8 = i by omega]

theorem loadWord_congr
    (same : ∀ k < 4, mem (a + BitVec.ofNat 32 k) = mem' (a + BitVec.ofNat 32 k)) :
    loadWord mem a = loadWord mem' a :=
  loadWord_eq fun k hk => (same k hk).trans (byte_of_loadWord mem' a hk)

/-- The words of a frame determine it. -/
theorem Trapframe.eq_of_word {tf tf' : Trapframe} (same : ∀ j < 38, tf.word j = tf'.word j) :
    tf = tf' := by
  have regs : tf.regs = tf'.regs := by
    funext i
    have word := same i.val (by omega)
    simpa only [Trapframe.word, i.isLt, dite_true] using word
  cases tf
  cases tf'
  cases regs
  have status := same 32 (by decide)
  have hi := same 33 (by decide)
  have lo := same 34 (by decide)
  have badvaddr := same 35 (by decide)
  have cause := same 36 (by decide)
  have epc := same 37 (by decide)
  simp only [Trapframe.word] at status hi lo badvaddr cause epc
  simp_all

theorem loadTf_word (hj : j < 38) :
    (loadTf mem a).word j = loadWord mem (a + BitVec.ofNat 32 (4 * j)) := by
  unfold Trapframe.word
  by_cases reg : j < 32
  · rw [dif_pos reg]
    rfl
  · rw [dif_neg reg]
    obtain rfl | rfl | rfl | rfl | rfl | rfl : j = 32 ∨ j = 33 ∨ j = 34 ∨ j = 35 ∨ j = 36 ∨
      j = 37 :=
      by omega
    all_goals rfl

/-- The address of byte `k` of word `j`. -/
theorem wordAddr (a : Word) (j k : Nat) :
    a + BitVec.ofNat 32 (4 * j) + BitVec.ofNat 32 k = a + BitVec.ofNat 32 (4 * j + k) := by
  rw [BitVec.add_assoc, BitVec.ofNat_add]

theorem loadTf_storeTf : loadTf (storeTf mem a tf) a = tf := by
  apply Trapframe.eq_of_word
  intro j hj
  rw [loadTf_word hj]
  apply loadWord_eq
  intro k hk
  rw [wordAddr, storeTf_inside (by unfold trapframeBytes; omega), Trapframe.byte,
    show (4 * j + k) / 4 = j by omega, show (4 * j + k) % 4 = k by omega]

/-- A frame depends on its bytes only. -/
theorem loadTf_congr
    (same : ∀ k < trapframeBytes, mem (a + BitVec.ofNat 32 k) = mem' (a + BitVec.ofNat 32 k)) :
    loadTf mem a = loadTf mem' a := by
  apply Trapframe.eq_of_word
  intro j hj
  rw [loadTf_word hj, loadTf_word hj]
  apply loadWord_congr
  intro k hk
  rw [wordAddr]
  exact same _ (by unfold trapframeBytes; omega)

/-- A byte of memory is that of the frame it belongs to. -/
theorem byte_of_loadTf (mem : Memory) (a : Word) (hk : k < trapframeBytes) :
    mem (a + BitVec.ofNat 32 k) = (loadTf mem a).byte k := by
  unfold trapframeBytes at hk
  have split : a + BitVec.ofNat 32 k =
      a + BitVec.ofNat 32 (4 * (k / 4)) + BitVec.ofNat 32 (k % 4) := by
    rw [wordAddr, Nat.div_add_mod]
  rw [split, byte_of_loadWord mem _ (Nat.mod_lt _ (by decide)), Trapframe.byte,
    loadTf_word (by omega)]

end Mos
