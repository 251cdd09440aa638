import Mathlib.Data.BitVec
import Mathlib.Tactic.Common

/-!
# Memory layout and page table entries

The address space layout and the page table entry format of `include/mmu.h`,
and the error codes of `include/error.h`. An address, a page table entry and a
user register are machine words; a physical page is its page number.
-/

namespace Mos

/-- `u_int` and `u_long`: a 32-bit machine word. -/
abbrev Word := BitVec 32

/-! ## Layout -/

/-- Bytes to a page. -/
def by2pg : Word := 4096#32

/-- Bytes mapped by a page directory entry. -/
def pdmap : Word := 4 * 1024 * 1024#32

def ulim : Word := 0x80000000#32
def uvpt : Word := ulim - pdmap
def upages : Word := uvpt - pdmap
def uenvs : Word := upages - pdmap
def utop : Word := uenvs
def uxstacktop : Word := utop
def ustacktop : Word := utop - 2 * by2pg
def utext : Word := pdmap
def ucow : Word := utext - by2pg
def utemp : Word := ucow - by2pg

/-! ## Entries -/

/-- `PTE_G`: the entry matches in every address space. -/
def pteG : Word := 0x0100#32

/-- `PTE_V`: the entry is valid. -/
def pteV : Word := 0x0200#32

/-- `PTE_D`: stores through the entry are allowed. -/
def pteD : Word := 0x0400#32

/-- `PTE_COW`: copy on write, reserved for software. -/
def pteCow : Word := 0x0001#32

/-- `PTE_LIBRARY`: shared memory, reserved for software. -/
def pteLibrary : Word := 0x0004#32

/-- `PDX`: the page directory index of an address. -/
def pdx (va : Word) : Nat := ((va >>> 22) &&& 0x03ff#32).toNat

/-- `PTX`: the page table index of an address. -/
def ptx (va : Word) : Nat := ((va >>> 12) &&& 0x03ff#32).toNat

/-- `PTE_ADDR`: an entry without its permission bits. -/
def pteAddr (pte : Word) : Word := pte &&& ~~~0xfff#32

/-- `PPN`, `VPN`: the page number field of an address. -/
def ppn (va : Word) : Nat := (va >>> 12).toNat

/-- `page2pa`: the physical address of a page. -/
def page2pa (pp : Nat) : Word := BitVec.ofNat 32 pp <<< 12

/-- The entry has all the bits of `flag`, one of the `PTE_*` flags, set. -/
def Word.Has (pte flag : Word) : Prop := pte &&& flag ≠ 0

instance (pte flag : Word) : Decidable (pte.Has flag) :=
  inferInstanceAs (Decidable (_ ≠ _))

/-! ## Errors -/

/-- The error codes a system call can return. -/
inductive Err
  | badEnv
  | inval
  | noMem
  | noSys
  | noFreeEnv
  | ipcNotRecv
  deriving DecidableEq, Repr

/-- The panics of the kernel, each at the check that raises it. -/
inductive Panic
  /-- `PADDR`/`KADDR` called with an invalid address. -/
  | kaddr
  /-- `pa2page called with invalid pa`. -/
  | pa2page
  /-- `assertion failed: pp->pp_ref == 0`, in `page_free`. -/
  | pageFree
  /-- `assertion failed: pp->pp_ref > 0`, in `page_decref`. -/
  | pageDecref
  /-- An assertion of `map_segment` on the alignment of its arguments. -/
  | mapSegment
  /-- `panic_on(expr)`: `expr` returned an error. -/
  | panicOn
  /-- `address too low`, in `passive_alloc`. -/
  | addressTooLow
  /-- `invalid memory`, in `passive_alloc`. -/
  | invalidMemory
  /-- `envs zone`, in `passive_alloc`. -/
  | envsZone
  /-- `pages zone`, in `passive_alloc`. -/
  | pagesZone
  /-- `kernel address`, in `passive_alloc`. -/
  | kernelAddress
  /-- `schedule: no runnable envs`. -/
  | noRunnableEnvs
  /-- `assertion failed: e->env_status == ENV_RUNNABLE`, in `env_run`. -/
  | envRun
  /-- The kernel follows a null pointer. -/
  | nullPointer
  deriving DecidableEq, Repr

/-! ## Word arithmetic of entries -/

theorem ppn_eq_div (va : Word) : ppn va = va.toNat / 2 ^ 12 := by
  simp [ppn, BitVec.toNat_ushiftRight, Nat.shiftRight_eq_div_pow]

theorem pdx_eq_div (va : Word) : pdx va = va.toNat / 2 ^ 22 := by
  have small : va.toNat / 2 ^ 22 < 2 ^ 10 := by omega
  simp only [pdx, BitVec.toNat_and, BitVec.toNat_ushiftRight, Nat.shiftRight_eq_div_pow]
  rw [show (0x03ff#32).toNat = 2 ^ 10 - 1 from rfl, Nat.and_two_pow_sub_one_eq_mod,
    Nat.mod_eq_of_lt small]

theorem ptx_eq_mod (va : Word) : ptx va = va.toNat / 2 ^ 12 % 2 ^ 10 := by
  simp only [ptx, BitVec.toNat_and, BitVec.toNat_ushiftRight, Nat.shiftRight_eq_div_pow]
  rw [show (0x03ff#32).toNat = 2 ^ 10 - 1 from rfl, Nat.and_two_pow_sub_one_eq_mod]

theorem pdx_lt (va : Word) : pdx va < 1024 := by
  rw [pdx_eq_div]; omega

theorem ptx_lt (va : Word) : ptx va < 1024 := by
  rw [ptx_eq_mod]; omega

theorem ppn_pteAddr (pte : Word) : ppn (pteAddr pte) = ppn pte := by
  have mask : ∀ i, i < 32 → ((~~~0xfff#32).getLsbD (12 + i) = true ∨ 32 ≤ 12 + i) := by decide
  unfold ppn pteAddr
  congr 1
  apply BitVec.eq_of_getLsbD_eq
  intro i hi
  simp only [BitVec.getLsbD_ushiftRight, BitVec.getLsbD_and]
  rcases mask i hi with one | big
  · rw [one, Bool.and_true]
  · rw [BitVec.getLsbD_of_ge _ _ big, BitVec.getLsbD_of_ge _ _ big, Bool.and_false]

/-- Addresses of one page have the same table indices. -/
theorem pdx_ptx_of_ppn {va va' : Word} (h : ppn va' = ppn va) :
    pdx va' = pdx va ∧ ptx va' = ptx va := by
  rw [ppn_eq_div, ppn_eq_div] at h
  rw [pdx_eq_div, pdx_eq_div, ptx_eq_mod, ptx_eq_mod]
  omega

theorem pdx_pteAddr (va : Word) : pdx (pteAddr va) = pdx va := (pdx_ptx_of_ppn (ppn_pteAddr va)).1

theorem ptx_pteAddr (va : Word) : ptx (pteAddr va) = ptx va := (pdx_ptx_of_ppn (ppn_pteAddr va)).2

/-- The address with the table indices `i` and `j`. -/
theorem pdx_ptx_ofNat {i j : Nat} (hi : i < 1024) (hj : j < 1024) :
    pdx (BitVec.ofNat 32 (i * 2 ^ 22 + j * 2 ^ 12)) = i ∧
      ptx (BitVec.ofNat 32 (i * 2 ^ 22 + j * 2 ^ 12)) = j := by
  have small : i * 2 ^ 22 + j * 2 ^ 12 < 2 ^ 32 := by omega
  rw [pdx_eq_div, ptx_eq_mod, BitVec.toNat_ofNat, Nat.mod_eq_of_lt small]
  omega

/-- The two table indices of an address make up its page number. -/
theorem ppn_eq_pdx_ptx (va : Word) : ppn va = pdx va * 1024 + ptx va := by
  rw [ppn_eq_div, pdx_eq_div, ptx_eq_mod]; omega

@[simp] theorem utemp_toNat : utemp.toNat = 0x003fe000 := rfl
@[simp] theorem ucow_toNat : ucow.toNat = 0x003ff000 := rfl
@[simp] theorem ustacktop_toNat : ustacktop.toNat = 0x7f3fe000 := rfl
@[simp] theorem utop_toNat : utop.toNat = 0x7f400000 := rfl
@[simp] theorem uenvs_toNat : uenvs.toNat = 0x7f400000 := rfl
@[simp] theorem upages_toNat : upages.toNat = 0x7f800000 := rfl
@[simp] theorem uvpt_toNat : uvpt.toNat = 0x7fc00000 := rfl
@[simp] theorem ulim_toNat : ulim.toNat = 0x80000000 := rfl
@[simp] theorem by2pg_toNat : by2pg.toNat = 4096 := rfl

theorem pdx_lt_of_lt_utop {va : Word} (h : va < utop) : pdx va < 509 := by
  rw [BitVec.lt_def, utop_toNat] at h
  rw [pdx_eq_div]; omega

theorem pdx_window {va : Word} (lo : uvpt ≤ va) (hi : va < ulim) : pdx va = 511 := by
  rw [BitVec.le_def, uvpt_toNat] at lo
  rw [BitVec.lt_def, ulim_toNat] at hi
  rw [pdx_eq_div]
  omega

theorem page2pa_toNat {pp : Nat} (h : pp < 2 ^ 20) : (page2pa pp).toNat = pp * 2 ^ 12 := by
  simp only [page2pa, BitVec.toNat_shiftLeft, BitVec.toNat_ofNat, Nat.shiftLeft_eq]
  omega

theorem ppn_or (a b : Word) : ppn (a ||| b) = ppn a ||| ppn b := by
  rw [ppn_eq_div, ppn_eq_div, ppn_eq_div, BitVec.toNat_or, Nat.or_div_two_pow]

theorem ppn_page2pa {pp : Nat} (h : pp < 2 ^ 20) : ppn (page2pa pp) = pp := by
  rw [ppn_eq_div, page2pa_toNat h]; omega

theorem ppn_eq_zero {perm : Word} (h : perm < 0x1000#32) : ppn perm = 0 := by
  have : perm.toNat < 0x1000 := by simpa [BitVec.lt_def] using h
  rw [ppn_eq_div]; omega

/-- With permission bits below `0x1000` an entry names the page it was built
from. -/
theorem ppn_entry {pp : Nat} {perm : Word} (h : pp < 2 ^ 20) (hperm : perm < 0x1000#32) :
    ppn (page2pa pp ||| perm ||| pteV) = pp := by
  rw [ppn_or, ppn_or, ppn_page2pa h, ppn_eq_zero hperm, ppn_eq_zero (by decide)]
  simp

theorem or_eq_zero_iff {a b : Word} : a ||| b = 0 ↔ a = 0 ∧ b = 0 := by
  constructor
  · intro h
    have bits : ∀ i, a.getLsbD i = false ∧ b.getLsbD i = false := fun i => by
      simpa using congrArg (BitVec.getLsbD · i) h
    exact ⟨BitVec.eq_of_getLsbD_eq fun i _ => by simp [(bits i).1],
      BitVec.eq_of_getLsbD_eq fun i _ => by simp [(bits i).2]⟩
  · rintro ⟨rfl, rfl⟩
    simp

theorem Word.has_or (a b flag : Word) : (a ||| b).Has flag ↔ a.Has flag ∨ b.Has flag := by
  rw [Word.Has, Word.Has, Word.Has, BitVec.and_or_distrib_right, ne_eq, or_eq_zero_iff, not_and_or]

/-- The low bits of a page address are clear. -/
theorem page2pa_not_has {pp : Nat} {flag : Word} (h : flag < 0x1000#32) :
    ¬ (page2pa pp).Has flag := by
  simp only [Word.Has, ne_eq, not_not]
  apply BitVec.eq_of_toNat_eq
  have small : flag.toNat < 2 ^ 12 := by simpa [BitVec.lt_def] using h
  have low : (page2pa pp).toNat % 2 ^ 12 = 0 := by
    simp only [page2pa, BitVec.toNat_shiftLeft, BitVec.toNat_ofNat, Nat.shiftLeft_eq]
    omega
  rw [BitVec.toNat_and]
  apply Nat.eq_of_testBit_eq
  intro i
  rw [Nat.testBit_and]
  by_cases hi : i < 12
  · have bit := congrArg (Nat.testBit · i) low
    simp only [Nat.testBit_mod_two_pow, hi, decide_true, Bool.true_and, Nat.zero_testBit] at bit
    simp [bit]
  · have : flag.toNat.testBit i = false :=
      Nat.testBit_lt_two_pow (Nat.lt_of_lt_of_le small (Nat.pow_le_pow_right (by omega) (by omega)))
    simp [this]

/-- An entry built by `page_insert` is valid. -/
@[simp] theorem entry_valid (a perm : Word) : (a ||| perm ||| pteV).Has pteV :=
  (Word.has_or _ _ _).mpr (.inr (by decide))

end Mos
