import Mos.Strcpy

/-!
# The working directory

`sys_set_path` and `sys_get_path` copy a string between `pwd`, 1024 bytes of the
kernel, and an address of the caller. Neither looks at the address or at the
length. They are in bounds, and give the path back, exactly for a nonempty path
that fits in `pwd` and lies in user memory, and a buffer for it below `UTOP`
(`path_calls_iff`).
-/

namespace Mos

open Stack (Memory)

/-- The linker places `pwd` in the kernel's image, below its stack. -/
structure PwdPlaced (pwd : Word) : Prop where
  low : 0x80010000 ≤ pwd.toNat
  high : pwd.toNat + 1024 ≤ 0x803fff68

def sysSetPath (pwd : Word) (mem : Memory) (newpath : Word) (fuel : Nat) : Option Memory :=
  strcpy mem pwd newpath fuel

/-- `if (pwd[0] == 0) pwd[0] = '/'` -/
def startPwd (pwd : Word) (mem : Memory) : Memory :=
  if mem pwd = 0 then Function.update mem pwd 0x2f else mem

def sysGetPath (pwd : Word) (mem : Memory) (newpath : Word) (fuel : Nat) : Option Memory :=
  strcpy (startPwd pwd mem) newpath pwd fuel

/-- `sys_set_path` reads user addresses only, and stores into `pwd` only. -/
def SetInBounds (pwd : Word) (mem : Memory) (newpath : Word) : Prop :=
  ∀ fuel, ∀ e ∈ strcpyAccesses mem pwd newpath fuel, e.1 < ulim ∧ (e.2 - pwd).toNat < 1024

/-- `sys_get_path` stores to user addresses in [`UTEMP`, `UTOP`) only. -/
def GetInBounds (pwd : Word) (mem : Memory) (newpath : Word) : Prop :=
  ∀ fuel, ∀ e ∈ strcpyAccesses (startPwd pwd mem) newpath pwd fuel, utemp ≤ e.2 ∧ e.2 < utop

/-- A path of `n` characters at `p` is set, and asked for at `q`. -/
structure PathCalls (pwd : Word) (mem : Memory) (p : Word) (n : Nat) (q : Word) : Prop where
  set : SetInBounds pwd mem p
  get : ∀ fuel mem', sysSetPath pwd mem p fuel = some mem' → GetInBounds pwd mem' q
  same : ∃ fuel mem₁ mem₂, sysSetPath pwd mem p fuel = some mem₁ ∧
    sysGetPath pwd mem₁ q fuel = some mem₂ ∧
    ∀ i ≤ n, mem₂ (q + BitVec.ofNat 32 i) = mem (p + BitVec.ofNat 32 i)

variable {pwd p q : Word} {mem mem' : Memory} {n fuel : Nat}

theorem ulim_toNat' : ulim.toNat = 0x80000000 := rfl

/-- The first access of a copy. -/
theorem first_access (mem : Memory) (dst src : Word) : (src, dst) ∈ strcpyAccesses mem dst src 1 :=
  List.mem_cons_self

/-- The distance of two addresses that do not wrap around. -/
theorem sub_toNat_of_lt {a b : Word} (h : b.toNat < a.toNat) :
    (a - b).toNat = a.toNat - b.toNat := by
  have bound := a.isLt
  rw [BitVec.toNat_sub]
  omega

theorem sub_toNat_of_gt {a b : Word} (h : a.toNat < b.toNat) :
    (a - b).toNat = 2 ^ 32 + a.toNat - b.toNat := by
  have bound := b.isLt
  rw [BitVec.toNat_sub]
  omega

theorem add_ofNat_toNat {a : Word} {k : Nat} (h : a.toNat + k < 2 ^ 32) :
    (a + BitVec.ofNat 32 k).toNat = a.toNat + k := by
  rw [BitVec.toNat_add, BitVec.toNat_ofNat]
  omega

theorem add_ofNat_sub {a : Word} {k : Nat} (h : k < 2 ^ 32) :
    (a + BitVec.ofNat 32 k - a).toNat = k := by
  rw [add_sub_cancel_left, BitVec.toNat_ofNat, Nat.mod_eq_of_lt h]

theorem exists_behind_of_lt {dst src : Word} {j : Nat} (before : j < (dst - src).toNat) :
    ∃ d, dst = src + BitVec.ofNat 32 d ∧ d ≤ 2 ^ 32 ∧ j < d := by
  obtain ⟨d, -, range, behind, dist⟩ := exists_behind dst src
  refine ⟨d, behind, range, ?_⟩
  rw [dist]
  · exact before
  · intro same
    rw [same, sub_self] at before
    exact absurd before (Nat.not_lt_zero _)

/-- A copy whose source ends before what it writes returns. -/
theorem strcpy_whole {dst src : Word} (str : IsStr mem src n) (before : n < (dst - src).toNat)
    (enough : n < fuel) : ∃ final, strcpy mem dst src fuel = some final := by
  obtain ⟨d, behind, range, inside⟩ := exists_behind_of_lt before
  simpa using strcpy_returns behind range str .start (Nat.zero_le _) inside (by omega)

theorem access_of_mem {dst src : Word} {e : Word × Word} (str : IsStr mem src n)
    (before : n < (dst - src).toNat) (used : e ∈ strcpyAccesses mem dst src fuel) :
    ∃ j ≤ n, e = accessAt dst src j := by
  obtain ⟨d, behind, range, inside⟩ := exists_behind_of_lt before
  exact exists_accessAt behind range str .start (Nat.zero_le _) inside
    (by simpa using used)

/-- An access of a copy whose source does not reach what it writes. -/
theorem access_reached {dst src : Word} {j : Nat} (str : IsStr mem src n) (upto : j ≤ n)
    (before : j < (dst - src).toNat) :
    accessAt dst src j ∈ strcpyAccesses mem dst src (j + 1) := by
  obtain ⟨d, behind, range, inside⟩ := exists_behind_of_lt before
  have reached := @accessAt_mem _ _ _ _ n (j + 1) 0 _ j behind range str .start (Nat.zero_le j)
    upto inside (by omega)
  simpa using reached

section Calls

variable (placed : PwdPlaced pwd)

include placed

/-- `sys_set_path` is in bounds exactly for a path that fits, in user memory. -/
theorem setInBounds_iff (str : IsStr mem p n) :
    SetInBounds pwd mem p ↔ n < 1024 ∧ p.toNat + n < ulim.toNat := by
  obtain ⟨low, high⟩ := placed
  rw [ulim_toNat']
  constructor
  · intro inBounds
    have start : p.toNat < 0x80000000 := (inBounds 1 _ (first_access mem pwd p)).1
    have dist : (pwd - p).toNat = pwd.toNat - p.toNat := sub_toNat_of_lt (by omega)
    have user : p.toNat + n < 0x80000000 := by
      by_contra beyond
      have reached := @access_reached mem n pwd p (0x80000000 - p.toNat) str (by omega)
        (by omega)
      have below : (p + BitVec.ofNat 32 (0x80000000 - p.toNat)).toNat < 0x80000000 :=
        (inBounds _ _ reached).1
      rw [add_ofNat_toNat (by omega)] at below
      omega
    refine ⟨?_, user⟩
    by_contra long
    have reached := @access_reached mem n pwd p 1024 str (by omega) (by omega)
    have below : (pwd + BitVec.ofNat 32 1024 - pwd).toNat < 1024 := (inBounds _ _ reached).2
    rw [add_ofNat_sub (by decide)] at below
    omega
  · rintro ⟨fits, user⟩ fuel e used
    have dist : (pwd - p).toNat = pwd.toNat - p.toNat := sub_toNat_of_lt (by omega)
    obtain ⟨j, upto, rfl⟩ := access_of_mem str (by omega) used
    have read : (accessAt pwd p j).1.toNat < 0x80000000 := by
      rw [accessAt, add_ofNat_toNat (by omega)]
      omega
    refine ⟨read, ?_⟩
    rw [accessAt, add_ofNat_sub (by omega)]
    omega

/-- `sys_get_path` is in bounds exactly when the path in `pwd` and its
terminator fit between the buffer's address and `UTOP`. -/
theorem getInBounds_iff (str : IsStr (startPwd pwd mem) pwd n) (short : n < 1024) :
    GetInBounds pwd mem q ↔ utemp.toNat ≤ q.toNat ∧ q.toNat + n < utop.toNat := by
  obtain ⟨low, high⟩ := placed
  rw [utemp_toNat, utop_toNat]
  have away : ∀ below : q.toNat < 0x7f400000, n < (q - pwd).toNat := by
    intro below
    rw [sub_toNat_of_gt (by omega)]
    omega
  constructor
  · intro inBounds
    have first := inBounds 1 _ (first_access (startPwd pwd mem) q pwd)
    have start : 0x003fe000 ≤ q.toNat := first.1
    have below : q.toNat < 0x7f400000 := first.2
    have reached := access_reached str (Nat.le_refl n) (away below)
    have last : (q + BitVec.ofNat 32 n).toNat < 0x7f400000 := (inBounds _ _ reached).2
    rw [add_ofNat_toNat (by omega)] at last
    exact ⟨start, last⟩
  · rintro ⟨start, last⟩ fuel e used
    obtain ⟨j, upto, rfl⟩ := access_of_mem str (away (by omega)) used
    have value : (accessAt q pwd j).2.toNat = q.toNat + j := add_ofNat_toNat (by omega)
    have lower : 0x003fe000 ≤ (accessAt q pwd j).2.toNat := by omega
    have upper : (accessAt q pwd j).2.toNat < 0x7f400000 := by omega
    exact ⟨lower, upper⟩

end Calls

/-- A path that fits is in `pwd` after it was set. -/
theorem set_stores (str : IsStr mem p n) (fits : n < 1024)
    (run : sysSetPath pwd mem p fuel = some mem') :
    ∀ i ≤ n, mem' (pwd + BitVec.ofNat 32 i) = mem (p + BitVec.ofNat 32 i) := by
  obtain ⟨m, -, str', copied⟩ := strcpy_spec run
  obtain rfl := str'.unique str
  intro i upto
  rw [copied, add_sub_cancel_left, if_pos]
  rw [BitVec.toNat_ofNat, Nat.mod_eq_of_lt (by omega)]
  omega

/-- A nonempty path is left as it is by `sys_get_path`. -/
theorem path_after_set (str : IsStr mem p n) (nonempty : n ≠ 0)
    (held : ∀ i ≤ n, mem' (pwd + BitVec.ofNat 32 i) = mem (p + BitVec.ofNat 32 i)) :
    startPwd pwd mem' = mem' ∧ IsStr (startPwd pwd mem') pwd n := by
  have char := str.chars 0 (Nat.pos_of_ne_zero nonempty)
  rw [← held 0 (Nat.zero_le n), show pwd + BitVec.ofNat 32 0 = pwd from BitVec.add_zero pwd] at char
  have started : startPwd pwd mem' = mem' := if_neg char
  refine ⟨started, ?_⟩
  rw [started]
  refine ⟨fun i hi => ?_, (held n (Nat.le_refl n)).trans str.terminated⟩
  rw [held i (by omega)]
  exact str.chars i hi

/-- An empty path comes back as a slash. -/
theorem empty_path_slash (str : IsStr mem p 0) {mem₁ mem₂ : Memory}
    (setRun : sysSetPath pwd mem p fuel = some mem₁)
    (getRun : sysGetPath pwd mem₁ q fuel = some mem₂) : mem₂ q = 0x2f := by
  have held := set_stores str (by decide) setRun
  have empty : mem₁ pwd = 0 := by
    simpa using (held 0 (Nat.le_refl 0)).trans str.terminated
  have slash : startPwd pwd mem₁ pwd = 0x2f := by
    rw [startPwd, if_pos empty, Function.update_self]
  obtain ⟨m, -, -, copied⟩ := strcpy_spec getRun
  have zero : (0 : Word).toNat < m + 1 := Nat.succ_pos m
  rw [copied, sub_self, if_pos zero]
  exact (congrArg _ (BitVec.add_zero pwd)).trans slash

/-- A nonempty path comes back as it was. -/
theorem path_comes_back (placed : PwdPlaced pwd) (str : IsStr mem p n) (nonempty : n ≠ 0)
    (fits : n < 1024) (user : p.toNat + n < ulim.toNat) (buffer : q.toNat + n < utop.toNat) :
    ∃ fuel mem₁ mem₂, sysSetPath pwd mem p fuel = some mem₁ ∧
      sysGetPath pwd mem₁ q fuel = some mem₂ ∧
      ∀ i ≤ n, mem₂ (q + BitVec.ofNat 32 i) = mem (p + BitVec.ofNat 32 i) := by
  have range : p.toNat + n < 0x80000000 := user
  have below : q.toNat + n < 0x7f400000 := buffer
  have low := placed.low
  have high := placed.high
  have toPwd : n < (pwd - p).toNat := by
    rw [sub_toNat_of_lt (by omega)]
    omega
  have fromPwd : n < (q - pwd).toNat := by
    rw [sub_toNat_of_gt (by omega)]
    omega
  obtain ⟨mem₁, setRun⟩ := strcpy_whole str toPwd (Nat.lt_succ_self n)
  have held := set_stores str fits setRun
  obtain ⟨started, path⟩ := path_after_set str nonempty held
  obtain ⟨mem₂, getRun⟩ := strcpy_whole path fromPwd (Nat.lt_succ_self n)
  refine ⟨n + 1, mem₁, mem₂, setRun, getRun, fun i upto => ?_⟩
  obtain ⟨m, -, str', copied⟩ := strcpy_spec getRun
  obtain rfl := str'.unique path
  rw [copied, add_sub_cancel_left, if_pos, started]
  · exact held i upto
  · rw [BitVec.toNat_ofNat, Nat.mod_eq_of_lt (by omega)]
    omega

/-- The working-directory calls stay in bounds and give the path back exactly
for a nonempty path that fits, in user memory, and a user buffer that holds it. -/
theorem path_calls_iff (pwd : Word) (placed : PwdPlaced pwd) (mem : Memory) (p q : Word) (n : Nat)
    (str : IsStr mem p n) :
    PathCalls pwd mem p n q ↔
      n ≠ 0 ∧ n < 1024 ∧ p.toNat + n < ulim.toNat ∧
        utemp.toNat ≤ q.toNat ∧ q.toNat + n < utop.toNat := by
  constructor
  · rintro ⟨set, get, fuel, mem₁, mem₂, setRun, getRun, same⟩
    obtain ⟨fits, user⟩ := (setInBounds_iff placed str).mp set
    have held := set_stores str fits setRun
    have nonempty : n ≠ 0 := by
      rintro rfl
      have back := empty_path_slash str setRun getRun
      have path : mem₂ q = 0 := by simpa using (same 0 (Nat.le_refl 0)).trans str.terminated
      rw [back] at path
      cases path
    obtain ⟨-, path⟩ := path_after_set str nonempty held
    exact ⟨nonempty, fits, user, (getInBounds_iff placed path fits).mp (get fuel mem₁ setRun)⟩
  · rintro ⟨nonempty, fits, user, buffer⟩
    refine ⟨(setInBounds_iff placed str).mpr ⟨fits, user⟩, fun fuel mem' run => ?_,
      path_comes_back placed str nonempty fits user buffer.2⟩
    obtain ⟨-, path⟩ := path_after_set str nonempty (set_stores str fits run)
    exact (getInBounds_iff placed path fits).mpr buffer

/-- The path `/a` at 0x400000. -/
def pathAt : Memory := fun a => if a = 0x400000 then 0x2f else if a = 0x400001 then 0x61 else 0

theorem isStr_pathAt : IsStr pathAt 0x400000 2 :=
  ⟨fun i hi => match i, hi with
    | 0, _ => by decide
    | 1, _ => by decide, by decide⟩

theorem path_calls_iff_pathAt :
    PathCalls 0x80020000 pathAt 0x400000 2 0x500000 ↔
      2 ≠ 0 ∧ 2 < 1024 ∧ (0x400000 : Word).toNat + 2 < ulim.toNat ∧
        utemp.toNat ≤ (0x500000 : Word).toNat ∧ (0x500000 : Word).toNat + 2 < utop.toNat :=
  path_calls_iff 0x80020000 ⟨by decide, by decide⟩ pathAt 0x400000 0x500000 2 isStr_pathAt

/-- A buffer in the kernel is written to: here at its first instruction. -/
theorem path_calls_not_in_bounds :
    ¬ ∀ (pwd : Word) (mem : Memory) (p q : Word) (n : Nat), PwdPlaced pwd → IsStr mem p n →
      PathCalls pwd mem p n q := by
  intro all
  have calls := all 0x80020000 pathAt 0x400000 0x80010000 2 ⟨by decide, by decide⟩ isStr_pathAt
  obtain ⟨fuel, mem₁, mem₂, setRun, -, -⟩ := calls.same
  have stored := calls.get fuel mem₁ setRun 1 _ (first_access _ _ _)
  exact absurd stored.2 (by decide)

end Mos
