import Mos.Pipe
import Mos.Syscall
import Mathlib.Tactic.Ring

/-!
# The arguments of a new program

`init_stack` of `user/lib/spawn.c`: the arguments are laid out in a page at `UTEMP`, which
becomes the child's stack page. Memory is the caller's, all of it; the argument strings
lie elsewhere, and there is a page for the stack. Sums are those of the machine.

The word after the last pointer is meant to be null. It is the address of the last byte
of the stack page instead, so that no list that is accepted can be read back
(`init_stack_round_trips_iff`). Nothing else is wrong with a list that fits: with the null
in its place it can be (`Fits.layout_terminated`).
-/

namespace Mos.Stack

abbrev Memory := Word → Byte

/-- `*a = w` -/
def storeWord (mem : Memory) (a w : Word) : Memory := fun x =>
  if (x - a).toNat < 4 then (w >>> (8 * (x - a).toNat)).setWidth 8 else mem x

/-- `*a` -/
def loadWord (mem : Memory) (a : Word) : Word :=
  mem (a + 3) ++ mem (a + 2) ++ mem (a + 1) ++ mem a

/-- `ROUND(a, 4)` -/
def round4 (a : Word) : Word := (a + 3) &&& ~~~3

/-- An argument, without its terminator. -/
abbrev Str := List Byte

/-- `tot` -/
def total (argv : List Str) : Word :=
  argv.foldl (fun tot s => tot + (BitVec.ofNat 32 s.length + 1)) 0

/-- `argc` -/
def count (argv : List Str) : Word := BitVec.ofNat 32 argv.length

/-- What the strings, the array and the two words take. -/
def needs (argv : List Str) : Word := round4 (total argv) + 4 * (count argv + 3)

/-- Copy one string and its terminator to `ctemp`. -/
def copyString (mem : Memory) (ctemp : Word) : Str → Memory × Word
  | [] => (Function.update mem ctemp 0, ctemp + 1)
  | c :: s => copyString (Function.update mem ctemp c) (ctemp + 1) s

/-- Copy the strings. -/
def copyStrings (mem : Memory) (ctemp : Word) : List Str → Memory
  | [] => mem
  | s :: argv =>
      let (mem, ctemp) := copyString mem ctemp s
      copyStrings mem ctemp argv

/-- Set the pointers from `args` on to the strings from `ctemp` on, and return `ctemp`
after the last of them. -/
def setArgs (mem : Memory) (args ctemp : Word) : List Str → Memory × Word
  | [] => (mem, ctemp)
  | s :: argv =>
      setArgs (storeWord mem args ctemp) (args + 4) (ctemp + (BitVec.ofNat 32 s.length + 1)) argv

/-- `syscall_mem_alloc(0, UTEMP, PTE_D)` -/
def allocTemp (mem : Memory) : Memory := fun a => if (a - utemp).toNat < 4096 then 0 else mem a

/-- `init_stack`: the initial stack pointer, and what is at the child's addresses in
its stack page. -/
def initStack (mem : Memory) (argv : List Str) : Except Err (Word × Memory) :=
  let tot := total argv
  let argc := count argv
  if by2pg < needs argv then .error .noMem
  else
    let strings := utemp + by2pg - tot
    let args := utemp + by2pg - round4 tot - 4 * (argc + 1)
    let mem := copyStrings (allocTemp mem) strings argv
    let (mem, ctemp) := setArgs mem args (ustacktop - utemp - by2pg + strings) argv
    let ctemp := ctemp - 1
    let mem := storeWord mem (args + 4 * argc) ctemp
    let mem := storeWord mem (args - 4) (ustacktop - utemp - by2pg + args)
    let mem := storeWord mem (args - 8) argc
    .ok (ustacktop - utemp - by2pg + (args - 8), fun a => mem (a - ustacktop + utemp + by2pg))

/-! ## What the child should find -/

/-- The addresses from `a` on, as many as `n`. -/
def Within (a : Word) (n : Nat) (x : Nat) : Prop := a.toNat ≤ x ∧ x < a.toNat + n

/-- The strings, the array of pointers and the two words, each in its place on the
stack page. -/
structure Layout (argv : List Str) (sp : Word) (stack : Memory) : Prop where
  argc : loadWord stack sp = count argv
  string : ∀ i s, argv[i]? = some s →
    let p := loadWord stack (loadWord stack (sp + 4) + 4 * BitVec.ofNat 32 i)
    (∀ j c, s[j]? = some c → stack (p + BitVec.ofNat 32 j) = c) ∧
      stack (p + BitVec.ofNat 32 s.length) = 0 ∧
      (ustacktop - by2pg).toNat ≤ p.toNat ∧ p.toNat + s.length < ustacktop.toNat
  null : loadWord stack (loadWord stack (sp + 4) + 4 * count argv) = 0
  sp_le : (ustacktop - by2pg).toNat ≤ sp.toNat ∧ sp.toNat < ustacktop.toNat
  words_apart : ∀ x, Within sp 8 x → ¬ Within (loadWord stack (sp + 4)) (4 * (argv.length + 1)) x
  strings_apart : ∀ i s, argv[i]? = some s → ∀ x,
    Within (loadWord stack (loadWord stack (sp + 4) + 4 * BitVec.ofNat 32 i)) (s.length + 1) x →
      ¬ Within sp 8 x ∧ ¬ Within (loadWord stack (sp + 4)) (4 * (argv.length + 1)) x ∧
        ∀ i' s', argv[i']? = some s' → i' ≠ i → ¬ Within (loadWord stack
          (loadWord stack (sp + 4) + 4 * BitVec.ofNat 32 i')) (s'.length + 1) x

/-- How many bytes the strings take, with their terminators. -/
def stringBytes (argv : List Str) : Nat := (argv.map fun s => s.length + 1).sum

/-- Everything fits in one page. -/
def Fits (argv : List Str) : Prop :=
  (stringBytes argv + 3) / 4 * 4 + 4 * (argv.length + 3) ≤ 4096

/-- A list that is accepted can be read back, and those that do not fit are refused. -/
structure RoundTrips (mem : Memory) (argv : List Str) : Prop where
  layout : ∀ sp stack, initStack mem argv = .ok (sp, stack) → Layout argv sp stack
  refused : initStack mem argv = .error .noMem ↔ ¬ Fits argv

variable {mem : Memory} {argv : List Str} {a b w sp : Word}

/-! ## Words in memory -/

theorem loadWord_storeWord_self (mem : Memory) (a w : Word) :
    loadWord (storeWord mem a w) a = w := by
  have byte : ∀ k : Nat, k < 4 → storeWord mem a w (a + BitVec.ofNat 32 k) =
      (w >>> (8 * k)).setWidth 8 := by
    intro k hk
    have off : (a + BitVec.ofNat 32 k - a).toNat = k := by bv_omega
    rw [storeWord, off, if_pos hk]
  have first := byte 0 (by decide)
  rw [show a + BitVec.ofNat 32 0 = a from BitVec.add_zero a] at first
  have load : loadWord (storeWord mem a w) a = (w >>> (8 * 3)).setWidth 8 ++
      (w >>> (8 * 2)).setWidth 8 ++ (w >>> (8 * 1)).setWidth 8 ++ (w >>> (8 * 0)).setWidth 8 := by
    rw [loadWord, ← byte 3 (by decide), ← byte 2 (by decide), ← byte 1 (by decide), ← first]
    rfl
  rw [load]
  apply BitVec.eq_of_getLsbD_eq
  intro i hi
  simp only [BitVec.getLsbD_append, BitVec.getLsbD_setWidth, BitVec.getLsbD_ushiftRight]
  split_ifs <;> rw [decide_eq_true (by omega), Bool.true_and] <;> congr 1 <;> omega

/-- A store elsewhere does not change a word. -/
theorem loadWord_storeWord_of_apart (h : 4 ≤ (b - a).toNat) (h' : 4 ≤ (a - b).toNat) (w : Word) :
    loadWord (storeWord mem a w) b = loadWord mem b := by
  have off : ∀ k : Word, k.toNat < 4 → storeWord mem a w (b + k) = mem (b + k) := by
    intro k hk
    apply if_neg
    bv_omega
  have zero := off 0 (by decide)
  rw [show b + 0 = b from BitVec.add_zero b] at zero
  simp only [loadWord, off 1 (by decide), off 2 (by decide), off 3 (by decide), zero]

/-- A word seen at the child's address. -/
theorem loadWord_shift (mem : Memory) (a u t p : Word) :
    loadWord (fun x => mem (x - u + t + p)) a = loadWord mem (a - u + t + p) := by
  have move : ∀ k : Word, a + k - u + t + p = a - u + t + p + k := by
    intro k
    bv_omega
  simp only [loadWord, move]

/-! ## Sums -/

theorem total_from (argv : List Str) (t : Word) :
    argv.foldl (fun tot s => tot + (BitVec.ofNat 32 s.length + 1)) t = t + total argv := by
  induction argv generalizing t with
  | nil => exact (BitVec.add_zero t).symm
  | cons s argv ih =>
      have first : total (s :: argv) = BitVec.ofNat 32 s.length + 1 + total argv := by
        rw [total, List.foldl_cons, ih]
        bv_omega
      rw [List.foldl_cons, ih, first]
      bv_omega

theorem total_cons (s : Str) (argv : List Str) :
    total (s :: argv) = BitVec.ofNat 32 s.length + 1 + total argv := by
  rw [total, List.foldl_cons, total_from]
  bv_omega

theorem stringBytes_cons (s : Str) (argv : List Str) :
    stringBytes (s :: argv) = s.length + 1 + stringBytes argv := by
  rw [stringBytes, List.map_cons, List.sum_cons]
  rfl

theorem total_eq (argv : List Str) : total argv = BitVec.ofNat 32 (stringBytes argv) := by
  induction argv with
  | nil => rfl
  | cons s argv ih =>
      rw [total_cons, ih, stringBytes_cons, BitVec.ofNat_add, BitVec.ofNat_add]
      rfl

/-- The pointers are set string by string. -/
theorem setArgs_end (mem : Memory) (args ctemp : Word) (argv : List Str) :
    (setArgs mem args ctemp argv).2 = ctemp + total argv := by
  induction argv generalizing mem args ctemp with
  | nil => exact (BitVec.add_zero ctemp).symm
  | cons s argv ih =>
      rw [setArgs, ih, total_cons]
      bv_omega

theorem round4_toNat {a : Word} (h : a.toNat + 3 < 2 ^ 32) :
    (round4 a).toNat = (a.toNat + 3) / 4 * 4 := by
  have clear : (a + 3#32) &&& ~~~3#32 = ((a + 3) >>> 2) <<< 2 := by
    apply BitVec.eq_of_getLsbD_eq
    intro i hi
    have mask : ∀ i, i < 32 → (~~~3#32).getLsbD i = !decide (i < 2) := by decide
    rw [BitVec.getLsbD_and, BitVec.getLsbD_shiftLeft, BitVec.getLsbD_ushiftRight,
      mask i hi]
    by_cases low : i < 2
    · simp [low]
    · simp [low, hi, show 2 + (i - 2) = i by omega]
  have sum : (a + 3).toNat = a.toNat + 3 := by bv_omega
  show ((a + 3#32) &&& ~~~3#32).toNat = _
  rw [clear, BitVec.toNat_shiftLeft, BitVec.toNat_ushiftRight, sum,
    Nat.shiftRight_eq_div_pow, Nat.shiftLeft_eq]
  omega

/-- The check in the arithmetic of the machine refuses no list that fits. -/
theorem Fits.accepted (fits : Fits argv) : ¬ by2pg < needs argv ∧
    (round4 (total argv)).toNat = (stringBytes argv + 3) / 4 * 4 ∧
    (count argv).toNat = argv.length := by
  unfold Fits at fits
  have bytes : (total argv).toNat = stringBytes argv := by
    rw [total_eq, BitVec.toNat_ofNat]
    omega
  have rounded : (round4 (total argv)).toNat = (stringBytes argv + 3) / 4 * 4 := by
    rw [round4_toNat (by omega), bytes]
  have number : (count argv).toNat = argv.length := by
    rw [count, BitVec.toNat_ofNat]
    omega
  refine ⟨?_, rounded, number⟩
  rw [needs, by2pg]
  generalize round4 (total argv) = r at rounded ⊢
  generalize count argv = c at number ⊢
  bv_omega

theorem initStack_refused : initStack mem argv = .error .noMem ↔ by2pg < needs argv := by
  unfold initStack
  by_cases tooLong : by2pg < needs argv
  · simp [tooLong]
  · simp [tooLong]

/-- The two words pushed below the array leave its last word alone. -/
theorem pushed_words (mem : Memory) (A d c w : Word) (few : c.toNat ≤ 1021) :
    loadWord (storeWord (storeWord (storeWord mem (A + 4 * c) w) (A - 4) d) (A - 8) c) (A - 4) = d ∧
    loadWord (storeWord (storeWord (storeWord mem (A + 4 * c) w) (A - 4) d) (A - 8) c)
      (A + 4 * c) = w := by
  have below : 4 ≤ (A - 4 - (A - 8)).toNat ∧ 4 ≤ (A - 8 - (A - 4)).toNat := by bv_omega
  have last : 4 ≤ (A + 4 * c - (A - 8)).toNat ∧ 4 ≤ (A - 8 - (A + 4 * c)).toNat := by bv_omega
  have last' : 4 ≤ (A + 4 * c - (A - 4)).toNat ∧ 4 ≤ (A - 4 - (A + 4 * c)).toNat := by bv_omega
  constructor
  · rw [loadWord_storeWord_of_apart below.1 below.2, loadWord_storeWord_self]
  · rw [loadWord_storeWord_of_apart last.1 last.2, loadWord_storeWord_of_apart last'.1 last'.2,
      loadWord_storeWord_self]

/-- An address of the caller's page, moved to the child's and back. -/
theorem move_back (u t p a : Word) : u - t - p + a - u + t + p = a := by ring

/-- The word after the last pointer is the address of the last byte of the stack. -/
theorem Fits.last_word (fits : Fits argv) : ∃ sp stack, initStack mem argv = .ok (sp, stack) ∧
    loadWord stack (loadWord stack (sp + 4) + 4 * count argv) = ustacktop - 1 := by
  obtain ⟨accepted, rounded, number⟩ := fits.accepted
  have few : (count argv).toNat ≤ 1021 := by
    unfold Fits at fits
    omega
  have ends := setArgs_end (copyStrings (allocTemp mem) (utemp + by2pg - total argv) argv)
    (utemp + by2pg - round4 (total argv) - 4 * (count argv + 1))
    (ustacktop - utemp - by2pg + (utemp + by2pg - total argv)) argv
  have sum : ustacktop - utemp - by2pg + (utemp + by2pg - total argv) + total argv = ustacktop := by
    ring
  rw [sum] at ends
  unfold initStack
  rw [if_neg accepted]
  refine ⟨_, _, rfl, ?_⟩
  simp only [ends]
  generalize (setArgs _ _ _ _).1 = mem'
  generalize utemp + by2pg - round4 (total argv) - 4 * (count argv + 1) = A
  generalize count argv = c at few ⊢
  obtain ⟨array, above⟩ := pushed_words mem' A (ustacktop - utemp - by2pg + A) c (ustacktop - 1) few
  have place : ustacktop - utemp - by2pg + (A - 8) + 4 = ustacktop - utemp - by2pg + (A - 4) := by
    ring
  rw [loadWord_shift, loadWord_shift, place, move_back, array, BitVec.add_assoc _ A, move_back,
    above]

/-- An accepted list is not terminated. -/
theorem RoundTrips.tooLong (trips : RoundTrips mem argv) : by2pg < needs argv := by
  by_contra accepted
  have fits : Fits argv := by
    by_contra tooLong
    exact accepted (initStack_refused.mp (trips.refused.mpr tooLong))
  obtain ⟨sp, stack, run, last⟩ := @Fits.last_word mem argv fits
  have null := (trips.layout _ _ run).null
  rw [last] at null
  revert null
  decide

/-- A list of arguments round-trips exactly when it is refused. -/
theorem init_stack_round_trips_iff (mem : Memory) (argv : List Str) :
    RoundTrips mem argv ↔ by2pg < needs argv := by
  constructor
  · exact RoundTrips.tooLong
  · intro tooLong
    have refused := (@initStack_refused mem argv).mpr tooLong
    refine ⟨fun sp stack run => ?_, iff_of_true refused fun fits => fits.accepted.1 tooLong⟩
    rw [refused] at run
    cases run

/-- Not even the empty list of arguments is terminated. -/
theorem init_stack_not_round_trips : ¬ ∀ (mem : Memory) (argv : List Str), RoundTrips mem argv := by
  intro always
  have tooLong := (always (fun _ => 0) []).tooLong
  revert tooLong
  decide

/-! ## An accepted list, apart from its end -/

section Terminated

variable {A P x p t : Word} {s : Str} {i i' : Nat}

/-- The bytes from `p` on are set. -/
def writeBytes (mem : Memory) (p : Word) (bytes : List Byte) : Memory := fun x =>
  bytes[(x - p).toNat]?.getD (mem x)

theorem writeBytes_cons (c : Byte) {bytes : List Byte} (fits : bytes.length < 2 ^ 32) :
    writeBytes (Function.update mem p c) (p + 1) bytes = writeBytes mem p (c :: bytes) := by
  funext x
  unfold writeBytes
  by_cases first : x = p
  · have behind : (x - (p + 1)).toNat = 2 ^ 32 - 1 := by
      rw [first]
      bv_omega
    rw [behind, List.getElem?_eq_none (by omega), first, Function.update_self, sub_self]
    rfl
  · have next : (x - p).toNat = (x - (p + 1)).toNat + 1 := by bv_omega
    rw [next, List.getElem?_cons_succ, Function.update_of_ne first]

theorem copyString_eq (fits : s.length < 2 ^ 32) : copyString mem p s =
    (writeBytes mem p (s ++ [0]), p + (BitVec.ofNat 32 s.length + 1)) := by
  induction s generalizing mem p with
  | nil =>
      rw [copyString, List.nil_append, ← writeBytes_cons 0 (by decide)]
      rfl
  | cons c s ih =>
      rw [List.length_cons] at fits
      have shorter : (s ++ [0]).length < 2 ^ 32 := by
        rw [List.length_append, List.length_singleton]
        exact fits
      rw [copyString, ih (Nat.lt_of_succ_lt fits), writeBytes_cons c shorter, List.length_cons,
        BitVec.ofNat_add]
      simp only [List.cons_append, Prod.mk.injEq, true_and]
      bv_omega

theorem writeBytes_append {first second : List Byte}
    (fits : first.length + second.length ≤ 2 ^ 32) :
    writeBytes (writeBytes mem p first) (p + BitVec.ofNat 32 first.length) second =
      writeBytes mem p (first ++ second) := by
  funext x
  unfold writeBytes
  generalize len : first.length = n at fits ⊢
  by_cases inFirst : (x - p).toNat < n
  · have later : second.length ≤ (x - (p + BitVec.ofNat 32 n)).toNat := by bv_omega
    rw [List.getElem?_eq_none later, List.getElem?_append_left (by rw [len]; exact inFirst)]
    rfl
  · rw [List.getElem?_append_right (by omega), List.getElem?_eq_none (l := first) (by omega), len]
    by_cases all : n = 2 ^ 32
    · bv_omega
    · have off : (x - (p + BitVec.ofNat 32 n)).toNat = (x - p).toNat - n := by bv_omega
      rw [off]
      rfl

/-- The strings with their terminators. -/
def flat (argv : List Str) : List Byte := argv.flatMap fun s => s ++ [0]

theorem flat_length (argv : List Str) : (flat argv).length = stringBytes argv := by
  simp [flat, stringBytes, List.length_flatMap]

theorem copyStrings_eq (fits : stringBytes argv < 2 ^ 32) :
    copyStrings mem p argv = writeBytes mem p (flat argv) := by
  induction argv generalizing mem p with
  | nil => rfl
  | cons s argv ih =>
      rw [stringBytes_cons] at fits
      have joined : (s ++ [0]).length + (flat argv).length ≤ 2 ^ 32 := by
        rw [flat_length, List.length_append, List.length_singleton]
        omega
      have append := @writeBytes_append mem p _ _ joined
      have len : BitVec.ofNat 32 (s ++ [0]).length = BitVec.ofNat 32 s.length + 1 := by
        rw [List.length_append, BitVec.ofNat_add]
        rfl
      rw [len] at append
      rw [copyStrings, copyString_eq (by omega)]
      exact (ih (by omega)).trans append

/-- Where string `i` starts. -/
def offset (argv : List Str) (i : Nat) : Nat := stringBytes (argv.take i)

theorem offset_succ (s : Str) (argv : List Str) (i : Nat) :
    offset (s :: argv) (i + 1) = s.length + 1 + offset argv i := by
  rw [offset, List.take_succ_cons, stringBytes_cons]
  rfl

theorem offset_le (found : argv[i]? = some s) : offset argv i + s.length + 1 ≤ stringBytes argv := by
  induction argv generalizing i with
  | nil => cases found
  | cons s' argv ih =>
      rw [stringBytes_cons]
      cases i with
      | zero =>
          cases found
          show 0 + s.length + 1 ≤ _
          omega
      | succ i =>
          have below := ih (i := i) found
          rw [offset_succ]
          omega

/-- A string ends where the next one starts, or before. -/
theorem offset_lt (found : argv[i]? = some s) (later : i < i') :
    offset argv i + s.length + 1 ≤ offset argv i' := by
  have kept : (argv.take i')[i]? = some s := by
    rw [List.getElem?_take_of_lt later]
    exact found
  have before := offset_le kept
  have same : offset (argv.take i') i = offset argv i := by
    rw [offset, List.take_take, Nat.min_eq_left later.le]
    rfl
  rw [same] at before
  exact before

theorem flat_string (found : argv[i]? = some s) : ∃ rest,
    (flat argv).drop (offset argv i) = s ++ 0 :: rest := by
  induction argv generalizing i with
  | nil => cases found
  | cons s' argv ih =>
      cases i with
      | zero =>
          cases found
          exact ⟨flat argv, by simp [flat, offset, stringBytes]⟩
      | succ i =>
          obtain ⟨rest, suffix⟩ := ih (i := i) found
          refine ⟨rest, ?_⟩
          have first : (s' ++ [0]).length = s'.length + 1 := by simp
          rw [offset_succ, ← first, ← List.drop_drop]
          show ((s' ++ [0] ++ flat argv).drop (s' ++ [0]).length).drop _ = _
          rw [List.drop_left]
          exact suffix

/-- The pointers are set, and nothing else. -/
theorem setArgs_outside (away : 4 * argv.length ≤ (x - a).toNat) :
    (setArgs mem a t argv).1 x = mem x := by
  induction argv generalizing mem a t with
  | nil => rfl
  | cons s argv ih =>
      rw [List.length_cons] at away
      rw [setArgs, ih (by bv_omega)]
      exact if_neg (by omega)

theorem loadWord_congr {m m' : Memory} (same : ∀ k : Word, k.toNat < 4 → m (a + k) = m' (a + k)) :
    loadWord m a = loadWord m' a := by
  have zero := same 0 (by decide)
  rw [show a + 0 = a from BitVec.add_zero a] at zero
  simp only [loadWord, same 1 (by decide), same 2 (by decide), same 3 (by decide), zero]

theorem setArgs_word (fits : 4 * argv.length < 2 ^ 32) (found : argv[i]? = some s) :
    loadWord (setArgs mem a t argv).1 (a + 4 * BitVec.ofNat 32 i) =
      t + BitVec.ofNat 32 (offset argv i) := by
  induction argv generalizing mem a t i with
  | nil => cases found
  | cons s' argv ih =>
      rw [List.length_cons] at fits
      rw [setArgs]
      cases i with
      | zero =>
          have first : loadWord (setArgs (storeWord mem a t) (a + 4)
              (t + (BitVec.ofNat 32 s'.length + 1)) argv).1 a = t := by
            rw [loadWord_congr fun k small => setArgs_outside (by bv_omega)]
            exact loadWord_storeWord_self mem a t
          have here : a + 4 * BitVec.ofNat 32 0 = a := by bv_omega
          have start : t + BitVec.ofNat 32 (offset (s' :: argv) 0) = t := BitVec.add_zero t
          rw [here, start]
          exact first
      | succ i =>
          have next := @ih (storeWord mem a t) (a + 4) (t + (BitVec.ofNat 32 s'.length + 1)) i
            (by omega) found
          have place : a + 4 * BitVec.ofNat 32 (i + 1) = a + 4 + 4 * BitVec.ofNat 32 i := by
            rw [BitVec.ofNat_add]
            show a + 4 * (BitVec.ofNat 32 i + 1) = _
            ring
          have value : t + BitVec.ofNat 32 (offset (s' :: argv) (i + 1)) =
              t + (BitVec.ofNat 32 s'.length + 1) + BitVec.ofNat 32 (offset argv i) := by
            rw [offset_succ, BitVec.ofNat_add, BitVec.ofNat_add]
            show t + (BitVec.ofNat 32 s'.length + 1 + BitVec.ofNat 32 (offset argv i)) = _
            ring
          rw [place, value]
          exact next

theorem storeWord_shift (m : Memory) (a u t p w : Word) :
    storeWord (fun x => m (x - u + t + p)) a w =
      fun x => storeWord m (a - u + t + p) w (x - u + t + p) := by
  funext x
  have same : x - u + t + p - (a - u + t + p) = x - a := by ring
  simp only [storeWord, same]

theorem flat_bytes (found : argv[i]? = some s) :
    (∀ j c, s[j]? = some c → (flat argv)[offset argv i + j]? = some c) ∧
      (flat argv)[offset argv i + s.length]? = some 0 := by
  obtain ⟨rest, suffix⟩ := flat_string found
  have byte : ∀ j, (flat argv)[offset argv i + j]? = (s ++ 0 :: rest)[j]? := by
    intro j
    rw [← suffix, List.getElem?_drop]
  refine ⟨fun j c char => ?_, ?_⟩
  · obtain ⟨inside, -⟩ := List.getElem?_eq_some_iff.mp char
    rw [byte, List.getElem?_append_left inside]
    exact char
  · rw [byte, List.getElem?_append_right (le_refl _), Nat.sub_self]
    rfl

/-- What `init_stack` leaves for the child, but for the word after the pointers: the array is
at `args`, and the strings end where the stack does. -/
structure Built (argv : List Str) (args : Word) (stack : Memory) : Prop where
  argc : loadWord stack (args - 8) = count argv
  array : loadWord stack (args - 4) = args
  pointer : ∀ i s, argv[i]? = some s → loadWord stack (args + 4 * BitVec.ofNat 32 i) =
    ustacktop - total argv + BitVec.ofNat 32 (offset argv i)
  null : loadWord stack (args + 4 * count argv) = 0
  bytes : ∀ k c, (flat argv)[k]? = some c →
    stack (ustacktop - total argv + BitVec.ofNat 32 k) = c

theorem Built.layout {args : Word} {stack : Memory} (built : Built argv args stack)
    (fits : Fits argv)
    (place : args.toNat + (stringBytes argv + 3) / 4 * 4 + 4 * (argv.length + 1) =
      ustacktop.toNat) : Layout argv (args - 8) stack := by
  unfold Fits at fits
  have top : ustacktop.toNat = 0x7f3fe000 := rfl
  have bottom : (ustacktop - by2pg).toNat = 0x7f3fd000 := rfl
  have back : args - 8 + 4 = args - 4 := by ring
  have sp : (args - 8).toNat = args.toNat - 8 := by bv_omega
  have start : ∀ n ≤ stringBytes argv, (ustacktop - total argv + BitVec.ofNat 32 n).toNat =
      ustacktop.toNat - stringBytes argv + n := by
    intro n le
    rw [total_eq]
    bv_omega
  have string : ∀ i s, argv[i]? = some s →
      loadWord stack (loadWord stack (args - 8 + 4) + 4 * BitVec.ofNat 32 i) =
        ustacktop - total argv + BitVec.ofNat 32 (offset argv i) := by
    intro i s found
    rw [back, built.array]
    exact built.pointer i s found
  have base : ∀ i s, argv[i]? = some s →
      (loadWord stack (loadWord stack (args - 8 + 4) + 4 * BitVec.ofNat 32 i)).toNat =
        ustacktop.toNat - stringBytes argv + offset argv i := by
    intro i s found
    have le := offset_le found
    rw [string i s found]
    exact start _ (by omega)
  refine ⟨built.argc, fun i s found => ?_, ?_, ⟨by omega, by omega⟩, fun x words array => ?_,
    fun i s found x inString => ?_⟩
  · have le := offset_le found
    obtain ⟨chars, terminator⟩ := flat_bytes found
    have place := base i s found
    refine ⟨fun j c char => ?_, ?_, by omega, by omega⟩
    · rw [string i s found, BitVec.add_assoc, ← BitVec.ofNat_add]
      exact built.bytes _ _ (chars j c char)
    · rw [string i s found, BitVec.add_assoc, ← BitVec.ofNat_add]
      exact built.bytes _ _ terminator
  · rw [back, built.array]
    exact built.null
  · rw [back, built.array] at array
    obtain ⟨-, high⟩ := words
    obtain ⟨low, -⟩ := array
    omega
  · have le := offset_le found
    have place := base i s found
    obtain ⟨low, high⟩ := inString
    refine ⟨fun words => ?_, fun array => ?_, fun i' s' found' ne other => ?_⟩
    · obtain ⟨-, high'⟩ := words
      omega
    · rw [back, built.array] at array
      obtain ⟨-, high'⟩ := array
      omega
    · have place' := base i' s' found'
      obtain ⟨low', high'⟩ := other
      obtain before | after := Nat.lt_or_gt_of_ne ne
      · have apart := offset_lt found' before
        omega
      · have apart := offset_lt found after
        omega

/-- The words around the array once its terminator is put. -/
theorem terminated_words (mem : Memory) (A d c w : Word) (few : c.toNat ≤ 1021) :
    loadWord (storeWord (storeWord (storeWord (storeWord mem (A + 4 * c) w) (A - 4) d) (A - 8) c)
      (A + 4 * c) 0) (A - 8) = c ∧
    loadWord (storeWord (storeWord (storeWord (storeWord mem (A + 4 * c) w) (A - 4) d) (A - 8) c)
      (A + 4 * c) 0) (A - 4) = d := by
  have low : 4 ≤ (A - 8 - (A + 4 * c)).toNat ∧ 4 ≤ (A + 4 * c - (A - 8)).toNat := by bv_omega
  have low' : 4 ≤ (A - 4 - (A + 4 * c)).toNat ∧ 4 ≤ (A + 4 * c - (A - 4)).toNat := by bv_omega
  constructor
  · rw [loadWord_storeWord_of_apart low.1 low.2, loadWord_storeWord_self]
  · rw [loadWord_storeWord_of_apart low'.1 low'.2]
    exact (pushed_words mem A d c w few).1

/-- The words are stored around the pointers and the strings. -/
theorem storeWord_outside {c : Word} (away : 4 ≤ (x - a).toNat) : storeWord mem a c x = mem x :=
  if_neg (Nat.not_lt.mpr away)

theorem pushed_outside (mem : Memory) (A d c w : Word) (few : c.toNat ≤ 1021)
    (inside : (x - A).toNat < 2 ^ 32 - 8)
    (away : (x - A).toNat < 4 * c.toNat ∨ 4 * c.toNat + 4 ≤ (x - A).toNat) :
    storeWord (storeWord (storeWord (storeWord mem (A + 4 * c) w) (A - 4) d) (A - 8) c)
      (A + 4 * c) 0 x = mem x := by
  have last : 4 ≤ (x - (A + 4 * c)).toNat := by bv_omega
  have first : 4 ≤ (x - (A - 8)).toNat := by bv_omega
  have second : 4 ≤ (x - (A - 4)).toNat := by bv_omega
  rw [storeWord_outside last, storeWord_outside first, storeWord_outside second,
    storeWord_outside last]

theorem Fits.array_toNat (fits : Fits argv) :
    (utemp + by2pg - round4 (total argv) - 4 * (count argv + 1)).toNat +
      (stringBytes argv + 3) / 4 * 4 + 4 * (argv.length + 1) = 0x3ff000 := by
  obtain ⟨-, rounded, number⟩ := fits.accepted
  unfold Fits at fits
  have page : (utemp + by2pg).toNat = 0x3ff000 := rfl
  generalize round4 (total argv) = r at rounded ⊢
  generalize count argv = c at number ⊢
  generalize utemp + by2pg = e at page ⊢
  bv_omega

theorem Fits.strings_toNat (fits : Fits argv) :
    (utemp + by2pg - total argv).toNat + stringBytes argv = 0x3ff000 := by
  unfold Fits at fits
  have page : (utemp + by2pg).toNat = 0x3ff000 := rfl
  rw [total_eq]
  generalize utemp + by2pg = e at page ⊢
  bv_omega

/-- A word of the caller's page where the child has it. -/
theorem loadWord_child (m : Memory) (u t p a : Word) :
    loadWord (fun x => m (x - u + t + p)) (u - t - p + a) = loadWord m a := by
  rw [loadWord_shift, move_back]

theorem storeWord_child (m : Memory) (u t p a w : Word) :
    storeWord (fun x => m (x - u + t + p)) (u - t - p + a) w =
      fun x => storeWord m a w (x - u + t + p) := by
  rw [storeWord_shift m, move_back]

theorem Fits.built (fits : Fits argv) (inArgs : A.toNat + (stringBytes argv + 3) / 4 * 4 +
      4 * (argv.length + 1) = 0x3ff000) (inStrings : P.toNat + stringBytes argv = 0x3ff000)
    (start : ustacktop - utemp - by2pg + P = ustacktop - total argv) {m₁ : Memory}
    (stored : m₁ = (setArgs (writeBytes mem P (flat argv)) A (ustacktop - utemp - by2pg + P)
      argv).1) (w : Word) :
    Built argv (ustacktop - utemp - by2pg + A) fun x =>
      storeWord (storeWord (storeWord (storeWord m₁ (A + 4 * count argv) w) (A - 4)
        (ustacktop - utemp - by2pg + A)) (A - 8) (count argv)) (A + 4 * count argv) 0
        (x - ustacktop + utemp + by2pg) := by
  obtain ⟨-, -, number⟩ := fits.accepted
  unfold Fits at fits
  have few : (count argv).toNat ≤ 1021 := by omega
  obtain ⟨argc, word⟩ := terminated_words m₁ A (ustacktop - utemp - by2pg + A) (count argv) w few
  have kept := fun x => @pushed_outside x m₁ A (ustacktop - utemp - by2pg + A) (count argv) w few
  have null := loadWord_storeWord_self (storeWord (storeWord (storeWord m₁ (A + 4 * count argv) w)
    (A - 4) (ustacktop - utemp - by2pg + A)) (A - 8) (count argv)) (A + 4 * count argv) 0
  generalize storeWord (storeWord (storeWord (storeWord m₁ (A + 4 * count argv) w) (A - 4)
    (ustacktop - utemp - by2pg + A)) (A - 8) (count argv)) (A + 4 * count argv) 0 = m₂
    at argc word kept null ⊢
  refine ⟨?_, ?_, fun i s found => ?_, ?_, fun k c byte => ?_⟩
  · rw [add_sub_assoc, loadWord_child]
    exact argc
  · rw [add_sub_assoc, loadWord_child]
    exact word
  · obtain ⟨inside, -⟩ := List.getElem?_eq_some_iff.mp found
    have pointer := @setArgs_word (writeBytes mem P (flat argv)) argv A
      (ustacktop - utemp - by2pg + P) s i (by omega) found
    rw [← stored, start] at pointer
    rw [BitVec.add_assoc _ A, loadWord_child, ← pointer]
    refine loadWord_congr fun k four => ?_
    have off : (A + 4 * BitVec.ofNat 32 i + k - A).toNat = 4 * i + k.toNat := by
      clear kept argc word null pointer stored start
      bv_omega
    exact kept _ (by omega) (by omega)
  · rw [BitVec.add_assoc _ A, loadWord_child]
    exact null
  · obtain ⟨inside, -⟩ := List.getElem?_eq_some_iff.mp byte
    rw [flat_length] at inside
    have off : (P + BitVec.ofNat 32 k - A).toNat =
        (stringBytes argv + 3) / 4 * 4 + 4 * (argv.length + 1) - stringBytes argv + k := by
      clear kept argc word null stored start
      bv_omega
    have off' : (P + BitVec.ofNat 32 k - P).toNat = k := by
      clear kept argc word null stored start
      bv_omega
    have string : writeBytes mem P (flat argv) (P + BitVec.ofNat 32 k) = c := by
      rw [writeBytes, off', byte]
      rfl
    rw [← start, BitVec.add_assoc _ P, move_back, kept _ (by omega) (by omega), stored,
      setArgs_outside (by omega)]
    exact string

/-- The missing terminator is all that is wrong with an accepted list. -/
theorem Fits.layout_terminated (mem : Memory) (fits : Fits argv) : ∃ sp stack,
    initStack mem argv = .ok (sp, stack) ∧
      Layout argv sp (storeWord stack (loadWord stack (sp + 4) + 4 * count argv) 0) := by
  obtain ⟨accepted, -, number⟩ := fits.accepted
  have inArgs := fits.array_toNat
  have inStrings := fits.strings_toNat
  have few : (count argv).toNat ≤ 1021 ∧ stringBytes argv < 2 ^ 32 := by
    unfold Fits at fits
    omega
  have start : ustacktop - utemp - by2pg + (utemp + by2pg - total argv) =
      ustacktop - total argv := by ring
  unfold initStack
  rw [if_neg accepted]
  refine ⟨_, _, rfl, ?_⟩
  simp only [copyStrings_eq few.2]
  generalize (setArgs _ _ _ _).2 - 1 = w
  generalize utemp + by2pg - round4 (total argv) - 4 * (count argv + 1) = A at inArgs ⊢
  generalize utemp + by2pg - total argv = P at inStrings start ⊢
  generalize stored : (setArgs _ _ _ argv).1 = m₁
  have built := fits.built inArgs inStrings start stored.symm w
  have array := (pushed_words m₁ A (ustacktop - utemp - by2pg + A) (count argv) w few.1).1
  generalize storeWord (storeWord (storeWord m₁ (A + 4 * count argv) w) (A - 4)
    (ustacktop - utemp - by2pg + A)) (A - 8) (count argv) = m₂ at built array ⊢
  have place : ustacktop - utemp - by2pg + (A - 8) + 4 = ustacktop - utemp - by2pg + (A - 4) := by
    ring
  rw [place, loadWord_child, array, BitVec.add_assoc _ A, storeWord_child, ← add_sub_assoc]
  refine built.layout fits ?_
  have top : (ustacktop - utemp - by2pg).toNat = 0x7f3fe000 - 0x3ff000 := rfl
  rw [BitVec.toNat_add, top, Nat.mod_eq_of_lt (by omega), ustacktop_toNat]
  omega

end Terminated

end Mos.Stack
