import Mos.TrapMemory
import Mos.WorkDir

/-!
# Requests with a path

`fsipc_open`, `fsipc_remove` and `fsipc_create` lay out a request in the page
`fsipcbuf` and hand it to `fsipc`. The path goes in with `strcpy`, whatever its
length, and the server takes it out again without a check.
-/

namespace Mos

open Stack (Memory loadWord storeWord)

def MAXPATHLEN : Nat := 1024

/-- `strlen(s)`, once `n` characters are counted. -/
def strlen (mem : Memory) (s n : Word) : Nat → Option Word
  | 0 => none
  | fuel + 1 => if mem s = 0 then some n else strlen mem (s + 1) (n + 1) fuel

/-- A call of `fsipc`, with the memory at that moment. -/
structure Request where
  type : Nat
  fsreq : Word
  dstva : Word
  mem : Memory

/-- How an encoder ends. -/
inductive Encoded where
  /-- `return -E_BAD_PATH` -/
  | badPath
  | sent (rq : Request)

/-- The part of `fsipc_open` before the reply. -/
def fsipcOpen (fsipcbuf : Word) (mem : Memory) (path omode fd : Word) (fuel : Nat) :
    Option Encoded := do
  let len ← strlen mem path 0 fuel
  if MAXPATHLEN ≤ len.toNat then return .badPath
  let mem ← strcpy mem fsipcbuf path fuel
  let mem := storeWord mem (fsipcbuf + 1024) omode
  return .sent ⟨1, fsipcbuf, fd, mem⟩

/-- The part of `fsipc_remove` before the reply. -/
def fsipcRemove (fsipcbuf : Word) (mem : Memory) (path : Word) (fuel : Nat) :
    Option Encoded := do
  let len ← strlen mem path 0 fuel
  if len = 0 ∨ MAXPATHLEN < len.toNat then return .badPath
  let mem ← strcpy mem fsipcbuf path fuel
  return .sent ⟨6, fsipcbuf, 0, mem⟩

/-- The part of `fsipc_create` before the reply. -/
def fsipcCreate (fsipcbuf : Word) (mem : Memory) (path type : Word) (fuel : Nat) :
    Option Encoded := do
  let mem := storeWord mem fsipcbuf type
  let mem ← strcpy mem (fsipcbuf + 4) path fuel
  return .sent ⟨8, fsipcbuf, 0, mem⟩

/-- The requests with a path, with their other arguments. -/
inductive PathCall where
  | open (omode fd : Word)
  | remove
  | create (type : Word)

namespace PathCall

def encode (call : PathCall) (fsipcbuf : Word) (mem : Memory) (path : Word) (fuel : Nat) :
    Option Encoded :=
  match call with
  | .open omode fd => fsipcOpen fsipcbuf mem path omode fd fuel
  | .remove => fsipcRemove fsipcbuf mem path fuel
  | .create type => fsipcCreate fsipcbuf mem path type fuel

/-- `FSREQ_OPEN`, `FSREQ_REMOVE`, `FSREQ_CREATE` -/
def type : PathCall → Nat
  | .open .. => 1
  | .remove => 6
  | .create _ => 8

/-- The offset of `req_path` in `struct Fsreq_open`, `Fsreq_remove`, `Fsreq_create`. -/
def pathAt : PathCall → Word
  | .open .. | .remove => 0
  | .create _ => 4

/-- `req_omode` and `req_type` hold the arguments. -/
def FieldsHeld (call : PathCall) (rq : Request) : Prop :=
  match call with
  | .open omode fd => loadWord rq.mem (rq.fsreq + 1024) = omode ∧ rq.dstva = fd
  | .remove => True
  | .create type => loadWord rq.mem rq.fsreq = type

end PathCall

variable {mem mem' : Memory} {path buf dst src : Word} {n : Nat} {call : PathCall}

/-- The request carries the string of `n` characters at `path`, within the
`MAXPATHLEN` bytes of its field, and the other arguments. -/
structure Carries (mem : Memory) (path : Word) (n : Nat) (call : PathCall) (rq : Request) :
    Prop where
  type : rq.type = call.type
  within : n < MAXPATHLEN
  path : ∀ i ≤ n, rq.mem (rq.fsreq + call.pathAt + BitVec.ofNat 32 i) =
    mem (path + BitVec.ofNat 32 i)
  fields : call.FieldsHeld rq

/-- The call is refused without a request, or sends one that carries the path. -/
def Marshals (call : PathCall) (buf : Word) (mem : Memory) (path : Word) (n : Nat) : Prop :=
  ∃ fuel res, call.encode buf mem path fuel = some res ∧
    (res = .badPath ∨ ∃ rq, res = .sent rq ∧ Carries mem path n call rq)

/-- `strcpy` ends: it does not write into the string it still has to read. -/
def CopyEnds (dst src : Word) (n : Nat) : Prop := dst = src ∨ n < (dst - src).toNat

theorem strlen_of_isStr (str : IsStr mem path n) (k fuel : Nat) :
    strlen mem path (BitVec.ofNat 32 k) fuel =
      if n < fuel then some (BitVec.ofNat 32 (k + n)) else none := by
  induction fuel generalizing path n k with
  | zero => rfl
  | succ fuel ih =>
      rw [strlen]
      cases n with
      | zero =>
          have ends : mem path = 0 := by simpa using str.terminated
          rw [if_pos ends, if_pos (Nat.succ_pos fuel)]
          rfl
      | succ n =>
          have first : mem path ≠ 0 := by simpa using str.chars 0 (Nat.succ_pos n)
          have shift : ∀ i, path + 1 + BitVec.ofNat 32 i = path + BitVec.ofNat 32 (i + 1) := by
            intro i
            rw [← next_addr, BitVec.add_assoc, BitVec.add_comm 1, ← BitVec.add_assoc]
          have rest : IsStr mem (path + 1) n := by
            refine ⟨fun i hi => ?_, ?_⟩
            · rw [shift]
              exact str.chars (i + 1) (by omega)
            · rw [shift]
              exact str.terminated
          have count : BitVec.ofNat 32 k + 1 = BitVec.ofNat 32 (k + 1) := by
            rw [BitVec.ofNat_add]
            rfl
          have sum : k + 1 + n = k + (n + 1) := by omega
          rw [if_neg first, count, ih rest (k + 1), sum]
          simp only [Nat.succ_lt_succ_iff]

theorem IsStr.short (str : IsStr mem path n) : n < 2 ^ 32 := by
  by_contra long
  apply str.chars (n - 2 ^ 32) (by omega)
  have same : BitVec.ofNat 32 (n - 2 ^ 32) = BitVec.ofNat 32 n := by
    apply BitVec.eq_of_toNat_eq
    rw [BitVec.toNat_ofNat, BitVec.toNat_ofNat]
    omega
  rw [same]
  exact str.terminated

theorem copyEnds_iff_behind (dst src : Word) {n : Nat} (short : n < 2 ^ 32) :
    ∃ d, 0 < d ∧ d ≤ 2 ^ 32 ∧ dst = src + BitVec.ofNat 32 d ∧ (CopyEnds dst src n ↔ n < d) := by
  obtain ⟨d, positive, range, behind, dist⟩ := exists_behind dst src
  refine ⟨d, positive, range, behind, ?_⟩
  by_cases same : dst = src
  · have zero : BitVec.ofNat 32 d = 0 := add_eq_left.mp (behind.symm.trans same)
    have none := congrArg BitVec.toNat zero
    rw [BitVec.toNat_ofNat] at none
    change d % 2 ^ 32 = 0 at none
    exact iff_of_true (.inl same) (by omega)
  · rw [CopyEnds, dist same]
    exact or_iff_right same

theorem CopyEnds.run (ends : CopyEnds dst src n) (str : IsStr mem src n) :
    ∃ mem', strcpy mem dst src (n + 1) = some mem' := by
  obtain ⟨d, -, range, behind, iff⟩ := copyEnds_iff_behind dst src str.short
  have run := strcpy_returns behind range str .start (Nat.zero_le n) (iff.mp ends)
    (show n < 0 + (n + 1) by omega)
  simpa using run

theorem copyEnds_of_run (str : IsStr mem src n) {fuel : Nat}
    (run : strcpy mem dst src fuel = some mem') : CopyEnds dst src n := by
  obtain ⟨d, positive, range, behind, iff⟩ := copyEnds_iff_behind dst src str.short
  have begin : strcpy mem (dst + BitVec.ofNat 32 0) (src + BitVec.ofNat 32 0) fuel =
      some mem' := by simpa using run
  obtain ⟨m, low, str', -⟩ := strcpy_from behind range .start
    (fun i hi => absurd hi (Nat.not_lt_zero i)) (Nat.zero_le _) positive begin
  rw [iff, str.unique str']
  exact low

/-- A copy that ended copied the whole string. -/
theorem strcpy_copied (str : IsStr mem src n) {fuel : Nat}
    (run : strcpy mem dst src fuel = some mem') : CopiedTo mem mem' dst src (n + 1) := by
  obtain ⟨m, -, str', copied⟩ := strcpy_spec run
  rw [str.unique str']
  exact copied

theorem CopiedTo.byte (copied : CopiedTo mem mem' dst src (n + 1)) (short : n < 2 ^ 32) {i : Nat}
    (h : i ≤ n) : mem' (dst + BitVec.ofNat 32 i) = mem (src + BitVec.ofNat 32 i) := by
  have inside : (dst + BitVec.ofNat 32 i - dst).toNat = i := add_ofNat_sub (by omega)
  rw [copied, inside, if_pos (by omega), add_sub_cancel_left]

theorem sub_lt (a : Word) {i j : Nat} (lt : i < j) (hj : j < 2 ^ 32) :
    (a + BitVec.ofNat 32 i - (a + BitVec.ofNat 32 j)).toNat = 2 ^ 32 + i - j := by
  rw [add_sub_add_left_eq_sub, BitVec.toNat_sub, BitVec.toNat_ofNat, BitVec.toNat_ofNat]
  omega

/-- Every byte of the request, once the mode is stored behind the path. -/
theorem path_storeMode (h : n < MAXPATHLEN) (omode : Word) {i : Nat} (hi : i ≤ n) :
    storeWord mem (buf + 1024) omode (buf + BitVec.ofNat 32 i) = mem (buf + BitVec.ofNat 32 i) := by
  rw [MAXPATHLEN] at h
  apply if_neg
  have off := sub_lt buf (i := i) (j := 1024) (by omega) (by omega)
  change (buf + BitVec.ofNat 32 i - (buf + 1024)).toNat = _ at off
  omega

/-- A path that fits leaves the type before it alone. -/
theorem type_copied (copied : CopiedTo mem mem' (buf + 4) src (n + 1)) (h : n < MAXPATHLEN) :
    loadWord mem' buf = loadWord mem buf := by
  rw [MAXPATHLEN] at h
  apply loadWord_congr
  intro k hk
  rw [copied, if_neg]
  have off := sub_lt buf (i := k) (j := 4) hk (by omega)
  change (buf + BitVec.ofNat 32 k - (buf + 4)).toNat = _ at off
  omega

/-- What is a string of `n` characters at `src` as far as it is known to agree
with one of `mem`. -/
theorem IsStr.agree (str : IsStr mem src n) {m : Nat} (str' : IsStr mem' src m)
    (same : ∀ i ≤ n, i ≤ m → mem' (src + BitVec.ofNat 32 i) = mem (src + BitVec.ofNat 32 i)) :
    m = n := by
  obtain lt | eq | gt := Nat.lt_trichotomy m n
  · have ends := str'.terminated
    rw [same m (by omega) (Nat.le_refl m)] at ends
    exact absurd ends (str.chars m lt)
  · exact eq
  · have ends := str.terminated
    rw [← same n (Nat.le_refl n) (by omega)] at ends
    exact absurd ends (str'.chars n gt)

/-- What the call asks of the path for the request to carry it. -/
def PathCall.Accepts (call : PathCall) (buf : Word) (mem : Memory) (path : Word) (n : Nat) :
    Prop :=
  match call with
  | .open .. => MAXPATHLEN ≤ n ∨ CopyEnds buf path n
  | .remove => n = 0 ∨ MAXPATHLEN < n ∨ n < MAXPATHLEN ∧ CopyEnds buf path n
  | .create type => n < MAXPATHLEN ∧ CopyEnds (buf + 4) path n ∧
      ∀ i ≤ n, storeWord mem buf type (path + BitVec.ofNat 32 i) = mem (path + BitVec.ofNat 32 i)

theorem strlen_eq (str : IsStr mem path n) (fuel : Nat) :
    strlen mem path 0 fuel = if n < fuel then some (BitVec.ofNat 32 n) else none := by
  have counted := strlen_of_isStr str 0 fuel
  rw [Nat.zero_add] at counted
  exact counted

section Encoders

variable (str : IsStr mem path n)
include str

theorem len_toNat : (BitVec.ofNat 32 n).toNat = n := by
  rw [BitVec.toNat_ofNat, Nat.mod_eq_of_lt str.short]

theorem marshals_open_iff (omode fd : Word) :
    Marshals (.open omode fd) buf mem path n ↔ MAXPATHLEN ≤ n ∨ CopyEnds buf path n := by
  have len := len_toNat str
  constructor
  · intro marshals
    obtain ⟨fuel, res, run, -⟩ := marshals
    by_cases long : MAXPATHLEN ≤ n
    · exact .inl long
    · right
      simp only [PathCall.encode, fsipcOpen, strlen_eq str] at run
      split at run
      · simp only [Option.bind_eq_bind, Option.bind_some, len, if_neg long] at run
        obtain ⟨final, copy, -⟩ := Option.bind_eq_some_iff.mp run
        exact copyEnds_of_run str copy
      · cases run
  · intro accepts
    by_cases long : MAXPATHLEN ≤ n
    · refine ⟨n + 1, .badPath, ?_, .inl rfl⟩
      simp only [PathCall.encode, fsipcOpen, strlen_eq str, if_pos (Nat.lt_succ_self n),
        Option.bind_eq_bind, Option.bind_some, len, if_pos long]
      rfl
    · obtain ⟨mem', copy⟩ := (accepts.resolve_left long).run str
      have copied := strcpy_copied str copy
      have fits : n < MAXPATHLEN := Nat.not_le.mp long
      refine ⟨n + 1, .sent ⟨1, buf, fd, storeWord mem' (buf + 1024) omode⟩, ?_, .inr ⟨_, rfl, ?_⟩⟩
      · simp only [PathCall.encode, fsipcOpen, strlen_eq str, if_pos (Nat.lt_succ_self n),
          Option.bind_eq_bind, Option.bind_some, len, if_neg long, copy]
        rfl
      · refine ⟨rfl, fits, ?_, Stack.loadWord_storeWord_self mem' (buf + 1024) omode, rfl⟩
        intro i hi
        have whole : buf + 0 = buf := BitVec.add_zero buf
        simp only [PathCall.pathAt, whole]
        rw [path_storeMode fits omode hi]
        exact copied.byte str.short hi

theorem marshals_remove_iff :
    Marshals .remove buf mem path n ↔
      n = 0 ∨ MAXPATHLEN < n ∨ n < MAXPATHLEN ∧ CopyEnds buf path n := by
  have len := len_toNat str
  have zero : BitVec.ofNat 32 n = 0 ↔ n = 0 := by
    rw [← BitVec.toNat_inj, len]
    rfl
  have whole : buf + 0 = buf := BitVec.add_zero buf
  constructor
  · intro marshals
    obtain ⟨fuel, res, run, good⟩ := marshals
    by_cases refused : n = 0 ∨ MAXPATHLEN < n
    · rw [← or_assoc]
      exact .inl refused
    · rw [← or_assoc]
      right
      simp only [PathCall.encode, fsipcRemove, strlen_eq str] at run
      split at run
      · simp only [Option.bind_eq_bind, Option.bind_some, len, zero, if_neg refused] at run
        obtain ⟨final, copy, sent⟩ := Option.bind_eq_some_iff.mp run
        cases sent
        obtain bad | good := good
        · cases bad
        · obtain ⟨rq, same, carries⟩ := good
          exact ⟨carries.within, copyEnds_of_run str copy⟩
      · cases run
  · intro accepts
    rw [← or_assoc] at accepts
    by_cases refused : n = 0 ∨ MAXPATHLEN < n
    · refine ⟨n + 1, .badPath, ?_, .inl rfl⟩
      simp only [PathCall.encode, fsipcRemove, strlen_eq str, if_pos (Nat.lt_succ_self n),
        Option.bind_eq_bind, Option.bind_some, len, zero, if_pos refused]
      rfl
    · obtain ⟨fits, ends⟩ := accepts.resolve_left refused
      obtain ⟨mem', copy⟩ := ends.run str
      refine ⟨n + 1, .sent ⟨6, buf, 0, mem'⟩, ?_, .inr ⟨_, rfl, ?_⟩⟩
      · simp only [PathCall.encode, fsipcRemove, strlen_eq str, if_pos (Nat.lt_succ_self n),
          Option.bind_eq_bind, Option.bind_some, len, zero, if_neg refused, copy]
        rfl
      · refine ⟨rfl, fits, ?_, trivial⟩
        intro i hi
        simp only [PathCall.pathAt, whole]
        exact (strcpy_copied str copy).byte str.short hi

theorem marshals_create_iff (type : Word) :
    Marshals (.create type) buf mem path n ↔ n < MAXPATHLEN ∧ CopyEnds (buf + 4) path n ∧
      ∀ i ≤ n, storeWord mem buf type (path + BitVec.ofNat 32 i) =
        mem (path + BitVec.ofNat 32 i) := by
  constructor
  · intro marshals
    obtain ⟨fuel, res, run, good⟩ := marshals
    simp only [PathCall.encode, fsipcCreate] at run
    obtain ⟨final, copy, sent⟩ := Option.bind_eq_some_iff.mp run
    cases sent
    obtain bad | good := good
    · cases bad
    · obtain ⟨rq, same, carries⟩ := good
      cases same
      obtain ⟨m, short, str', copied⟩ := strcpy_spec copy
      have kept : ∀ i ≤ n, i ≤ m → storeWord mem buf type (path + BitVec.ofNat 32 i) =
          mem (path + BitVec.ofNat 32 i) := by
        intro i hn hm
        rw [← carries.path i hn]
        exact (copied.byte short hm).symm
      have same : m = n := str.agree str' kept
      subst same
      exact ⟨carries.within, copyEnds_of_run str' copy, fun i hi => kept i hi hi⟩
  · intro accepts
    obtain ⟨fits, ends, kept⟩ := accepts
    have str' : IsStr (storeWord mem buf type) path n := by
      refine ⟨fun i hi => ?_, ?_⟩
      · rw [kept i (by omega)]
        exact str.chars i hi
      · rw [kept n (Nat.le_refl n)]
        exact str.terminated
    obtain ⟨mem', copy⟩ := ends.run str'
    have copied := strcpy_copied str' copy
    refine ⟨n + 1, .sent ⟨8, buf, 0, mem'⟩, ?_, .inr ⟨_, rfl, ?_⟩⟩
    · simp only [PathCall.encode, fsipcCreate, Option.bind_eq_bind, copy, Option.bind_some]
      rfl
    · refine ⟨rfl, fits, ?_, ?_⟩
      · intro i hi
        rw [← kept i hi]
        exact copied.byte str.short hi
      · exact (type_copied copied fits).trans (Stack.loadWord_storeWord_self mem buf type)

/-- A path is sent as it is, or refused, exactly if `fsipc_remove` is not called
with `MAXPATHLEN` characters and `fsipc_create` with no more than fit; and if
the path does not lie where the request is written. -/
theorem request_marshalled_iff (call : PathCall) (buf : Word) :
    Marshals call buf mem path n ↔ call.Accepts buf mem path n := by
  cases call with
  | «open» omode fd => exact marshals_open_iff str omode fd
  | remove => exact marshals_remove_iff str
  | create type => exact marshals_create_iff str type

end Encoders

/-- `n` letters at 0x500000. -/
def letters (n : Nat) : Memory := fun a => if (a - 0x500000).toNat < n then 0x61 else 0

theorem isStr_letters (h : n < 2 ^ 32) : IsStr (letters n) 0x500000 n := by
  refine ⟨fun i hi => ?_, ?_⟩
  · rw [letters, add_ofNat_sub (by omega), if_pos hi]
    decide
  · rw [letters, add_ofNat_sub h, if_neg (Nat.lt_irrefl n)]

theorem request_marshalled_iff_letters :
    Marshals .remove 0x410000 (letters 1024) 0x500000 1024 ↔
      PathCall.remove.Accepts 0x410000 (letters 1024) 0x500000 1024 :=
  request_marshalled_iff (isStr_letters (by decide)) .remove 0x410000

/-- `fsipc_remove` sends a path of `MAXPATHLEN` characters, without room for
the terminator in its field. -/
theorem request_not_marshalled :
    ¬∀ (call : PathCall) (buf : Word) (mem : Memory) (path : Word) (n : Nat),
      IsStr mem path n → Marshals call buf mem path n := by
  intro all
  have str : IsStr (letters 1024) 0x500000 1024 := isStr_letters (by decide)
  have marshals := all .remove 0x410000 (letters 1024) 0x500000 1024 str
  obtain zero | long | short := (marshals_remove_iff str).mp marshals
  · exact absurd zero (by decide)
  · exact absurd long (by decide)
  · exact absurd short.1 (by decide)

end Mos
