import Mos.Lib.While
import Mos.Readline
import Mathlib.Tactic.Ring

/-!
# The command history

The commands lie one behind the other in `.history`, each with its terminator, and
the file is mapped into memory. `p` counts the commands before the one shown, and
`va` points to the byte before that one in the file. Up and Down move both. Down at
the last command brings the typed line back but leaves `p` and `va` where they are,
so that the next Up goes too far (`history_navigates`).
-/

namespace Mos

variable {n m k fuel : Nat} {mem src dst : Cells} {x : Int} {l : List Byte}

/-- The statics of `user/lib/history.c`. Addresses in the file are relative to `beginva`,
and `size` is what `endva` comes to. -/
structure HistoryVars where
  p : Int
  num : Int
  va : Int
  tmp : Cells
  text : Cells
  size : Int

/-- `while (*x != 0) x += d`, over a string shorter than `n`. -/
def findEnd (mem : Cells) (d : Int) (n : Nat) (x : Int) : Int :=
  (whileLoop (fun x => mem x ≠ 0) (· + d) n x).getD x

def Cells.strlen (n : Nat) (buf : Cells) : Nat := (findEnd buf 1 n 0).toNat

/-- `*pp = *tm; tm++; pp++;` -/
def copyByte (src : Cells) (s : Int × Int × Cells) : Int × Int × Cells :=
  (s.1 + 1, s.2.1 + 1, Function.update s.2.2 s.2.1 (src s.1))

/-- `while (*tm != 0) { *pp = *tm; tm++; pp++; } *pp = 0;` -/
def copyString (n : Nat) (src : Cells) (tm : Int) (dst : Cells) : Cells :=
  let s := (whileLoop (fun s => src s.1 ≠ 0) (copyByte src) n (tm, 0, dst)).getD (tm, 0, dst)
  Function.update s.2.2 s.2.1 0

namespace HistoryVars

/-- `init_history`, with the file just created; the window shows zeros. -/
def init : HistoryVars :=
  { p := 0, num := 0, va := 0, tmp := fun _ => 0, text := fun _ => 0, size := 0 }

/-- `add_history` -/
def add (n : Nat) (s : HistoryVars) (cmd : Cells) : HistoryVars :=
  if cmd 0 = 0 then s
  else
    let len := Cells.strlen n cmd
    let text := fun x => if s.size ≤ x ∧ x < s.size + len + 1 then cmd (x - s.size) else s.text x
    { p := s.num + 1, num := s.num + 1, va := s.size + len + 1 - 1,
      tmp := Function.update s.tmp 0 0, text := text, size := s.size + len + 1 }

/-- `next_history` -/
def next (n : Nat) (s : HistoryVars) (str : Cells) : Option (HistoryVars × Cells × Nat) :=
  if s.p = s.num then none
  else if s.p = s.num - 1 then
    let str := copyString n s.tmp 0 str
    some (s, str, Cells.strlen n str)
  else
    let va := findEnd s.text 1 n (s.va + 1)
    let str := copyString n s.text (va + 1) str
    some ({ s with p := s.p + 1, va := va }, str, Cells.strlen n str)

/-- `last_history` -/
def last (n : Nat) (s : HistoryVars) (str : Cells) : Option (HistoryVars × Cells × Nat) :=
  if s.p = 0 then none
  else
    let tmp := if s.p = s.num then copyString n str 0 s.tmp else s.tmp
    let tm := findEnd s.text (-1) n (s.va - 1)
    let str := copyString n s.text (tm + 1) str
    some ({ s with p := s.p - 1, va := tm, tmp := tmp }, str, Cells.strlen n str)

end HistoryVars

/-- The history that `readline` calls, for strings shorter than `n`. -/
def fileHistory (n : Nat) : History HistoryVars where
  add := HistoryVars.add n
  last := HistoryVars.last n
  next := HistoryVars.next n

inductive Arrow where
  | up
  | down
  deriving DecidableEq

/-- The third byte of the key's escape sequence. -/
def Arrow.code : Arrow → Byte
  | .up => 0x41
  | .down => 0x42

/-- What an arrow key does to the state of `readline`. -/
def Line.arrow (n : Nat) (s : Line HistoryVars) (a : Arrow) : Line HistoryVars :=
  Line.escape (fileHistory n) { s with c2 := 0x5b, c3 := a.code }

/-! ## What the keys are for -/

/-- The index of the command shown, `N` for the line being typed. -/
def moved (N k : Nat) : Arrow → Nat
  | .up => k - 1
  | .down => min (k + 1) N

def position (N : Nat) (keys : List Arrow) : Nat := keys.foldl (moved N) N

/-- The command at index `k`, or the line being typed behind the last one. -/
def lineAt (cmds : List (List Byte)) (draft : List Byte) (k : Nat) : List Byte :=
  cmds.getD k draft

/-- The line that `readline` shows. -/
structure Line.Displays (s : Line HistoryVars) (l : List Byte) : Prop where
  num : s.num = l.length
  chars : ∀ i (h : i < l.length), s.buf i = l[i]

/-- A string and its terminator at `x`. -/
structure StringAt (mem : Cells) (x : Int) (l : List Byte) : Prop where
  chars : ∀ i (h : i < l.length), mem (x + i) = l[i]
  nonzero : (0 : Byte) ∉ l
  terminated : mem (x + l.length) = 0

/-- What a session of the shell makes of the history, with the commands recorded. -/
inductive Session (n : Nat) : List (List Byte) → HistoryVars → Prop
  | init : Session n [] .init
  | add {cmds : List (List Byte)} {s : HistoryVars} {cmd : Cells} {c : List Byte} :
      Session n cmds s → StringAt cmd 0 c → c ≠ [] → c.length < n →
      Session n (cmds ++ [c]) (s.add n cmd)
  | last {cmds : List (List Byte)} {s s' : HistoryVars} {str : Cells} {r : Cells × Nat} :
      Session n cmds s → s.last n str = some (s', r) → Session n cmds s'
  | next {cmds : List (List Byte)} {s s' : HistoryVars} {str : Cells} {r : Cells × Nat} :
      Session n cmds s → s.next n str = some (s', r) → Session n cmds s'

/-- The last command was just entered, or there was none. -/
inductive Entered (n : Nat) : List (List Byte) → HistoryVars → Prop
  | init : Entered n [] .init
  | add {cmds : List (List Byte)} {s : HistoryVars} {cmd : Cells} {c : List Byte} :
      Session n cmds s → StringAt cmd 0 c → c ≠ [] → c.length < n →
      Entered n (cmds ++ [c]) (s.add n cmd)

/-- An Up at the line being typed is the first one. -/
def Steady (N : Nat) (keys : List Arrow) : Prop :=
  ∀ before after, keys = before ++ .up :: after → position N before = N → .up ∉ before

/-! ## Strings in memory -/

theorem iterate_add (d x : Int) (i : Nat) : (· + d)^[i] x = x + i * d := by
  induction i with
  | zero => simp
  | succ i ih =>
      rw [Function.iterate_succ_apply', ih]
      push_cast
      ring

theorem findEnd_eq {d : Int} (chars : ∀ i < m, mem (x + (i : Nat) * d) ≠ 0)
    (ends : mem (x + (m : Nat) * d) = 0) (lt : m < n) : findEnd mem d n x = x + m * d := by
  have turns : ∀ i < m, mem ((· + d)^[i] x) ≠ 0 := by
    intro i hi
    rw [iterate_add]
    exact chars i hi
  have stops : ¬ mem ((· + d)^[m] x) ≠ 0 := by
    rw [iterate_add]
    exact not_not.mpr ends
  rw [findEnd, whileLoop_iterate turns stops lt, Option.getD_some, iterate_add]

/-- Where the same bytes are, the same string is. -/
theorem StringAt.congr {mem' : Cells} {y : Int} (str : StringAt mem x l)
    (same : ∀ i ≤ l.length, mem' (y + (i : Nat)) = mem (x + (i : Nat))) : StringAt mem' y l where
  chars i h := (same i (Nat.le_of_lt h)).trans (str.chars i h)
  nonzero := str.nonzero
  terminated := (same l.length (Nat.le_refl _)).trans str.terminated

theorem StringAt.char_ne (str : StringAt mem x l) {i : Nat} (hi : i < l.length) :
    mem (x + i) ≠ 0 := by
  rw [str.chars i hi]
  intro zero
  exact str.nonzero (zero ▸ List.getElem_mem hi)

theorem StringAt.findEnd (str : StringAt mem x l) (lt : l.length < n) :
    findEnd mem 1 n x = x + l.length := by
  have chars : ∀ i < l.length, mem (x + (i : Nat) * 1) ≠ 0 := by
    intro i hi
    rw [mul_one]
    exact str.char_ne hi
  rw [findEnd_eq chars (by rw [mul_one]; exact str.terminated) lt, mul_one]

/-- From its last character a scan downwards ends before the string. -/
theorem StringAt.findStart (str : StringAt mem x l) (before : mem (x - 1) = 0)
    (lt : l.length < n) : Mos.findEnd mem (-1) n (x + l.length - 1) = x - 1 := by
  have chars : ∀ i < l.length, mem (x + l.length - 1 + (i : Nat) * -1) ≠ 0 := by
    intro i hi
    have here :
        x + (l.length : Int) - 1 + (i : Int) * -1 = x + ((l.length - 1 - i : Nat) : Int) := by
      omega
    rw [here]
    exact str.char_ne (by omega)
  have first : x + (l.length : Int) - 1 + (l.length : Int) * -1 = x - 1 := by omega
  rw [findEnd_eq chars (by rw [first]; exact before) lt, first]

theorem copyByte_iterate (src dst : Cells) (x : Int) (i : Nat) :
    (copyByte src)^[i] (x, 0, dst) = (x + i, (i : Int), fun j : Int =>
      if 0 ≤ j ∧ j < i then src (x + j) else dst j) := by
  induction i with
  | zero =>
      refine Prod.ext (by simp) (Prod.ext rfl (funext fun j => ?_))
      exact (if_neg (by omega)).symm
  | succ i ih =>
      rw [Function.iterate_succ_apply', ih]
      refine Prod.ext (by simp [copyByte]; ring)
        (Prod.ext (by simp [copyByte]) (funext fun j => ?_))
      simp only [copyByte, Function.update_apply]
      split_ifs <;> first | rfl | omega | (congr 1; omega)

/-- A string is copied to the start of the buffer. -/
theorem StringAt.copy (str : StringAt src x l) (lt : l.length < n) (dst : Cells) :
    StringAt (copyString n src x dst) 0 l := by
  have copied : copyString n src x dst = Function.update
      (fun j => if 0 ≤ j ∧ j < (l.length : Int) then src (x + j) else dst j) l.length 0 := by
    have turns : ∀ i < l.length, src ((copyByte src)^[i] (x, 0, dst)).1 ≠ 0 := by
      intro i hi
      rw [copyByte_iterate]
      exact str.char_ne hi
    have stops : ¬ src ((copyByte src)^[l.length] (x, 0, dst)).1 ≠ 0 := by
      rw [copyByte_iterate]
      exact not_not.mpr str.terminated
    rw [copyString, whileLoop_iterate turns stops lt, Option.getD_some, copyByte_iterate]
  rw [copied]
  refine ⟨fun i hi => ?_, str.nonzero, ?_⟩
  · rw [Int.zero_add, Function.update_of_ne (by omega), if_pos (by omega)]
    exact str.chars i hi
  · rw [Int.zero_add, Function.update_self]

theorem StringAt.strlen (str : StringAt mem 0 l) (lt : l.length < n) :
    Cells.strlen n mem = l.length := by
  rw [Cells.strlen, str.findEnd lt]
  omega

/-! ## The file -/

/-- Where command `k` starts in the file. -/
def offset (cmds : List (List Byte)) (k : Nat) : Nat :=
  ((cmds.take k).map fun c => c.length + 1).sum

variable {cmds : List (List Byte)} {c draft : List Byte} {s s' : HistoryVars} {str cmd : Cells}

theorem offset_succ (h : k < cmds.length) :
    offset cmds (k + 1) = offset cmds k + cmds[k].length + 1 := by
  rw [offset, List.take_succ_eq_append_getElem h, List.map_append, List.sum_append, offset]
  simp
  omega

theorem offset_append (h : k ≤ cmds.length) (c : List Byte) :
    offset (cmds ++ [c]) k = offset cmds k := by
  rw [offset, List.take_append_of_le_length h, offset]

theorem offset_mono (cmds : List (List Byte)) {j k : Nat} (le : j ≤ k) :
    offset cmds j ≤ offset cmds k := by
  obtain ⟨d, rfl⟩ := Nat.exists_eq_add_of_le le
  rw [offset, offset, List.take_add, List.map_append, List.sum_append]
  exact Nat.le_add_right _ _

/-- The file holds the commands. -/
structure Stored (n : Nat) (cmds : List (List Byte)) (s : HistoryVars) : Prop where
  num : s.num = cmds.length
  size : s.size = offset cmds cmds.length
  strings : ∀ k (h : k < cmds.length), StringAt s.text (offset cmds k) cmds[k]
  short : ∀ c ∈ cmds, c.length < n
  before : s.text (-1) = 0

theorem Stored.of_same (stored : Stored n cmds s) (num : s'.num = s.num) (size : s'.size = s.size)
    (text : s'.text = s.text) : Stored n cmds s' where
  num := num.trans stored.num
  size := size.trans stored.size
  strings k h := text ▸ stored.strings k h
  short := stored.short
  before := text ▸ stored.before

/-- The byte before each command is zero. -/
theorem Stored.start (stored : Stored n cmds s) (h : k < cmds.length) :
    s.text ((offset cmds k : Int) - 1) = 0 := by
  cases k with
  | zero => exact stored.before
  | succ k =>
      have ends := (stored.strings k (Nat.lt_of_succ_lt h)).terminated
      rw [offset_succ (Nat.lt_of_succ_lt h)]
      rw [show ((offset cmds k + cmds[k].length + 1 : Nat) : Int) - 1 =
        (offset cmds k : Int) + cmds[k].length by omega]
      exact ends

theorem offset_add_lt (cmds : List (List Byte)) (h : k < cmds.length) :
    offset cmds k + cmds[k].length < offset cmds cmds.length := by
  have mono := offset_mono cmds (Nat.succ_le_of_lt h)
  rw [offset_succ h] at mono
  omega

theorem add_eq (string : StringAt cmd 0 c) (nonempty : c ≠ []) (lt : c.length < n)
    (s : HistoryVars) : s.add n cmd =
      { p := s.num + 1, num := s.num + 1, va := s.size + c.length + 1 - 1,
        tmp := Function.update s.tmp 0 0,
        text := fun x =>
          if s.size ≤ x ∧ x < s.size + c.length + 1 then cmd (x - s.size) else s.text x,
        size := s.size + c.length + 1 } := by
  have first : cmd 0 ≠ 0 := string.char_ne (i := 0) (List.length_pos_of_ne_nil nonempty)
  simp only [HistoryVars.add, if_neg first, string.strlen lt]

/-- A command is recorded at the end of the file. -/
theorem Stored.add (stored : Stored n cmds s) (string : StringAt cmd 0 c) (nonempty : c ≠ [])
    (lt : c.length < n) : Stored n (cmds ++ [c]) (s.add n cmd) ∧ (s.add n cmd).p = cmds.length + 1 ∧
      (s.add n cmd).va = offset cmds cmds.length + c.length := by
  have num := stored.num
  have size := stored.size
  rw [add_eq string nonempty lt]
  refine ⟨⟨?_, ?_, fun k h => ?_, fun c' inCmds => ?_, ?_⟩, by simp only [num], by simp only; omega⟩
  · rw [num, List.length_append, List.length_singleton]
    push_cast
    rfl
  · rw [size, List.length_append, List.length_singleton, offset_succ (by simp),
      offset_append (Nat.le_refl _)]
    simp
  · rcases Nat.lt_or_ge k cmds.length with old | new
    · have inside := offset_add_lt cmds old
      rw [offset_append (Nat.le_of_lt old), List.getElem_append_left old]
      refine (stored.strings k old).congr fun i hi => ?_
      exact if_neg (by omega)
    · have here : k = cmds.length := by
        rw [List.length_append, List.length_singleton] at h
        omega
      subst here
      rw [offset_append (Nat.le_refl _), List.getElem_concat_length rfl]
      refine string.congr fun i hi => ?_
      refine (if_pos (by omega)).trans ?_
      rw [size, show (offset cmds cmds.length : Int) + i - offset cmds cmds.length = 0 + i by omega]
  · rcases List.mem_append.mp inCmds with old | new
    · exact stored.short c' old
    · rw [List.mem_singleton.mp new]
      exact lt
  · refine (if_neg ?_).trans stored.before
    omega

theorem last_same {r : Cells × Nat} (run : s.last n str = some (s', r)) :
    s'.num = s.num ∧ s'.size = s.size ∧ s'.text = s.text := by
  unfold HistoryVars.last at run
  split at run
  case isTrue => cases run
  case isFalse =>
    cases run
    exact ⟨rfl, rfl, rfl⟩

theorem next_same {r : Cells × Nat} (run : s.next n str = some (s', r)) :
    s'.num = s.num ∧ s'.size = s.size ∧ s'.text = s.text := by
  unfold HistoryVars.next at run
  split at run
  case isTrue => cases run
  case isFalse =>
    split at run
    all_goals
      cases run
      exact ⟨rfl, rfl, rfl⟩

theorem Session.stored (session : Session n cmds s) : Stored n cmds s := by
  induction session with
  | init => exact ⟨rfl, rfl, fun k h => absurd h (Nat.not_lt_zero k), by simp, rfl⟩
  | add _ string nonempty lt ih => exact (ih.add string nonempty lt).1
  | last _ run ih =>
      obtain ⟨num, size, text⟩ := last_same run
      exact ih.of_same num size text
  | next _ run ih =>
      obtain ⟨num, size, text⟩ := next_same run
      exact ih.of_same num size text

/-! ## The functions of the history -/

/-- Up at command `k + 1` goes to command `k`. -/
theorem Stored.last (stored : Stored n cmds s) (h : k < cmds.length) (p : s.p = k + 1)
    (va : s.va = offset cmds (k + 1) - 1) (str : Cells) :
    ∃ str', s.last n str = some (
        { s with
          p := k
          va := (offset cmds k : Int) - 1
          tmp := if s.p = s.num then copyString n str 0 s.tmp else s.tmp }, str', cmds[k].length) ∧
      StringAt str' 0 cmds[k] := by
  have string := stored.strings k h
  have short := stored.short _ (List.getElem_mem h)
  have found : findEnd s.text (-1) n (s.va - 1) = (offset cmds k : Int) - 1 := by
    rw [show s.va - 1 = (offset cmds k : Int) + cmds[k].length - 1 by rw [va, offset_succ h]; omega]
    exact string.findStart (stored.start h) short
  have copied := string.copy short str
  refine ⟨_, ?_, copied⟩
  have moved : s.p ≠ 0 := by omega
  simp only [HistoryVars.last, if_neg moved, found, Int.sub_add_cancel, copied.strlen short]
  rw [show s.p - 1 = k by omega]

/-- Down at a command before the last one goes to the next. -/
theorem Stored.next (stored : Stored n cmds s) (h : k + 1 < cmds.length) (p : s.p = k)
    (va : s.va = offset cmds k - 1) (str : Cells) :
    ∃ str', s.next n str = some (
        { s with
          p := (k + 1 : Nat)
          va := (offset cmds (k + 1) : Int) - 1 }, str', cmds[k + 1].length) ∧
      StringAt str' 0 cmds[k + 1] := by
  have before : k < cmds.length := Nat.lt_of_succ_lt h
  have string := stored.strings (k + 1) h
  have short := stored.short _ (List.getElem_mem h)
  have num := stored.num
  have found : findEnd s.text 1 n (s.va + 1) = (offset cmds (k + 1) : Int) - 1 := by
    rw [va, Int.sub_add_cancel,
      (stored.strings k before).findEnd (stored.short _ (List.getElem_mem _)),
      offset_succ before]
    omega
  have copied := string.copy short str
  refine ⟨_, ?_, copied⟩
  have here : s.p ≠ s.num := by omega
  have notLast : s.p ≠ s.num - 1 := by omega
  simp only [HistoryVars.next, if_neg here, if_neg notLast, found, Int.sub_add_cancel,
    copied.strlen short]
  rw [p]
  rfl

/-- Down at the last command shows the saved line, and leaves `p` and `va`. -/
theorem next_saved (p : s.p = s.num - 1) (saved : StringAt s.tmp 0 draft) (short : draft.length < n)
    (str : Cells) :
    ∃ str', s.next n str = some (s, str', draft.length) ∧ StringAt str' 0 draft := by
  have copied := saved.copy short str
  refine ⟨_, ?_, copied⟩
  have here : s.p ≠ s.num := by omega
  simp only [HistoryVars.next, if_neg here, if_pos p, copied.strlen short]

/-! ## Runs of arrow keys -/

/-- Where the history is when the line at index `k` is shown. The typed line is shown
before the first Up, and again after a Down at the last command. -/
inductive Place (n : Nat) (cmds : List (List Byte)) (draft : List Byte) :
    Nat → HistoryVars → Cells → Prop
  | fresh {s : HistoryVars} {buf : Cells} : s.p = cmds.length →
      s.va = offset cmds cmds.length - 1 → StringAt buf 0 draft →
        Place n cmds draft cmds.length s buf
  | shown {s : HistoryVars} {buf : Cells} {k : Nat} : k < cmds.length → s.p = k →
      s.va = offset cmds k - 1 → StringAt s.tmp 0 draft → Place n cmds draft k s buf
  | returned {s : HistoryVars} {buf : Cells} {k : Nat} : k + 1 = cmds.length → s.p = k →
      s.va = offset cmds k - 1 → StringAt s.tmp 0 draft → Place n cmds draft cmds.length s buf

/-- The line at index `k` is shown, and the history is there. -/
structure Navigating (n : Nat) (cmds : List (List Byte)) (draft : List Byte) (k : Nat)
    (s : Line HistoryVars) : Prop where
  stored : Stored n cmds s.history
  displays : s.Displays (lineAt cmds draft k)
  place : Place n cmds draft k s.history s.buf

section Keys

variable {t : Line HistoryVars} {keys : List Arrow}

theorem showHistory_some {σ : Type} (t : Line σ) (h : σ) (buf : Cells) (len : Nat) :
    (t.showHistory (some (h, buf, len))).history = h ∧
      (t.showHistory (some (h, buf, len))).buf = buf ∧
      (t.showHistory (some (h, buf, len))).num = len := by
  refine ⟨?_, ?_, rfl⟩
  · simp only [Line.showHistory]
    split <;> rfl
  · simp only [Line.showHistory]
    split <;> rfl

theorem arrow_up (n : Nat) (t : Line HistoryVars) : t.arrow n .up =
    ({ t with c2 := 0x5b, c3 := 0x41 }.print [27, 0x5b, 0x42]).showHistory
      (t.history.last n t.buf) := rfl

theorem arrow_down (n : Nat) (t : Line HistoryVars) : t.arrow n .down =
    { t with c2 := 0x5b, c3 := 0x42 }.showHistory (t.history.next n t.buf) := rfl

/-- The state that an arrow key leaves, with the call that it makes. -/
def called (n : Nat) (t : Line HistoryVars) : Arrow → Option (HistoryVars × Cells × Nat)
  | .up => t.history.last n t.buf
  | .down => t.history.next n t.buf

theorem arrow_none {a : Arrow} (run : called n t a = none) :
    (t.arrow n a).history = t.history ∧ (t.arrow n a).buf = t.buf ∧ (t.arrow n a).num = t.num := by
  cases a with
  | up =>
      rw [arrow_up, show t.history.last n t.buf = none from run]
      exact ⟨rfl, rfl, rfl⟩
  | down =>
      rw [arrow_down, show t.history.next n t.buf = none from run]
      exact ⟨rfl, rfl, rfl⟩

theorem arrow_some {a : Arrow} {h : HistoryVars} {buf : Cells} {len : Nat}
    (run : called n t a = some (h, buf, len)) :
    (t.arrow n a).history = h ∧ (t.arrow n a).buf = buf ∧ (t.arrow n a).num = len := by
  cases a with
  | up =>
      rw [arrow_up, show t.history.last n t.buf = some (h, buf, len) from run]
      exact showHistory_some ..
  | down =>
      rw [arrow_down, show t.history.next n t.buf = some (h, buf, len) from run]
      exact showHistory_some ..

theorem Line.Displays.of_stringAt (num : t.num = l.length) (str : StringAt t.buf 0 l) :
    t.Displays l :=
  ⟨num, fun i h => by simpa using str.chars i h⟩

/-- A call that returns -1 leaves the line as it is. -/
theorem Navigating.of_none {a : Arrow} (nav : Navigating n cmds draft k t)
    (run : called n t a = none) : Navigating n cmds draft k (t.arrow n a) := by
  obtain ⟨history, buf, num⟩ := arrow_none run
  obtain ⟨stored, ⟨len, chars⟩, place⟩ := nav
  exact ⟨history ▸ stored, ⟨num.trans len, by rw [buf]; exact chars⟩,
    by rw [history, buf]; exact place⟩

/-- A call that returns 1 shows the line that it has copied. -/
theorem Navigating.of_some {a : Arrow} {h : HistoryVars} {buf : Cells} {len : Nat}
    (run : called n t a = some (h, buf, len)) (stored : Stored n cmds h)
    (len_eq : len = (lineAt cmds draft k).length) (str : StringAt buf 0 (lineAt cmds draft k))
    (place : Place n cmds draft k h buf) : Navigating n cmds draft k (t.arrow n a) := by
  obtain ⟨history, buf_eq, num⟩ := arrow_some run
  refine ⟨history ▸ stored, .of_stringAt ?_ (by rw [buf_eq]; exact str),
    by rw [history, buf_eq]; exact place⟩
  rw [num, len_eq]

theorem lineAt_command (h : k < cmds.length) (draft : List Byte) :
    lineAt cmds draft k = cmds[k] := by
  simp [lineAt, h]

theorem lineAt_draft (cmds : List (List Byte)) (draft : List Byte) :
    lineAt cmds draft cmds.length = draft := by
  simp [lineAt]

/-- Down goes one line on, whatever was pressed before. -/
theorem Navigating.down (nav : Navigating n cmds draft k t) (short : draft.length < n) :
    Navigating n cmds draft (min (k + 1) cmds.length) (t.arrow n .down) := by
  have stored := nav.stored
  have num := stored.num
  cases nav.place with
  | fresh p va str =>
      rw [Nat.min_eq_right (Nat.le_succ _)]
      exact nav.of_none (if_pos (p.trans num.symm))
  | shown lt p va saved =>
      rcases Nat.lt_or_ge (k + 1) cmds.length with before | atLast
      · obtain ⟨str', run, str⟩ := stored.next before p va t.buf
        rw [Nat.min_eq_left (Nat.le_of_lt before)]
        have line := lineAt_command before draft
        refine Navigating.of_some run (stored.of_same rfl rfl rfl) (by rw [line]) (by rwa [line]) ?_
        exact .shown before rfl rfl saved
      · have last : k + 1 = cmds.length := by omega
        obtain ⟨str', run, str⟩ := next_saved (by omega) saved short t.buf
        rw [Nat.min_eq_right atLast]
        have line := lineAt_draft cmds draft
        refine Navigating.of_some run stored (by rw [line]) (by rwa [line]) ?_
        exact .returned last p va saved
  | @returned _ _ j last p va saved =>
      obtain ⟨str', run, str⟩ := next_saved (by omega) saved short t.buf
      rw [Nat.min_eq_right (Nat.le_succ _)]
      have line := lineAt_draft cmds draft
      refine Navigating.of_some run stored (by rw [line]) (by rwa [line]) ?_
      exact .returned last p va saved

/-- Up goes one line back, but not from a line that Down has brought back. -/
theorem Navigating.up (nav : Navigating n cmds draft k t) (short : draft.length < n)
    (nonempty : cmds ≠ []) (first : k = cmds.length → t.history.p = cmds.length) :
    Navigating n cmds draft (k - 1) (t.arrow n .up) := by
  have stored := nav.stored
  have num := stored.num
  cases nav.place with
  | fresh p va typed =>
      obtain ⟨m, last⟩ := Nat.exists_eq_succ_of_ne_zero
        (fun zero => nonempty (List.length_eq_zero_iff.mp zero))
      have inside : m < cmds.length := by omega
      rw [last] at va
      obtain ⟨str', run, str⟩ := stored.last inside (by omega) va t.buf
      rw [if_pos (by omega)] at run
      have line := lineAt_command inside draft
      rw [show cmds.length - 1 = m by omega]
      refine Navigating.of_some run (stored.of_same rfl rfl rfl) (by rw [line]) (by rwa [line]) ?_
      exact .shown inside rfl rfl (typed.copy short _)
  | shown lt p va saved =>
      cases k with
      | zero => exact nav.of_none (if_pos p)
      | succ k =>
          have inside : k < cmds.length := Nat.lt_of_succ_lt lt
          obtain ⟨str', run, str⟩ := stored.last inside (by omega) va t.buf
          rw [if_neg (by omega)] at run
          have line : lineAt cmds draft (k + 1 - 1) = cmds[k] := lineAt_command inside draft
          refine Navigating.of_some run (stored.of_same rfl rfl rfl) (by rw [line])
            (by rwa [line]) ?_
          exact .shown inside rfl rfl saved
  | @returned _ _ j last p va saved =>
      have := first rfl
      omega

theorem Steady.of_append {N : Nat} {a : Arrow} (steady : Steady N (keys ++ [a])) : Steady N keys :=
  fun before after eq => steady before (after ++ [a]) (by simp [eq])

/-- The keys of a steady run show the lines they are for. -/
theorem Navigating.run (nav : Navigating n cmds draft cmds.length t) (short : draft.length < n)
    (nonempty : cmds ≠ []) (start : t.history.p = cmds.length) (steady : Steady cmds.length keys) :
    Navigating n cmds draft (position cmds.length keys) (keys.foldl (Line.arrow n) t) ∧
      (.up ∉ keys → (keys.foldl (Line.arrow n) t).history.p = cmds.length) := by
  induction keys using List.reverseRecOn with
  | nil => exact ⟨nav, fun _ => start⟩
  | append_singleton keys a ih =>
      obtain ⟨here, unmoved⟩ := ih steady.of_append
      rw [List.foldl_append, position, List.foldl_append, List.foldl_cons, List.foldl_nil,
        List.foldl_cons, List.foldl_nil]
      cases a with
      | up =>
          refine ⟨here.up short nonempty fun last => unmoved (steady keys [] rfl last),
            fun absent => ?_⟩
          exact absurd (List.mem_append_right _ List.mem_cons_self) absent
      | down =>
          refine ⟨here.down short, fun absent => ?_⟩
          have p := unmoved fun up => absent (List.mem_append_left _ up)
          have none : called n (keys.foldl (Line.arrow n) t) .down = none :=
            if_pos (p.trans here.stored.num.symm)
          rw [(arrow_none none).1]
          exact p

/-- Without commands the keys do nothing. -/
theorem arrows_empty (keys : List Arrow) (p : t.history.p = 0) (num : t.history.num = 0) :
    (keys.foldl (Line.arrow n) t).history = t.history ∧
      (keys.foldl (Line.arrow n) t).buf = t.buf ∧ (keys.foldl (Line.arrow n) t).num = t.num := by
  induction keys generalizing t with
  | nil => exact ⟨rfl, rfl, rfl⟩
  | cons a keys ih =>
      have run : called n t a = none := by
        cases a with
        | up => exact if_pos p
        | down => exact if_pos (p.trans num.symm)
      obtain ⟨history, buf, len⟩ := arrow_none run
      obtain ⟨history', buf', len'⟩ := ih (t := t.arrow n a) (by rw [history]; exact p)
        (by rw [history]; exact num)
      exact ⟨history'.trans history, buf'.trans buf, len'.trans len⟩

/-- The bytes of an arrow key do to `readline` what the key does to its line. -/
theorem readlineLoop_arrow (inside : t.i < n) (a : Arrow) (rest : List Read) :
    readlineLoop (fileHistory n) n t ([.byte 27, .byte 0x5b, .byte a.code] ++ rest) =
      readlineLoop (fileHistory n) n (t.arrow n a) rest := by
  have esc : ¬ ((27 : Byte) = 8 ∨ (27 : Byte) = 0x7f) := by decide
  simp only [List.cons_append, List.nil_append]
  rw [readlineLoop, if_pos inside]
  · simp only [if_neg esc, if_true]
    rfl
  · intro h
    cases h

end Keys

theorem Entered.start (entered : Entered n cmds s) :
    Stored n cmds s ∧ s.p = cmds.length ∧ (cmds ≠ [] → s.va = offset cmds cmds.length - 1) := by
  cases entered with
  | init => exact ⟨Session.init.stored, rfl, fun h => absurd rfl h⟩
  | @add cmds s cmd c session string nonempty lt =>
      obtain ⟨stored, p, va⟩ := session.stored.add string nonempty lt
      refine ⟨stored, ?_, fun _ => ?_⟩
      · rw [p, List.length_append, List.length_singleton]
        push_cast
        rfl
      · rw [va, List.length_append, List.length_singleton, offset_succ (by simp),
          offset_append (Nat.le_refl _)]
        simp

/-- After the last command was entered and a line typed, any arrow keys show the lines
they are for, so long as no Up follows a Down that has brought the typed line back. -/
theorem history_navigates {t : Line HistoryVars} {keys : List Arrow}
    (entered : Entered n cmds t.history) (typed : StringAt t.buf 0 draft)
    (num : t.num = draft.length) (short : draft.length < n)
    (steady : cmds = [] ∨ Steady cmds.length keys) :
    (keys.foldl (Line.arrow n) t).Displays (lineAt cmds draft (position cmds.length keys)) := by
  obtain ⟨stored, p, va⟩ := entered.start
  have shows : t.Displays draft := .of_stringAt num typed
  by_cases empty : cmds = []
  · obtain ⟨_, buf, len⟩ := arrows_empty keys (show t.history.p = 0 by rw [p, empty]; rfl)
      (show t.history.num = 0 by rw [stored.num, empty]; rfl)
    rw [empty, show lineAt [] draft _ = draft from rfl]
    exact .of_stringAt (len.trans num) (by rw [buf]; exact typed)
  · have nav : Navigating n cmds draft cmds.length t :=
      ⟨stored, by rw [lineAt_draft]; exact shows, .fresh p (va empty) typed⟩
    exact (nav.run short empty p (steady.resolve_left empty)).1.displays

/-- A buffer with one character. -/
def oneChar (c : Byte) : Cells := fun x => if x = 0 then c else 0

theorem oneChar_stringAt {c : Byte} (nonzero : c ≠ 0) : StringAt (oneChar c) 0 [c] := by
  refine ⟨fun i hi => ?_, by simpa using nonzero.symm, rfl⟩
  obtain rfl : i = 0 := by simpa using hi
  rfl

/-- The prompt after the commands `"a"` and `"b"`, with nothing in the buffer. -/
def afterTwo : Line HistoryVars :=
  { buf := fun _ => 0, num := 0, i := 0, c2 := 0, c3 := 0,
    history := (HistoryVars.init.add 4 (oneChar 0x61)).add 4 (oneChar 0x62), out := [], reads := [],
    writes := [] }

theorem afterTwo_entered : Entered 4 [[0x61], [0x62]] afterTwo.history :=
  .add (.add .init (oneChar_stringAt (by decide)) (by decide) (by decide))
    (oneChar_stringAt (by decide)) (by decide) (by decide)

theorem afterTwo_empty : StringAt afterTwo.buf 0 [] where
  chars i hi := absurd hi (Nat.not_lt_zero i)
  nonzero := List.not_mem_nil
  terminated := rfl

theorem history_navigates_two : ([Arrow.up].foldl (Line.arrow 4) afterTwo).Displays [0x62] := by
  have first : Steady 2 [.up] := by
    intro before after eq _
    cases before with
    | nil => exact List.not_mem_nil
    | cons a before => simp at eq
  exact history_navigates afterTwo_entered afterTwo_empty rfl (by decide) (.inr first)

/-- Up, Down and Up again show the command before the last one. -/
theorem history_not_navigates : ¬ ∀ (n : Nat) (cmds : List (List Byte)) (draft : List Byte)
    (t : Line HistoryVars) (keys : List Arrow), Entered n cmds t.history → StringAt t.buf 0 draft →
      t.num = draft.length → draft.length < n →
      (keys.foldl (Line.arrow n) t).Displays (lineAt cmds draft (position cmds.length keys)) := by
  intro always
  have shown := always 4 _ [] afterTwo [.up, .down, .up] afterTwo_entered afterTwo_empty rfl
    (by decide)
  have first := shown.chars 0 (by decide)
  revert first
  decide +kernel

end Mos
