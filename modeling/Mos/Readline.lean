import Mos.Lib.LineEdit
import Mos.Pipe

/-!
# `readline`

The shell keeps the line being typed in `buf`, its length in `num` and the
cursor in `i`, and shifts the rest of the line by loops over `buf`. The indices
of these loops are ints, and nothing stops them at the ends of the buffer: what
`readline` reads and writes is recorded index by index.
-/

namespace Mos

/-- Memory around `buf`, by the index into it. -/
abbrev Cells := Int → Byte

/-- `user/lib/history.c`, as far as `readline` goes: its statics, and what its
functions do with the buffer. `last` and `next` return nothing, or the buffer
they have written and the length of the string in it. -/
structure History (σ : Type) where
  add : σ → Cells → σ
  last : σ → Cells → Option (σ × Cells × Nat)
  next : σ → Cells → Option (σ × Cells × Nat)

/-- The locals of `readline`, the buffer, and the console. -/
structure Line (σ : Type) where
  buf : Cells
  num : Int
  i : Int
  c2 : Byte
  c3 : Byte
  history : σ
  out : List Byte
  reads : List Int
  writes : List Int

variable {σ : Type}

namespace Line

/-- `buf[j] = v` -/
def store (s : Line σ) (j : Int) (v : Byte) : Line σ :=
  { s with buf := Function.update s.buf j v, writes := j :: s.writes }

/-- `buf[j] = buf[k]` -/
def copy (s : Line σ) (j k : Int) : Line σ :=
  { s.store j (s.buf k) with reads := k :: s.reads }

def print (s : Line σ) (cs : List Byte) : Line σ := { s with out := s.out ++ cs }

/-- `printf("%c", buf[j])` -/
def echo (s : Line σ) (j : Int) : Line σ := { s.print [s.buf j] with reads := j :: s.reads }

/-- `k` rounds of `buf[j] = buf[j + 1]`, `j++` -/
def shiftDown (s : Line σ) (j : Int) : Nat → Line σ
  | 0 => s
  | k + 1 => (s.copy j (j + 1)).shiftDown (j + 1) k

/-- `k` rounds of `buf[j] = buf[j - 1]`, `j--` -/
def shiftUp (s : Line σ) (j : Int) : Nat → Line σ
  | 0 => s
  | k + 1 => (s.copy j (j - 1)).shiftUp (j - 1) k

/-- `k` rounds of `printf("%c", buf[j])`, `j++` -/
def echoFrom (s : Line σ) (j : Int) : Nat → Line σ
  | 0 => s
  | k + 1 => (s.echo j).echoFrom (j + 1) k

/-- `n` times the character `c`, none if `n` is negative. -/
def printMany (s : Line σ) (n : Int) (c : List Byte) : Line σ :=
  s.print (List.replicate n.toNat c).flatten

/-- The branch of `'\b'` and `0x7f`. -/
def rubout (s : Line σ) : Line σ :=
  let s := s.shiftDown (s.i - 1) (s.num - 1 - (s.i - 1)).toNat
  if 0 < s.i then
    let s := { s with i := s.i - 1 }
    let s := { s.store (s.num - 1) 0 with num := s.num - 1 }
    let s := s.print [8]
    let s := s.echoFrom s.i (s.num - s.i).toNat
    let s := s.print [32]
    s.printMany (s.num - s.i + 1) [8]
  else s

/-- The last branch: the character goes into the line. -/
def put (s : Line σ) (c1 : Byte) : Line σ :=
  let s := s.shiftUp s.num (s.num - (s.i - 1)).toNat
  let s := { s with num := s.num + 1 }
  let s := { s.store s.i c1 with i := s.i + 1 }
  let s := s.echoFrom s.i (s.num - s.i).toNat
  let s := s.store s.num 0
  s.printMany (s.num - s.i) [8]

/-- The line on the screen is erased and the one from the history shown. -/
def showHistory (s : Line σ) (found : Option (σ × Cells × Nat)) : Line σ :=
  match found with
  | none => s
  | some (h, buf, len) =>
      let s := { s with history := h, buf := buf }
      let s :=
        if s.i ≠ (0 : Int) then
          (s.printMany (s.num - s.i + 1) [32]).printMany (s.num + 1) [8, 32, 8]
        else s.print [32, 8]
      let s := s.print ((List.range len).map fun j => buf j)
      { s with i := len, num := len }

/-- The branch of `27`, once `c2` and `c3` are read. -/
def escape (hist : History σ) (s : Line σ) : Line σ :=
  if s.c2 ≠ 0x5b then s
  else if s.c3 = 0x44 then
    if 0 < s.i then { s with i := s.i - 1 } else s.print [32]
  else if s.c3 = 0x43 then
    if s.i < s.num then { s with i := s.i + 1 } else s.print [8]
  else if s.c3 = 0x42 then s.showHistory (hist.next s.history s.buf)
  else if s.c3 = 0x41 then
    let s := s.print [27, 0x5b, 0x42]
    s.showHistory (hist.last s.history s.buf)
  else s

/-- The branch of `'\r'` and `'\n'`. -/
def enter (hist : History σ) (s : Line σ) : Line σ :=
  let s := s.store s.num 0
  { s with history := hist.add s.history s.buf }

end Line

/-- What `read(0, &c, 1)` returns, with the byte where it is 1. -/
inductive Read where
  | byte (c : Byte)
  | eof
  | error

/-- How far a call of `readline` has got. -/
inductive Typing (σ : Type) where
  | waiting (s : Line σ)
  | exited (s : Line σ)
  | returned (s : Line σ)
  | rejected (s : Line σ)

def Typing.line : Typing σ → Line σ
  | .waiting s | .exited s | .returned s | .rejected s => s

/-- `c2`, `c3`: a byte that could not be read leaves the variable as it was. -/
def Read.orElse : Read → Byte → Byte
  | .byte c, _ => c
  | .eof, old | .error, old => old

/-- After "line too long": the rest of the line is read into `buf[0]`. -/
def drain (s : Line σ) : List Read → Typing σ
  | [] => .waiting s
  | .byte c :: rest =>
      let s := s.store 0 c
      let s := { s with reads := 0 :: s.reads }
      if c ≠ 0x0d ∧ c ≠ 0x0a then drain s rest else .rejected (s.store 0 0)
  | .eof :: _ | .error :: _ => .rejected (s.store 0 0)

/-- The loop of `readline(buf, n)` on the results of its reads. The guard
compares as unsigned; `i` is never negative. -/
def readlineLoop (hist : History σ) (n : Nat) (s : Line σ) : List Read → Typing σ
  | [] => if s.i < n then .waiting s else drain s []
  | r1 :: rest =>
      if s.i < n then
        match r1 with
        | .eof | .error => .exited s
        | .byte c1 =>
            if c1 = 8 ∨ c1 = 0x7f then readlineLoop hist n s.rubout rest
            else if c1 = 27 then
              match rest with
              | [] => .waiting s
              | .error :: _ => .exited s
              | r2 :: rest =>
                  let s := { s with c2 := r2.orElse s.c2 }
                  match rest with
                  | [] => .waiting s
                  | .error :: _ => .exited s
                  | r3 :: rest =>
                      let s := { s with c3 := r3.orElse s.c3 }
                      readlineLoop hist n (s.escape hist) rest
            else if c1 = 0x0d ∨ c1 = 0x0a then .returned (s.enter hist)
            else readlineLoop hist n (s.put c1) rest
      else drain s (r1 :: rest)

/-- `readline(buf, n)`: `num` and `i` start at 0, `c2` and `c3` hold anything. -/
def readline (hist : History σ) (h : σ) (buf : Cells) (c2 c3 : Byte) (n : Nat)
    (input : List Read) : Typing σ :=
  readlineLoop hist n
    { buf := buf, num := 0, i := 0, c2 := c2, c3 := c3, history := h, out := [], reads := [],
      writes := [] } input

/-- The characters that `readline` puts into the line. -/
abbrev Plain := { c : Byte // c ∉ [0, 8, 0x7f, 27, 0x0d, 0x0a] }

/-- The keys that edit a line. -/
inductive EditKey where
  | char (c : Plain)
  | backspace
  | delete
  | left
  | right

inductive Key where
  | edit (k : EditKey)
  | enter (cr : Bool)

def EditKey.reads : EditKey → List Read
  | .char c => [.byte c.val]
  | .backspace => [.byte 8]
  | .delete => [.byte 0x7f]
  | .left => [.byte 27, .byte 0x5b, .byte 0x44]
  | .right => [.byte 27, .byte 0x5b, .byte 0x43]

def enterRead (cr : Bool) : Read := .byte (if cr then 0x0d else 0x0a)

def Key.reads : Key → List Read
  | .edit k => k.reads
  | .enter cr => [enterRead cr]

/-- What a key does to the line that the user has in mind. -/
def EditKey.apply (e : LineEdit Plain) : EditKey → LineEdit Plain
  | .char c => e.insert c
  | .backspace | .delete => e.backspace
  | .left => e.left
  | .right => e.right

def typed (ks : List EditKey) : LineEdit Plain := ks.foldl EditKey.apply .empty

/-- `buf` holds the string `t`. -/
structure IsText (buf : Cells) (t : List Plain) : Prop where
  chars : ∀ (k : Nat) c, t[k]? = some c → buf k = c.val
  terminated : buf t.length = 0

namespace Line

variable {s : Line σ} {e : LineEdit Plain} {x j : Int}

theorem shiftDown_buf (s : Line σ) (j : Int) (k : Nat) (x : Int) :
    (s.shiftDown j k).buf x = if j ≤ x ∧ x < j + k then s.buf (x + 1) else s.buf x := by
  induction k generalizing s j with
  | zero => rw [if_neg (by omega)]; rfl
  | succ k ih =>
      rw [shiftDown, ih]
      simp only [copy, store, Function.update_apply]
      split_ifs <;> first | rfl | omega | (congr 1; omega)

theorem shiftUp_buf (s : Line σ) (j : Int) (k : Nat) (x : Int) :
    (s.shiftUp j k).buf x = if j - k < x ∧ x ≤ j then s.buf (x - 1) else s.buf x := by
  induction k generalizing s j with
  | zero => rw [if_neg (by omega)]; rfl
  | succ k ih =>
      rw [shiftUp, ih]
      simp only [copy, store, Function.update_apply]
      split_ifs <;> first | rfl | omega | (congr 1; omega)

theorem shiftDown_counters (s : Line σ) (j : Int) (k : Nat) :
    (s.shiftDown j k).num = s.num ∧ (s.shiftDown j k).i = s.i := by
  induction k generalizing s j with
  | zero => exact ⟨rfl, rfl⟩
  | succ k ih => exact ih _ _

theorem shiftUp_counters (s : Line σ) (j : Int) (k : Nat) :
    (s.shiftUp j k).num = s.num ∧ (s.shiftUp j k).i = s.i := by
  induction k generalizing s j with
  | zero => exact ⟨rfl, rfl⟩
  | succ k ih => exact ih _ _

/-- Printing the rest of the line changes nothing but the console. -/
theorem echoFrom_same (s : Line σ) (j : Int) (k : Nat) :
    (s.echoFrom j k).buf = s.buf ∧ (s.echoFrom j k).num = s.num ∧
      (s.echoFrom j k).i = s.i ∧ (s.echoFrom j k).writes = s.writes := by
  induction k generalizing s j with
  | zero => exact ⟨rfl, rfl, rfl, rfl⟩
  | succ k ih => exact ih _ _

/-- What a key that edits the line does to the state of `readline`. -/
def press (hist : History σ) (s : Line σ) : EditKey → Line σ
  | .char c => s.put c.val
  | .backspace | .delete => s.rubout
  | .left => escape hist { s with c2 := 0x5b, c3 := 0x44 }
  | .right => escape hist { s with c2 := 0x5b, c3 := 0x43 }

/-- The counters are those of the line that the user has in mind. -/
structure Sync (s : Line σ) (e : LineEdit Plain) : Prop where
  num : s.num = e.text.length
  i : s.i = e.cursor

theorem put_counters (s : Line σ) (c : Byte) :
    (s.put c).num = s.num + 1 ∧ (s.put c).i = s.i + 1 := by
  simp only [put, printMany, print, store, echoFrom_same, shiftUp_counters, and_self]

theorem put_buf (le : s.i ≤ s.num) (c : Byte) (hi : x ≤ s.num) :
    (s.put c).buf x = if x < s.i then s.buf x else if x = s.i then c else s.buf (x - 1) := by
  simp only [put, printMany, print, store, echoFrom_same, shiftUp_counters,
    Function.update_apply, shiftUp_buf]
  rw [if_neg (by omega)]
  split_ifs <;> first | rfl | omega

theorem rubout_start (h : ¬0 < s.i) :
    s.rubout = s.shiftDown (s.i - 1) (s.num - 1 - (s.i - 1)).toNat := by
  simp only [rubout, shiftDown_counters]
  rw [if_neg h]

theorem rubout_counters (h : 0 < s.i) :
    s.rubout.num = s.num - 1 ∧ s.rubout.i = s.i - 1 := by
  simp only [rubout, shiftDown_counters]
  rw [if_pos h]
  simp only [printMany, print, store, echoFrom_same, and_self]

theorem rubout_buf (h : 0 < s.i) (hx : x < s.num - 1) :
    s.rubout.buf x = if x < s.i - 1 then s.buf x else s.buf (x + 1) := by
  simp only [rubout, shiftDown_counters]
  rw [if_pos h]
  simp only [printMany, print, store, echoFrom_same, Function.update_apply, shiftDown_buf]
  split_ifs <;> first | rfl | omega

theorem escape_left (hist : History σ) (sync : s.Sync e) :
    (s.press hist .left).Sync e.left := by
  obtain ⟨num, i⟩ := sync
  simp only [press, escape, ne_eq, not_true_eq_false, if_false, if_true]
  split
  · refine ⟨num, ?_⟩
    show s.i - 1 = ((e.cursor - 1 : Nat) : Int)
    omega
  · refine ⟨num, ?_⟩
    show s.i = ((e.cursor - 1 : Nat) : Int)
    omega

theorem escape_right (hist : History σ) (sync : s.Sync e) :
    (s.press hist .right).Sync e.right := by
  obtain ⟨num, i⟩ := sync
  have code : (0x43 : Byte) ≠ 0x44 := by decide
  simp only [press, escape, ne_eq, not_true_eq_false, if_false, if_true, code, LineEdit.right]
  split
  · rw [dif_pos (by omega)]
    exact ⟨num, congrArg (· + 1) i⟩
  · rw [dif_neg (by omega)]
    exact ⟨num, i⟩

/-- Whatever is in the buffer, the counters follow the keys. -/
theorem Sync.press (sync : s.Sync e) (hist : History σ) (k : EditKey) :
    (s.press hist k).Sync (k.apply e) := by
  obtain ⟨num, i⟩ := sync
  have within := e.within
  have rub : s.rubout.Sync e.backspace := by
    by_cases start : e.cursor = 0
    · rw [LineEdit.backspace_start start, rubout_start (by omega)]
      exact ⟨(shiftDown_counters ..).1.trans num, (shiftDown_counters ..).2.trans i⟩
    · obtain ⟨num', i'⟩ := rubout_counters (s := s) (by omega)
      refine ⟨?_, ?_⟩
      · rw [num', LineEdit.length_backspace start]
        omega
      · rw [i', LineEdit.backspace_cursor]
        omega
  cases k with
  | char c =>
      obtain ⟨num', i'⟩ := put_counters s c.val
      refine ⟨?_, ?_⟩
      · rw [Line.press, num', EditKey.apply, LineEdit.length_insert]
        omega
      · rw [Line.press, i', i]
        rfl
  | backspace => exact rub
  | delete => exact rub
  | left => exact escape_left hist ⟨num, i⟩
  | right => exact escape_right hist ⟨num, i⟩

/-- The buffer holds the line that the user has in mind. -/
structure Shows (s : Line σ) (e : LineEdit Plain) : Prop extends s.Sync e where
  chars : ∀ (k : Nat) c, e.text[k]? = some c → s.buf k = c.val

theorem escape_buf (hist : History σ) (s : Line σ) :
    (s.press hist .left).buf = s.buf ∧ (s.press hist .right).buf = s.buf := by
  have code : (0x43 : Byte) ≠ 0x44 := by decide
  simp only [press, escape, ne_eq, not_true_eq_false, if_false, if_true, code]
  refine ⟨?_, ?_⟩
  · split <;> rfl
  · split <;> rfl

theorem Shows.put (shows : s.Shows e) (c : Plain) (k : Nat) (d : Plain)
    (at_k : (e.insert c).text[k]? = some d) : (s.put c.val).buf k = d.val := by
  obtain ⟨⟨num, i⟩, chars⟩ := shows
  have within := e.within
  have lt : k < (e.insert c).text.length := (List.getElem?_eq_some_iff.mp at_k).1
  rw [LineEdit.length_insert] at lt
  rw [put_buf (by omega) _ (by omega)]
  rw [LineEdit.getElem?_insert] at at_k
  split at at_k
  · rw [if_pos (by omega)]
    exact chars k d at_k
  · split at at_k
    · rw [if_neg (by omega), if_pos (by omega)]
      exact congrArg Subtype.val (Option.some.inj at_k)
    · rw [if_neg (by omega), if_neg (by omega), ← chars (k - 1) d at_k]
      congr 1
      omega

theorem Shows.rubout (shows : s.Shows e) (start : e.cursor ≠ 0) (k : Nat) (d : Plain)
    (at_k : e.backspace.text[k]? = some d) : s.rubout.buf k = d.val := by
  obtain ⟨⟨num, i⟩, chars⟩ := shows
  have lt : k < e.backspace.text.length := (List.getElem?_eq_some_iff.mp at_k).1
  have within := e.within
  rw [LineEdit.length_backspace start] at lt
  rw [rubout_buf (by omega) (by omega)]
  rw [LineEdit.getElem?_backspace start] at at_k
  split at at_k
  · rw [if_pos (by omega)]
    exact chars k d at_k
  · rw [if_neg (by omega)]
    exact chars (k + 1) d at_k

/-- At the start of the line, Backspace moves every character one place down
and repeats the last one. -/
theorem Shows.rubout_start (shows : s.Shows e) (start : e.cursor = 0) (k : Nat)
    (lt : k < e.text.length) :
    s.rubout.buf k = if k + 1 < e.text.length then s.buf (k + 1) else s.buf k := by
  obtain ⟨⟨num, i⟩, chars⟩ := shows
  rw [Line.rubout_start (by omega), shiftDown_buf]
  by_cases last : k + 1 < e.text.length
  · rw [if_pos (by omega), if_pos last]
  · rw [if_neg (by omega), if_neg last]

end Line

/-- All characters of the line are the same one. -/
def AllSame (t : List Plain) : Prop := ∀ a ∈ t, ∀ b ∈ t, a = b

def EditKey.Rubs (k : EditKey) : Prop := k = .backspace ∨ k = .delete

/-- The key does to the line what the user means by it. -/
def EditKey.Fair (k : EditKey) (e : LineEdit Plain) : Prop :=
  k.Rubs → e.cursor = 0 → AllSame e.text

namespace Line

variable {s : Line σ} {e : LineEdit Plain} {hist : History σ}

theorem Shows.press_rubs (shows : s.Shows e) (same : e.cursor = 0 → AllSame e.text) (k : Nat)
    (d : Plain) (at_k : e.backspace.text[k]? = some d) : s.rubout.buf k = d.val := by
  by_cases start : e.cursor = 0
  · rw [LineEdit.backspace_start start] at at_k
    have lt : k < e.text.length := (List.getElem?_eq_some_iff.mp at_k).1
    rw [shows.rubout_start start k lt]
    split
    · next next =>
        have second := shows.chars (k + 1) e.text[k + 1] (List.getElem?_eq_getElem next)
        have eq := same start _ (List.getElem_mem next) _ (List.mem_of_getElem? at_k)
        rw [eq] at second
        exact second
    · exact shows.chars k d at_k
  · exact shows.rubout start k d at_k

theorem Shows.press (shows : s.Shows e) {k : EditKey} (fair : k.Fair e) :
    (s.press hist k).Shows (k.apply e) := by
  refine ⟨shows.toSync.press hist k, ?_⟩
  cases k with
  | char c => exact shows.put c
  | backspace => exact shows.press_rubs (fair (.inl rfl))
  | delete => exact shows.press_rubs (fair (.inr rfl))
  | left =>
      intro k c at_k
      rw [(escape_buf hist s).1]
      exact shows.chars k c at_k
  | right =>
      intro k c at_k
      rw [(escape_buf hist s).2]
      apply shows.chars k c
      simp only [EditKey.apply, LineEdit.right] at at_k
      split at at_k
      · exact at_k
      · exact at_k

/-- Backspace at the start of a line that is shown again afterwards. -/
theorem Shows.allSame_of_rubs (shows : s.Shows e) (start : e.cursor = 0)
    (after : ∀ (k : Nat) c, e.text[k]? = some c → s.rubout.buf k = c.val) : AllSame e.text := by
  have step : ∀ (k : Nat) (h : k < e.text.length), e.text[k] = e.text[0] := by
    intro k
    induction k with
    | zero => exact fun _ => rfl
    | succ k ih =>
        intro h
        have below : k < e.text.length := by omega
        have moved := after k e.text[k] (List.getElem?_eq_getElem below)
        rw [shows.rubout_start start k below, if_pos h] at moved
        have old := shows.chars (k + 1) e.text[k + 1] (List.getElem?_eq_getElem h)
        rw [← ih below]
        exact Subtype.ext (old.symm.trans moved)
  intro a ha b hb
  obtain ⟨j, hj, rfl⟩ := List.getElem_of_mem ha
  obtain ⟨k, hk, rfl⟩ := List.getElem_of_mem hb
  rw [step j hj, step k hk]

end Line

section Run

variable {s : Line σ} {e : LineEdit Plain} {hist : History σ} {n : Nat} {ks p : List EditKey}

theorem readlineLoop_plain (h : s.i < n) (c : Plain) (rest : List Read) :
    readlineLoop hist n s (.byte c.val :: rest) = readlineLoop hist n (s.put c.val) rest := by
  have plain := c.property
  simp only [List.mem_cons, List.not_mem_nil, not_or, or_false] at plain
  obtain ⟨-, rub, del, esc, cr, lf⟩ := plain
  rw [readlineLoop.eq_def]
  simp only [if_pos h, rub, del, esc, cr, lf, or_self, if_false]

theorem readlineLoop_rubout (h : s.i < n) {c : Byte} (rubs : c = 8 ∨ c = 0x7f)
    (rest : List Read) :
    readlineLoop hist n s (.byte c :: rest) = readlineLoop hist n s.rubout rest := by
  rw [readlineLoop.eq_def]
  simp only [if_pos h, rubs, if_true]

theorem readlineLoop_escape (h : s.i < n) (c2 c3 : Byte) (rest : List Read) :
    readlineLoop hist n s (.byte 27 :: .byte c2 :: .byte c3 :: rest) =
      readlineLoop hist n (Line.escape hist { s with c2 := c2, c3 := c3 }) rest := by
  have rub : ¬((27 : Byte) = 8 ∨ (27 : Byte) = 0x7f) := by decide
  rw [readlineLoop.eq_def]
  simp only [if_pos h, rub, if_false, if_true]
  rfl

theorem readlineLoop_press (h : s.i < n) (k : EditKey) (rest : List Read) :
    readlineLoop hist n s (k.reads ++ rest) = readlineLoop hist n (s.press hist k) rest := by
  cases k with
  | char c => exact readlineLoop_plain h c rest
  | backspace => exact readlineLoop_rubout h (.inl rfl) rest
  | delete => exact readlineLoop_rubout h (.inr rfl) rest
  | left => exact readlineLoop_escape h 0x5b 0x44 rest
  | right => exact readlineLoop_escape h 0x5b 0x43 rest

theorem readlineLoop_enter (h : s.i < n) (cr : Bool) (rest : List Read) :
    readlineLoop hist n s (enterRead cr :: rest) = .returned (s.enter hist) := by
  rw [readlineLoop.eq_def]
  cases cr with
  | false => simp [enterRead, h]
  | true => simp [enterRead, h]

theorem typed_snoc (p : List EditKey) (k : EditKey) : typed (p ++ [k]) = k.apply (typed p) :=
  List.foldl_concat ..

/-- The line stays short enough for a buffer of `n` bytes. -/
def FitsIn (n : Nat) (ks : List EditKey) : Prop := ∀ p, p <+: ks → (typed p).text.length < n

/-- The state of `readline` after the keys, and that it still asks for more. -/
theorem readlineLoop_keys (hist : History σ) (sync : s.Sync .empty) (fits : FitsIn n ks)
    (rest : List Read) :
    readlineLoop hist n s (ks.flatMap EditKey.reads ++ rest) =
        readlineLoop hist n (ks.foldl (Line.press hist) s) rest ∧
      (ks.foldl (Line.press hist) s).Sync (typed ks) := by
  induction ks using List.reverseRecOn generalizing rest with
  | nil => exact ⟨rfl, sync⟩
  | append_singleton p k ih =>
      have earlier := ih fun q hq => fits q (hq.trans (List.prefix_append p [k]))
      have room : (p.foldl (Line.press hist) s).i < n := by
        have := fits p (List.prefix_append p [k])
        have := (earlier []).2.i
        have := (typed p).within
        omega
      rw [List.flatMap_append, List.append_assoc, (earlier _).1, List.foldl_concat,
        List.flatMap_singleton, readlineLoop_press room, typed_snoc]
      exact ⟨rfl, (earlier []).2.press hist k⟩

theorem FitsIn.last (fits : FitsIn n ks) : (typed ks).text.length < n :=
  fits ks (List.prefix_refl ks)

theorem FitsIn.prefix (fits : FitsIn n ks) (h : p <+: ks) : FitsIn n p :=
  fun q hq => fits q (hq.trans h)

theorem readlineLoop_line (sync : s.Sync .empty) (fits : FitsIn n ks) (cr : Bool) :
    readlineLoop hist n s (ks.flatMap EditKey.reads ++ [enterRead cr]) =
      .returned ((ks.foldl (Line.press hist) s).enter hist) := by
  obtain ⟨same, after⟩ := readlineLoop_keys hist sync fits [enterRead cr]
  have room : (ks.foldl (Line.press hist) s).i < n := by
    have := fits.last
    have := after.i
    have := (typed ks).within
    omega
  rw [same, readlineLoop_enter room]

/-- A terminator after the last character. -/
theorem Line.Sync.isText_iff (sync : s.Sync e) (hist : History σ) :
    IsText (s.enter hist).buf e.text ↔ s.Shows e := by
  have buf : (s.enter hist).buf = Function.update s.buf s.num 0 := rfl
  have kept : ∀ (k : Nat) c, e.text[k]? = some c → (s.enter hist).buf k = s.buf k := by
    intro k c at_k
    have lt : k < e.text.length := (List.getElem?_eq_some_iff.mp at_k).1
    rw [buf, Function.update_of_ne (by have := sync.num; omega)]
  constructor
  · intro text
    refine ⟨sync, ?_⟩
    intro k c at_k
    rw [← kept k c at_k]
    exact text.chars k c at_k
  · intro shows
    refine ⟨?_, ?_⟩
    · intro k c at_k
      rw [kept k c at_k]
      exact shows.chars k c at_k
    · rw [buf, ← sync.num, Function.update_self]

theorem shows_keys (shows : s.Shows .empty)
    (fair : ∀ p k, p ++ [k] <+: ks → k.Fair (typed p)) :
    (ks.foldl (Line.press hist) s).Shows (typed ks) := by
  induction ks using List.reverseRecOn with
  | nil => exact shows
  | append_singleton p k ih =>
      have earlier := ih fun q j hq => fair q j (hq.trans (List.prefix_append p [k]))
      rw [List.foldl_concat, typed_snoc]
      exact earlier.press (fair p k (List.prefix_refl _))

/-- The keys, then Enter, and `readline` returns with the line in the buffer. -/
def Leaves (hist : History σ) (h : σ) (buf : Cells) (c2 c3 : Byte) (n : Nat)
    (ks : List EditKey) (t : List Plain) : Prop :=
  ∀ cr, ∃ s, readline hist h buf c2 c3 n (ks.flatMap EditKey.reads ++ [enterRead cr]) =
    .returned s ∧ IsText s.buf t

/-- `readline` edits the line as the user has it in mind, up to every key,
exactly if Backspace is pressed at the start of a line only when all of its
characters are the same. -/
theorem readline_edits_iff (hist : History σ) (h : σ) (buf : Cells) (c2 c3 : Byte)
    (fits : FitsIn n ks) :
    (∀ p, p <+: ks → Leaves hist h buf c2 c3 n p (typed p).text) ↔
      ∀ p k, p ++ [k] <+: ks → k.Fair (typed p) := by
  generalize start : (Line.mk buf 0 0 c2 c3 h [] [] [] : Line σ) = s
  have shows : s.Shows .empty := by
    subst start
    exact ⟨⟨rfl, rfl⟩, fun k c at_k => by simp [LineEdit.empty] at at_k⟩
  have leaves : ∀ p, p <+: ks → (Leaves hist h buf c2 c3 n p (typed p).text ↔
      (p.foldl (Line.press hist) s).Shows (typed p)) := by
    intro p hp
    have short := fits.prefix hp
    have after := (readlineLoop_keys hist shows.toSync short []).2
    simp only [Leaves, readline, start, readlineLoop_line shows.toSync short]
    rw [← after.isText_iff hist]
    constructor
    · intro all
      obtain ⟨t, eq, text⟩ := all true
      cases eq
      exact text
    · exact fun text _ => ⟨_, rfl, text⟩
  constructor
  · intro all p k hp rubs cursor
    have before : p <+: ks := (List.prefix_append p [k]).trans hp
    have first := (leaves p before).mp (all p before)
    have second := (leaves _ hp).mp (all _ hp)
    rw [List.foldl_concat, typed_snoc] at second
    apply first.allSame_of_rubs cursor
    obtain rfl | rfl := rubs
    · have after := second.chars
      simp only [EditKey.apply, LineEdit.backspace_start cursor] at after
      exact after
    · have after := second.chars
      simp only [EditKey.apply, LineEdit.backspace_start cursor] at after
      exact after
  · intro fair p hp
    apply (leaves p hp).mpr
    exact shows_keys shows fun q k hq => fair q k (hq.trans hp)

theorem length_typed (ks : List EditKey) : (typed ks).text.length ≤ ks.length := by
  induction ks using List.reverseRecOn with
  | nil => exact Nat.le_refl 0
  | append_singleton p k ih =>
      have one : ∀ e : LineEdit Plain, (k.apply e).text.length ≤ e.text.length + 1 := by
        intro e
        cases k with
        | char c => exact Nat.le_of_eq (LineEdit.length_insert e c)
        | backspace => exact LineEdit.length_backspace_le e
        | delete => exact LineEdit.length_backspace_le e
        | left => exact Nat.le_succ _
        | right => exact LineEdit.length_right_le e
      have := one (typed p)
      rw [typed_snoc, List.length_append, List.length_singleton]
      omega

theorem FitsIn.of_length (h : ks.length < n) : FitsIn n ks := by
  intro p hp
  have := length_typed p
  have := hp.length_le
  omega

/-- A session without recorded commands. -/
def noHistory : History Unit where
  add := fun h _ => h
  last := fun _ _ => none
  next := fun _ _ => none

def plainA : Plain := ⟨0x61, by decide⟩

def plainB : Plain := ⟨0x62, by decide⟩

/-- "ab" with the first letter taken out again. -/
def fixedTypo : List EditKey := [.char plainA, .char plainB, .left, .backspace, .right]

/-- "ab", and Backspace once the cursor is back at the start. -/
def rubbedAtStart : List EditKey := [.char plainA, .char plainB, .left, .left, .backspace]

theorem readline_edits_iff_ab :
    (∀ p, p <+: fixedTypo → Leaves noHistory () (fun _ => 0) 0 0 16 p (typed p).text) ↔
      ∀ p k, p ++ [k] <+: fixedTypo → k.Fair (typed p) :=
  readline_edits_iff noHistory () (fun _ => 0) 0 0 (FitsIn.of_length (by decide))

/-- "bb" is left, where nothing should have happened. -/
theorem readline_edits_not :
    ¬Leaves noHistory () (fun _ => 0) 0 0 16 rubbedAtStart (typed rubbedAtStart).text := by
  intro leaves
  obtain ⟨s, eq, text⟩ := leaves true
  have first := text.chars 0 plainA rfl
  have code : (readline noHistory () (fun _ => 0) 0 0 16
      (rubbedAtStart.flatMap EditKey.reads ++ [enterRead true])).line.buf 0 = 0x62 := by
    decide +kernel
  rw [eq] at code
  exact absurd (first.symm.trans code) (by decide)

end Run

namespace Line

variable {s : Line σ} {j : Int}

theorem mem_reads_shiftDown (h : j ∈ s.reads) (a : Int) (k : Nat) :
    j ∈ (s.shiftDown a k).reads := by
  induction k generalizing s a with
  | zero => exact h
  | succ k ih => exact ih (List.mem_cons_of_mem _ h) _

theorem mem_reads_shiftUp (h : j ∈ s.reads) (a : Int) (k : Nat) :
    j ∈ (s.shiftUp a k).reads := by
  induction k generalizing s a with
  | zero => exact h
  | succ k ih => exact ih (List.mem_cons_of_mem _ h) _

theorem mem_reads_echoFrom (h : j ∈ s.reads) (a : Int) (k : Nat) :
    j ∈ (s.echoFrom a k).reads := by
  induction k generalizing s a with
  | zero => exact h
  | succ k ih => exact ih (List.mem_cons_of_mem _ h) _

/-- The last round of the loop reads below the last place it writes. -/
theorem read_shiftUp (s : Line σ) (a : Int) (k : Nat) :
    a - k - 1 ∈ (s.shiftUp a (k + 1)).reads := by
  induction k generalizing s a with
  | zero => exact List.mem_cons.mpr (.inl (by omega))
  | succ k ih =>
      have last := ih (s.copy a (a - 1)) (a - 1)
      rw [show a - (k + 1 : Nat) - 1 = a - 1 - k - 1 by omega]
      exact last

theorem mem_reads_rubout (h : j ∈ s.reads) : j ∈ s.rubout.reads := by
  have shifted := mem_reads_shiftDown h (s.i - 1) (s.num - 1 - (s.i - 1)).toNat
  simp only [rubout]
  split
  · simp only [printMany, print]
    apply mem_reads_echoFrom
    exact shifted
  · exact shifted

theorem mem_reads_put (c : Byte) (h : j ∈ (s.shiftUp s.num (s.num - (s.i - 1)).toNat).reads) :
    j ∈ (s.put c).reads := by
  simp only [put, printMany, print, store]
  apply mem_reads_echoFrom
  exact h

theorem mem_reads_escape (hist : History σ) (h : j ∈ s.reads) : j ∈ (s.escape hist).reads := by
  have shown : ∀ (t : Line σ) found, j ∈ t.reads → j ∈ (t.showHistory found).reads := by
    intro t found old
    cases found with
    | none => exact old
    | some found =>
        simp only [showHistory]
        split
        · exact old
        · exact old
  unfold escape
  split_ifs <;> first | exact h | exact shown _ _ h

end Line

section Bounds

variable {s : Line σ} {hist : History σ} {n : Nat} {j : Int}

theorem mem_reads_drain (h : j ∈ s.reads) (input : List Read) :
    j ∈ (drain s input).line.reads := by
  induction input generalizing s with
  | nil => exact h
  | cons r rest ih =>
      cases r with
      | byte c =>
          simp only [drain]
          split
          · exact ih (List.mem_cons_of_mem _ h)
          · exact List.mem_cons_of_mem _ h
      | eof => exact h
      | error => exact h

/-- An index that was read stays in the record. -/
theorem mem_reads_loop (h : j ∈ s.reads) (input : List Read) :
    j ∈ (readlineLoop hist n s input).line.reads := by
  fun_induction readlineLoop hist n s input with
  | case5 s rest lt c1 rubs ih => exact ih (Line.mem_reads_rubout h)
  | case10 s lt r2 read2 t2 r3 rest read3 t3 esc ih => exact ih (Line.mem_reads_escape hist h)
  | case12 s rest lt c1 rub esc enter ih =>
      exact ih (Line.mem_reads_put c1 (Line.mem_reads_shiftUp h _ _))
  | case2 s full => exact mem_reads_drain h []
  | case13 s r1 rest full => exact mem_reads_drain h (r1 :: rest)
  | _ => exact h

/-- Nothing has been typed, and nothing was read from the buffer or written to it. -/
structure Line.Blank (s : Line σ) : Prop where
  num : s.num = 0
  i : s.i = 0
  reads : s.reads = []
  writes : s.writes = []

theorem Line.Blank.press (blank : s.Blank) {k : EditKey} (typing : ∀ c, k ≠ .char c) :
    (s.press hist k).Blank := by
  have code : (0x43 : Byte) ≠ 0x44 := by decide
  have rub : s.rubout = s := by
    rw [rubout_start (by rw [blank.i]; omega), blank.num, blank.i]
    rfl
  cases k with
  | char c => exact absurd rfl (typing c)
  | backspace => exact (congrArg Line.Blank rub).mpr blank
  | delete => exact (congrArg Line.Blank rub).mpr blank
  | left =>
      have start : ¬0 < s.i := by rw [blank.i]; omega
      simp only [Line.press, escape, ne_eq, not_true_eq_false, if_false, if_true, start]
      exact ⟨blank.num, blank.i, blank.reads, blank.writes⟩
  | right =>
      have last : ¬s.i < s.num := by rw [blank.i, blank.num]; omega
      simp only [Line.press, escape, ne_eq, not_true_eq_false, if_false, if_true, code, last]
      exact ⟨blank.num, blank.i, blank.reads, blank.writes⟩

/-- The loop that makes room at the start of the line goes on to `buf[-1]`. -/
theorem Line.Blank.put (blank : s.Blank) (c : Byte) : -1 ∈ (s.put c).reads := by
  apply Line.mem_reads_put
  rw [blank.num, blank.i]
  exact Line.read_shiftUp s 0 0

/-- Every index used so far lies in the buffer, and a line that was accepted
fits in it with its terminator. -/
structure Confined (n : Nat) (t : Typing σ) : Prop where
  reads : ∀ j ∈ t.line.reads, 0 ≤ j ∧ j < n
  writes : ∀ j ∈ t.line.writes, 0 ≤ j ∧ j < n
  accepted : ∀ s, t = .returned s → s.num < n

/-- The line is empty: no character comes before the first Enter. -/
def NothingTyped (keys : List Key) : Prop :=
  ∀ before c, before ++ [.edit (.char c)] <+: keys → ∃ cr, .enter cr ∈ before

theorem nothingTyped_cons {k : EditKey} (typing : ∀ c, k ≠ .char c) (keys : List Key) :
    NothingTyped (.edit k :: keys) ↔ NothingTyped keys := by
  constructor
  · intro all before c hp
    obtain ⟨cr, mem⟩ := all (.edit k :: before) c (List.cons_prefix_cons.mpr ⟨rfl, hp⟩)
    refine ⟨cr, ?_⟩
    simpa using mem
  · intro all before c hp
    cases before with
    | nil =>
        have first := (List.cons_prefix_cons.mp hp).1
        exact absurd (Key.edit.inj first).symm (typing c)
    | cons b before =>
        obtain ⟨rfl, rest⟩ := List.cons_prefix_cons.mp hp
        obtain ⟨cr, mem⟩ := all before c rest
        exact ⟨cr, List.mem_cons_of_mem _ mem⟩

theorem nothingTyped_enter (cr : Bool) (keys : List Key) : NothingTyped (.enter cr :: keys) := by
  intro before c hp
  cases before with
  | nil =>
      have first := (List.cons_prefix_cons.mp hp).1
      cases first
  | cons b before =>
      obtain ⟨rfl, rest⟩ := List.cons_prefix_cons.mp hp
      exact ⟨cr, List.mem_cons_self⟩

theorem not_nothingTyped (c : Plain) (keys : List Key) :
    ¬NothingTyped (.edit (.char c) :: keys) := by
  intro all
  obtain ⟨cr, mem⟩ := all [] c (List.cons_prefix_cons.mpr ⟨rfl, List.nil_prefix⟩)
  cases mem

theorem Line.Blank.confined_iff (blank : s.Blank) (pos : 1 ≤ n) (keys : List Key) :
    Confined n (readlineLoop hist n s (keys.flatMap Key.reads)) ↔ NothingTyped keys := by
  induction keys generalizing s with
  | nil =>
      have room : s.i < n := by rw [blank.i]; omega
      rw [List.flatMap_nil, readlineLoop.eq_def]
      simp only [if_pos room]
      constructor
      · intro _ before c hp
        cases List.append_eq_nil_iff.mp (List.prefix_nil.mp hp) with
        | intro _ no => cases no
      · intro _
        refine ⟨?_, ?_, ?_⟩
        · simp [Typing.line, blank.reads]
        · simp [Typing.line, blank.writes]
        · intro s' no
          cases no
  | cons k keys ih =>
      have room : s.i < n := by rw [blank.i]; omega
      rw [List.flatMap_cons]
      cases k with
      | enter cr =>
          simp only [Key.reads, List.cons_append, List.nil_append, readlineLoop_enter room]
          refine iff_of_true ⟨?_, ?_, ?_⟩ (nothingTyped_enter cr keys)
          · simp [Typing.line, Line.enter, store, blank.reads]
          · simp [Typing.line, Line.enter, store, blank.writes, blank.num]
            omega
          · intro s' eq
            cases eq
            show s.num < n
            rw [blank.num]
            omega
      | edit k =>
          rw [Key.reads, readlineLoop_press room]
          by_cases typing : ∃ c, k = .char c
          · obtain ⟨c, rfl⟩ := typing
            refine iff_of_false ?_ (not_nothingTyped c keys)
            intro confined
            have outside := confined.reads (-1) (mem_reads_loop (blank.put c.val) _)
            omega
          · have other : ∀ c, k ≠ .char c := fun c eq => typing ⟨c, eq⟩
            rw [ih (blank.press other), nothingTyped_cons other]

/-- `readline` stays within its buffer exactly if the line is empty. -/
theorem readline_confined_iff (hist : History σ) (h : σ) (buf : Cells) (c2 c3 : Byte)
    (pos : 1 ≤ n) (keys : List Key) :
    Confined n (readline hist h buf c2 c3 n (keys.flatMap Key.reads)) ↔ NothingTyped keys := by
  have blank : (Line.mk buf 0 0 c2 c3 h [] [] [] : Line σ).Blank := ⟨rfl, rfl, rfl, rfl⟩
  exact blank.confined_iff pos keys

def emptyLine : List Key := [.edit .backspace, .edit .left, .enter true]

def oneLetter : List Key := [.edit (.char plainA), .enter true]

theorem readline_confined_iff_empty :
    Confined 16 (readline noHistory () (fun _ => 0) 0 0 16
        (emptyLine.flatMap Key.reads)) ↔ NothingTyped emptyLine :=
  readline_confined_iff noHistory () (fun _ => 0) 0 0 (by decide) _

/-- The first character typed is moved into place from `buf[-1]`. -/
theorem readline_not_confined :
    ¬Confined 16 (readline noHistory () (fun _ => 0) 0 0 16
      (oneLetter.flatMap Key.reads)) := by
  intro confined
  have outside := confined.reads (-1) (by decide)
  exact absurd outside.1 (by decide)

end Bounds

end Mos
