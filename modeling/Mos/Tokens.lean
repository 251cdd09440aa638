import Mos.Pipe

/-!
# `gettoken`

The shell cuts a command line into tokens in place: `_gettoken` overwrites
whitespace, symbols and quotes by zeros, and a word that is not quoted is
terminated only by the call for the token behind it. `gettoken` is one token
ahead of its caller, so the word it returns is terminated by then.
-/

namespace Mos

/-- `WHITESPACE` -/
def whitespace : List Byte := [0x20, 0x09, 0x0d, 0x0a]

/-- `SYMBOLS` -/
def symbols : List Byte := [0x3c, 0x7c, 0x3e, 0x26, 0x3b, 0x28, 0x29]

def quote : Byte := 0x22

/-- `'w'` -/
def wordCode : Byte := 0x77

/-- The characters of a word without quotes: `!strchr(WHITESPACE SYMBOLS, c)` -/
def isPlain (c : Byte) : Bool := c ∉ whitespace ++ symbols

/-- A token of the grammar. -/
inductive Lexeme where
  | symbol (c : Byte)
  | word (w : List Byte)
  deriving DecidableEq

/-- The tokens of a line: symbols, words, and what stands between two quotes.
A quote without another one behind it ends the list. -/
def lex : List Byte → List Lexeme
  | [] => []
  | c :: l =>
      if c ∈ whitespace then lex l
      else if c = quote then
        if quote ∈ l then
          .word (l.takeWhile (· ≠ quote)) :: lex ((l.dropWhile (· ≠ quote)).drop 1)
        else []
      else if c ∈ symbols then .symbol c :: lex l
      else .word (c :: l.takeWhile isPlain) :: lex (l.dropWhile isPlain)
termination_by l => l.length
decreasing_by
  · exact Nat.lt_succ_self _
  · have := (List.dropWhile_suffix (l := l) (· ≠ quote)).length_le
    rw [List.length_drop, List.length_cons]
    omega
  · exact Nat.lt_succ_self _
  · exact Nat.lt_succ_of_le (List.dropWhile_suffix (l := l) isPlain).length_le

/-! ## The code -/

/-- Memory from the first character of the line on. -/
abbrev Chars := Nat → Byte

/-- `while (strchr(WHITESPACE, *s)) *s++ = 0;` -/
def skipSpaces (mem : Chars) (s : Nat) : Nat → Option (Chars × Nat)
  | 0 => none
  | fuel + 1 =>
      if mem s ∈ whitespace then skipSpaces (Function.update mem s 0) (s + 1) fuel
      else some (mem, s)

/-- `while (*s && p(*s)) s++;` -/
def advance (p : Byte → Bool) (mem : Chars) (s : Nat) : Nat → Option Nat
  | 0 => none
  | fuel + 1 => if mem s ≠ 0 ∧ p (mem s) then advance p mem (s + 1) fuel else some s

/-- What `_gettoken` returns, stores in `*p1` and `*p2`, and makes of memory. -/
structure Scan where
  mem : Chars
  ret : Byte
  p1 : Option Nat
  p2 : Option Nat

/-- `_gettoken(s, p1, p2)` -/
def scanToken (mem : Chars) (s : Option Nat) (fuel : Nat) : Option Scan :=
  match s with
  | none => some ⟨mem, 0, none, none⟩
  | some s => do
      let skipped ← skipSpaces mem s fuel
      let mem := skipped.1
      let s := skipped.2
      if mem s = 0 then return ⟨mem, 0, none, none⟩
      if mem s = quote then
        let mem := Function.update mem s 0
        let q ← advance (· ≠ quote) mem (s + 1) fuel
        if mem q = 0 then return ⟨mem, 0, some (s + 1), none⟩
        return ⟨Function.update mem q 0, wordCode, some (s + 1), some (q + 1)⟩
      if mem s ∈ symbols then
        return ⟨Function.update mem s 0, mem s, some s, some (s + 1)⟩
      let q ← advance isPlain mem s fuel
      return ⟨mem, wordCode, some s, some q⟩

/-- What a call `gettoken(0, &p1)` returns, with memory as it is then. -/
structure Got where
  ret : Byte
  p1 : Option Nat
  mem : Chars

/-- `gettoken(0, p1)`, with `nc`, `np1` and `np2` as the last call left them, and
memory with them. -/
def gettoken (ahead : Scan) (fuel : Nat) : Option (Got × Scan) := do
  let next ← scanToken ahead.mem ahead.p2 fuel
  return (⟨ahead.ret, ahead.p1, next.mem⟩, next)

/-- `gettoken(0, p1)` until it returns 0. -/
def gettokens (ahead : Scan) (fuel : Nat) : Nat → Option (List Got)
  | 0 => none
  | calls + 1 => do
      let first ← gettoken ahead fuel
      if first.1.ret = 0 then return [first.1]
      let rest ← gettokens first.2 fuel calls
      return first.1 :: rest

/-- `gettoken(s, 0)`, and then the calls for the tokens. -/
def tokenize (mem : Chars) (fuel calls : Nat) : Option (List Got) := do
  let ahead ← scanToken mem (some 0) fuel
  gettokens ahead fuel calls

/-! ## Strings in memory -/

/-- The characters `w` stand at `s`. -/
def CharsAt (mem : Chars) : Nat → List Byte → Prop
  | _, [] => True
  | s, c :: w => mem s = c ∧ CharsAt mem (s + 1) w

/-- The string `l` stands at `s`, with a terminator behind it. -/
structure StrAt (mem : Chars) (s : Nat) (l : List Byte) : Prop where
  chars : CharsAt mem s l
  ends : mem (s + l.length) = 0
  nonzero : 0 ∉ l

/-- From `b` on some bytes were overwritten by zeros, and nothing else was. -/
def Zeroed (b : Nat) (mem mem' : Chars) : Prop := ∀ x, mem' x = mem x ∨ b ≤ x ∧ mem' x = 0

variable {mem mem' mem'' : Chars} {b s x fuel : Nat} {l w : List Byte} {c : Byte}

theorem Zeroed.refl (b : Nat) (mem : Chars) : Zeroed b mem mem := fun _ => .inl rfl

theorem Zeroed.trans (first : Zeroed b mem mem') {b' : Nat} (second : Zeroed b' mem' mem'')
    (le : b ≤ b') : Zeroed b mem mem'' := by
  intro x
  obtain same | ⟨above, zero⟩ := second x
  · rw [same]
    exact first x
  · exact .inr ⟨Nat.le_trans le above, zero⟩

theorem Zeroed.zero (zeroed : Zeroed b mem mem') (h : mem x = 0) : mem' x = 0 := by
  obtain same | ⟨-, zero⟩ := zeroed x
  · exact same.trans h
  · exact zero

theorem zeroed_update (h : b ≤ s) : Zeroed b mem (Function.update mem s 0) := by
  intro x
  by_cases here : x = s
  · subst here
    exact .inr ⟨h, Function.update_self ..⟩
  · exact .inl (Function.update_of_ne here ..)

theorem CharsAt.zeroed (chars : CharsAt mem s w) (zeroed : Zeroed b mem mem')
    (le : s + w.length ≤ b) : CharsAt mem' s w := by
  induction w generalizing s with
  | nil => trivial
  | cons c w ih =>
      rw [List.length_cons] at le
      obtain ⟨here, rest⟩ := chars
      refine ⟨?_, ih rest (by omega)⟩
      obtain same | ⟨above, -⟩ := zeroed s
      · exact same.trans here
      · omega

/-- A string stays as it is while memory behind it is overwritten by zeros. -/
theorem StrAt.zeroed (str : StrAt mem s w) (zeroed : Zeroed b mem mem')
    (le : s + w.length ≤ b) : StrAt mem' s w :=
  ⟨str.chars.zeroed zeroed le, zeroed.zero str.ends, str.nonzero⟩

theorem charsAt_append {v : List Byte} :
    CharsAt mem s (v ++ w) ↔ CharsAt mem s v ∧ CharsAt mem (s + v.length) w := by
  induction v generalizing s with
  | nil => simp [CharsAt]
  | cons c v ih =>
      rw [List.cons_append, CharsAt, CharsAt, ih, List.length_cons, and_assoc]
      have sum : s + 1 + v.length = s + (v.length + 1) := by omega
      rw [sum]

theorem StrAt.append {v : List Byte} (str : StrAt mem s (v ++ w)) :
    CharsAt mem s v ∧ StrAt mem (s + v.length) w := by
  obtain ⟨chars, ends, nonzero⟩ := str
  obtain ⟨first, rest⟩ := charsAt_append.mp chars
  refine ⟨first, rest, ?_, fun mem => nonzero (List.mem_append_right v mem)⟩
  rw [List.length_append, ← Nat.add_assoc] at ends
  exact ends

theorem StrAt.cons (str : StrAt mem s (c :: l)) : mem s = c ∧ c ≠ 0 ∧ StrAt mem (s + 1) l := by
  obtain ⟨first, rest⟩ := StrAt.append (v := [c]) str
  exact ⟨first.1, fun zero => str.nonzero (by rw [zero]; exact List.mem_cons_self), rest⟩

theorem CharsAt.update (chars : CharsAt mem s w) (h : x < s) (v : Byte) :
    CharsAt (Function.update mem x v) s w := by
  induction w generalizing s with
  | nil => trivial
  | cons c w ih =>
      refine ⟨?_, ih chars.2 (by omega)⟩
      rw [Function.update_of_ne (by omega)]
      exact chars.1

theorem StrAt.update (str : StrAt mem s l) (h : x < s) (v : Byte) :
    StrAt (Function.update mem x v) s l := by
  refine ⟨str.chars.update h v, ?_, str.nonzero⟩
  rw [Function.update_of_ne (by omega)]
  exact str.ends

/-! ## One token -/

theorem advance_eq (p : Byte → Bool) (str : StrAt mem s l) (enough : l.length < fuel) :
    advance p mem s fuel = some (s + (l.takeWhile p).length) := by
  induction l generalizing s fuel with
  | nil =>
      obtain ⟨fuel, rfl⟩ := Nat.exists_eq_succ_of_ne_zero (Nat.ne_of_gt enough)
      have zero : mem s = 0 := str.ends
      simp [advance, zero]
  | cons c l ih =>
      obtain ⟨fuel, rfl⟩ := Nat.exists_eq_succ_of_ne_zero (Nat.ne_of_gt (Nat.zero_lt_of_lt enough))
      obtain ⟨here, nonzero, rest⟩ := str.cons
      rw [advance, here, List.takeWhile_cons]
      cases h : p c with
      | true =>
          rw [if_pos ⟨nonzero, rfl⟩, ih rest (by simpa using enough), if_pos rfl, List.length_cons]
          congr 1
          omega
      | false =>
          rw [if_neg (by simp), if_neg (by simp)]
          rfl

/-- The line after its leading whitespace. -/
def trim (l : List Byte) : List Byte := l.dropWhile (· ∈ whitespace)

theorem lex_trim (l : List Byte) : lex (trim l) = lex l := by
  induction l with
  | nil => rfl
  | cons c l ih =>
      rw [trim, List.dropWhile_cons]
      by_cases h : c ∈ whitespace
      · rw [if_pos (by simpa using h), lex.eq_2, if_pos h]
        exact ih
      · rw [if_neg (by simpa using h)]

theorem trim_head (h : trim l = c :: w) : c ∉ whitespace := by
  have head := List.head?_dropWhile_not (· ∈ whitespace) l
  rw [trim] at h
  rw [h] at head
  simpa using head

theorem length_trim_le (l : List Byte) : (trim l).length ≤ l.length :=
  (List.dropWhile_suffix _).length_le

/-- The character a word ends at. -/
def Breaks (l : List Byte) : Prop := ∀ c, l.head? = some c → isPlain c = false

theorem skipSpaces_spec (str : StrAt mem s l) (enough : l.length < fuel) :
    ∃ mem' s', skipSpaces mem s fuel = some (mem', s') ∧ s ≤ s' ∧ StrAt mem' s' (trim l) ∧
      Zeroed s mem mem' ∧ (mem' s = 0 ∨ s' = s ∧ trim l = l) := by
  induction l generalizing s fuel mem with
  | nil =>
      obtain ⟨fuel, rfl⟩ := Nat.exists_eq_succ_of_ne_zero (Nat.ne_of_gt enough)
      have zero : mem s = 0 := str.ends
      have not_space : (0 : Byte) ∉ whitespace := by decide
      refine ⟨mem, s, ?_, Nat.le_refl s, str, .refl s mem, .inr ⟨rfl, rfl⟩⟩
      rw [skipSpaces, zero, if_neg not_space]
  | cons c l ih =>
      obtain ⟨fuel, rfl⟩ := Nat.exists_eq_succ_of_ne_zero (Nat.ne_of_gt (Nat.zero_lt_of_lt enough))
      obtain ⟨here, nonzero, rest⟩ := str.cons
      by_cases h : c ∈ whitespace
      · have rest' := rest.update (Nat.lt_succ_self s) 0
        obtain ⟨mem', s', run, le, str', zeroed, -⟩ := ih rest' (by simpa using enough)
        have trims : trim (c :: l) = trim l := by
          rw [trim, List.dropWhile_cons, if_pos (by simpa using h)]
          rfl
        have first : Zeroed s mem (Function.update mem s 0) := zeroed_update (Nat.le_refl s)
        refine ⟨mem', s', ?_, by omega, trims ▸ str', first.trans zeroed (Nat.le_succ s), .inl ?_⟩
        · rw [skipSpaces, here, if_pos h, run]
        · exact zeroed.zero (Function.update_self ..)
      · refine ⟨mem, s, ?_, Nat.le_refl s, ?_, .refl s mem, .inr ⟨rfl, ?_⟩⟩
        · rw [skipSpaces, here, if_neg h]
        · rw [trim, List.dropWhile_cons, if_neg (by simpa using h)]
          exact str
        · rw [trim, List.dropWhile_cons, if_neg (by simpa using h)]

/-- What `_gettoken` finds at `s`, where the rest of the line is `l`. A word is
terminated, or ends where the line goes on with a character that will be
overwritten. -/
inductive Scanned (l : List Byte) (r : Scan) : Prop
  | none (ret : r.ret = 0) (p2 : r.p2 = none) (toks : lex l = [])
  | symbol (c : Byte) (l' : List Byte) (s' : Nat) (ret : r.ret = c) (nonzero : c ≠ 0)
      (p2 : r.p2 = some s') (rest : StrAt r.mem s' l') (shorter : l'.length < l.length)
      (toks : lex l = .symbol c :: lex l')
  | word (w l' : List Byte) (p s' : Nat) (ret : r.ret = wordCode) (p1 : r.p1 = some p)
      (p2 : r.p2 = some s') (chars : CharsAt r.mem p w) (nonzero : 0 ∉ w)
      (le : p + w.length ≤ s') (ends : r.mem (p + w.length) = 0 ∨ s' = p + w.length ∧ Breaks l')
      (rest : StrAt r.mem s' l') (shorter : l'.length < l.length)
      (toks : lex l = .word w :: lex l')

/-- What a call for the token at `s` leaves. -/
structure Scans (mem : Chars) (s : Nat) (l : List Byte) (r : Scan) : Prop where
  found : Scanned l r
  zeroed : Zeroed s mem r.mem
  beyond : ∀ s', r.p2 = some s' → s ≤ s'
  first : Breaks l → r.mem s = 0

theorem breaks_dropWhile (l : List Byte) : Breaks (l.dropWhile isPlain) := by
  intro c head
  have stops := List.head?_dropWhile_not isPlain l
  rw [head] at stops
  simpa using stops

/-- A call that sees `l` at `s` once the whitespace is skipped. -/
theorem Scans.of_trim {mem₁ : Chars} {s₁ : Nat} {r : Scan} (found : Scanned (trim l) r)
    (le : s ≤ s₁) (skip : Zeroed s mem mem₁) (zeroed : Zeroed s₁ mem₁ r.mem)
    (beyond : ∀ s', r.p2 = some s' → s₁ ≤ s') (at_s : mem₁ s = 0 ∨ s₁ = s ∧ trim l = l)
    (first : Breaks (trim l) → r.mem s₁ = 0) : Scans mem s l r := by
  have shorter := length_trim_le l
  refine ⟨?_, skip.trans zeroed le, fun s' h => Nat.le_trans le (beyond s' h), ?_⟩
  · cases found with
    | none ret p2 toks => exact .none ret p2 ((lex_trim l).symm.trans toks)
    | symbol c l' s' ret nonzero p2 rest shorter' toks =>
        exact .symbol c l' s' ret nonzero p2 rest (by omega) ((lex_trim l).symm.trans toks)
    | word w l' p s' ret p1 p2 chars nonzero le' ends rest shorter' toks =>
        exact .word w l' p s' ret p1 p2 chars nonzero le' ends rest (by omega)
          ((lex_trim l).symm.trans toks)
  · intro breaks
    obtain zero | ⟨rfl, same⟩ := at_s
    · exact zeroed.zero zero
    · rw [same] at first
      exact first breaks

/-- The branch of a quote. -/
theorem scanned_quoted (str : StrAt mem s (quote :: l)) (enough : l.length < fuel) :
    ∃ q, advance (· ≠ quote) (Function.update mem s 0) (s + 1) fuel = some q ∧
      s < q ∧
      ((Function.update mem s 0) q = 0 ∧ quote ∉ l ∨
        (Function.update mem s 0) q ≠ 0 ∧
          Scanned (quote :: l) ⟨Function.update (Function.update mem s 0) q 0, wordCode,
            some (s + 1), some (q + 1)⟩) := by
  obtain ⟨-, -, rest⟩ := str.cons
  have str₁ := rest.update (Nat.lt_succ_self s) 0
  have split : l.takeWhile (· ≠ quote) ++ l.dropWhile (· ≠ quote) = l :=
    List.takeWhile_append_dropWhile
  have parts := str₁
  rw [← split] at parts
  obtain ⟨chars, after⟩ := parts.append
  refine ⟨_, advance_eq _ str₁ enough, by omega, ?_⟩
  generalize taken : l.takeWhile (· ≠ quote) = w at *
  have no_quote : quote ∉ w := by
    intro mem
    rw [← taken] at mem
    have all := List.all_eq_true.mp (List.all_takeWhile (l := l)) quote mem
    simp at all
  cases dropped : l.dropWhile (· ≠ quote) with
  | nil =>
      rw [dropped] at after split
      rw [List.append_nil] at split
      exact .inl ⟨after.ends, split ▸ no_quote⟩
  | cons d l' =>
      rw [dropped] at after split
      have is_quote : d = quote := by
        have head := List.head?_dropWhile_not (· ≠ quote) l
        rw [dropped] at head
        simpa using head
      subst is_quote
      obtain ⟨here, nonzero, tail⟩ := after.cons
      right
      refine ⟨?_, ?_⟩
      · rw [here]
        exact nonzero
      · refine .word w l' (s + 1) (s + 1 + w.length + 1) rfl rfl rfl ?_ ?_ (Nat.le_succ _)
          (.inl (Function.update_self ..)) (tail.update (Nat.lt_succ_self _) 0) ?_ ?_
        · exact chars.zeroed (zeroed_update (Nat.le_refl _)) (Nat.le_refl _)
        · intro zero
          exact str.nonzero (List.mem_cons_of_mem _ (split ▸ List.mem_append_left _ zero))
        · rw [← split, List.length_cons, List.length_append, List.length_cons]
          omega
        · have inside : quote ∈ l := split ▸ List.mem_append_right w List.mem_cons_self
          have not_space : quote ∉ whitespace := by decide
          rw [lex.eq_2, if_neg not_space, if_pos rfl, if_pos inside, taken, dropped]
          rfl

/-- A symbol, which is overwritten. -/
theorem scanned_symbol (str : StrAt mem s (c :: l)) (not_space : c ∉ whitespace)
    (not_quote : c ≠ quote) (symbol : c ∈ symbols) :
    Scanned (c :: l) ⟨Function.update mem s 0, c, some s, some (s + 1)⟩ := by
  obtain ⟨-, nonzero, rest⟩ := str.cons
  refine .symbol c l (s + 1) rfl nonzero rfl (rest.update (Nat.lt_succ_self s) 0) ?_ ?_
  · exact Nat.lt_succ_self _
  · rw [lex.eq_2, if_neg not_space, if_neg not_quote, if_pos symbol]

/-- A word up to the character that ends it, which stays. -/
theorem scanned_plain (str : StrAt mem s (c :: l)) (not_space : c ∉ whitespace)
    (not_quote : c ≠ quote) (not_symbol : c ∉ symbols) :
    Scanned (c :: l)
      ⟨mem, wordCode, some s, some (s + ((c :: l).takeWhile isPlain).length)⟩ := by
  have plain : isPlain c = true := by
    simp [isPlain, not_space, not_symbol]
  have split : (c :: l).takeWhile isPlain ++ (c :: l).dropWhile isPlain = c :: l :=
    List.takeWhile_append_dropWhile
  have parts := str
  rw [← split] at parts
  obtain ⟨chars, after⟩ := parts.append
  have taken : (c :: l).takeWhile isPlain = c :: l.takeWhile isPlain :=
    List.takeWhile_cons_of_pos plain
  have dropped : (c :: l).dropWhile isPlain = l.dropWhile isPlain :=
    List.dropWhile_cons_of_pos plain
  refine .word _ _ s _ rfl rfl rfl chars ?_ (Nat.le_refl _)
    (.inr ⟨rfl, breaks_dropWhile _⟩) after ?_ ?_
  · intro zero
    exact str.nonzero (split ▸ List.mem_append_left _ zero)
  · rw [dropped]
    exact Nat.lt_succ_of_le (List.dropWhile_suffix isPlain).length_le
  · rw [lex.eq_2, if_neg not_space, if_neg not_quote, if_neg not_symbol, taken, dropped]

theorem scanToken_spec (str : StrAt mem s l) (enough : l.length < fuel) :
    ∃ r, scanToken mem (some s) fuel = some r ∧ Scans mem s l r := by
  obtain ⟨mem₁, s₁, skipped, le, str₁, skip, at_s⟩ := skipSpaces_spec str enough
  have short : (trim l).length < fuel := Nat.lt_of_le_of_lt (length_trim_le l) enough
  simp only [scanToken, skipped, Option.bind_eq_bind, Option.bind_some]
  cases trimmed : trim l with
  | nil =>
      rw [trimmed] at str₁
      have zero : mem₁ s₁ = 0 := str₁.ends
      rw [if_pos zero]
      refine ⟨_, rfl, .of_trim ?_ le skip (.refl s₁ mem₁) ?_ at_s fun _ => zero⟩
      · exact .none rfl rfl (trimmed ▸ lex.eq_1)
      · intro s' no
        cases no
  | cons c l' =>
      rw [trimmed] at str₁ short
      have not_space := trim_head trimmed
      obtain ⟨here, nonzero, rest⟩ := str₁.cons
      rw [if_neg (here ▸ nonzero)]
      by_cases quoted : c = quote
      · subst quoted
        rw [if_pos here]
        have quotes := scanned_quoted str₁ (Nat.lt_of_succ_lt short)
        obtain ⟨q, found, after, ends⟩ := quotes
        have first : Zeroed s₁ mem₁ (Function.update mem₁ s₁ 0) := zeroed_update (Nat.le_refl s₁)
        rw [found, Option.bind_some]
        obtain ⟨zero, alone⟩ | ⟨closed, scanned⟩ := ends
        · rw [if_pos zero]
          refine ⟨_, rfl, .of_trim ?_ le skip first ?_ at_s fun _ => Function.update_self ..⟩
          · refine .none rfl rfl ?_
            rw [trimmed, lex.eq_2, if_neg not_space, if_pos rfl, if_neg alone]
          · intro s' no
            cases no
        · rw [if_neg closed]
          have second : Zeroed s₁ (Function.update mem₁ s₁ 0)
              (Function.update (Function.update mem₁ s₁ 0) q 0) :=
            zeroed_update (Nat.le_of_lt after)
          refine ⟨_, rfl, .of_trim (trimmed ▸ scanned) le skip
            (first.trans second (Nat.le_refl s₁)) ?_ at_s ?_⟩
          · intro s' eq
            cases eq
            omega
          · exact fun _ => second.zero (Function.update_self ..)
      · rw [here, if_neg quoted]
        by_cases symbol : c ∈ symbols
        · rw [if_pos symbol]
          refine ⟨_, rfl, .of_trim (trimmed ▸ scanned_symbol str₁ not_space quoted symbol) le skip
            (zeroed_update (Nat.le_refl s₁)) ?_ at_s fun _ => Function.update_self ..⟩
          intro s' eq
          cases eq
          exact Nat.le_succ s₁
        · rw [if_neg symbol, advance_eq isPlain str₁ short, Option.bind_some]
          refine ⟨_, rfl, .of_trim (trimmed ▸ scanned_plain str₁ not_space quoted symbol) le skip
            (.refl s₁ mem₁) ?_ at_s ?_⟩
          · intro s' eq
            cases eq
            exact Nat.le_add_right ..
          · intro breaks
            rw [trimmed] at breaks
            exact absurd (breaks c rfl) (by simp [isPlain, not_space, symbol])

/-! ## A whole line -/

/-- What a call that returned `t` gave, while `later` were made. -/
def Got.Gives (g : Got) (later : List Got) : Lexeme → Prop
  | .symbol c => g.ret = c
  | .word w => g.ret = wordCode ∧ ∃ p, g.p1 = some p ∧ ∀ g' ∈ g :: later, StrAt g'.mem p w

/-- The calls give these tokens, one after the other, and then 0. A word is a
string at the place it was given, from then on to the end. -/
inductive Yields : List Got → List Lexeme → Prop
  | done {g : Got} (h : g.ret = 0) : Yields [g] []
  | more {g : Got} {gs : List Got} {t : Lexeme} {ts : List Lexeme} (first : g.Gives gs t)
      (rest : Yields gs ts) : Yields (g :: gs) (t :: ts)

/-- How memory changes after `r` was found: only from where it goes on. -/
def Later (r : Scan) (g : Got) : Prop :=
  (∀ s', r.p2 = some s' → Zeroed s' r.mem g.mem) ∧ (r.p2 = none → g.mem = r.mem)

theorem gettokens_step {r next : Scan} {gs : List Got} {calls : Nat} (live : r.ret ≠ 0)
    (ahead : scanToken r.mem r.p2 fuel = some next) (rest : gettokens next fuel calls = some gs) :
    gettokens r fuel (calls + 1) = some (⟨r.ret, r.p1, next.mem⟩ :: gs) := by
  simp only [gettokens, gettoken, ahead, Option.bind_eq_bind, Option.bind_some, Option.pure_def,
    rest]
  exact if_neg live

/-- With the token at `s'` found as well, memory from `s'` on was overwritten by zeros only. -/
theorem Scans.later {r next : Scan} {s' : Nat} (p2 : r.p2 = some s') (scans : Scans r.mem s' l next)
    {gs : List Got} (after : ∀ g ∈ gs, Later next g) {g : Got}
    (h : g ∈ (⟨r.ret, r.p1, next.mem⟩ : Got) :: gs) :
    Zeroed s' next.mem g.mem ∧ Later r g := by
  have zeroed : Zeroed s' next.mem g.mem := by
    obtain rfl | h := List.mem_cons.mp h
    · exact .refl s' next.mem
    · obtain ⟨some_case, none_case⟩ := after g h
      cases goes : next.p2 with
      | none =>
          rw [none_case goes]
          exact .refl s' next.mem
      | some s'' =>
          have from_there := some_case s'' goes
          intro x
          obtain same | ⟨above, zero⟩ := from_there x
          · exact .inl same
          · exact .inr ⟨Nat.le_trans (scans.beyond s'' goes) above, zero⟩
  refine ⟨zeroed, ?_, ?_⟩
  · intro s'' eq
    rw [p2] at eq
    cases eq
    exact scans.zeroed.trans zeroed (Nat.le_refl s')
  · intro no
    rw [p2] at no
    cases no

/-- From a token that was found, the calls give it and the ones behind it. -/
theorem gettokens_yields {r : Scan} (scanned : Scanned l r) (enough : l.length < fuel)
    {calls : Nat} (often : l.length < calls) :
    ∃ gs, gettokens r fuel calls = some gs ∧ Yields gs (lex l) ∧ ∀ g ∈ gs, Later r g := by
  induction calls generalizing l r with
  | zero => omega
  | succ calls ih =>
      cases scanned with
      | none ret p2 toks =>
          refine ⟨[⟨r.ret, r.p1, r.mem⟩], ?_, ?_, ?_⟩
          · simp only [gettokens, gettoken, p2, scanToken, Option.bind_eq_bind, Option.bind_some]
            exact if_pos ret
          · rw [toks]
            exact .done ret
          · intro g h
            rw [List.mem_singleton.mp h]
            refine ⟨?_, fun _ => rfl⟩
            intro s' eq
            rw [p2] at eq
            cases eq
      | symbol c l' s' ret nonzero p2 rest shorter toks =>
          obtain ⟨next, ahead, scans⟩ := scanToken_spec rest (show l'.length < fuel by omega)
          obtain ⟨gs, run, yields, after⟩ := ih scans.found (by omega) (by omega)
          refine ⟨_, gettokens_step (ret ▸ nonzero) (p2 ▸ ahead) run, ?_, ?_⟩
          · rw [toks]
            exact .more ret yields
          · exact fun g h => (scans.later p2 after h).2
      | word w l' p s' ret p1 p2 chars nonzero le ends rest shorter toks =>
          obtain ⟨next, ahead, scans⟩ := scanToken_spec rest (show l'.length < fuel by omega)
          obtain ⟨gs, run, yields, after⟩ := ih scans.found (by omega) (by omega)
          have live : r.ret ≠ 0 := by
            rw [ret]
            decide
          have terminated : next.mem (p + w.length) = 0 := by
            obtain zero | ⟨here, breaks⟩ := ends
            · exact scans.zeroed.zero zero
            · rw [← here]
              exact scans.first breaks
          have str : StrAt next.mem p w := ⟨chars.zeroed scans.zeroed le, terminated, nonzero⟩
          refine ⟨_, gettokens_step live (p2 ▸ ahead) run, ?_, ?_⟩
          · rw [toks]
            refine .more ⟨ret, p, p1, ?_⟩ yields
            intro g h
            exact str.zeroed (scans.later p2 after h).1 le
          · exact fun g h => (scans.later p2 after h).2

/-- `gettoken` on a line gives the tokens of the grammar, each word as a string
that stays, and then returns 0. -/
theorem gettoken_yields (mem : Chars) (line : List Byte) (str : StrAt mem 0 line) :
    ∃ fuel calls gs, tokenize mem fuel calls = some gs ∧ Yields gs (lex line) := by
  have enough := Nat.lt_succ_self line.length
  obtain ⟨ahead, first, scans⟩ := scanToken_spec str enough
  obtain ⟨gs, run, yields, -⟩ := gettokens_yields scans.found enough enough
  refine ⟨line.length + 1, line.length + 1, gs, ?_, yields⟩
  simp only [tokenize, first, Option.bind_eq_bind, Option.bind_some]
  exact run

/-- `a"b` and a pipe. -/
def shortLine : Chars := fun i => [0x61, 0x22, 0x62, 0x7c].getD i 0

theorem gettoken_yields_short :
    ∃ fuel calls gs, tokenize shortLine fuel calls = some gs ∧
      Yields gs (lex [0x61, 0x22, 0x62, 0x7c]) :=
  gettoken_yields shortLine [0x61, 0x22, 0x62, 0x7c]
    ⟨⟨rfl, rfl, rfl, rfl, trivial⟩, rfl, by decide⟩

end Mos
