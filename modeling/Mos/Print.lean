import Mos.PrintNum

/-!
# `vprintfmt`

The format is read byte by byte up to its terminator; each directive takes its
argument and passes chunks to `out`. With matching arguments the chunks are the
expansion of the format, exactly when the array of `print_num` can be that wide
(`vprintfmt_formats_iff`).
-/

namespace Mos

/-- `'%'` -/
abbrev percent : Byte := 0x25

/-- An argument. Both `int` and `long` are 32 bits wide; a string is written without its
terminator. -/
inductive Arg where
  | int (v : BitVec 32)
  | str (s : List Byte)

/-- `va_arg(ap, int)` and `va_arg(ap, long int)` -/
def vaInt : List Arg → Option (BitVec 32 × List Arg)
  | .int v :: ap => some (v, ap)
  | _ => none

/-- `va_arg(ap, char *)` -/
def vaStr : List Arg → Option (List Byte × List Arg)
  | .str s :: ap => some (s, ap)
  | _ => none

/-- `*fmt`; there is nothing to read behind the terminator. -/
def peek (fmt : List Byte) (i : Nat) : Option Byte := (fmt ++ [0])[i]?

/-- `while (*fmt != '%' && *fmt != '\0')` -/
def copyLiteral (fmt : List Byte) : Nat → Nat → List (List Byte) → Option (Nat × List (List Byte))
  | 0, _, _ => none
  | fuel + 1, i, out => do
      let c ← peek fmt i
      if c ≠ percent ∧ c ≠ 0 then copyLiteral fmt fuel (i + 1) (out ++ [[c]]) else some (i, out)

/-- `if (*fmt == c) { ...; fmt++; }` -/
def skipFlag (fmt : List Byte) (c : Byte) (i : Nat) : Option (Bool × Nat) := do
  let x ← peek fmt i
  some (if x = c then (true, i + 1) else (false, i))

/-- `while (*fmt >= '0' && *fmt <= '9')` -/
def scanWidth (fmt : List Byte) : Nat → Nat → BitVec 32 → Option (Nat × BitVec 32)
  | 0, _, _ => none
  | fuel + 1, i, width => do
      let c ← peek fmt i
      if 0x30 ≤ c ∧ c ≤ 0x39 then
        scanWidth fmt fuel (i + 1) (width * 10 + c.setWidth 32 - 0x30)
      else some (i, width)

/-- `print_char` -/
def printChar (c : Byte) (length : BitVec 32) (ladjust : Bool) : List (List Byte) :=
  let length := if length.toInt < 1 then 1 else length.toInt
  if ladjust then [[c]] ++ List.replicate (length - 1).toNat [space]
  else List.replicate (length - 1).toNat [space] ++ [[c]]

/-- `print_str` -/
def printStr (s : List Byte) (length : BitVec 32) (ladjust : Bool) : List (List Byte) :=
  let len : Int := s.length
  let length := if length.toInt < len then len else length.toInt
  if ladjust then [s] ++ List.replicate (length - len).toNat [space]
  else List.replicate (length - len).toNat [space] ++ [s]

/-- A case of the `switch` that prints a number as it is. -/
def printUnsigned (stack : (n : Nat) → Buffer n Byte) (base : Nat) (upcase : Bool)
    (width : BitVec 32) (ladjust : Bool) (padc : Byte) (ap : List Arg) :
    Option (List Arg × List (List Byte)) := do
  let (num, ap) ← vaInt ap
  let chunk ← printNum stack num.toNat base false width ladjust padc upcase
  some (ap, [chunk])

/-- The cases `'d'` and `'D'`. -/
def printSigned (stack : (n : Nat) → Buffer n Byte) (width : BitVec 32) (ladjust : Bool)
    (padc : Byte) (ap : List Arg) : Option (List Arg × List (List Byte)) := do
  let (num, ap) ← vaInt ap
  let neg := num.slt 0
  let num := if neg then -num else num
  let chunk ← printNum stack num.toNat 10 neg width ladjust padc false
  some (ap, [chunk])

/-- The `switch` on the character of the directive, but for `'\0'`. -/
def convert (stack : (n : Nat) → Buffer n Byte) (c : Byte) (width : BitVec 32) (ladjust : Bool)
    (padc : Byte) (ap : List Arg) : Option (List Arg × List (List Byte)) :=
  if c = 0x62 then printUnsigned stack 2 false width ladjust padc ap
  else if c = 0x64 ∨ c = 0x44 then printSigned stack width ladjust padc ap
  else if c = 0x6f ∨ c = 0x4f then printUnsigned stack 8 false width ladjust padc ap
  else if c = 0x75 ∨ c = 0x55 then printUnsigned stack 10 false width ladjust padc ap
  else if c = 0x78 then printUnsigned stack 16 false width ladjust padc ap
  else if c = 0x58 then printUnsigned stack 16 true width ladjust padc ap
  else if c = 0x63 then do
    let (v, ap) ← vaInt ap
    some (ap, printChar (v.setWidth 8) width ladjust)
  else if c = 0x73 then do
    let (s, ap) ← vaStr ap
    some (ap, printStr s width ladjust)
  else some (ap, [[c]])

/-- The flags and the width behind a `'%'`: `ladjust`, `padc`, `width` and the position of
the character of the directive. -/
def readFlags (fmt : List Byte) (fuel i : Nat) : Option (Bool × Byte × BitVec 32 × Nat) := do
  let (ladjust, i) ← skipFlag fmt minus i
  let (zero, i) ← skipFlag fmt zeroChar i
  let (i, width) ← scanWidth fmt fuel i 0
  -- the two tests for `'l'`
  let (_, i) ← skipFlag fmt 0x6c i
  let (_, i) ← skipFlag fmt 0x6c i
  some (ladjust, if zero then zeroChar else space, width, i)

/-- The loop of `vprintfmt`: the chunks passed to `out`, if it ends within `fuel` turns. -/
def vprintfmtLoop (stack : (n : Nat) → Buffer n Byte) (fmt : List Byte) :
    Nat → Nat → List Arg → List (List Byte) → Option (List (List Byte))
  | 0, _, _, _ => none
  | fuel + 1, i, ap, out => do
      let (i, out) ← copyLiteral fmt (fuel + 1) i out
      let c ← peek fmt i
      if c = 0 then some out
      else do
        let (ladjust, padc, width, i) ← readFlags fmt (fuel + 1) (i + 1)
        let c ← peek fmt i
        -- `fmt--` in the case `'\0'`, and `fmt++` behind the `switch`
        if c = 0 then vprintfmtLoop stack fmt fuel (i - 1 + 1) ap out
        else do
          let (ap, chunks) ← convert stack c width ladjust padc ap
          vprintfmtLoop stack fmt fuel (i + 1) ap (out ++ chunks)

/-- `vprintfmt`, with what the arrays of `print_num` begin with. -/
def vprintfmt (stack : (n : Nat) → Buffer n Byte) (fmt : List Byte) (ap : List Arg) (fuel : Nat) :
    Option (List (List Byte)) :=
  vprintfmtLoop stack fmt fuel 0 ap []

/-! ## The expansion of a format -/

/-- A directive: `%[-][0][width][l][l]conv`, without `conv` where the format ends. -/
structure Directive extends NumFormat where
  conv : Option Byte

inductive Item where
  | literal (c : Byte)
  | directive (d : Directive)

/-- Whether `s` begins with `c`, and what follows it then. -/
def optional (c : Byte) (s : List Byte) : Bool × List Byte :=
  if s.head? = some c then (true, s.tail) else (false, s)

def isDigit (c : Byte) : Bool := decide (0x30 ≤ c ∧ c ≤ 0x39)

/-- The value of decimal digits. -/
def decimal (ds : List Byte) : Nat := Nat.ofDigits 10 (ds.reverse.map fun c => c.toNat - 0x30)

/-- The flags and the width of a directive, and what follows them. -/
def flags (s : List Byte) : NumFormat × List Byte :=
  let (ladjust, s) := optional minus s
  let (zero, s) := optional zeroChar s
  let width := decimal (s.takeWhile isDigit)
  (⟨ladjust, zero, width⟩, (optional 0x6c (optional 0x6c (s.dropWhile isDigit)).2).2)

/-- The directive behind a `'%'`, and what follows it. -/
def directive (s : List Byte) : Directive × List Byte :=
  (⟨(flags s).1, (flags s).2.head?⟩, (flags s).2.tail)

/-- The items of a format of at most `n` characters. -/
def itemsUpTo : Nat → List Byte → List Item
  | 0, _ => []
  | _, [] => []
  | n + 1, c :: s =>
      if c = percent then .directive (directive s).1 :: itemsUpTo n (directive s).2
      else .literal c :: itemsUpTo n s

def items (fmt : List Byte) : List Item := itemsUpTo fmt.length fmt

/-- The base and the case of the digits that a number is printed with. -/
def radix (conv : Byte) : Option (Nat × Bool) :=
  if conv = 0x62 then some (2, false)
  else if conv = 0x64 ∨ conv = 0x44 then some (10, false)
  else if conv = 0x6f ∨ conv = 0x4f then some (8, false)
  else if conv = 0x75 ∨ conv = 0x55 then some (10, false)
  else if conv = 0x78 then some (16, false)
  else if conv = 0x58 then some (16, true)
  else none

/-- Text padded with spaces to the width. -/
def NumFormat.padText (f : NumFormat) (text : List Byte) : List Byte :=
  if f.ladjust then text ++ List.replicate (f.width - text.length) space
  else List.replicate (f.width - text.length) space ++ text

/-- A number: for `d` its sign and its magnitude, else its value as an unsigned number. -/
def NumFormat.number (f : NumFormat) (conv : Byte) (base : Nat) (upcase : Bool) (v : BitVec 32) :
    List Byte :=
  if (conv = 0x64 ∨ conv = 0x44) ∧ v.toInt < 0 then
    f.pad [minus] (numeral base upcase v.toInt.natAbs)
  else f.pad [] (numeral base upcase v.toNat)

/-- The text of a directive, and the arguments that it leaves; none if the next one is
not of the type that it takes. -/
def Directive.expand (d : Directive) (ap : List Arg) : Option (List Byte × List Arg) :=
  match d.conv with
  | none => some ([], ap)
  | some conv =>
      match radix conv, ap with
      | some (base, upcase), .int v :: ap => some (d.number conv base upcase v, ap)
      | some _, _ => none
      | none, ap =>
          if conv = 0x63 then (vaInt ap).map fun r => (d.padText [r.1.setWidth 8], r.2)
          else if conv = 0x73 then (vaStr ap).map fun r => (d.padText r.1, r.2)
          else some ([conv], ap)

/-- The text of the items; none if the arguments do not match. -/
def expandItems : List Item → List Arg → Option (List Byte)
  | [], _ => some []
  | .literal c :: is, ap => (expandItems is ap).map fun text => c :: text
  | .directive d :: is, ap =>
      (d.expand ap).bind fun r => (expandItems is r.2).map fun text => r.1 ++ text

def expand (fmt : List Byte) (ap : List Arg) : Option (List Byte) := expandItems (items fmt) ap

/-- Whatever the stack holds, `vprintfmt` ends, in fewer turns than the format has bytes,
without a read behind it, and the chunks passed to `out` make up its expansion. -/
def Formats (fmt : List Byte) (ap : List Arg) : Prop :=
  ∀ stack fuel, fmt.length < fuel → ∃ chunks, vprintfmt stack fmt ap fuel = some chunks ∧
    expand fmt ap = some chunks.flatten

/-- The directives of a format. -/
def directives (fmt : List Byte) : List Directive :=
  (items fmt).filterMap fun | .directive d => some d | .literal _ => none

/-- A number that fits the array of `print_num`. -/
def Directive.Fits (d : Directive) : Prop :=
  ∀ conv ∈ d.conv, (radix conv).isSome → d.width + 70 < 2 ^ 31

instance (d : Directive) : Decidable d.Fits := by
  unfold Directive.Fits
  infer_instance

variable {fmt pre rest s : List Byte} {ap : List Arg} {c : Byte} {fuel i : Nat}
  {out : List (List Byte)} {stack : (n : Nat) → Buffer n Byte}

/-! ## Reading the format -/

theorem peek_end (fmt : List Byte) : peek fmt fmt.length = some 0 := by simp [peek]

theorem peek_next (eq : fmt = pre ++ c :: rest) : peek fmt pre.length = some c := by
  simp [peek, eq]

theorem skipFlag_eq (eq : fmt = pre ++ s) (nonzero : c ≠ 0) :
    ∃ pre', skipFlag fmt c pre.length = some ((optional c s).1, pre'.length) ∧
      fmt = pre' ++ (optional c s).2 ∧ pre.length ≤ pre'.length := by
  unfold skipFlag optional
  cases s with
  | nil =>
      rw [List.append_nil] at eq
      subst eq
      refine ⟨fmt, ?_, by simp, Nat.le_refl _⟩
      simp only [peek_end, Option.bind_eq_bind, Option.bind_some, if_neg nonzero.symm]
      rfl
  | cons x s =>
      rw [peek_next eq]
      by_cases same : x = c
      · exact ⟨pre ++ [x], by simp [same], by simp [same, eq], by simp⟩
      · exact ⟨pre, by simp [same], by simp [same, eq], Nat.le_refl _⟩

/-- The width as an int. -/
def intWidth (w : BitVec 32) (ds : List Byte) : BitVec 32 :=
  ds.foldl (fun w c => w * 10 + c.setWidth 32 - 0x30) w

theorem intWidth_toNat (digits : ∀ c ∈ s, isDigit c = true) :
    (intWidth 0 s).toNat = decimal s % 2 ^ 32 := by
  induction s using List.reverseRecOn with
  | nil => rfl
  | append_singleton ds c ih =>
      have digit := digits c (by simp)
      simp only [isDigit, decide_eq_true_eq, BitVec.le_def] at digit
      have lo : 0x30 ≤ c.toNat := digit.1
      have last : decimal (ds ++ [c]) = (c.toNat - 0x30) + 10 * decimal ds := by
        simp [decimal, Nat.ofDigits_cons]
      have step : intWidth 0 (ds ++ [c]) = intWidth 0 ds * 10 + c.setWidth 32 - 0x30 := by
        simp [intWidth]
      have small := c.isLt
      rw [step, last, BitVec.toNat_sub, BitVec.toNat_add, BitVec.toNat_mul,
        ih fun c inDs => digits c (by simp [inDs]), BitVec.toNat_setWidth,
        show (10 : BitVec 32).toNat = 10 from rfl, show (0x30 : BitVec 32).toNat = 0x30 from rfl]
      omega

theorem scanWidth_eq (eq : fmt = pre ++ s) (enough : s.length < fuel) (w : BitVec 32) :
    ∃ pre', scanWidth fmt fuel pre.length w = some (pre'.length, intWidth w (s.takeWhile isDigit)) ∧
      fmt = pre' ++ s.dropWhile isDigit ∧ pre.length ≤ pre'.length := by
  induction s generalizing pre fuel w with
  | nil =>
      obtain ⟨fuel, rfl⟩ := Nat.exists_eq_add_of_lt enough
      rw [List.append_nil] at eq
      subst eq
      refine ⟨fmt, ?_, by simp, Nat.le_refl _⟩
      simp [scanWidth, peek_end, intWidth]
  | cons x s ih =>
      cases fuel with
      | zero => exact absurd enough (Nat.not_lt_zero _)
      | succ fuel =>
          unfold scanWidth
          simp only [peek_next eq, Option.bind_eq_bind, Option.bind_some]
          by_cases digit : 0x30 ≤ x ∧ x ≤ 0x39
          · have isDigit_x : isDigit x = true := by simpa [isDigit] using digit
            obtain ⟨pre', run, eq', le⟩ := @ih (pre ++ [x]) fuel (by simp [eq])
              (Nat.lt_of_succ_lt_succ enough) (w * 10 + x.setWidth 32 - 0x30)
            rw [List.length_append, List.length_singleton] at run le
            rw [if_pos digit, List.takeWhile_cons_of_pos isDigit_x,
              List.dropWhile_cons_of_pos isDigit_x]
            exact ⟨pre', run, eq', by omega⟩
          · have notDigit : ¬ isDigit x = true := by simpa [isDigit] using digit
            rw [if_neg digit, List.takeWhile_cons_of_neg notDigit,
              List.dropWhile_cons_of_neg notDigit]
            exact ⟨pre, rfl, eq, Nat.le_refl _⟩

/-- The bytes in front of a directive or the end are passed to `out` one by one. -/
theorem copyLiteral_eq {text : List Byte} (eq : fmt = pre ++ text ++ rest)
    (plain : ∀ c ∈ text, c ≠ percent ∧ c ≠ 0) (stops : rest = [] ∨ ∃ s, rest = percent :: s)
    (enough : text.length < fuel) :
    copyLiteral fmt fuel pre.length out =
      some ((pre ++ text).length, out ++ text.map fun c => [c]) := by
  induction text generalizing pre fuel out with
  | nil =>
      obtain ⟨fuel, rfl⟩ := Nat.exists_eq_add_of_lt enough
      rw [List.append_nil] at eq
      rcases stops with rfl | ⟨s, rfl⟩
      · rw [List.append_nil] at eq
        subst eq
        simp [copyLiteral, peek_end]
      · simp [copyLiteral, peek_next eq]
  | cons c text ih =>
      cases fuel with
      | zero => exact absurd enough (Nat.not_lt_zero _)
      | succ fuel =>
          have here : fmt = pre ++ c :: (text ++ rest) := by simp [eq]
          have next := @ih (pre ++ [c]) fuel (out ++ [[c]]) (by simp [eq])
            (fun c inText => plain c (List.mem_cons_of_mem _ inText))
            (Nat.lt_of_succ_lt_succ enough)
          rw [List.length_append, List.length_singleton] at next
          unfold copyLiteral
          simp only [peek_next here, Option.bind_eq_bind, Option.bind_some]
          rw [if_pos (plain c List.mem_cons_self), next]
          simp [Nat.add_comm]

theorem length_optional (c : Byte) (s : List Byte) : (optional c s).2.length ≤ s.length := by
  unfold optional
  split <;> simp

theorem readFlags_eq (eq : fmt = pre ++ s) (enough : s.length < fuel) :
    ∃ pre' width, readFlags fmt fuel pre.length = some ((flags s).1.ladjust,
        if (flags s).1.zero then zeroChar else space, width, pre'.length) ∧
      fmt = pre' ++ (flags s).2 ∧ pre.length ≤ pre'.length ∧
      width.toNat = (flags s).1.width % 2 ^ 32 := by
  obtain ⟨p₁, left, eq₁, le₁⟩ := skipFlag_eq eq (by decide : minus ≠ 0)
  obtain ⟨p₂, zero, eq₂, le₂⟩ := skipFlag_eq eq₁ (by decide : zeroChar ≠ 0)
  have short := (length_optional zeroChar (optional minus s).2).trans (length_optional minus s)
  obtain ⟨p₃, scanned, eq₃, le₃⟩ := scanWidth_eq eq₂ (Nat.lt_of_le_of_lt short enough) 0
  obtain ⟨p₄, long, eq₄, le₄⟩ := skipFlag_eq eq₃ (by decide : (0x6c : Byte) ≠ 0)
  obtain ⟨p₅, longer, eq₅, le₅⟩ := skipFlag_eq eq₄ (by decide : (0x6c : Byte) ≠ 0)
  refine ⟨p₅, _, ?_, eq₅, by omega, intWidth_toNat (List.all_eq_true.mp List.all_takeWhile)⟩
  simp only [readFlags, left, zero, scanned, long, longer, Option.bind_eq_bind, Option.bind_some]
  rfl

/-! ## The conversions -/

/-- What `r` returns adds `text` to the output if it fits, and there is no result if not. -/
def Emits (r : Option (List Arg × List (List Byte))) (text : List Byte) (ap : List Arg)
    (fits : Prop) : Prop :=
  (fits → ∃ chunks, r = some (ap, chunks) ∧ chunks.flatten = text) ∧ (¬fits → r = none)

variable {f : NumFormat} {v width : BitVec 32} {text : List Byte} {ap' : List Arg}

theorem printNum_emits {base : Nat} {upcase neg : Bool} {u : Nat} (hb : 1 < base)
    (small : base ≤ 16) (bound : u < 2 ^ 32) (same : width.toNat = f.width) (short : f.width < 2 ^ 31) :
    Emits ((printNum stack u base neg width f.ladjust (if f.zero then zeroChar else space)
        upcase).bind fun chunk => some (ap, [chunk]))
      (f.pad (if neg then [minus] else []) (numeral base upcase u)) ap (f.width + 70 < 2 ^ 31) := by
  rw [printNum_eq hb small bound (by omega) neg f.ladjust f.zero, same]
  constructor
  · intro fits
    rw [if_pos fits]
    exact ⟨_, rfl, by simp⟩
  · intro wide
    rw [if_neg wide]
    rfl

theorem natAbs_toInt (v : BitVec 32) :
    (if v.slt 0 then -v else v).toNat = if v.toInt < 0 then v.toInt.natAbs else v.toNat := by
  have sign : v.slt 0 = decide (v.toInt < 0) := rfl
  have bound := v.isLt
  rw [sign]
  by_cases neg : v.toInt < 0
  · rw [if_pos (by simpa using neg), if_pos neg, BitVec.toNat_neg]
    rw [BitVec.toInt_eq_toNat_cond] at neg ⊢
    split_ifs at neg ⊢ <;> omega
  · rw [if_neg (by simpa using neg), if_neg neg]

theorem flatten_singletons (text : List Byte) : (text.map fun c => [c]).flatten = text := by
  induction text with
  | nil => rfl
  | cons c text ih => simp [ih]

theorem printStr_flatten (same : width.toInt = f.width) (text : List Byte) :
    (printStr text width f.ladjust).flatten = f.padText text := by
  have fill : ((if width.toInt < (text.length : Int) then (text.length : Int) else width.toInt) -
      text.length).toNat = f.width - text.length := by
    split_ifs <;> omega
  unfold printStr NumFormat.padText
  simp only [fill]
  split <;> simp

theorem printChar_flatten (same : width.toInt = f.width) (c : Byte) :
    (printChar c width f.ladjust).flatten = f.padText [c] := by
  have fill : ((if width.toInt < 1 then (1 : Int) else width.toInt) - 1).toNat =
      f.width - [c].length := by
    rw [List.length_singleton]
    split_ifs <;> omega
  unfold printChar NumFormat.padText
  simp only [fill]
  split <;> simp

section Convert

variable {d : Directive} {conv : Byte} {base : Nat} {upcase : Bool}

theorem expand_number (hconv : d.conv = some conv) (number : radix conv = some (base, upcase))
    (expands : d.expand ap = some (text, ap')) :
    ∃ v, ap = .int v :: ap' ∧ text = d.number conv base upcase v := by
  unfold Directive.expand at expands
  simp only [hconv, number] at expands
  cases ap with
  | nil => cases expands
  | cons arg rest =>
      cases arg with
      | str s => cases expands
      | int v =>
          cases expands
          exact ⟨v, rfl, rfl⟩

theorem fits_number (hconv : d.conv = some conv) (number : radix conv = some (base, upcase)) :
    d.Fits ↔ d.width + 70 < 2 ^ 31 := by
  simp [Directive.Fits, hconv, number]

theorem fits_text (hconv : d.conv = some conv) (text : radix conv = none) : d.Fits := by
  intro conv' inConv number
  rw [hconv] at inConv
  cases inConv
  rw [text] at number
  cases number

theorem printUnsigned_emits (hconv : d.conv = some conv) (number : radix conv = some (base, upcase))
    (unsigned : ¬ (conv = 0x64 ∨ conv = 0x44)) (hb : 1 < base) (small : base ≤ 16)
    (expands : d.expand ap = some (text, ap')) (same : width.toNat = d.width)
    (short : d.width < 2 ^ 31) :
    Emits (printUnsigned stack base upcase width d.ladjust (if d.zero then zeroChar else space) ap)
      text ap' d.Fits := by
  obtain ⟨v, rfl, rfl⟩ := expand_number hconv number expands
  have printed : Emits _ _ ap' _ :=
    @printNum_emits ap' stack d.toNumFormat width base upcase false v.toNat hb small v.isLt same
      short
  have value : d.number conv base upcase v = d.pad [] (numeral base upcase v.toNat) :=
    if_neg fun h => unsigned h.1
  rw [fits_number hconv number, value]
  exact printed

theorem printSigned_emits (hconv : d.conv = some conv) (signed : conv = 0x64 ∨ conv = 0x44)
    (expands : d.expand ap = some (text, ap')) (same : width.toNat = d.width)
    (short : d.width < 2 ^ 31) :
    Emits (printSigned stack width d.ladjust (if d.zero then zeroChar else space) ap)
      text ap' d.Fits := by
  have number : radix conv = some (10, false) := by
    rcases signed with rfl | rfl <;> rfl
  obtain ⟨v, rfl, rfl⟩ := expand_number hconv number expands
  have magnitude := natAbs_toInt v
  have value : d.number conv 10 false v = d.pad (if v.slt 0 then [minus] else [])
      (numeral 10 false (if v.slt 0 then -v else v).toNat) := by
    have sign : v.slt 0 = decide (v.toInt < 0) := rfl
    rw [magnitude, sign, NumFormat.number]
    by_cases neg : v.toInt < 0
    · rw [if_pos ⟨signed, neg⟩, if_pos (by simpa using neg), if_pos neg]
    · rw [if_neg fun h => neg h.2, if_neg (by simpa using neg), if_neg neg]
  have printed : Emits _ _ ap' _ :=
    @printNum_emits ap' stack d.toNumFormat width 10 false (v.slt 0)
      (if v.slt 0 then -v else v).toNat
      (by decide) (by decide) (BitVec.isLt _) same short
  rw [fits_number hconv number, value]
  exact printed

theorem Emits.of_some {chunks : List (List Byte)} (run : chunks.flatten = text) {fits : Prop}
    (holds : fits) : Emits (some (ap, chunks)) text ap fits :=
  ⟨fun _ => ⟨chunks, rfl, run⟩, fun not => absurd holds not⟩

/-- A directive with a character is carried out as its expansion says. -/
theorem convert_emits (hconv : d.conv = some conv) (expands : d.expand ap = some (text, ap'))
    (same : width.toNat = d.width) (short : d.width < 2 ^ 31) :
    Emits (convert stack conv width d.ladjust (if d.zero then zeroChar else space) ap) text ap'
      d.Fits := by
  have int : width.toInt = d.width := by
    rw [(size_toInt (by omega)).1, same]
  unfold convert
  by_cases b : conv = 0x62
  · rw [if_pos b]
    subst b
    exact printUnsigned_emits hconv rfl (by decide) (by decide) (by decide) expands same short
  rw [if_neg b]
  by_cases signed : conv = 0x64 ∨ conv = 0x44
  · rw [if_pos signed]
    exact printSigned_emits hconv signed expands same short
  rw [if_neg signed]
  by_cases o : conv = 0x6f ∨ conv = 0x4f
  · rw [if_pos o]
    have number : radix conv = some (8, false) := by
      rcases o with rfl | rfl <;> rfl
    exact printUnsigned_emits hconv number signed (by decide) (by decide) expands same short
  rw [if_neg o]
  by_cases u : conv = 0x75 ∨ conv = 0x55
  · rw [if_pos u]
    have number : radix conv = some (10, false) := by
      rcases u with rfl | rfl <;> rfl
    exact printUnsigned_emits hconv number signed (by decide) (by decide) expands same short
  rw [if_neg u]
  by_cases x : conv = 0x78
  · rw [if_pos x]
    subst x
    exact printUnsigned_emits hconv rfl signed (by decide) (by decide) expands same short
  rw [if_neg x]
  by_cases X : conv = 0x58
  · rw [if_pos X]
    subst X
    exact printUnsigned_emits hconv rfl signed (by decide) (by decide) expands same short
  rw [if_neg X]
  have text_radix : radix conv = none := by
    simp only [radix, if_neg b, if_neg signed, if_neg o, if_neg u, if_neg x, if_neg X]
  have fits := fits_text hconv text_radix
  unfold Directive.expand at expands
  simp only [hconv, text_radix] at expands
  by_cases char : conv = 0x63
  · rw [if_pos char] at expands ⊢
    cases ap with
    | nil => cases expands
    | cons arg rest =>
        cases arg with
        | str s => cases expands
        | int v =>
            cases expands
            exact .of_some (printChar_flatten int _) fits
  rw [if_neg char] at expands ⊢
  by_cases string : conv = 0x73
  · rw [if_pos string] at expands ⊢
    cases ap with
    | nil => cases expands
    | cons arg rest =>
        cases arg with
        | int v => cases expands
        | str s =>
            cases expands
            exact .of_some (printStr_flatten int _) fits
  rw [if_neg string] at expands ⊢
  cases expands
  exact .of_some (by simp) fits

end Convert

/-! ## The loop -/

theorem length_directive (s : List Byte) : (directive s).2.length ≤ s.length := by
  have whole : (flags s).2.length ≤ s.length := by
    refine (length_optional _ _).trans ((length_optional _ _).trans ?_)
    exact (List.dropWhile_sublist _).length_le.trans
      ((length_optional _ _).trans (length_optional _ _))
  show (flags s).2.tail.length ≤ s.length
  rw [List.length_tail]
  omega

theorem itemsUpTo_eq {n : Nat} (le : s.length ≤ n) : itemsUpTo n s = items s := by
  induction n using Nat.strong_induction_on generalizing s with
  | _ n ih =>
      cases n with
      | zero =>
          obtain rfl := List.length_eq_zero_iff.mp (Nat.le_zero.mp le)
          rfl
      | succ n =>
          cases s with
          | nil => rfl
          | cons c s =>
              have short : s.length ≤ n := Nat.le_of_succ_le_succ le
              have shorter := length_directive s
              rw [items, List.length_cons, itemsUpTo, itemsUpTo,
                ih n (Nat.lt_succ_self n) short, ih n (Nat.lt_succ_self n) (shorter.trans short),
                ih s.length (by omega) (Nat.le_refl _), ih s.length (by omega) shorter]

theorem items_literal (plain : c ≠ percent) (s : List Byte) :
    items (c :: s) = .literal c :: items s := by
  rw [items, List.length_cons, itemsUpTo, if_neg plain, itemsUpTo_eq (Nat.le_refl _)]

theorem items_directive (s : List Byte) :
    items (percent :: s) = .directive (directive s).1 :: items (directive s).2 := by
  rw [items, List.length_cons, itemsUpTo, if_pos rfl, itemsUpTo_eq (length_directive s)]

theorem items_append (plain : ∀ c ∈ text, c ≠ percent) (s : List Byte) :
    items (text ++ s) = text.map .literal ++ items s := by
  induction text with
  | nil => rfl
  | cons c text ih =>
      rw [List.cons_append, items_literal (plain c List.mem_cons_self),
        ih fun c inText => plain c (List.mem_cons_of_mem _ inText)]
      rfl

theorem expandItems_append (text : List Byte) (is : List Item) (ap : List Arg) :
    expandItems (text.map .literal ++ is) ap = (expandItems is ap).map (text ++ ·) := by
  induction text with
  | nil => simp
  | cons c text ih =>
      rw [List.map_cons, List.cons_append, expandItems, ih, Option.map_map]
      rfl

theorem directives_append (plain : ∀ c ∈ text, c ≠ percent) (s : List Byte) :
    directives (text ++ s) = directives s := by
  unfold directives
  rw [items_append plain, List.filterMap_append]
  simp [List.filterMap_map]

theorem directives_directive (s : List Byte) :
    directives (percent :: s) = (directive s).1 :: directives (directive s).2 := by
  unfold directives
  rw [items_directive]
  rfl

/-- A format is plain text up to its end or the next directive. -/
theorem exists_literal (rest : List Byte) : ∃ lit tail, rest = lit ++ tail ∧
    (∀ c ∈ lit, c ≠ percent) ∧ (tail = [] ∨ ∃ s, tail = percent :: s) := by
  induction rest with
  | nil => exact ⟨[], [], rfl, by simp, .inl rfl⟩
  | cons c rest ih =>
      by_cases here : c = percent
      · exact ⟨[], c :: rest, rfl, by simp, .inr ⟨rest, by rw [here]⟩⟩
      · obtain ⟨lit, tail, rfl, plain, stops⟩ := ih
        refine ⟨c :: lit, tail, rfl, fun c' inLit => ?_, stops⟩
        rcases List.mem_cons.mp inLit with rfl | inLit
        · exact here
        · exact plain c' inLit

/-- A turn that reaches the end of the format. -/
theorem loop_end (eq : fmt = pre ++ text) (plain : ∀ c ∈ text, c ≠ percent ∧ c ≠ 0)
    (enough : text.length ≤ fuel) : vprintfmtLoop stack fmt (fuel + 1) pre.length ap out =
      some (out ++ text.map fun c => [c]) := by
  have copied := @copyLiteral_eq fmt pre [] (fuel + 1) out text (by rw [List.append_nil]; exact eq)
    plain (.inl rfl) (Nat.lt_succ_of_le enough)
  rw [← eq] at copied
  simp only [vprintfmtLoop, copied, peek_end, Option.bind_eq_bind, Option.bind_some, if_true]

/-- A turn that reaches a directive carries it out, or is back at the end of the format. -/
theorem loop_directive (eq : fmt = pre ++ text ++ percent :: s)
    (plain : ∀ c ∈ text, c ≠ percent ∧ c ≠ 0) (enough : (text ++ percent :: s).length ≤ fuel) :
    ∃ pre' width, fmt = pre' ++ (flags s).2 ∧ width.toNat = (flags s).1.width % 2 ^ 32 ∧
      vprintfmtLoop stack fmt (fuel + 1) pre.length ap out =
        (peek fmt pre'.length).bind fun c =>
          if c = 0 then vprintfmtLoop stack fmt fuel pre'.length ap (out ++ text.map fun c => [c])
          else (convert stack c width (flags s).1.ladjust
              (if (flags s).1.zero then zeroChar else space) ap).bind fun r =>
            vprintfmtLoop stack fmt fuel (pre'.length + 1) r.1
              (out ++ (text.map fun c => [c]) ++ r.2) := by
  rw [List.length_append, List.length_cons] at enough
  have copied := @copyLiteral_eq fmt pre (percent :: s) (fuel + 1) out text eq plain
    (.inr ⟨s, rfl⟩) (by omega)
  have behind : fmt = (pre ++ text ++ [percent]) ++ s := by simp [eq]
  obtain ⟨pre', width, run, eq', le, value⟩ := @readFlags_eq fmt _ s (fuel + 1) behind (by omega)
  have after : (pre ++ text ++ [percent]).length = (pre ++ text).length + 1 := by
    rw [List.length_append, List.length_singleton]
  rw [after] at run le
  refine ⟨pre', width, eq', value, ?_⟩
  have here : peek fmt (pre ++ text).length = some percent := peek_next eq
  have notEnd : percent ≠ 0 := by decide
  have back : pre'.length - 1 + 1 = pre'.length := by omega
  simp only [vprintfmtLoop, copied, here, run, Option.bind_eq_bind, Option.bind_some, if_neg notEnd,
    back]

/-- What the loop returns behind `out` adds `text` if all fits, and nothing is returned if not. -/
def Prints (r : Option (List (List Byte))) (out : List (List Byte)) (text : List Byte)
    (fits : Prop) : Prop :=
  (fits → ∃ chunks, r = some (out ++ chunks) ∧ chunks.flatten = text) ∧ (¬fits → r = none)

theorem Prints.before {r : Option (List (List Byte))} {chunks : List (List Byte)}
    {fits fits' : Prop}
    {t t' : List Byte} (prints : Prints r (out ++ chunks) t fits) (whole : t' = chunks.flatten ++ t)
    (iff : fits' ↔ fits) : Prints r out t' fits' := by
  refine ⟨fun holds => ?_, fun fails => prints.2 fun holds => fails (iff.mpr holds)⟩
  obtain ⟨more, rfl, rfl⟩ := prints.1 (iff.mp holds)
  exact ⟨chunks ++ more, by rw [List.append_assoc], by rw [whole, List.flatten_append]⟩

/-- A directive is carried out and the rest printed behind it. -/
theorem Emits.bind {r : Option (List Arg × List (List Byte))} {t t' : List Byte}
    {next : List Arg × List (List Byte) → Option (List (List Byte))} {fits fits' : Prop}
    (emits : Emits r t ap fits) (behind : ∀ chunks, chunks.flatten = t →
      Prints (next (ap, chunks)) (out ++ chunks) t' fits') :
    Prints (r.bind next) out (t ++ t') (fits ∧ fits') := by
  obtain ⟨carried, failed⟩ := emits
  by_cases holds : fits
  · obtain ⟨chunks, rfl, rfl⟩ := carried holds
    rw [Option.bind_some]
    exact (behind chunks rfl).before rfl (and_iff_right holds)
  · rw [failed holds]
    exact ⟨fun both => absurd both.1 holds, fun _ => rfl⟩

/-- The loop prints the rest of the format. The induction is on the length of the rest, from
one directive to the next. -/
theorem loop_prints (eq : fmt = pre ++ rest) (string : (0 : Byte) ∉ fmt)
    (enough : rest.length < fuel) (expands : expandItems (items rest) ap = some text)
    (short : ∀ d ∈ directives rest, d.width < 2 ^ 31) :
    Prints (vprintfmtLoop stack fmt fuel pre.length ap out) out text
      (∀ d ∈ directives rest, d.Fits) := by
  induction len : rest.length using Nat.strong_induction_on
    generalizing pre rest ap out text fuel with
  | _ n ih =>
      obtain ⟨lit, tail, rfl, literal, stops⟩ := exists_literal rest
      have plain : ∀ c ∈ lit, c ≠ percent ∧ c ≠ 0 := fun c inLit =>
        ⟨literal c inLit, fun zero => string (by rw [eq, ← zero]; simp [inLit])⟩
      have flat := flatten_singletons lit
      obtain ⟨k, rfl⟩ : ∃ k, fuel = k + 1 := Nat.exists_eq_succ_of_ne_zero (by omega)
      rw [items_append literal, expandItems_append] at expands
      rw [directives_append literal] at short ⊢
      obtain ⟨t, behind, rfl⟩ := Option.map_eq_some_iff.mp expands
      rw [List.length_append] at len enough
      rcases stops with rfl | ⟨s, rfl⟩
      · cases behind
        rw [List.append_nil] at eq
        rw [loop_end eq plain (by omega)]
        exact ⟨fun _ => ⟨_, rfl, by rw [flat, List.append_nil]⟩,
          fun fails => absurd (by simp [directives, items, itemsUpTo]) fails⟩
      · rw [← List.append_assoc] at eq
        rw [List.length_cons] at len enough
        rw [directives_directive] at short ⊢
        rw [items_directive] at behind
        obtain ⟨⟨t₁, ap'⟩, first, others⟩ := Option.bind_eq_some_iff.mp behind
        obtain ⟨t₂, more, rfl⟩ := Option.map_eq_some_iff.mp others
        obtain ⟨pre', width, eq', value, run⟩ :=
          @loop_directive fmt pre s ap k out stack lit eq plain
          (by rw [List.length_append, List.length_cons]; omega)
        have fitsInt : (flags s).1.width < 2 ^ 31 := short _ List.mem_cons_self
        have shorter := length_directive s
        rw [Nat.mod_eq_of_lt (by omega)] at value
        rw [run]
        cases conv : (flags s).2 with
        | nil =>
            have nothing : directive s = (⟨(flags s).1, none⟩, []) := by simp [directive, conv]
            rw [conv, List.append_nil] at eq'
            rw [nothing] at first more short ⊢
            cases first
            have next := @ih 0 (by omega) fmt [] ap k (out ++ lit.map fun c => [c]) t₂
              (by rw [List.append_nil]) (by rw [List.length_nil]; omega) more
              (fun d h => short d (List.mem_cons_of_mem _ h)) rfl
            rw [← eq', peek_end, Option.bind_some, if_pos rfl]
            refine next.before (by rw [flat]; rfl) ?_
            have fits : (⟨(flags s).1, none⟩ : Directive).Fits := fun _ inConv => by cases inConv
            rw [List.forall_mem_cons]
            exact and_iff_right fits
        | cons c rest =>
            have here : directive s = (⟨(flags s).1, some c⟩, rest) := by simp [directive, conv]
            rw [conv] at eq'
            rw [here] at first more short shorter ⊢
            have shorter : rest.length ≤ s.length := shorter
            have nonzero : c ≠ 0 := fun zero => string (by rw [eq', zero]; simp)
            rw [peek_next eq', Option.bind_some, if_neg nonzero, List.forall_mem_cons]
            have carriedOut : ∀ d : Directive, d.conv = some c → d.expand ap = some (t₁, ap') →
                width.toNat = d.width → d.width < 2 ^ 31 →
                Emits
                  (convert stack c width d.ladjust (if d.zero then zeroChar else space) ap) t₁ ap'
                  d.Fits := fun d => convert_emits
            refine Prints.before (?_ : Prints _ (out ++ lit.map fun c => [c]) (t₁ ++ t₂) _)
              (by rw [flat]) Iff.rfl
            refine (carriedOut ⟨(flags s).1, some c⟩ rfl first value fitsInt).bind fun chunks _ => ?_
            have next := @ih rest.length (by omega) (pre' ++ [c]) rest ap' k
              (out ++ (lit.map fun c => [c]) ++ chunks) t₂ (by simp [eq']) (by omega) more
              (fun d h => short d (List.mem_cons_of_mem _ h)) rfl
            rwa [List.length_append, List.length_singleton] at next

theorem vprintfmt_prints (string : (0 : Byte) ∉ fmt) (matching : expand fmt ap = some text)
    (short : ∀ d ∈ directives fmt, d.width < 2 ^ 31) (enough : fmt.length < fuel) :
    Prints (vprintfmt stack fmt ap fuel) [] text (∀ d ∈ directives fmt, d.Fits) :=
  @loop_prints fmt [] fmt ap fuel [] stack text rfl string enough matching short

/-- A number too wide for the array of `print_num` is not printed. -/
theorem not_formats (string : (0 : Byte) ∉ fmt) (matching : expand fmt ap = some text)
    (short : ∀ d ∈ directives fmt, d.width < 2 ^ 31) (wide : ¬ ∀ d ∈ directives fmt, d.Fits) :
    ¬ Formats fmt ap := by
  intro formats
  obtain ⟨chunks, run, -⟩ := formats (fun _ _ => 0) (fmt.length + 1) (Nat.lt_succ_self _)
  rw [(vprintfmt_prints string matching short (Nat.lt_succ_self _)).2 wide] at run
  cases run

/-- With arguments that match and widths that are ints, `vprintfmt` ends within the format and
passes its expansion to `out`, exactly when the width of every number leaves room for the 70
bytes more of the array. -/
theorem vprintfmt_formats_iff (string : (0 : Byte) ∉ fmt) (matching : expand fmt ap = some text)
    (short : ∀ d ∈ directives fmt, d.width < 2 ^ 31) :
    Formats fmt ap ↔ ∀ d ∈ directives fmt, d.Fits := by
  constructor
  · intro formats
    by_contra wide
    exact not_formats string matching short wide formats
  · intro fits stack fuel enough
    obtain ⟨chunks, run, flat⟩ := (vprintfmt_prints string matching short enough).1 fits
    exact ⟨chunks, run, by rw [matching, flat]⟩

/-- `"%05d"` and -100 -/
theorem vprintfmt_formats_iff_d : Formats [0x25, 0x30, 0x35, 0x64] [.int (-100)] :=
  (vprintfmt_formats_iff (by decide)
    (show expand [0x25, 0x30, 0x35, 0x64] [.int (-100)] = some [0x2d, 0x30, 0x31, 0x30, 0x30] by
      decide) (by decide)).mpr (by decide)

/-- `"%2147483647d"`: the size of the array overflows. -/
theorem vprintfmt_not_formats : ¬ ∀ (fmt : List Byte) (ap : List Arg) (text : List Byte),
    (0 : Byte) ∉ fmt → expand fmt ap = some text → (∀ d ∈ directives fmt, d.width < 2 ^ 31) →
      Formats fmt ap := by
  intro always
  have string : (0 : Byte) ∉
      [percent, 0x32, 0x31, 0x34, 0x37, 0x34, 0x38, 0x33, 0x36, 0x34, 0x37, 0x64] := by
    decide
  obtain ⟨text, matching⟩ : ∃ text, expand
      [percent, 0x32, 0x31, 0x34, 0x37, 0x34, 0x38, 0x33, 0x36, 0x34, 0x37, 0x64]
      [.int 0] = some text :=
    ⟨_, rfl⟩
  have short : ∀ d ∈ directives
      [percent, 0x32, 0x31, 0x34, 0x37, 0x34, 0x38, 0x33, 0x36, 0x34, 0x37, 0x64],
      d.width < 2 ^ 31 := by
    decide
  exact not_formats string matching short (by decide) (always _ _ text string matching short)

end Mos
