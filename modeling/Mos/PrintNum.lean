import Mathlib.Data.Nat.Digits.Defs
import Mos.Lib.Buffer
import Mos.Pipe

/-!
# `print_num`

The digits go into `buf` least significant first, then the sign and the padding, and
the whole or the number alone is reversed. The buffer has 70 bytes more than the
width; the addition overflows for the largest widths, and then the number is not
printed (`printNum_eq`).
-/

namespace Mos

open Buffer

/-- `' '` -/
abbrev space : Byte := 0x20

/-- `'-'` -/
abbrev minus : Byte := 0x2d

/-- `'0'` -/
abbrev zeroChar : Byte := 0x30

/-- The character for the digit `tmp`. -/
def digitByte (upcase : Bool) (tmp : Nat) : Byte :=
  if tmp ≤ 9 then BitVec.ofNat 8 (0x30 + tmp)
  else if upcase then BitVec.ofNat 8 (0x41 + tmp - 10)
  else BitVec.ofNat 8 (0x61 + tmp - 10)

variable {n : Nat}

/-- `do { ... *p++ = ...; u /= base; } while (u != 0);` -/
def digitLoop (base : Nat) (upcase : Bool) :
    Nat → Nat → Nat → Buffer n Byte → Option (Nat × Buffer n Byte)
  | 0, _, _, _ => none
  | fuel + 1, u, p, buf => do
      let buf ← buf.store p (digitByte upcase (u % base))
      let u := u / base
      if u ≠ 0 then digitLoop base upcase fuel u (p + 1) buf else some (p + 1, buf)

/-- `count` turns of `buf[i] = padc; i++`. -/
def fillLoop (padc : Byte) : Nat → Int → Buffer n Byte → Option (Buffer n Byte)
  | 0, _, buf => some buf
  | count + 1, i, buf => do
      let buf ← buf.store i padc
      fillLoop padc count (i + 1) buf

/-- `while (end > begin)`, with the two bytes exchanged in each turn. -/
def reverseLoop : Nat → Int → Int → Buffer n Byte → Option (Buffer n Byte)
  | 0, _, _, _ => none
  | fuel + 1, first, last, buf =>
      if last > first then do
        let tmp ← buf.load first
        let other ← buf.load last
        let buf ← buf.store first other
        let buf ← buf.store last tmp
        reverseLoop fuel (first + 1) (last - 1) buf
      else some buf

/-- The padding, and the sign where it has to move behind it. -/
def addPadding (neg : Bool) (ladjust : Bool) (padc : Byte) (actual length : Nat)
    (buf : Buffer n Byte) : Option (Buffer n Byte) :=
  if neg ∧ ¬ladjust ∧ padc = zeroChar then do
    let buf ← fillLoop padc (length - actual) ((actual : Int) - 1) buf
    buf.store ((length : Int) - 1) minus
  else fillLoop padc (length - actual) actual buf

/-- `if (neg_flag) *p++ = '-';` -/
def addSign (neg : Bool) (p : Nat) (buf : Buffer n Byte) : Option (Nat × Buffer n Byte) :=
  if neg then do
    let buf ← buf.store p minus
    some (p + 1, buf)
  else some (p, buf)

/-- What `print_num` does with the array `buf`: the chunk that goes to `out`. -/
def fillNum (buf : Buffer n Byte) (u base : Nat) (neg : Bool) (length : Nat) (ladjust : Bool)
    (padc : Byte) (upcase : Bool) : Option (List Byte) := do
  let (p, buf) ← digitLoop base upcase 33 u 0 buf
  let (actual, buf) ← addSign neg p buf
  let length := max length actual
  let padc := if ladjust then space else padc
  let buf ← addPadding neg ladjust padc actual length buf
  let last : Int := if ladjust then (actual : Int) - 1 else (length : Int) - 1
  let buf ← reverseLoop (length + 1) 0 last buf
  (List.range length).mapM fun i : Nat => buf.load i

/-- `print_num`. The size of the array is an int, and `stack` is what it begins with. -/
def printNum (stack : (n : Nat) → Buffer n Byte) (u base : Nat) (neg : Bool) (length : BitVec 32)
    (ladjust : Bool) (padc : Byte) (upcase : Bool) : Option (List Byte) :=
  if (length + 70).toInt ≤ 0 then none
  else fillNum (stack (length + 70).toInt.toNat) u base neg length.toInt.toNat ladjust padc upcase

/-! ## Numerals -/

/-- The characters of the digits. -/
def digitChars (upcase : Bool) : String := if upcase then "0123456789ABCDEF" else "0123456789abcdef"

def digitChar (upcase : Bool) (d : Nat) : Byte :=
  BitVec.ofNat 8 ((digitChars upcase).toList.getD d ' ').toNat

/-- The digits of `u`, least significant first, without leading zeros. -/
def digits (base u : Nat) : List Nat := if u = 0 then [0] else Nat.digits base u

def numeral (base : Nat) (upcase : Bool) (u : Nat) : List Byte :=
  ((digits base u).map (digitChar upcase)).reverse

/-- How a number is printed. -/
structure NumFormat where
  ladjust : Bool
  zero : Bool
  width : Nat

/-- A number with its sign, padded to the width: behind it, between sign and number, or
before it. -/
def NumFormat.pad (f : NumFormat) (sign number : List Byte) : List Byte :=
  let fill := f.width - (sign ++ number).length
  if f.ladjust then sign ++ number ++ List.replicate fill space
  else if f.zero then sign ++ List.replicate fill zeroChar ++ number
  else List.replicate fill space ++ sign ++ number

/-! ## The loops -/

variable {a : Buffer n Byte} {l : List Byte} {base u : Nat} {upcase : Bool}

theorem digitByte_eq : ∀ upcase, ∀ d < 16, digitByte upcase d = digitChar upcase d := by
  decide

theorem digits_eq_cons (hb : 1 < base) (u : Nat) :
    digits base u = u % base :: if u / base ≠ 0 then digits base (u / base) else [] := by
  unfold digits
  by_cases zero : u = 0
  · simp [zero]
  · rw [if_neg zero, Nat.digits_def' hb (Nat.pos_of_ne_zero zero)]
    by_cases last : u / base = 0
    · simp [last]
    · simp [last]

theorem digitLoop_holds {k : Nat} (hb : 1 < base) (small : base ≤ 16) (bound : u < 2 ^ k)
    (holds : a.Holds l) (room : l.length + (k + 1) ≤ n) :
    ∃ a', digitLoop base upcase (k + 1) u l.length a =
        some (l.length + (digits base u).length, a') ∧
      a'.Holds (l ++ (digits base u).map (digitChar upcase)) ∧ (digits base u).length ≤ k + 1 := by
  induction k generalizing u a l with
  | zero =>
      obtain rfl : u = 0 := by omega
      obtain ⟨a', stored, holds'⟩ := holds.push (by omega) (digitChar upcase 0)
      refine ⟨a', ?_, by simpa [digits] using holds', by simp [digits]⟩
      simp [digitLoop, digits, digitByte_eq upcase 0 (by decide), stored]
  | succ k ih =>
      have digit : u % base < 16 := Nat.lt_of_lt_of_le (Nat.mod_lt _ (by omega)) small
      obtain ⟨a₁, stored, holds₁⟩ := holds.push (by omega) (digitChar upcase (u % base))
      rw [digits_eq_cons hb u]
      unfold digitLoop
      simp only [digitByte_eq upcase _ digit, stored, Option.bind_eq_bind, Option.bind_some]
      by_cases more : u / base ≠ 0
      · have half : u / base < 2 ^ k := by
          rw [Nat.div_lt_iff_lt_mul (by omega)]
          calc u < 2 ^ k * 2 := by rwa [← Nat.pow_succ]
            _ ≤ 2 ^ k * base := Nat.mul_le_mul_left _ hb
        have short : (l ++ [digitChar upcase (u % base)]).length = l.length + 1 := by simp
        obtain ⟨a', run, holds', length⟩ := ih half holds₁ (by omega)
        rw [short] at run
        rw [if_pos more, if_pos more]
        refine ⟨a', ?_, ?_, by rw [List.length_cons]; omega⟩
        · rw [run, List.length_cons]
          congr 2
          omega
        · rwa [List.map_cons, List.append_cons]
      · rw [if_neg more, if_neg more]
        exact ⟨a₁, rfl, holds₁, by simp⟩

theorem fillLoop_holds {k : Nat} (padc : Byte) (holds : a.Holds l) (room : l.length + k ≤ n) :
    ∃ a', fillLoop padc k l.length a = some a' ∧ a'.Holds (l ++ List.replicate k padc) := by
  induction k generalizing a l with
  | zero => exact ⟨a, rfl, by simpa using holds⟩
  | succ k ih =>
      obtain ⟨a₁, stored, holds₁⟩ := holds.push (by omega) padc
      obtain ⟨a', run, holds'⟩ := ih holds₁ (by simp; omega)
      rw [List.length_append, List.length_singleton] at run
      refine ⟨a', ?_, by rwa [List.replicate_succ, List.append_cons]⟩
      simp only [fillLoop, stored, Option.bind_eq_bind, Option.bind_some]
      exact run

theorem reverseLoop_stops {fuel : Nat} {first last : Int} (done : ¬ last > first) :
    reverseLoop (fuel + 1) first last a = some a ∧ ∀ j, a.load j =
      if first ≤ j ∧ j ≤ last then a.load (first + last - j) else a.load j := by
  refine ⟨by simp only [reverseLoop, if_neg done], fun j => ?_⟩
  split_ifs
  · congr 1
    omega
  · rfl

theorem reverseLoop_load {fuel : Nat} {first last : Int} (lo : 0 ≤ first) (hi : last < n)
    (enough : last - first < fuel) :
    ∃ a', reverseLoop (fuel + 1) first last a = some a' ∧ ∀ j, a'.load j =
      if first ≤ j ∧ j ≤ last then a.load (first + last - j) else a.load j := by
  induction fuel generalizing first last a with
  | zero => exact ⟨a, reverseLoop_stops (by omega)⟩
  | succ fuel ih =>
      by_cases more : last > first
      · obtain ⟨tmp, readFirst⟩ := load_inside lo (by omega) a
        obtain ⟨other, readLast⟩ := load_inside (show 0 ≤ last by omega) hi a
        obtain ⟨a₁, storeFirst⟩ := store_inside lo (by omega) a other
        obtain ⟨a₂, storeLast⟩ := store_inside (show 0 ≤ last by omega) hi a₁ tmp
        obtain ⟨a', run, reversed⟩ := @ih a₂ (first + 1) (last - 1) (by omega) (by omega) (by omega)
        refine ⟨a', ?_, fun j => ?_⟩
        · rw [reverseLoop]
          simp only [if_pos more, readFirst, readLast, storeFirst, storeLast,
            Option.bind_eq_bind, Option.bind_some, run]
        · rw [reversed]
          simp only [load_store storeLast, load_store storeFirst]
          split_ifs <;> first
            | omega
            | rfl
            | (rw [← readFirst]; congr 1; omega)
            | (rw [← readLast]; congr 1; omega)
            | (congr 1; omega)
      · exact ⟨a, reverseLoop_stops more⟩

/-- The first `m` bytes are reversed. -/
theorem reverseLoop_holds {front back : List Byte} (holds : a.Holds (front ++ back)) {fuel : Nat}
    (enough : front.length ≤ fuel) :
    ∃ a', reverseLoop (fuel + 1) 0 ((front.length : Int) - 1) a = some a' ∧
      a'.Holds (front.reverse ++ back) := by
  have le := holds.le
  have same : (front.reverse ++ back).length = (front ++ back).length := by simp
  rw [List.length_append] at le
  obtain ⟨a', run, reversed⟩ := @reverseLoop_load n a fuel 0 ((front.length : Int) - 1)
    (Int.le_refl 0) (by omega) (by omega)
  refine ⟨a', run, holds_of_load (by rw [same]; exact holds.le) fun i hi => ?_⟩
  rw [reversed]
  rw [same] at hi
  by_cases inFront : i < front.length
  · rw [if_pos (by omega), show (0 : Int) + ((front.length : Int) - 1) - i =
      ((front.length - 1 - i : Nat) : Int) by omega,
      holds.load (by rw [List.length_append]; omega),
      List.getElem_append_left (by omega), List.getElem_append_left (by simpa using inFront),
      List.getElem_reverse]
  · rw [if_neg (by omega), holds.load hi, List.getElem_append_right (by omega),
      List.getElem_append_right (by simpa using inFront)]
    simp

/-- The padding, before anything is reversed. -/
theorem addPadding_holds {num : List Byte} {neg ladjust : Bool} {padc : Byte} {width : Nat}
    (holds : a.Holds (num ++ if neg then [minus] else []))
    (room : max width (num ++ if neg then [minus] else []).length ≤ n) :
    ∃ a', addPadding neg ladjust padc (num ++ if neg then [minus] else []).length
        (max width (num ++ if neg then [minus] else []).length) a = some a' ∧
      a'.Holds (if neg ∧ ¬ladjust ∧ padc = zeroChar then
          num ++ List.replicate (width - (num.length + 1)) zeroChar ++ [minus]
        else (num ++ if neg then [minus] else []) ++
          List.replicate (width - (num ++ if neg then [minus] else []).length) padc) := by
  unfold addPadding
  split
  case isTrue between =>
    obtain ⟨rfl, -, rfl⟩ := between
    simp only [if_true, List.length_append, List.length_singleton] at holds room ⊢
    have count : max width (num.length + 1) - (num.length + 1) = width - (num.length + 1) := by
      omega
    obtain ⟨a₁, filled, holds₁⟩ := @fillLoop_holds n a num (width - (num.length + 1)) zeroChar
      holds.of_append (by omega)
    obtain ⟨a', stored, holds'⟩ :=
      holds₁.push (by rw [List.length_append, List.length_replicate]; omega) minus
    refine ⟨a', ?_, by simpa using holds'⟩
    have start : ((num.length + 1 : Nat) : Int) - 1 = num.length := by omega
    have sign : ((max width (num.length + 1) : Nat) : Int) - 1 =
        ((num ++ List.replicate (width - (num.length + 1)) zeroChar).length : Nat) := by
      rw [List.length_append, List.length_replicate]
      omega
    simp only [count, start, filled, sign, stored, Option.bind_eq_bind, Option.bind_some]
  case isFalse behind =>
    generalize number : num ++ (if neg then [minus] else []) = text at holds room ⊢
    obtain ⟨a', filled, holds'⟩ := @fillLoop_holds n a text (max width text.length - text.length)
      padc holds (by omega)
    rw [show max width text.length - text.length = width - text.length by omega] at filled holds'
    refine ⟨a', ?_, holds'⟩
    rw [show max width text.length - text.length = width - text.length by omega]
    exact filled

/-- The number and its sign as they lie in the buffer, least significant first. -/
def backwards (num : List Byte) (neg : Bool) : List Byte := num ++ if neg then [minus] else []

/-- The buffer before it is reversed: the part that will be, and the rest. -/
def unreversed (f : NumFormat) (num : List Byte) (neg : Bool) : List Byte × List Byte :=
  let text := backwards num neg
  let fill := f.width - text.length
  if f.ladjust then (text, List.replicate fill space)
  else if f.zero then (num ++ List.replicate fill zeroChar ++ if neg then [minus] else [], [])
  else (text ++ List.replicate fill space, [])

theorem unreversed_pad (f : NumFormat) (num : List Byte) (neg : Bool) :
    (unreversed f num neg).1.reverse ++ (unreversed f num neg).2 =
      f.pad (if neg then [minus] else []) num.reverse := by
  obtain ⟨ladjust, zero, width⟩ := f
  cases ladjust <;> cases zero <;> cases neg <;>
    simp [unreversed, NumFormat.pad, backwards, Nat.add_comm]

theorem length_unreversed (f : NumFormat) (num : List Byte) (neg : Bool) :
    (unreversed f num neg).1.length = (if f.ladjust then (backwards num neg).length
      else max f.width (backwards num neg).length) ∧
    ((unreversed f num neg).1 ++ (unreversed f num neg).2).length =
      max f.width (backwards num neg).length := by
  obtain ⟨ladjust, zero, width⟩ := f
  cases ladjust <;> cases zero <;> cases neg <;>
    simp [unreversed, backwards] <;> omega

/-- The padding leaves the buffer as it is to be reversed. -/
theorem addPadding_unreversed {num : List Byte} {neg : Bool} (f : NumFormat)
    (holds : a.Holds (backwards num neg)) (room : max f.width (backwards num neg).length ≤ n) :
    ∃ a', addPadding neg f.ladjust (if f.ladjust then space else if f.zero then zeroChar else space)
        (backwards num neg).length (max f.width (backwards num neg).length) a = some a' ∧
      a'.Holds ((unreversed f num neg).1 ++ (unreversed f num neg).2) := by
  obtain ⟨a', run, holds'⟩ := @addPadding_holds n a num neg f.ladjust
    (if f.ladjust then space else if f.zero then zeroChar else space) f.width holds room
  refine ⟨a', run, ?_⟩
  obtain ⟨ladjust, zero, width⟩ := f
  have blank : space ≠ zeroChar := by decide
  cases ladjust <;> cases zero <;> cases neg <;>
    simpa [unreversed, backwards, blank] using holds'

theorem size_toInt {length : BitVec 32} (width : length.toNat < 2 ^ 31) :
    length.toInt = length.toNat ∧ (length + 70).toInt =
      if length.toNat + 70 < 2 ^ 31 then (length.toNat : Int) + 70
      else (length.toNat : Int) + 70 - 2 ^ 32 := by
  have sum : (length + 70).toNat = length.toNat + 70 := by
    rw [BitVec.toNat_add, show (70 : BitVec 32).toNat = 70 from rfl]
    omega
  constructor
  · rw [BitVec.toInt_eq_toNat_cond, if_pos (by omega)]
  · rw [BitVec.toInt_eq_toNat_cond, sum]
    split_ifs <;> omega

theorem addSign_holds {num : List Byte} (holds : a.Holds num) (room : num.length < n) (neg : Bool) :
    ∃ a', addSign neg num.length a = some ((backwards num neg).length, a') ∧
      a'.Holds (backwards num neg) := by
  cases neg with
  | false => exact ⟨a, by simp [addSign, backwards], by simpa [backwards] using holds⟩
  | true =>
      obtain ⟨a', stored, holds'⟩ := holds.push room minus
      refine ⟨a', ?_, holds'⟩
      simp only [addSign, if_true, stored, Option.bind_eq_bind, Option.bind_some, backwards,
        List.length_append, List.length_singleton]

/-- With 70 bytes more than the width, the number is printed. -/
theorem fillNum_eq (hb : 1 < base) (small : base ≤ 16) (bound : u < 2 ^ 32) (f : NumFormat)
    (neg : Bool) (buf : Buffer (f.width + 70) Byte) :
    fillNum buf u base neg f.width f.ladjust (if f.zero then zeroChar else space) upcase =
      some (f.pad (if neg then [minus] else []) (numeral base upcase u)) := by
  obtain ⟨b₁, digitsRun, holds₁, count⟩ := @digitLoop_holds _ buf [] base u upcase 32 hb small bound
    (.nil buf) (by simp)
  have number : ([] ++ (digits base u).map (digitChar upcase)).length = (digits base u).length := by
    simp
  obtain ⟨b₂, signRun, holds₂⟩ := addSign_holds holds₁ (by omega) neg
  rw [List.nil_append] at number holds₁ signRun holds₂
  have value : numeral base upcase u = ((digits base u).map (digitChar upcase)).reverse := rfl
  generalize (digits base u).map (digitChar upcase) = num at *
  have signed : (backwards num neg).length ≤ 34 := by
    unfold backwards
    split <;> simp <;> omega
  obtain ⟨b₃, padRun, holds₃⟩ := addPadding_unreversed f holds₂ (by omega)
  obtain ⟨frontLength, wholeLength⟩ := length_unreversed f num neg
  obtain ⟨b₄, reverseRun, holds₄⟩ := @reverseLoop_holds _ b₃ _ _ holds₃
    (max f.width (backwards num neg).length) (by rw [frontLength]; split <;> omega)
  have chunk := holds₄.loads
  rw [unreversed_pad, ← value] at chunk
  have total : (f.pad (if neg then [minus] else []) (numeral base upcase u)).length =
      max f.width (backwards num neg).length := by
    rw [value, ← unreversed_pad, ← wholeLength]
    simp
  have last : (if f.ladjust then ((backwards num neg).length : Int) - 1
      else ((max f.width (backwards num neg).length : Nat) : Int) - 1) =
      ((unreversed f num neg).1.length : Int) - 1 := by
    rw [frontLength]
    split <;> rfl
  rw [total] at chunk
  rw [List.length_nil] at digitsRun
  have start : digitLoop base upcase 33 u 0 buf = some (num.length, b₁) := by
    rw [digitsRun, number, Nat.zero_add]
  simp only [fillNum, start, signRun, Option.bind_eq_bind, Option.bind_some, padRun, last,
    reverseRun]
  exact chunk

/-- The number is printed, unless the size of the array overflows. -/
theorem printNum_eq {stack : (n : Nat) → Buffer n Byte} (hb : 1 < base) (small : base ≤ 16)
    (bound : u < 2 ^ 32) {length : BitVec 32} (width : length.toNat < 2 ^ 31)
    (neg ladjust zero : Bool) :
    printNum stack u base neg length ladjust (if zero then zeroChar else space) upcase =
      if length.toNat + 70 < 2 ^ 31 then
        some (NumFormat.pad ⟨ladjust, zero, length.toNat⟩ (if neg then [minus] else [])
          (numeral base upcase u))
      else none := by
  obtain ⟨widthInt, sizeInt⟩ := size_toInt width
  unfold printNum
  by_cases fits : length.toNat + 70 < 2 ^ 31
  · rw [if_pos fits] at sizeInt ⊢
    have size : (length + 70).toInt.toNat = length.toNat + 70 := by omega
    rw [if_neg (by omega), size, widthInt, Int.toNat_natCast]
    exact fillNum_eq hb small bound ⟨ladjust, zero, length.toNat⟩ neg _
  · rw [if_neg fits] at sizeInt ⊢
    exact if_pos (by omega)

end Mos
