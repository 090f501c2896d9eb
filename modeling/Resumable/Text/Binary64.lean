import Resumable.Text.Decimal
import Resumable.Text.Numeral

/-!
# Binary fractions of 64 bits

A number in decimal notation is taken for the nearest binary fraction with 53 significant bits and
an exponent of 11 bits; from halfway it goes to the even one.  A fraction is written with the
fewest decimal digits that read back as it.
-/

set_option autoImplicit false

namespace Resumable.Text

/-! ## Decimal notation -/

/-- A number in decimal notation: `mantissa` times ten to the power `exponent`. -/
structure Scientific where
  negative : Bool := false
  mantissa : Nat := 0
  exponent : Int := 0
  deriving DecidableEq, Repr, Inhabited

namespace Scientific

/-- The value of decimal digits. -/
def digitsValue (digits : List Char) : Nat :=
  digits.foldl (fun n c => n * 10 + (c.toNat - 48)) 0

/-- Split off what stands before the first character of a kind, and what stands behind it. -/
def cut (p : Char → Bool) (text : List Char) : List Char × List Char :=
  (text.takeWhile fun c => !p c, (text.dropWhile fun c => !p c).drop 1)

/-- The number that a spelling means. -/
def ofSpelling (spelling : String) : Scientific :=
  let (negative, body) := Numeral.splitSign spelling.toList
  let (significand, exponent) := cut (fun c => c = 'e' || c = 'E') body
  let (whole, fraction) := cut (· = '.') significand
  let (down, size) := Numeral.splitSign exponent
  let power : Int := digitsValue size
  { negative
    mantissa := digitsValue (whole ++ fraction)
    exponent := (if down then -power else power) - fraction.length }

/-- The power of ten that is just above the number. -/
def magnitude (s : Scientific) : Int := (Nat.toDigits 10 s.mantissa).length + s.exponent

end Scientific

/-! ## Quotients and powers -/

namespace Quotient

/-- The quotient times a power of a base; the power may be negative. -/
def timesPower (q : Quotient) (base : Nat) (power : Int) : Quotient :=
  if 0 ≤ power then ⟨q.num * Nat.pow base power.toNat, q.den⟩
  else ⟨q.num, q.den * Nat.pow base (-power).toNat⟩

/-- One quotient is at most the other. -/
def isAtMost (p q : Quotient) : Bool := p.num * q.den ≤ q.num * p.den

/-- One quotient is less than the other. -/
def isLess (p q : Quotient) : Bool := p.num * q.den < q.num * p.den

/-- The whole part of a quotient. -/
def floor (q : Quotient) : Nat := q.num / q.den

/-- The greatest power of two that a positive quotient reaches. -/
def binaryOrder (q : Quotient) : Int :=
  let near : Int := (q.num.log2 : Int) - q.den.log2
  if isAtMost (timesPower ⟨1, 1⟩ 2 near) q then near else near - 1

end Quotient

/-! ## Binary fractions -/

/-- A binary fraction: `significand` times two to the power `exponent`. -/
structure Binary64 where
  negative : Bool := false
  significand : Nat := 0
  exponent : Int := 0
  deriving DecidableEq, Repr, Inhabited

namespace Binary64

/-- The least exponent. -/
def leastExponent : Int := -1074

/-- Significands of 53 bits begin here. -/
def leastFull : Nat := 4503599627370496

/-- A rounding that carries into a bit more goes on with the next exponent. -/
def normalized (b : Binary64) : Binary64 :=
  if b.significand = 2 * leastFull then
    { b with significand := leastFull, exponent := b.exponent + 1 }
  else b

/-- The nearest fraction to a quotient; none if the quotient is too large for one. -/
def ofQuotient? (negative : Bool) (q : Quotient) : Option Binary64 :=
  if q.num = 0 then some { negative }
  else
    let exponent := max (q.binaryOrder - 52) leastExponent
    let significand := (q.timesPower 2 (-exponent)).nearest
    if (significand.log2 : Int) + exponent < 1024 then
      some (normalized { negative, significand, exponent })
    else none

/-- The nearest fraction to a number in decimal notation; none if the number is too large.  No
fraction reaches ten to the power of 310, and zero is nearest to everything below ten to the power
of -330, so powers beyond these need not be worked out. -/
def ofScientific? (s : Scientific) : Option Binary64 :=
  if s.mantissa = 0 || s.magnitude < -330 then some { negative := s.negative }
  else if 310 < s.magnitude then none
  else ofQuotient? s.negative (Quotient.timesPower ⟨s.mantissa, 1⟩ 10 s.exponent)

/-- The size of a fraction as a quotient. -/
def size (b : Binary64) : Quotient := Quotient.timesPower ⟨b.significand, 1⟩ 2 b.exponent

/-- The whole part as a number of 64 bits; one that does not fit becomes the least. -/
def truncate (b : Binary64) : Int :=
  let whole : Int := b.size.floor
  let signed := if b.negative then -whole else whole
  if wrap signed = signed then signed else -wordHalf

/-! ## Decimal text -/

/-- The least and the greatest quotient that are nearest to a fraction that is not zero.  Below a
power of two the fractions lie closer. -/
def bounds (b : Binary64) : Quotient × Quotient :=
  let above := Quotient.timesPower ⟨2 * b.significand + 1, 1⟩ 2 (b.exponent - 1)
  if b.significand = leastFull && leastExponent < b.exponent then
    (Quotient.timesPower ⟨4 * b.significand - 1, 1⟩ 2 (b.exponent - 2), above)
  else (Quotient.timesPower ⟨2 * b.significand - 1, 1⟩ 2 (b.exponent - 1), above)

/-- The quotient reads back as the fraction; the bounds themselves do so if the significand is
even. -/
def isReadFrom (b : Binary64) (q : Quotient) : Bool :=
  let (least, greatest) := b.bounds
  if b.significand % 2 = 0 then least.isAtMost q && q.isAtMost greatest
  else least.isLess q && q.isLess greatest

/-- The multiple of a power of ten nearest to a fraction, of its two neighbours, that reads back
as it. -/
def roundedAt? (b : Binary64) (power : Int) : Option Nat :=
  let scaled := b.size.timesPower 10 (-power)
  let reads (n : Nat) : Bool := b.isReadFrom (Quotient.timesPower ⟨n, 1⟩ 10 power)
  let below := scaled.floor
  match reads below, reads (below + 1) with
  | true, true => some scaled.nearest
  | true, false => some below
  | false, true => some (below + 1)
  | false, false => none

/-- The power of ten that the first digit of a fraction has. -/
def decimalOrder (b : Binary64) : Int :=
  ((Nat.toDigits 10 (b.size.timesPower 10 400).floor).length : Int) - 401

/-- The fewest digits that read back as a fraction, with the power of ten that they count.
Seventeen digits always do. -/
def digits (b : Binary64) : Nat × Int :=
  let tries := (List.range 17).map fun (n : Nat) => b.decimalOrder - (n : Int)
  (tries.findSome? fun power => (b.roundedAt? power).map fun n => (n, power)).getD (0, 0)

/-- A number of tenths, hundredths, …, written with a point, and without zeros at the end. -/
def pointed (n places : Nat) : String :=
  let digits := Nat.toDigits 10 n
  let padded := List.replicate (places + 1 - digits.length) '0' ++ digits
  let whole := padded.take (padded.length - places)
  let fraction := ((padded.drop (padded.length - places)).reverse.dropWhile (· = '0')).reverse
  String.ofList (if fraction.isEmpty then whole else whole ++ '.' :: fraction)

/-- The fraction in as few digits as read back as it, without a power of ten. -/
def text (b : Binary64) : String :=
  let sign := if b.negative then "-" else ""
  if b.significand = 0 then sign ++ "0"
  else
    let (n, power) := b.digits
    if 0 ≤ power then sign ++ toString (n * Nat.pow 10 power.toNat)
    else sign ++ pointed n (-power).toNat

end Binary64

end Resumable.Text
