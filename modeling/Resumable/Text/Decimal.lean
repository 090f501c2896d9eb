/-!
# Decimal texts of binary fractions

A quotient is first rounded to the 53 significant bits of a binary fraction, and that fraction
is then written with a fixed number of decimal places.  Both roundings go to the nearest value,
and from halfway to the even one.
-/

set_option autoImplicit false

namespace Resumable.Text

/-- A non-negative quotient of whole numbers. -/
structure Quotient where
  num : Nat
  den : Nat := 1
  deriving DecidableEq, Repr, Inhabited

namespace Quotient

/-- The sum of two quotients. -/
def add (p q : Quotient) : Quotient := ⟨p.num * q.den + q.num * p.den, p.den * q.den⟩

/-- The whole number nearest to the quotient; halfway, the even one. -/
def nearest (q : Quotient) : Nat :=
  let whole := q.num / q.den
  let twice := 2 * (q.num % q.den)
  if q.den < twice then whole + 1
  else if twice = q.den then whole + whole % 2
  else whole

/-- The power of two by which the quotient has to be scaled up to have 53 bits before the
point, as a pair of a factor for the numerator and one for the denominator. -/
def scale (q : Quotient) : Nat × Nat :=
  let up := 53 + q.den.log2
  let whole := q.num * Nat.pow 2 up / q.den
  let excess := (whole.log2 + 1) - 53
  (Nat.pow 2 up, Nat.pow 2 excess)

/-- The nearest binary fraction of 53 significant bits. -/
def toBinary (q : Quotient) : Quotient :=
  if q.num = 0 then q
  else
    let (up, down) := q.scale
    ⟨nearest ⟨q.num * up, q.den * down⟩ * down, up⟩

/-- Write a number with the given count of decimal places. -/
def fixed (places : Nat) (q : Quotient) : String :=
  let units := nearest ⟨q.num * Nat.pow 10 places, q.den⟩
  let digits := (Nat.toDigits 10 units)
  let padded := List.replicate (places + 1 - digits.length) '0' ++ digits
  let cut := padded.length - places
  String.ofList (padded.take cut ++ '.' :: padded.drop cut)

end Quotient

/-! ## Durations -/

/-- A duration as whole units and the rest, the rest divided and added in binary. -/
def wholeAndRest (nanoseconds unit : Nat) : Quotient :=
  (Quotient.add ⟨nanoseconds / unit, 1⟩ (Quotient.toBinary ⟨nanoseconds % unit, unit⟩)).toBinary

/-- A duration in the largest unit that it fills: minutes and seconds with two places,
milliseconds and microseconds with one, and nanoseconds (also everything negative) whole. -/
def duration (nanoseconds : Int) : String :=
  let n := nanoseconds.toNat
  if nanoseconds ≥ 60000000000 then (wholeAndRest n 60000000000).fixed 2 ++ "min"
  else if nanoseconds ≥ 1000000000 then (wholeAndRest n 1000000000).fixed 2 ++ "s"
  else if nanoseconds ≥ 1000000 then (Quotient.toBinary ⟨n, 1000000⟩).fixed 1 ++ "ms"
  else if nanoseconds ≥ 1000 then (Quotient.toBinary ⟨n, 1000⟩).fixed 1 ++ "μs"
  else s!"{nanoseconds}ns"

end Resumable.Text
