import Resumable.Text.Word

/-!
# Numerals

Reading whole numbers and truth values from text.  A whole number has to fit in 64 bits; the
digits are read from the left, so a numeral that outgrows 64 bits is out of range even when a
character further right is no digit.
-/

set_option autoImplicit false

namespace Resumable.Text

/-- Why a text is no numeral. -/
inductive NumeralError where
  | invalidSyntax
  | outOfRange
  deriving DecidableEq, Repr, Inhabited

/-- The wording of a numeral error. -/
def NumeralError.message : NumeralError → String
  | .invalidSyntax => "invalid syntax"
  | .outOfRange => "value out of range"

namespace Numeral

/-- The value of a digit or letter, letters counting on from ten. -/
def digit? (c : Char) : Option Nat :=
  if '0' ≤ c ∧ c ≤ '9' then some (c.toNat - 48)
  else if 'a' ≤ c ∧ c ≤ 'z' then some (c.toNat - 87)
  else if 'A' ≤ c ∧ c ≤ 'Z' then some (c.toNat - 55)
  else none

/-- Read digits onto `value`, stopping at the first one that is no digit of the base or that
takes the value out of 64 bits. -/
def magnitudeFrom (base : Nat) : Nat → List Char → Except NumeralError Nat
  | value, [] => .ok value
  | value, c :: rest =>
    match digit? c with
    | some d =>
      if d < base then
        if value * base + d < wordCount then magnitudeFrom base (value * base + d) rest
        else .error .outOfRange
      else .error .invalidSyntax
    | none => .error .invalidSyntax

/-- A magnitude needs at least one digit. -/
def magnitude (base : Nat) (digits : List Char) : Except NumeralError Nat :=
  if digits.isEmpty then .error .invalidSyntax else magnitudeFrom base 0 digits

/-- Put the sign on a magnitude; the result has to fit in 64 bits. -/
def signed (negative : Bool) (n : Nat) : Except NumeralError Int :=
  if negative then
    if n ≤ wordHalf then .ok (-(n : Int)) else .error .outOfRange
  else if n < wordHalf then .ok n
  else .error .outOfRange

/-- Split off a leading sign: whether it is a minus, and what follows it. -/
def splitSign : List Char → Bool × List Char
  | '+' :: rest => (false, rest)
  | '-' :: rest => (true, rest)
  | text => (false, text)

/-- Read a decimal numeral with an optional sign. -/
def decimal (text : String) : Except NumeralError Int := do
  let (negative, digits) := splitSign text.toList
  signed negative (← magnitude 10 digits)

/-! ## Numerals with a base mark -/

/-- The base that a leading zero or base mark names, and the digits after the mark. -/
def splitBase : List Char → Nat × Bool × List Char
  | '0' :: c :: rest =>
    if c = 'x' ∨ c = 'X' then (16, true, rest)
    else if c = 'o' ∨ c = 'O' then (8, true, rest)
    else if c = 'b' ∨ c = 'B' then (2, true, rest)
    else (8, true, c :: rest)
  | text => (10, false, text)

/-- Underscores stand only between digits or after a base mark: `digitBefore` tells whether one
may stand here. -/
def underscoresFit : Bool → List Char → Bool
  | _, [] => true
  | digitBefore, ['_'] => digitBefore && false
  | digitBefore, '_' :: c :: rest => digitBefore && c ≠ '_' && underscoresFit true rest
  | _, _ :: rest => underscoresFit true rest

/-- Read a numeral with an optional sign, an optional base mark and underscores between
digits. -/
def marked (text : String) : Except NumeralError Int := do
  let (negative, body) := splitSign text.toList
  let (base, isMarked, digits) := splitBase body
  if body.isEmpty then .error .invalidSyntax
  else
    let plain := digits.filter (· ≠ '_')
    let value ← if isMarked && digits.isEmpty then .error .invalidSyntax
      else magnitude base plain
    if underscoresFit isMarked digits then signed negative value
    else .error .invalidSyntax

/-! ## Truth values -/

/-- The accepted spellings of a truth value. -/
def truth? (text : String) : Option Bool :=
  if text ∈ ["1", "t", "T", "TRUE", "true", "True"] then some true
  else if text ∈ ["0", "f", "F", "FALSE", "false", "False"] then some false
  else none

end Numeral

end Resumable.Text
