import Resumable.Json.Basic
import Resumable.Text.Quoted

/-!
# Reading JSON

The reader goes through the characters of a text and stops at the first one that cannot stand
where it does.
-/

set_option autoImplicit false

namespace Resumable.Json

open Resumable.Text

/-! ## Errors -/

/-- Where a character can stand, or cannot. -/
inductive Place where
  | value
  | key
  | afterKey
  | afterField
  | afterItem
  | number
  | string
  /-- Inside a word, where it should have gone on with another character. -/
  | word (word : String) (expected : Char)
  /-- Behind the whole value. -/
  | behind
  deriving DecidableEq, Repr, Inhabited

/-- How reports name a place. -/
def Place.text : Place → String
  | value => "looking for beginning of value"
  | key => "looking for beginning of object key string"
  | afterKey => "after object key"
  | afterField => "after object key:value pair"
  | afterItem => "after array element"
  | number => "in numeric literal"
  | string => "in string"
  | .word w expected => s!"in literal {w} (expecting {quoteLetter expected})"
  | behind => "after top-level value"

/-- Why a text is no JSON value. -/
inductive ReadError where
  /-- The text ends inside a value. -/
  | unexpectedEnd
  /-- A character that cannot stand where it does. -/
  | invalid (c : Char) (place : Place)
  /-- Octets from a backslash on that are no escape. -/
  | badEscape (octets : Bytes)
  /-- Too many values inside each other. -/
  | tooDeep
  deriving DecidableEq, Repr, Inhabited

/-- The piece can stand between reversed quotation marks. -/
def isShowable : Piece → Bool
  | .scalar c => isPrintable c && c ≠ ' ' && c ≠ '\x60' && c ≠ '\ufffd'
  | .stray _ => false

/-- A bad escape between reversed quotation marks, or quoted if that does not show it. -/
def showEscape (octets : Bytes) : String :=
  match octets.string? with
  | some s => if octets.pieces.all isShowable then "\x60" ++ s ++ "\x60" else quoteBytes octets
  | none => quoteBytes octets

/-- The wording of an error. -/
def ReadError.message : ReadError → String
  | unexpectedEnd => "unexpected end of JSON input"
  | invalid c place => s!"invalid character {quoteLetter c} {place.text}"
  | badEscape octets => s!"invalid escape sequence {showEscape octets} in string"
  | tooDeep => "exceeded max depth"

/-- Nothing to read on, or a character that is not wanted. -/
def refuse {α : Type} (place : Place) : List Char → Except ReadError α
  | [] => .error .unexpectedEnd
  | c :: _ => .error (.invalid c place)

/-! ## Words and numbers -/

/-- Blanks between tokens. -/
def isBlank (c : Char) : Bool := c = ' ' || c = '\t' || c = '\r' || c = '\n'

/-- Pass over blanks. -/
def skipBlanks (input : List Char) : List Char := input.dropWhile isBlank

/-- Read the rest of a word. -/
def readWord (word : String) : List Char → List Char → Except ReadError (List Char)
  | [], input => .ok input
  | c :: rest, d :: input =>
    if d = c then readWord word rest input else .error (.invalid d (.word word c))
  | _ :: _, [] => .error .unexpectedEnd

/-- Split off digits, at least one. -/
def readDigits (input : List Char) : Except ReadError (List Char × List Char) :=
  let digits := input.takeWhile Char.isDigit
  if digits.isEmpty then refuse .number input else .ok (digits, input.dropWhile Char.isDigit)

/-- The whole part of a number: a zero stands alone. -/
def readWhole : List Char → Except ReadError (List Char × List Char)
  | '0' :: input => .ok (['0'], input)
  | input => readDigits input

/-- The part behind the point, if there is one. -/
def readFraction : List Char → Except ReadError (List Char × List Char)
  | '.' :: input => do
    let (digits, rest) ← readDigits input
    return ('.' :: digits, rest)
  | input => .ok ([], input)

/-- The sign of an exponent, if there is one. -/
def splitExponentSign : List Char → List Char × List Char
  | '+' :: input => (['+'], input)
  | '-' :: input => (['-'], input)
  | input => ([], input)

/-- The exponent, if there is one. -/
def readExponent : List Char → Except ReadError (List Char × List Char)
  | c :: input =>
    if c = 'e' || c = 'E' then do
      let (sign, input) := splitExponentSign input
      let (digits, rest) ← readDigits input
      return (c :: sign ++ digits, rest)
    else .ok ([], c :: input)
  | [] => .ok ([], [])

/-- Read a number behind its sign. -/
def readNumber (sign : List Char) (input : List Char) : Except ReadError (Json × List Char) := do
  let (whole, input) ← readWhole input
  let (fraction, input) ← readFraction input
  let (exponent, input) ← readExponent input
  return (number (String.ofList (sign ++ whole ++ fraction ++ exponent)), input)

/-! ## Texts -/

/-- A unit of a text: a character, or a number of 16 bits that was written as an escape. -/
inductive TextUnit where
  | char (c : Char)
  | escaped (n : Nat)
  deriving DecidableEq, Repr, Inhabited

/-- The number that four hexadecimal digits spell. -/
def hexNumber? (a b c d : Char) : Option Nat := do
  let a ← Bytes.hexValue? a
  let b ← Bytes.hexValue? b
  let c ← Bytes.hexValue? c
  let d ← Bytes.hexValue? d
  return ((a * 16 + b) * 16 + c) * 16 + d

/-- The error of an escape by number whose digits are not four: it shows six octets, and is no
error of its own where the text ends too early. -/
def badNumber (digits : List Char) : ReadError :=
  let octets := bytes (String.ofList ('\\' :: 'u' :: digits.take 4))
  if octets.length < 6 && digits.all fun c => (Bytes.hexValue? c).isSome then .unexpectedEnd
  else .badEscape (octets.take 6)

/-- What the letter of a short escape stands for. -/
def escaped? : Char → Option Char
  | 'b' => some '\x08'
  | 'f' => some '\x0c'
  | 'n' => some '\n'
  | 'r' => some '\r'
  | 't' => some '\t'
  | '\\' => some '\\'
  | '/' => some '/'
  | '"' => some '"'
  | _ => none

/-- Put a unit in front of a text that was read. -/
def prependUnit (u : TextUnit) (r : Except ReadError (List TextUnit × List Char)) :
    Except ReadError (List TextUnit × List Char) := do
  let (units, rest) ← r
  return (u :: units, rest)

/-- Read the rest of a text behind its opening mark. -/
def readUnits : List Char → Except ReadError (List TextUnit × List Char)
  | [] => .error .unexpectedEnd
  | '"' :: rest => .ok ([], rest)
  | ['\\'] => .error .unexpectedEnd
  | '\\' :: 'u' :: a :: b :: c :: d :: rest =>
    match hexNumber? a b c d with
    | some n => prependUnit (.escaped n) (readUnits rest)
    | none => .error (badNumber (a :: b :: c :: d :: rest))
  | '\\' :: 'u' :: digits => .error (badNumber digits)
  | '\\' :: c :: rest =>
    match escaped? c with
    | some e => prependUnit (.char e) (readUnits rest)
    | none => .error (.badEscape ((bytes (String.ofList ['\\', c])).take 2))
  | c :: rest =>
    if c < ' ' then .error (.invalid c .string) else prependUnit (.char c) (readUnits rest)

/-- The character of a number; half of a pair becomes the replacement character. -/
def scalar (n : Nat) : Char := if h : n.isValidChar then Char.ofNatAux n h else '\ufffd'

/-- The character that a high half and a low half make together. -/
def pair? (high low : Nat) : Option Char :=
  if 0xD800 ≤ high ∧ high < 0xDC00 ∧ 0xDC00 ≤ low ∧ low < 0xE000 then
    some (scalar (0x10000 + (high - 0xD800) * 0x400 + (low - 0xDC00)))
  else none

/-- The characters of units; two halves that belong together make one. -/
def joinUnits : List TextUnit → List Char
  | [] => []
  | .char c :: rest => c :: joinUnits rest
  | .escaped high :: .escaped low :: rest =>
    match pair? high low with
    | some c => c :: joinUnits rest
    | none => scalar high :: joinUnits (.escaped low :: rest)
  | .escaped n :: rest => scalar n :: joinUnits rest

/-- Read the rest of a text. -/
def readText (input : List Char) : Except ReadError (String × List Char) := do
  let (units, rest) ← readUnits input
  return (String.ofList (joinUnits units), rest)

/-! ## Values -/

/-- How many arrays and objects there may be inside each other. -/
def maxDepth : Nat := 10000

mutual

/-- Read a value inside `depth` others; `fuel` bounds the number of steps. -/
def readValue (fuel depth : Nat) (input : List Char) : Except ReadError (Json × List Char) :=
  match fuel with
  | 0 => .error .unexpectedEnd
  | fuel + 1 =>
    match skipBlanks input with
    | [] => .error .unexpectedEnd
    | '\x7b' :: rest => if depth < maxDepth then readObject fuel depth rest else .error .tooDeep
    | '[' :: rest => if depth < maxDepth then readArray fuel depth rest else .error .tooDeep
    | '"' :: rest => do
      let (s, rest) ← readText rest
      return (text s, rest)
    | '-' :: rest => readNumber ['-'] rest
    | 't' :: rest => do return (bool true, ← readWord "true" "rue".toList rest)
    | 'f' :: rest => do return (bool false, ← readWord "false" "alse".toList rest)
    | 'n' :: rest => do return (null, ← readWord "null" "ull".toList rest)
    | c :: rest => if c.isDigit then readNumber [] (c :: rest) else .error (.invalid c .value)

/-- Read an array behind its bracket. -/
def readArray (fuel depth : Nat) (input : List Char) : Except ReadError (Json × List Char) :=
  match fuel with
  | 0 => .error .unexpectedEnd
  | fuel + 1 =>
    match skipBlanks input with
    | ']' :: rest => .ok (array [], rest)
    | input => do
      let (items, rest) ← readItems fuel depth input
      return (array items, rest)

/-- Read the items of an array, of which there is at least one. -/
def readItems (fuel depth : Nat) (input : List Char) : Except ReadError (List Json × List Char) :=
  match fuel with
  | 0 => .error .unexpectedEnd
  | fuel + 1 => do
    let (item, rest) ← readValue fuel (depth + 1) input
    match skipBlanks rest with
    | ']' :: rest => return ([item], rest)
    | ',' :: rest =>
      let (items, rest) ← readItems fuel depth rest
      return (item :: items, rest)
    | rest => refuse .afterItem rest

/-- Read an object behind its brace. -/
def readObject (fuel depth : Nat) (input : List Char) : Except ReadError (Json × List Char) :=
  match fuel with
  | 0 => .error .unexpectedEnd
  | fuel + 1 =>
    match skipBlanks input with
    | '\x7d' :: rest => .ok (object [], rest)
    | input => do
      let (fields, rest) ← readFields fuel depth input
      return (object fields, rest)

/-- Read the fields of an object, of which there is at least one. -/
def readFields (fuel depth : Nat) (input : List Char) :
    Except ReadError (List (String × Json) × List Char) :=
  match fuel with
  | 0 => .error .unexpectedEnd
  | fuel + 1 => do
    let (key, rest) ← match skipBlanks input with
      | '"' :: rest => readText rest
      | rest => refuse .key rest
    match skipBlanks rest with
    | ':' :: rest =>
      let (value, rest) ← readValue fuel (depth + 1) rest
      match skipBlanks rest with
      | '\x7d' :: rest => return ([(key, value)], rest)
      | ',' :: rest =>
        let (fields, rest) ← readFields fuel depth rest
        return ((key, value) :: fields, rest)
      | rest => refuse .afterField rest
    | rest => refuse .afterKey rest

end

/-- Read a text that is one value.  At most three steps inside each other take one character, so
three times the length is enough. -/
def read (source : String) : Except ReadError Json := do
  let input := source.toList
  let (value, rest) ← readValue (3 * input.length + 3) 0 input
  match skipBlanks rest with
  | [] => return value
  | c :: _ => throw (.invalid c .behind)

end Resumable.Json
