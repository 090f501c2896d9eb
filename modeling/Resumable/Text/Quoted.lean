import Resumable.Text.Bytes
import Resumable.Text.Printable

/-!
# Quoted texts

A quoted text shows an octet text on one line: printable characters stand for themselves, the
usual control characters have a letter escape, and everything else is written by its number.
`quote` writes the form and `unquote?` reads a superset of it.
-/

set_option autoImplicit false

namespace Resumable.Text

/-! ## Writing -/

/-- A number in lower case hexadecimal digits, padded with zeros to the given width. -/
def hexPadded (width n : Nat) : List Char :=
  (List.range width).reverse.map fun i => Bytes.hexDigit (n / Nat.pow 16 i % 16)

/-- The letter of a character's short escape. -/
def shortEscape? : Char → Option Char
  | '\x07' => some 'a'
  | '\x08' => some 'b'
  | '\x0c' => some 'f'
  | '\n' => some 'n'
  | '\r' => some 'r'
  | '\t' => some 't'
  | '\x0b' => some 'v'
  | '\\' => some '\\'
  | '"' => some '"'
  | _ => none

/-- One character inside quotes. -/
def quoteChar (c : Char) : List Char :=
  match shortEscape? c with
  | some letter => ['\\', letter]
  | none =>
    if isPrintable c then [c]
    else if c.toNat < 0x80 then '\\' :: 'x' :: hexPadded 2 c.toNat
    else if c.toNat < 0x10000 then '\\' :: 'u' :: hexPadded 4 c.toNat
    else '\\' :: 'U' :: hexPadded 8 c.toNat

/-- One piece of an octet text inside quotes. -/
def quotePiece : Piece → List Char
  | .scalar c => quoteChar c
  | .stray b => '\\' :: 'x' :: hexPadded 2 b.toNat

/-- An octet text between quotation marks. -/
def quoteBytes (text : Bytes) : String :=
  String.ofList ('"' :: text.pieces.flatMap quotePiece ++ ['"'])

/-- A character text between quotation marks. -/
def quote (text : String) : String :=
  String.ofList ('"' :: text.toList.flatMap quoteChar ++ ['"'])

/-- A character between single quotation marks, where double ones need no escape. -/
def quoteLetter (c : Char) : String :=
  let inner := if c = '\x27' then ['\\', c] else if c = '"' then [c] else quoteChar c
  String.ofList ('\x27' :: inner ++ ['\x27'])

/-! ## Reading -/

/-- Read exactly `count` digits in the given base. -/
def digits? (base : Nat) : Nat → List Char → Option (Nat × List Char)
  | 0, rest => some (0, rest)
  | _ + 1, [] => none
  | count + 1, c :: rest => do
    let d ← Bytes.hexValue? c
    if d < base then
      let (n, rest) ← digits? base count rest
      return (d * Nat.pow base count + n, rest)
    else none

/-- The octets of a code point, which must be no surrogate and in range. -/
def codePoint? (n : Nat) : Option Bytes :=
  if n < 0xD800 ∨ (0xDFFF < n ∧ n < 0x110000) then some (bytes (Char.ofNat n).toString)
  else none

/-- The character that a short escape letter stands for. -/
def ofShortEscape? : Char → Option Char
  | 'a' => some '\x07'
  | 'b' => some '\x08'
  | 'f' => some '\x0c'
  | 'n' => some '\n'
  | 'r' => some '\r'
  | 't' => some '\t'
  | 'v' => some '\x0b'
  | '\\' => some '\\'
  | '"' => some '"'
  | _ => none

/-- Read the escape after a backslash: the octets it stands for and the text after it. -/
def escape? : List Char → Option (Bytes × List Char)
  | [] => none
  | 'x' :: rest => do
    let (n, rest) ← digits? 16 2 rest
    return ([UInt8.ofNat n], rest)
  | 'u' :: rest => do
    let (n, rest) ← digits? 16 4 rest
    return (← codePoint? n, rest)
  | 'U' :: rest => do
    let (n, rest) ← digits? 16 8 rest
    return (← codePoint? n, rest)
  | c :: rest =>
    if '0' ≤ c ∧ c ≤ '7' then do
      let (n, rest) ← digits? 8 3 (c :: rest)
      if n < 256 then return ([UInt8.ofNat n], rest) else none
    else do
      let octets := bytes (← ofShortEscape? c).toString
      return (octets, rest)

/-- Read the inside of a quoted text up to the closing mark, which must end the text.  Each
round takes at least one character, so as many rounds as characters suffice. -/
def unquoteInside : Nat → List Char → Option Bytes
  | 0, _ => none
  | _ + 1, [] => none
  | _ + 1, ['"'] => some []
  | _ + 1, '"' :: _ => none
  | _ + 1, '\n' :: _ => none
  | rounds + 1, '\\' :: rest => do
    let (octets, rest) ← escape? rest
    return octets ++ (← unquoteInside rounds rest)
  | rounds + 1, c :: rest => do
    return bytes c.toString ++ (← unquoteInside rounds rest)

/-- The octets that a quoted text stands for; `none` if the text is no quoted text. -/
def unquote? (text : String) : Option Bytes :=
  match text.toList with
  | '"' :: inside => unquoteInside inside.length inside
  | _ => none

end Resumable.Text
