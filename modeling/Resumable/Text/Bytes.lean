/-!
# Texts of octets

Texts that a running program handles are sequences of octets; nothing makes them valid UTF-8.
This module fixes the octet text, how it splits into characters and stray octets, and its
hexadecimal spelling.
-/

set_option autoImplicit false

namespace Resumable.Text

/-- A text of octets, valid UTF-8 or not. -/
abbrev Bytes := List UInt8

/-- The octets of a character text. -/
def bytes (s : String) : Bytes := s.toUTF8.data.toList

/-- What stands at one place of an octet text: a character, or an octet that starts none. -/
inductive Piece where
  | scalar (c : Char)
  | stray (b : UInt8)
  deriving DecidableEq, Repr, Inhabited

namespace Bytes

/-! ## Characters in octets -/

/-- The octet continues a character, and lies in the given range. -/
def continues (low high b : UInt8) : Bool := low ≤ b && b ≤ high

/-- The six bits that a continuation octet carries. -/
def payload (b : UInt8) : Nat := b.toNat % 64

/-- The character at the front of the octets and the number of octets it takes.

The shortest form of every code point is accepted, and neither surrogates nor code points
above `0x10FFFF` are. -/
def front? : Bytes → Option (Char × Nat)
  | b₀ :: rest =>
    if b₀ < 0x80 then some (Char.ofNat b₀.toNat, 1)
    else if 0xC2 ≤ b₀ && b₀ ≤ 0xDF then
      match rest with
      | b₁ :: _ =>
        if continues 0x80 0xBF b₁ then
          some (Char.ofNat (b₀.toNat % 32 * 64 + payload b₁), 2)
        else none
      | _ => none
    else if 0xE0 ≤ b₀ && b₀ ≤ 0xEF then
      match rest with
      | b₁ :: b₂ :: _ =>
        let low := if b₀ = 0xE0 then 0xA0 else 0x80
        let high := if b₀ = 0xED then 0x9F else 0xBF
        if continues low high b₁ && continues 0x80 0xBF b₂ then
          some (Char.ofNat (b₀.toNat % 16 * 4096 + payload b₁ * 64 + payload b₂), 3)
        else none
      | _ => none
    else if 0xF0 ≤ b₀ && b₀ ≤ 0xF4 then
      match rest with
      | b₁ :: b₂ :: b₃ :: _ =>
        let low := if b₀ = 0xF0 then 0x90 else 0x80
        let high := if b₀ = 0xF4 then 0x8F else 0xBF
        if continues low high b₁ && continues 0x80 0xBF b₂ && continues 0x80 0xBF b₃ then
          some (Char.ofNat
            (b₀.toNat % 8 * 262144 + payload b₁ * 4096 + payload b₂ * 64 + payload b₃), 4)
        else none
      | _ => none
    else none
  | [] => none

/-- Split octets into pieces, after passing over the first `skip` octets, which belong to a
character already read. -/
def piecesAfter : Nat → Bytes → List Piece
  | _, [] => []
  | skip + 1, _ :: rest => piecesAfter skip rest
  | 0, b :: rest =>
    match front? (b :: rest) with
    | some (c, size) => .scalar c :: piecesAfter (size - 1) rest
    | none => .stray b :: piecesAfter 0 rest

/-- The characters and stray octets of a text, in order. -/
def pieces (text : Bytes) : List Piece := piecesAfter 0 text

/-- The characters of a text, if it holds no stray octet. -/
def characters? (text : Bytes) : Option (List Char) :=
  text.pieces.mapM fun
    | .scalar c => some c
    | .stray _ => none

/-- The character text that the octets spell, if they are valid UTF-8. -/
def string? (text : Bytes) : Option String := text.characters?.map String.ofList

/-! ## Hexadecimal -/

/-- One lower case hexadecimal digit. -/
def hexDigit (n : Nat) : Char :=
  if n < 10 then Char.ofNat (48 + n) else Char.ofNat (87 + n)

/-- The value of a hexadecimal digit of either case. -/
def hexValue? (c : Char) : Option Nat :=
  if '0' ≤ c ∧ c ≤ '9' then some (c.toNat - 48)
  else if 'a' ≤ c ∧ c ≤ 'f' then some (c.toNat - 87)
  else if 'A' ≤ c ∧ c ≤ 'F' then some (c.toNat - 55)
  else none

/-- Two hexadecimal digits for each octet. -/
def hex (text : Bytes) : String :=
  String.ofList (text.flatMap fun b => [hexDigit (b.toNat / 16), hexDigit (b.toNat % 16)])

/-- Read octets from pairs of hexadecimal digits. -/
def ofHex? : List Char → Option Bytes
  | [] => some []
  | [_] => none
  | high :: low :: rest => do
    let high ← hexValue? high
    let low ← hexValue? low
    let rest ← ofHex? rest
    return UInt8.ofNat (16 * high + low) :: rest

end Bytes

end Resumable.Text
