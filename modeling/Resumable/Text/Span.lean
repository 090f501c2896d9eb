import Resumable.Text.Word

/-!
# Places in a source text

A position names a file, a line and a column, both counted from one, and the offset in octets
from the start of the text.  A span is the half-open range between two positions.
-/

set_option autoImplicit false

namespace Resumable.Text

/-- A place in a source text.  The all-zero position names no place. -/
structure Position where
  file : String := ""
  offset : Int := 0
  line : Int := 0
  column : Int := 0
  deriving DecidableEq, Repr, Inhabited

/-- A half-open range of a source text. -/
structure Span where
  start : Position := {}
  stop : Position := {}
  deriving DecidableEq, Repr, Inhabited

namespace Position

/-- The position one octet and one column further on the same line. -/
def next (p : Position) : Position := { p with offset := p.offset + 1, column := p.column + 1 }

/-- The span of the one-column text that starts here. -/
def single (p : Position) : Span := ⟨p, p.next⟩

end Position

namespace Span

/-- The number of octets between the two ends, as a word. -/
def length (s : Span) : Int := wrap (s.stop.offset - s.start.offset)

/-- The span names no place at all. -/
def isZero (s : Span) : Bool := s = {}

/-- The offset lies in the span. -/
def contains (s : Span) (offset : Int) : Bool :=
  s.start.offset ≤ offset && offset < s.stop.offset

/-- File, start and end; the end line is left out when it is the start line. -/
def render (s : Span) : String :=
  let start := s!"{s.start.file}:{s.start.line}:{s.start.column}"
  if s.start.line = s.stop.line then s!"{start}-{s.stop.column}"
  else s!"{start}-{s.stop.line}:{s.stop.column}"

/-- The rendered span with its start offset and length; `none` for the span of no place. -/
def locator? (s : Span) : Option String :=
  if s.isZero then none else some s!"{s.render}@{s.start.offset}+{s.length}"

end Span

end Resumable.Text
