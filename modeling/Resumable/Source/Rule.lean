import Resumable.Source.Token

/-!
# Grammar rules

Rules that read tokens.  A rule accepts, passes (it does not apply here) or rejects (it applies
and then fails).  Where a rule has alternatives, or is optional or repeated, a rejection counts
as passing over unless it lies more than `lookahead` tokens ahead; then it is final.  Each rule
carries the text by which reports name it.
-/

set_option autoImplicit false

namespace Resumable.Source

open Resumable.Text

/-- How many tokens a rejected attempt may have read and still be given up for another one. -/
def lookahead : Nat := 4

/-- A place where the grammar is not followed. -/
structure GrammarFault where
  message : String
  position : Position
  deriving DecidableEq, Repr, Inhabited

/-- What a rule makes of the tokens before it. -/
inductive Outcome (α : Type) where
  | accept (value : α) (rest : List Token)
  | pass
  | reject (fault : GrammarFault) (rest : List Token)
  deriving Inhabited

namespace Outcome

variable {α β : Type}

/-- Change the value that was read. -/
def map (f : α → β) : Outcome α → Outcome β
  | accept a rest => accept (f a) rest
  | pass => pass
  | reject fault rest => reject fault rest

end Outcome

/-- A rule for values of a type, and the text that names it. -/
structure Rule (α : Type) where
  text : String
  read : List Token → Outcome α

/-- Rules one after the other.  `texts` names the rules, and `read` passes only if the first
one does. -/
structure Sequence (α : Type) where
  texts : List String
  read : List Token → Outcome α

variable {α β : Type}

/-- How far `later` is behind `earlier`, in tokens. -/
def readBetween (earlier later : List Token) : Nat := earlier.length - later.length

/-- The rejected attempt went too far to be given up. -/
def isFinal (before after : List Token) : Bool := lookahead < readBetween before after

/-- The fault at the next token; `expected` names what should stand there. -/
def unexpected (tokens : List Token) (expected : List String) : GrammarFault :=
  let next := tokens.headD default
  let hint := if expected.isEmpty then "" else " (expected " ++ " ".intercalate expected ++ ")"
  { message := "unexpected token " ++ next.display ++ hint, position := next.start }

/-! ## Single tokens -/

/-- A token with the given text. -/
def literal (text : String) : Rule Token where
  text := quote text
  read
    | t :: rest => if t.text = text ∧ t.kind ≠ .eof then .accept t rest else .pass
    | [] => .pass

/-- A token of a lexical class. -/
def tokenOf (kind : TokenKind) (name : String) : Rule Token where
  text := "<" ++ name ++ ">"
  read
    | t :: rest => if t.kind = kind then .accept t rest else .pass
    | [] => .pass

/-- An identifier; every keyword is one, too. -/
def ident : Rule Token := tokenOf .ident "ident"

/-! ## Sequences -/

namespace Sequence

/-- The sequence of one rule. -/
def one (r : Rule α) : Sequence α where
  texts := [r.text]
  read := r.read

/-- Read as what has to follow: passing over is a fault. -/
def require (s : Sequence α) (tokens : List Token) : Outcome α :=
  match s.read tokens with
  | .pass => .reject (unexpected tokens s.texts) tokens
  | outcome => outcome

/-- A rule in front of a sequence. -/
def cons (r : Rule α) (s : Sequence β) : Sequence (α × β) where
  texts := r.text :: s.texts
  read tokens :=
    match r.read tokens with
    | .accept a rest => (s.require rest).map fun b => (a, b)
    | .pass => .pass
    | .reject fault rest => .reject fault rest

/-- The text of a sequence inside another rule. -/
def groupText (texts : List String) : String :=
  match texts with
  | [text] => text
  | _ => "(" ++ " ".intercalate texts ++ ")"

/-- A sequence as a rule. -/
def toRule (s : Sequence α) : Rule α := ⟨groupText s.texts, s.read⟩

end Sequence

/-! ## Other combinations -/

namespace Rule

/-- Change the value that a rule reads. -/
def map (f : α → β) (r : Rule α) : Rule β := ⟨r.text, fun tokens => (r.read tokens).map f⟩

/-- A rule under a name of its own. -/
def named (name : String) (r : Rule α) : Rule α := { r with text := name }

/-- Read with the tokens from the first one on, and the end of the last one read. -/
def located (r : Rule α) : Rule (Span × α) where
  text := r.text
  read tokens :=
    match r.read tokens with
    | .accept a rest =>
      let start := (tokens.headD default).start
      let last := (tokens[readBetween tokens rest - 1]?).getD default
      .accept (⟨start, last.stop⟩, a) rest
    | .pass => .pass
    | .reject fault rest => .reject fault rest

/-- Try alternatives at one place.  `held` is the rejection that has come furthest so far. -/
def firstOf (tokens : List Token) (held : Option (GrammarFault × List Token)) :
    List (Rule α) → Outcome α
  | [] =>
    match held with
    | some (fault, _) => .reject fault tokens
    | none => .pass
  | r :: others =>
    match r.read tokens with
    | .accept a rest => .accept a rest
    | .pass => firstOf tokens held others
    | .reject fault rest =>
      if isFinal tokens rest then .reject fault rest
      else
        let further : Bool := match held with
          | some (_, before) => rest.length ≤ before.length
          | none => true
        firstOf tokens (if further then some (fault, rest) else held) others

/-- The first alternative that accepts. -/
def choice (rules : List (Rule α)) : Rule α where
  text := "(" ++ " | ".intercalate (rules.map Rule.text) ++ ")"
  read tokens := firstOf tokens none rules

/-- A part that may be left out. -/
def optional (r : Rule α) : Rule (Option α) where
  text := r.text ++ "?"
  read tokens :=
    match r.read tokens with
    | .accept a rest => .accept (some a) rest
    | .pass => .accept none tokens
    | .reject fault rest => if isFinal tokens rest then .reject fault rest else .accept none tokens

/-- Read a part as often as it accepts, at most `rounds` times. -/
def repeatRead (r : Rule α) : Nat → List Token → Outcome (List α)
  | 0, tokens => .accept [] tokens
  | rounds + 1, tokens =>
    match r.read tokens with
    | .accept a rest => (repeatRead r rounds rest).map (a :: ·)
    | .pass => .accept [] tokens
    | .reject fault rest => if isFinal tokens rest then .reject fault rest else .accept [] tokens

/-- A part any number of times.  Each time takes a token, so as many rounds as tokens do. -/
def many (r : Rule α) : Rule (List α) where
  text := r.text ++ "*"
  read tokens := repeatRead r tokens.length tokens

end Rule

/-- Values with commas between them. -/
def commaSeparated (r : Rule α) : Rule (List α) :=
  (Sequence.cons r (.one (Rule.many (Sequence.cons (literal ",") (.one r)).toRule))).toRule.map
    fun (first, rest) => first :: rest.map Prod.snd

/-- Possibly no values with commas between them. -/
def commaList (r : Rule α) : Rule (List α) :=
  (commaSeparated r).optional.map fun values => values.getD []

end Resumable.Source
