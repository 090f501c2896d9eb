import Resumable.Text.Quoted
import Resumable.Text.Span

/-!
# Tokens

A source text as tokens.  At each place the first lexical rule that matches gives the token;
comments and blanks are dropped, and the end of the text is a token of its own.  A text with a
place where no rule matches has no tokens at all.
-/

set_option autoImplicit false

namespace Resumable.Source

open Resumable.Text

/-- The lexical classes. -/
inductive TokenKind where
  | comment
  | string
  | ident
  | integer
  | operator
  | punctuation
  | whitespace
  | eof
  deriving DecidableEq, Repr, Inhabited

/-- A lexeme and the text it covers. -/
structure Token where
  kind : TokenKind
  text : String
  start : Position
  stop : Position
  deriving DecidableEq, Repr, Inhabited

namespace Token

/-- How reports name a token. -/
def display (t : Token) : String :=
  quote (if t.kind = .eof then "<EOF>" else t.text)

end Token

/-- A place where no token starts. -/
structure LexFault where
  message : String
  position : Position
  deriving DecidableEq, Repr, Inhabited

namespace Lexer

/-! ## Character classes -/

/-- A character that starts an identifier. -/
def isIdentStart (c : Char) : Bool := c.isAlpha || c = '_' || c = '$'

/-- A character inside an identifier. -/
def isIdentRest (c : Char) : Bool := c.isAlphanum || c = '_' || c = '$'

/-- A blank. -/
def isBlank (c : Char) : Bool := c = ' ' || c = '\t' || c = '\r' || c = '\n'

/-- An operator of one character. -/
def isOperatorChar (c : Char) : Bool := c ∈ ['-', '+', '*', '/', '%', '<', '>', '=', '!']

/-- The two characters are one operator. -/
def isOperatorPair (c d : Char) : Bool :=
  (c, d) ∈ [('|', '|'), ('&', '&'), ('=', '='), ('!', '='), ('<', '='), ('>', '=')]

/-- A punctuation mark. -/
def isPunctuation (c : Char) : Bool :=
  c ∈ ['\x7b', '\x7d', '(', ')', '[', ']', ';', ':', ',', '#']

/-! ## Lexical rules -/

/-- A lexeme and the text after it. -/
abbrev Split := List Char × List Char

/-- The longest run of characters of a class. -/
def run (p : Char → Bool) (cs : List Char) : Split := (cs.takeWhile p, cs.dropWhile p)

/-- Put characters in front of a lexeme. -/
def prepend (front : List Char) (s : Split) : Split := (front ++ s.1, s.2)

/-- The rest of a string after its opening mark.  A backslash takes the next character with it,
which must not be a line end. -/
def stringTail : List Char → Option Split
  | [] => none
  | '"' :: rest => some (['"'], rest)
  | ['\\'] => none
  | '\\' :: c :: rest => if c = '\n' then none else (stringTail rest).map (prepend ['\\', c])
  | c :: rest => (stringTail rest).map (prepend [c])

/-- From two slashes to the end of the line. -/
def comment? : List Char → Option Split
  | '/' :: '/' :: rest => some (prepend ['/', '/'] (run (· ≠ '\n') rest))
  | _ => none

/-- A text between quotation marks. -/
def string? : List Char → Option Split
  | '"' :: rest => (stringTail rest).map (prepend ['"'])
  | _ => none

/-- One character of a first class and all that follow of a second one. -/
def word? (first next : Char → Bool) : List Char → Option Split
  | c :: rest => if first c then some (prepend [c] (run next rest)) else none
  | [] => none

/-- An operator, of two characters where that is possible. -/
def operator? : List Char → Option Split
  | c :: d :: rest =>
    if isOperatorPair c d then some ([c, d], rest)
    else if isOperatorChar c then some ([c], d :: rest)
    else none
  | [c] => if isOperatorChar c then some ([c], []) else none
  | [] => none

/-- A single character of a class. -/
def single? (p : Char → Bool) : List Char → Option Split
  | c :: rest => if p c then some ([c], rest) else none
  | [] => none

/-- The lexical rules in the order in which they are tried. -/
def rules : List (TokenKind × (List Char → Option Split)) :=
  [(.comment, comment?), (.string, string?), (.ident, word? isIdentStart isIdentRest),
   (.integer, word? Char.isDigit Char.isDigit), (.operator, operator?),
   (.punctuation, single? isPunctuation), (.whitespace, word? isBlank isBlank)]

/-- The lexeme at the front of a text by the first rule that matches. -/
def lexeme? (cs : List Char) : Option (TokenKind × Split) :=
  rules.findSome? fun (kind, rule) => (rule cs).map fun split => (kind, split)

/-! ## A lexeme is never empty -/

/-- A rule splits the text it is given and takes at least one character. -/
def Splits (rule : List Char → Option Split) : Prop :=
  ∀ cs split, rule cs = some split → split.1 ++ split.2 = cs ∧ split.1 ≠ []

theorem run_append (p : Char → Bool) (cs : List Char) : (run p cs).1 ++ (run p cs).2 = cs :=
  List.takeWhile_append_dropWhile

theorem stringTail_append (cs : List Char) (split : Split) (h : stringTail cs = some split) :
    split.1 ++ split.2 = cs := by
  fun_induction stringTail cs generalizing split with
  | case1 => simp at h
  | case2 rest => simp_all; rw [← h]; rfl
  | case3 => simp at h
  | case4 rest => simp at h
  | case5 c rest _ ih =>
    obtain ⟨s, hs, rfl⟩ := Option.map_eq_some_iff.1 h
    simp [prepend, ih s hs]
  | case6 c rest _ _ _ ih =>
    obtain ⟨s, hs, rfl⟩ := Option.map_eq_some_iff.1 h
    simp [prepend, ih s hs]

theorem splits_comment : Splits comment? := by
  intro cs split h
  unfold comment? at h
  split at h
  · rename_i rest
    obtain rfl := Option.some.inj h
    exact ⟨by simp [prepend, run_append], by simp [prepend]⟩
  · simp at h

theorem splits_string : Splits string? := by
  intro cs split h
  unfold string? at h
  split at h
  · obtain ⟨s, hs, rfl⟩ := Option.map_eq_some_iff.1 h
    exact ⟨by simp [prepend, stringTail_append _ _ hs], by simp [prepend]⟩
  · simp at h

theorem splits_word (first next : Char → Bool) : Splits (word? first next) := by
  intro cs split h
  unfold word? at h
  split at h
  · split at h
    · obtain rfl := Option.some.inj h
      exact ⟨by simp [prepend, run_append], by simp [prepend]⟩
    · simp at h
  · simp at h

theorem splits_operator : Splits operator? := by
  intro cs split h
  unfold operator? at h
  split at h
  · split at h
    · obtain rfl := Option.some.inj h
      simp
    · split at h
      · obtain rfl := Option.some.inj h
        simp
      · simp at h
  · split at h
    · obtain rfl := Option.some.inj h
      simp
    · simp at h
  · simp at h

theorem splits_single (p : Char → Bool) : Splits (single? p) := by
  intro cs split h
  unfold single? at h
  split at h
  · split at h
    · obtain rfl := Option.some.inj h
      simp
    · simp at h
  · simp at h

theorem splits_of_mem_rules {kind : TokenKind} {rule : List Char → Option Split}
    (h : (kind, rule) ∈ rules) : Splits rule := by
  simp only [rules, List.mem_cons, Prod.mk.injEq, List.not_mem_nil, or_false] at h
  rcases h with ⟨_, rfl⟩ | ⟨_, rfl⟩ | ⟨_, rfl⟩ | ⟨_, rfl⟩ | ⟨_, rfl⟩ | ⟨_, rfl⟩ | ⟨_, rfl⟩
  · exact splits_comment
  · exact splits_string
  · exact splits_word _ _
  · exact splits_word _ _
  · exact splits_operator
  · exact splits_single _
  · exact splits_word _ _

/-- A lexeme and the text after it make up the text, and the lexeme is not empty. -/
theorem lexeme?_append {cs : List Char} {kind : TokenKind} {split : Split}
    (h : lexeme? cs = some (kind, split)) : split.1 ++ split.2 = cs ∧ split.1 ≠ [] := by
  obtain ⟨⟨kind', rule⟩, hmem, hrule⟩ := List.exists_of_findSome?_eq_some h
  obtain ⟨s, hs, heq⟩ := Option.map_eq_some_iff.1 hrule
  obtain ⟨-, rfl⟩ := Prod.mk.inj heq
  exact splits_of_mem_rules hmem cs s hs

/-- What follows a lexeme is shorter than the text. -/
theorem lexeme?_shorter {cs : List Char} {kind : TokenKind} {split : Split}
    (h : lexeme? cs = some (kind, split)) : split.2.length < cs.length := by
  obtain ⟨happ, hne⟩ := lexeme?_append h
  have := congrArg List.length happ
  have := List.length_pos_iff.2 hne
  simp only [List.length_append] at *
  omega

/-! ## The whole text -/

/-- The position after one more character. -/
def advance (p : Position) (c : Char) : Position :=
  if c = '\n' then { p with offset := p.offset + 1, line := p.line + 1, column := 1 }
  else { p with offset := p.offset + c.utf8Size, column := p.column + 1 }

/-- The fault of a text with no token at its front: it shows the next sixteen characters. -/
def fault (p : Position) (cs : List Char) : LexFault :=
  let shown := String.ofList (cs.take 16) ++ (if 16 < cs.length then "..." else "")
  { message := "lexer: invalid input text " ++ quote shown, position := p }

/-- Every lexeme of a text from a position on, those that are dropped later included. -/
def lexemes (p : Position) (cs : List Char) : Except LexFault (List Token) :=
  match cs with
  | [] => .ok [{ kind := .eof, text := "", start := p, stop := p }]
  | c :: rest =>
    match _h : lexeme? (c :: rest) with
    | some (kind, split) => do
      let stop := split.1.foldl advance p
      let later ← lexemes stop split.2
      return { kind, text := String.ofList split.1, start := p, stop } :: later
    | none => .error (fault p (c :: rest))
termination_by cs.length
decreasing_by exact lexeme?_shorter _h

end Lexer

/-- The tokens of a source text, comments and blanks left out. -/
def tokens (file source : String) : Except LexFault (List Token) := do
  let all ← Lexer.lexemes { file, offset := 0, line := 1, column := 1 } source.toList
  return all.filter fun t => t.kind ≠ .comment ∧ t.kind ≠ .whitespace

end Resumable.Source
