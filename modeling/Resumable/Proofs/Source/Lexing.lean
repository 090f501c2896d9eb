import Resumable.Proofs.Text.Numeral
import Resumable.Proofs.Text.Quoted
import Resumable.Source.Program
import Resumable.Tree.Printer

/-!
# Printed expressions as lexemes

An expression that can be read back is printed as a row of lexemes (`wordsExpr`), and the lexical
rules cut the printed text into these again (`cuts_wordsExpr`).
-/

set_option autoImplicit false

namespace Resumable.Source

open Resumable.Text Resumable.Symbol Resumable.Tree

/-! ## Expressions that can be read back -/

/-- The text is an identifier. -/
def isIdent (s : String) : Bool :=
  match s.toList with
  | c :: cs => Lexer.isIdentStart c && cs.all Lexer.isIdentRest
  | [] => false

/-- The text is an identifier that can name a variable in an expression. -/
def isName (s : String) : Bool := isIdent s && s ∉ ["true", "false", "null"]

/-- The innermost local of a name. -/
def Visible.local? (v : Visible) (name : String) : Option Local :=
  v.scopes.findSome? fun scope => scope.find? fun l => l.name == name

/-- The last parameter of a name. -/
def Visible.param? (v : Visible) (name : String) : Option Param :=
  v.params.reverse.find? fun q => q.name == name

/-- The host method of a name: one that is declared, else one that gives an object. -/
def hostOf (hosts : List Method) (name : String) : Method :=
  (hosts.find? fun h => h.name == name).getD (.host name (some .object))

/-- The constant can be written in a program, and has this type there. -/
def typedConstant (v : Constant) (type : Option Ty) : Bool :=
  match v with
  | .null => type = some .object
  | .int n => 0 ≤ n && n < wordHalf && type = some .int
  | .bool _ => type = some .bool
  | .string _ => type = some .string

mutual

/-- The expression can be written where these names are visible: it refers to variables that are not
shadowed, calls host methods, and puts a unary operator only before what has none. -/
def readableExpr (v : Visible) (hosts : List Method) : Expr → Bool
  | .literal _ value type => typedConstant value type
  | .localRef _ l => isName l.name && v.local? l.name = some l
  | .parameterRef _ q => isName q.name && v.local? q.name = none && v.param? q.name = some q
  | .binary _ op left right =>
    op ∈ BinaryOp.all && readableExpr v hosts left && readableExpr v hosts right
  | .unary _ op operand =>
    op ∈ [.neg, .not] && !(operand matches .unary ..) && readableExpr v hosts operand
  | .call _ r m args =>
    r.isAbsent && isIdent m.name && m = hostOf hosts m.name && readableExprs v hosts args
  | .absent | .fieldRef .. | .this .. | .assignment .. | .foreign .. => false

/-- The expressions can be written. -/
def readableExprs (v : Visible) (hosts : List Method) : List Expr → Bool
  | [] => true
  | e :: rest => readableExpr v hosts e && readableExprs v hosts rest

end

/-! ## Words -/

/-- A lexeme without its place: its class and its text. -/
abbrev Word := TokenKind × String

/-- The text of words in a row. -/
def spelling (ws : List Word) : List Char := ws.flatMap fun w => w.2.toList

theorem spelling_append (a b : List Word) : spelling (a ++ b) = spelling a ++ spelling b :=
  List.flatMap_append

theorem spelling_cons (w : Word) (ws : List Word) :
    spelling (w :: ws) = w.2.toList ++ spelling ws := rfl

/-- The word stays when comments and blanks are dropped. -/
def isSolid (w : Word) : Bool := w.1 ≠ .comment ∧ w.1 ≠ .whitespace

/-- A blank. -/
def blank : Word := (.whitespace, " ")

/-- A punctuation mark. -/
def mark (text : String) : Word := (.punctuation, text)

/-- The word of a constant. -/
def wordConstant : Constant → Word
  | .null => (.ident, "null")
  | .int n => (.integer, toString n)
  | .bool b => (.ident, if b then "true" else "false")
  | .string text => (.string, quoteBytes text)

mutual

/-- The words of a printed expression. -/
def wordsExpr : Expr → List Word
  | .literal _ v _ => [wordConstant v]
  | .localRef _ l => [(.ident, l.name)]
  | .parameterRef _ p => [(.ident, p.name)]
  | .binary _ op left right =>
    mark "(" :: (wordsExpr left ++ blank :: (.operator, op.symbol) :: blank ::
      (wordsExpr right ++ [mark ")"]))
  | .unary _ op operand => (.operator, op.symbol) :: wordsExpr operand
  | .call _ _ m args => (.ident, m.name) :: mark "(" :: (wordsExprs args ++ [mark ")"])
  | .absent | .fieldRef .. | .this .. | .assignment .. | .foreign .. => []

/-- The words of printed expressions with commas between them. -/
def wordsExprs : List Expr → List Word
  | [] => []
  | [e] => wordsExpr e
  | e :: rest => wordsExpr e ++ mark "," :: blank :: wordsExprs rest

end

variable {v : Visible} {hosts : List Method}

mutual

/-- The words are what is printed. -/
theorem spelling_wordsExpr : ∀ {e : Expr}, readableExpr v hosts e = true →
    spelling (wordsExpr e) = e.render.toList
  | .literal _ value _, _ => by
    cases value <;> simp [wordsExpr, spelling, wordConstant, Expr.render, Constant.render]
  | .localRef .., _ | .parameterRef .., _ => by simp [wordsExpr, spelling, Expr.render]
  | .binary _ op left right, h => by
    simp only [readableExpr, Bool.and_eq_true] at h
    simp only [wordsExpr, Expr.render, spelling_cons, spelling_append, spelling_wordsExpr h.1.2,
      spelling_wordsExpr h.2, String.toList_append]
    simp [mark, blank, spelling]
  | .unary _ op operand, h => by
    simp only [readableExpr, Bool.and_eq_true] at h
    simp only [wordsExpr, Expr.render, spelling_cons, spelling_wordsExpr h.2, String.toList_append]
  | .call _ r m args, h => by
    simp only [readableExpr, Bool.and_eq_true] at h
    cases r with
    | absent =>
      simp only [wordsExpr, Expr.render, spelling_cons, spelling_append, spelling_wordsExprs h.2,
        String.toList_append]
      simp [spelling, mark]
    | _ => cases h.1.1.1
  | .absent, h | .fieldRef .., h | .this .., h | .assignment .., h | .foreign .., h => nomatch h

theorem spelling_wordsExprs : ∀ {es : List Expr}, readableExprs v hosts es = true →
    spelling (wordsExprs es) = (Expr.renderAll es).toList
  | [], _ => rfl
  | [e], h => by
    simp only [readableExprs, Bool.and_eq_true] at h
    simp only [wordsExprs, Expr.renderAll, spelling_wordsExpr h.1]
  | e :: e' :: rest, h => by
    rw [readableExprs, Bool.and_eq_true] at h
    simp only [wordsExprs, Expr.renderAll, spelling_cons, spelling_append, spelling_wordsExpr h.1,
      spelling_wordsExprs h.2, String.toList_append]
    simp [mark, blank]

end

/-! ## Cutting -/

namespace Lexer

/-- The rules cut the words off from what stands before `rest`, one after the other. -/
def Cuts : List Word → List Char → Prop
  | [], _ => True
  | w :: ws, rest =>
    lexeme? (w.2.toList ++ (spelling ws ++ rest)) = some (w.1, w.2.toList, spelling ws ++ rest) ∧
      Cuts ws rest

theorem Cuts.append : ∀ {ws vs : List Word} {rest : List Char}, Cuts ws (spelling vs ++ rest) →
    Cuts vs rest → Cuts (ws ++ vs) rest
  | [], _, _, _, hv => hv
  | w :: ws, vs, rest, hw, hv => by
    rw [Cuts] at hw
    rw [List.cons_append, Cuts, spelling_append, List.append_assoc]
    exact ⟨hw.1, hw.2.append hv⟩

/-- The first lexeme of a text, and those behind it. -/
theorem lexemes_of_lexeme? {p : Position} {cs : List Char} {kind : TokenKind} {split : Split}
    (h : lexeme? cs = some (kind, split)) {later : List Token}
    (hlater : lexemes (split.1.foldl advance p) split.2 = .ok later) :
    lexemes p cs = .ok
      ({ kind, text := String.ofList split.1, start := p, stop := split.1.foldl advance p } ::
        later) := by
  cases cs with
  | nil => cases h
  | cons c rest =>
    rw [lexemes]
    split
    · rename_i kind' split' heq
      rw [h] at heq
      cases heq
      dsimp only
      rw [hlater]
      rfl
    · rename_i heq
      rw [h] at heq
      cases heq

/-- A text that is cut into words has these for lexemes. -/
theorem lexemes_cuts : ∀ {ws : List Word} (p : Position), Cuts ws [] →
    ∃ ts, lexemes p (spelling ws) = .ok ts ∧
      ts.map (fun t => (t.kind, t.text)) = ws ++ [(.eof, "")]
  | [], p, _ => ⟨_, by rw [spelling, List.flatMap_nil, lexemes], rfl⟩
  | w :: ws, p, h => by
    obtain ⟨hword, hcuts⟩ := h
    rw [List.append_nil] at hword
    obtain ⟨later, hlater, hwords⟩ := lexemes_cuts (w.2.toList.foldl advance p) hcuts
    refine ⟨_, lexemes_of_lexeme? hword hlater, ?_⟩
    rw [List.map_cons, hwords, String.ofList_toList]
    rfl

/-! ## Single words -/

/-- The text does not go on with a character of an identifier or a number. -/
def Ends (rest : List Char) : Prop := ∀ c ∈ rest.head?, isIdentRest c = false

theorem run_all {p : Char → Bool} {cs rest : List Char} (hcs : ∀ c ∈ cs, p c = true)
    (hrest : ∀ c ∈ rest.head?, p c = false) : run p (cs ++ rest) = (cs, rest) := by
  have htake : rest.takeWhile p = [] := by
    cases rest with
    | nil => rfl
    | cons c rest => rw [List.takeWhile_cons, hrest c rfl]; rfl
  have hdrop : rest.dropWhile p = rest := by
    cases rest with
    | nil => rfl
    | cons c rest => rw [List.dropWhile_cons, hrest c rfl]; rfl
  rw [run, List.takeWhile_append_of_pos hcs, List.dropWhile_append_of_pos hcs, htake, hdrop,
    List.append_nil]

theorem comment?_none {c : Char} (h : c ≠ '/') (rest : List Char) : comment? (c :: rest) = none := by
  unfold comment?
  split
  · rename_i heq
    exact absurd (List.cons.inj heq).1 h
  · rfl

theorem string?_none {c : Char} (h : c ≠ '"') (rest : List Char) : string? (c :: rest) = none := by
  unfold string?
  split
  · rename_i heq
    exact absurd (List.cons.inj heq).1 h
  · rfl

theorem word?_none {first next : Char → Bool} {c : Char} (h : first c = false) (rest : List Char) :
    word? first next (c :: rest) = none := by
  simp [word?, h]

theorem word?_some {first next : Char → Bool} {c : Char} {cs rest : List Char}
    (h : first c = true) (hcs : ∀ d ∈ cs, next d = true) (hrest : ∀ d ∈ rest.head?, next d = false) :
    word? first next (c :: (cs ++ rest)) = some (c :: cs, rest) := by
  simp [word?, h, run_all hcs hrest, prepend]

theorem isDigit_identRest {c : Char} (h : c.isDigit = true) : isIdentRest c = true := by
  simp [isIdentRest, Char.isAlphanum, h]

theorem isDigit_not_identStart {c : Char} (h : c.isDigit = true) : isIdentStart c = false := by
  have hrange : 48 ≤ c.toNat ∧ c.toNat ≤ 57 := by
    simpa [Char.isDigit, UInt32.le_iff_toNat_le] using h
  have hother : c ≠ '_' ∧ c ≠ '$' := by
    constructor <;>
    · rintro rfl
      exact absurd h (by decide)
  have halpha : c.isAlpha = false := by
    have heither : c.isAlpha = (c.isUpper || c.isLower) := rfl
    have hupper : c.isUpper = decide (65 ≤ c.val ∧ c.val ≤ 90) := rfl
    have hlower : c.isLower = (decide (97 ≤ c.val) && decide (c.val ≤ 122)) := rfl
    have hnumber : c.val.toNat = c.toNat := rfl
    simp only [heither, hupper, hlower, UInt32.le_iff_toNat_le, Bool.or_eq_false_iff,
      Bool.and_eq_false_iff, decide_eq_false_iff_not, hnumber, UInt32.reduceToNat]
    omega
  simp [isIdentStart, halpha, hother]

theorem cuts_ident {s : String} (h : isIdent s = true) {rest : List Char} (hrest : Ends rest) :
    lexeme? (s.toList ++ rest) = some (.ident, s.toList, rest) := by
  unfold isIdent at h
  split at h
  · rename_i c cs hcs
    simp only [Bool.and_eq_true, List.all_eq_true] at h
    have hslash : c ≠ '/' := by
      rintro rfl
      exact absurd h.1 (by decide)
    have hquote : c ≠ '"' := by
      rintro rfl
      exact absurd h.1 (by decide)
    rw [hcs, List.cons_append]
    simp [lexeme?, rules, comment?_none hslash, string?_none hquote, word?_some h.1 h.2 hrest]
  · cases h

theorem cuts_integer {n : Nat} {rest : List Char} (hrest : Ends rest) :
    lexeme? ((toString (n : Int)).toList ++ rest) =
      some (.integer, (toString (n : Int)).toList, rest) := by
  have hdigits : ∀ c ∈ (toString (n : Int)).toList, c.isDigit = true :=
    fun c hc => Numeral.isDigit_of_mem_toString hc
  have hne : (toString (n : Int)).toList ≠ [] := by
    rw [Numeral.toList_toString]
    exact Nat.toDigits_ne_nil
  obtain ⟨c, cs, hcs⟩ := List.exists_cons_of_ne_nil hne
  rw [hcs] at hdigits ⊢
  have hc := hdigits c List.mem_cons_self
  have hslash : c ≠ '/' := by
    rintro rfl
    exact absurd hc (by decide)
  have hquote : c ≠ '"' := by
    rintro rfl
    exact absurd hc (by decide)
  have hrest : ∀ d ∈ rest.head?, d.isDigit = false := fun d hd =>
    Bool.eq_false_iff.mpr fun hdigit => absurd (hrest d hd) (by simp [isDigit_identRest hdigit])
  have hword : word? Char.isDigit Char.isDigit (c :: (cs ++ rest)) = some (c :: cs, rest) :=
    word?_some hc (fun d hd => hdigits d (List.mem_cons_of_mem _ hd)) hrest
  rw [List.cons_append]
  simp [lexeme?, rules, comment?_none hslash, string?_none hquote,
    word?_none (isDigit_not_identStart hc), hword]

theorem prepend_prepend (a b : List Char) (s : Option Split) :
    (s.map (prepend b)).map (prepend a) = s.map (prepend (a ++ b)) := by
  cases s <;> simp [prepend]

theorem stringTail_plain {c : Char} (hmark : c ≠ '"') (hslash : c ≠ '\\') (rest : List Char) :
    stringTail (c :: rest) = (stringTail rest).map (prepend [c]) := by
  conv => lhs; unfold stringTail
  split <;> simp_all

theorem stringTail_plains : ∀ {cs : List Char} (rest : List Char),
    (∀ c ∈ cs, c ≠ '"' ∧ c ≠ '\\') → stringTail (cs ++ rest) = (stringTail rest).map (prepend cs)
  | [], rest, _ => by
    cases h : stringTail rest <;> simp [h, prepend]
  | c :: cs, rest, h => by
    obtain ⟨hmark, hslash⟩ := h c List.mem_cons_self
    rw [List.cons_append, stringTail_plain hmark hslash,
      stringTail_plains rest fun d hd => h d (List.mem_cons_of_mem _ hd), prepend_prepend]
    rfl

/-- A string takes in what stands for octets. -/
theorem stringTail_stands {written : List Char} {octets : Bytes} (h : Stands written octets)
    (rest : List Char) : stringTail (written ++ rest) = (stringTail rest).map (prepend written) := by
  cases h with
  | plain hmark hslash hline => exact stringTail_plain hmark hslash rest
  | escape hline hinner hreads =>
    rw [List.cons_append, List.cons_append, stringTail, if_neg hline,
      stringTail_plains rest hinner, prepend_prepend]
    rfl

theorem cuts_string (text : Bytes) (rest : List Char) :
    lexeme? ((quoteBytes text).toList ++ rest) = some (.string, (quoteBytes text).toList, rest) := by
  have htail : ∀ ps : List Piece, stringTail (ps.flatMap quotePiece ++ '"' :: rest) =
      some (ps.flatMap quotePiece ++ ['"'], rest) := by
    intro ps
    induction ps with
    | nil => rfl
    | cons p ps ih =>
      rw [List.flatMap_cons, List.append_assoc, stringTail_stands (stands_quotePiece p), ih]
      simp [prepend]
  rw [quoteBytes, String.toList_ofList]
  simp [lexeme?, rules, comment?_none, string?, htail, prepend]

/-- An operator in front of what does not make it longer. -/
theorem cuts_operator {op : BinaryOp} (h : op ∈ BinaryOp.all) (rest : List Char) :
    lexeme? (op.symbol.toList ++ ' ' :: rest) = some (.operator, op.symbol.toList, ' ' :: rest) := by
  simp only [BinaryOp.all, List.mem_cons, List.not_mem_nil, or_false] at h
  rcases h with rfl | rfl | rfl | rfl | rfl | rfl | rfl | rfl | rfl | rfl | rfl | rfl | rfl <;> rfl

/-- In front of anything but a comment, a string, an identifier and a number the last rules are
tried. -/
theorem lexeme?_last {c : Char} (hslash : c ≠ '/') (hmark : c ≠ '"') (hstart : isIdentStart c = false)
    (hdigit : c.isDigit = false) (rest : List Char) :
    lexeme? (c :: rest) = ((operator? (c :: rest)).map fun split => (.operator, split)).or
      (((single? isPunctuation (c :: rest)).map fun split => (.punctuation, split)).or
        ((word? isBlank isBlank (c :: rest)).map fun split => (.whitespace, split))) := by
  simp only [lexeme?, rules, List.findSome?_cons, comment?_none hslash, string?_none hmark,
    word?_none hstart, word?_none hdigit, Option.map_none, List.findSome?_nil]
  cases operator? (c :: rest) <;> cases single? isPunctuation (c :: rest) <;>
    cases word? isBlank isBlank (c :: rest) <;> rfl

theorem operator?_none {c : Char} (hpair : ∀ d, isOperatorPair c d = false)
    (hc : isOperatorChar c = false) (rest : List Char) : operator? (c :: rest) = none := by
  cases rest with
  | nil => simp [operator?, hc]
  | cons d rest => simp [operator?, hpair d, hc]

theorem cuts_unary {op : UnaryOp} (h : op ∈ [.neg, .not]) {c : Char} (hc : c ≠ '=')
    (rest : List Char) :
    lexeme? (op.symbol.toList ++ c :: rest) = some (.operator, op.symbol.toList, c :: rest) := by
  have hone : ∀ d, d = '-' ∨ d = '!' →
      lexeme? (d :: c :: rest) = some (.operator, [d], c :: rest) := by
    rintro d (rfl | rfl) <;>
    · rw [lexeme?_last (by decide) (by decide) rfl rfl]
      simp [operator?, isOperatorPair, isOperatorChar, hc]
  simp only [List.mem_cons, List.not_mem_nil, or_false] at h
  rcases h with rfl | rfl
  · exact hone '-' (.inl rfl)
  · exact hone '!' (.inr rfl)

theorem cuts_mark {s : String} (h : s ∈ ["(", ")", ",", ";"]) (rest : List Char) :
    lexeme? (s.toList ++ rest) = some (.punctuation, s.toList, rest) := by
  have hone : ∀ c, c ∈ ['(', ')', ',', ';'] →
      lexeme? (c :: rest) = some (.punctuation, [c], rest) := by
    intro c hc
    simp only [List.mem_cons, List.not_mem_nil, or_false] at hc
    rcases hc with rfl | rfl | rfl | rfl <;>
    · rw [lexeme?_last (by decide) (by decide) rfl rfl,
        operator?_none (fun d => by simp [isOperatorPair]) rfl]
      rfl
  simp only [List.mem_cons, List.not_mem_nil, or_false] at h
  rcases h with rfl | rfl | rfl | rfl <;> exact hone _ (by decide)

theorem cuts_blank {c : Char} (hc : isBlank c = false) (rest : List Char) :
    lexeme? (blank.2.toList ++ c :: rest) = some (.whitespace, blank.2.toList, c :: rest) := by
  have hword : word? isBlank isBlank (' ' :: ([] ++ c :: rest)) = some ([' '], c :: rest) :=
    word?_some rfl (by simp) (by simpa using hc)
  rw [List.nil_append] at hword
  show lexeme? (' ' :: c :: rest) = _
  rw [lexeme?_last (by decide) (by decide) rfl rfl,
    operator?_none (fun d => by simp [isOperatorPair]) rfl, hword]
  rfl

/-! ## Words of expressions -/

theorem Ends.mark {s : String} (h : s ∈ ["(", ")", ",", ";"]) (ws : List Word) (rest : List Char) :
    Ends (spelling (mark s :: ws) ++ rest) := by
  simp only [List.mem_cons, List.not_mem_nil, or_false] at h
  rcases h with rfl | rfl | rfl | rfl <;>
  · rintro _ ⟨⟩
    rfl

theorem Ends.blank (ws : List Word) (rest : List Char) : Ends (spelling (blank :: ws) ++ rest) := by
  rintro _ ⟨⟩
  rfl

namespace Cuts

variable {ws : List Word} {rest : List Char}

theorem mark {s : String} (h : s ∈ ["(", ")", ",", ";"]) (hws : Cuts ws rest) :
    Cuts (Source.mark s :: ws) rest := ⟨cuts_mark h _, hws⟩

theorem ident {s : String} (h : isIdent s = true) (hends : Ends (spelling ws ++ rest))
    (hws : Cuts ws rest) : Cuts ((.ident, s) :: ws) rest := ⟨cuts_ident h hends, hws⟩

theorem blank (hfirst : ∃ c cs, spelling ws = c :: cs ∧ isBlank c = false) (hws : Cuts ws rest) :
    Cuts (Source.blank :: ws) rest := by
  obtain ⟨c, cs, hfirst, hc⟩ := hfirst
  refine ⟨?_, hws⟩
  rw [hfirst]
  exact cuts_blank hc _

/-- A binary operator between blanks. -/
theorem operator {op : BinaryOp} (h : op ∈ BinaryOp.all) (hws : Cuts (Source.blank :: ws) rest) :
    Cuts (Source.blank :: (.operator, op.symbol) :: Source.blank :: ws) rest := by
  obtain ⟨c, cs, hfirst, hc⟩ : ∃ c cs, op.symbol.toList = c :: cs ∧ isBlank c = false := by
    simp only [BinaryOp.all, List.mem_cons, List.not_mem_nil, or_false] at h
    rcases h with rfl | rfl | rfl | rfl | rfl | rfl | rfl | rfl | rfl | rfl | rfl | rfl | rfl <;>
      exact ⟨_, _, rfl, rfl⟩
  refine .blank ⟨c, cs ++ spelling (Source.blank :: ws), ?_, hc⟩ ⟨cuts_operator h _, hws⟩
  rw [spelling_cons, hfirst]
  rfl

end Cuts

/-- A character that starts an operand without a unary operator. -/
def isAtomStart (c : Char) : Bool := isIdentStart c || c.isDigit || c = '"' || c = '('

theorem isIdent_start {s : String} (h : isIdent s = true) :
    ∃ c cs, s.toList = c :: cs ∧ isAtomStart c = true := by
  unfold isIdent at h
  split at h
  · rename_i c cs hcs
    simp only [Bool.and_eq_true] at h
    exact ⟨c, cs, hcs, by simp [isAtomStart, h.1]⟩
  · cases h

theorem wordConstant_start {value : Constant} {type : Option Ty} (h : typedConstant value type = true) :
    ∃ c cs, (wordConstant value).2.toList = c :: cs ∧ isAtomStart c = true := by
  cases value with
  | null => exact ⟨_, _, rfl, rfl⟩
  | bool b => cases b <;> exact ⟨_, _, rfl, rfl⟩
  | string text => exact ⟨'"', _, by rw [wordConstant, quoteBytes, String.toList_ofList]; rfl, rfl⟩
  | int n =>
    simp only [typedConstant, Bool.and_eq_true, decide_eq_true_eq] at h
    obtain ⟨k, rfl⟩ := Int.eq_ofNat_of_zero_le h.1.1
    have hne : (toString (k : Int)).toList ≠ [] := by
      rw [Numeral.toList_toString]
      exact Nat.toDigits_ne_nil
    obtain ⟨c, cs, hcs⟩ := List.exists_cons_of_ne_nil hne
    have hdigit : c.isDigit = true := Numeral.isDigit_of_mem_toString (by rw [hcs]; simp)
    exact ⟨c, cs, hcs, by simp [isAtomStart, hdigit]⟩

variable {v : Visible} {hosts : List Method}

/-- The first word of an operand without a unary operator. -/
theorem atom_start {e : Expr} (h : readableExpr v hosts e = true)
    (hunary : (e matches .unary ..) = false) : ∃ w ws c cs, wordsExpr e = w :: ws ∧
      isSolid w = true ∧ w.2.toList = c :: cs ∧ isAtomStart c = true := by
  cases e with
  | literal _ value type =>
    obtain ⟨c, cs, hcs, hc⟩ := wordConstant_start h
    exact ⟨_, _, c, cs, rfl, by cases value <;> rfl, hcs, hc⟩
  | localRef _ l =>
    simp only [readableExpr, isName, Bool.and_eq_true] at h
    obtain ⟨c, cs, hcs, hc⟩ := isIdent_start h.1.1
    exact ⟨_, _, c, cs, rfl, rfl, hcs, hc⟩
  | parameterRef _ q =>
    simp only [readableExpr, isName, Bool.and_eq_true] at h
    obtain ⟨c, cs, hcs, hc⟩ := isIdent_start h.1.1.1
    exact ⟨_, _, c, cs, rfl, rfl, hcs, hc⟩
  | binary => exact ⟨_, _, '(', [], rfl, rfl, rfl, rfl⟩
  | call _ r m args =>
    simp only [readableExpr, Bool.and_eq_true] at h
    obtain ⟨c, cs, hcs, hc⟩ := isIdent_start h.1.1.2
    exact ⟨_, _, c, cs, rfl, rfl, hcs, hc⟩
  | unary => cases hunary
  | _ => cases h

/-- The first character of a printed expression. -/
theorem first_wordsExpr {e : Expr} (h : readableExpr v hosts e = true) :
    ∃ c cs, spelling (wordsExpr e) = c :: cs ∧ isBlank c = false ∧ c ≠ '=' := by
  cases hunary : (e matches .unary ..) with
  | false =>
    obtain ⟨w, ws, c, cs, hws, -, hcs, hc⟩ := atom_start h hunary
    refine ⟨c, cs ++ spelling ws, by rw [hws, spelling_cons, hcs]; rfl, ?_, ?_⟩
    · refine Bool.eq_false_iff.mpr fun hblank => ?_
      simp only [isBlank, Bool.or_eq_true, decide_eq_true_eq] at hblank
      rcases hblank with ((rfl | rfl) | rfl) | rfl <;> cases hc
    · rintro rfl
      cases hc
  | true =>
    cases e with
    | unary _ op operand =>
      simp only [readableExpr, Bool.and_eq_true, decide_eq_true_eq, List.mem_cons,
        List.not_mem_nil, or_false] at h
      rcases h.1.1 with rfl | rfl
      · exact ⟨_, _, rfl, rfl, by decide⟩
      · exact ⟨_, _, rfl, rfl, by decide⟩
    | _ => cases hunary

theorem first_wordsExprs {e : Expr} (h : readableExpr v hosts e = true) (es : List Expr) :
    ∃ c cs, spelling (wordsExprs (e :: es)) = c :: cs ∧ isBlank c = false := by
  obtain ⟨c, cs, hfirst, hc, -⟩ := first_wordsExpr h
  cases es with
  | nil => exact ⟨c, cs, hfirst, hc⟩
  | cons e' es =>
    refine ⟨c, cs ++ spelling (mark "," :: blank :: wordsExprs (e' :: es)), ?_, hc⟩
    show spelling (wordsExpr e ++ mark "," :: blank :: wordsExprs (e' :: es)) = _
    rw [spelling_append, hfirst]
    rfl

mutual

/-- The lexical rules cut a printed expression into its words. -/
theorem cuts_wordsExpr : ∀ {e : Expr} {rest : List Char}, readableExpr v hosts e = true →
    Ends rest → Cuts (wordsExpr e) rest
  | .literal _ value _, rest, h, hrest => by
    cases value with
    | null => exact .ident rfl hrest trivial
    | bool b => cases b <;> exact .ident rfl hrest trivial
    | string text => exact ⟨cuts_string text rest, trivial⟩
    | int n =>
      simp only [readableExpr, typedConstant, Bool.and_eq_true, decide_eq_true_eq] at h
      obtain ⟨k, rfl⟩ := Int.eq_ofNat_of_zero_le h.1.1
      exact ⟨cuts_integer hrest, trivial⟩
  | .localRef _ l, rest, h, hrest => by
    simp only [readableExpr, isName, Bool.and_eq_true] at h
    exact .ident h.1.1 hrest trivial
  | .parameterRef _ q, rest, h, hrest => by
    simp only [readableExpr, isName, Bool.and_eq_true] at h
    exact .ident h.1.1.1 hrest trivial
  | .binary _ op left right, rest, h, hrest => by
    simp only [readableExpr, Bool.and_eq_true, decide_eq_true_eq] at h
    obtain ⟨c, cs, hfirst, hc, -⟩ := first_wordsExpr h.2
    have hright : Cuts (wordsExpr right ++ [mark ")"]) rest :=
      (cuts_wordsExpr h.2 (.mark (by decide) _ _)).append (.mark (by decide) trivial)
    have hoperator := Cuts.operator h.1.1 (.blank ⟨c, cs ++ [')'], by
      rw [spelling_append, hfirst]
      rfl, hc⟩ hright)
    exact .mark (by decide) ((cuts_wordsExpr h.1.2 (.blank _ _)).append hoperator)
  | .unary _ op operand, rest, h, hrest => by
    simp only [readableExpr, Bool.and_eq_true, decide_eq_true_eq] at h
    obtain ⟨c, cs, hfirst, -, hc⟩ := first_wordsExpr h.2
    refine ⟨?_, cuts_wordsExpr h.2 hrest⟩
    show lexeme? (op.symbol.toList ++ (spelling (wordsExpr operand) ++ rest)) =
      some (.operator, op.symbol.toList, spelling (wordsExpr operand) ++ rest)
    rw [hfirst]
    exact cuts_unary h.1.1 hc _
  | .call _ r m args, rest, h, hrest => by
    simp only [readableExpr, Bool.and_eq_true] at h
    have hargs : Cuts (wordsExprs args ++ [mark ")"]) rest :=
      (cuts_wordsExprs h.2 (.mark (by decide) _ _)).append (.mark (by decide) trivial)
    exact .ident h.1.1.2 (.mark (by decide) _ _) (.mark (by decide) hargs)
  | .absent, _, h, _ | .fieldRef .., _, h, _ | .this .., _, h, _ | .assignment .., _, h, _
  | .foreign .., _, h, _ => nomatch h

theorem cuts_wordsExprs : ∀ {es : List Expr} {rest : List Char}, readableExprs v hosts es = true →
    Ends rest → Cuts (wordsExprs es) rest
  | [], _, _, _ => trivial
  | [e], rest, h, hrest => by
    simp only [readableExprs, Bool.and_eq_true] at h
    exact cuts_wordsExpr h.1 hrest
  | e :: e' :: es, rest, h, hrest => by
    rw [readableExprs, Bool.and_eq_true] at h
    have hothers := cuts_wordsExprs h.2 hrest
    simp only [readableExprs, Bool.and_eq_true] at h
    show Cuts (wordsExpr e ++ mark "," :: blank :: wordsExprs (e' :: es)) rest
    exact (cuts_wordsExpr h.1 (.mark (by decide) _ _)).append
      (.mark (by decide) (.blank (first_wordsExprs h.2.1 es) hothers))

end

end Lexer

end Resumable.Source
