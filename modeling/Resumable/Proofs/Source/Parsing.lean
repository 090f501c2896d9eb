import Resumable.Proofs.Source.Lexing
import Resumable.Proofs.Source.Places

/-!
# Rules on tokens of known words

What the rules of the grammar make of tokens whose words are known.  An alternative that does not
apply is given up within a token or two (`Declines`), far before its rejection becomes final, so it
is the first alternative that applies which is read.
-/

set_option autoImplicit false

namespace Resumable.Source

open Resumable.Text Resumable.Symbol Resumable.Tree

variable {α β : Type}

/-! ## Tokens of words -/

/-- The word of a token. -/
def Token.word (t : Token) : Word := (t.kind, t.text)

/-- A text that is cut into words has those of them for tokens that are not dropped. -/
theorem tokens_cuts (file : String) {source : String} {ws : List Word}
    (hsource : source.toList = spelling ws) (h : Lexer.Cuts ws []) :
    ∃ ts, tokens file source = .ok ts ∧ ts.map Token.word = ws.filter isSolid ++ [(.eof, "")] := by
  obtain ⟨all, hall, hwords⟩ :=
    Lexer.lexemes_cuts { file, offset := 0, line := 1, column := 1 } h
  refine ⟨_, by rw [tokens, hsource, hall]; rfl, ?_⟩
  have hfilter : ∀ ts : List Token, (ts.filter fun t => t.kind ≠ .comment ∧ t.kind ≠ .whitespace).map
      Token.word = (ts.map Token.word).filter isSolid := fun ts => by
    rw [List.filter_map]
    rfl
  rw [hfilter, show all.map Token.word = _ from hwords, List.filter_append]
  rfl

/-- No token of the text stands next. -/
def Unlike (text : String) (ts : List Token) : Prop := ∀ t ∈ ts.head?, t.text ≠ text

/-! ## Alternatives that do not apply -/

/-- The rule passes, or its rejection is not final. -/
def Declines (r : Rule α) (ts : List Token) : Prop :=
  r.read ts = .pass ∨ ∃ fault rest, r.read ts = .reject fault rest ∧ isFinal ts rest = false

theorem isFinal_self (ts : List Token) : isFinal ts ts = false := by
  simp [isFinal, readBetween]

theorem isFinal_next (t : Token) (ts : List Token) : isFinal (t :: ts) ts = false := by
  simp [isFinal, readBetween, lookahead]

namespace Declines

variable {r : Rule α} {ts : List Token}

theorem literal {text : String} (h : Unlike text ts) : Declines (literal text) ts := by
  cases ts with
  | nil => exact .inl rfl
  | cons t rest =>
    refine .inl ?_
    simp [Source.literal, h t rfl]

theorem tokenOf {kind : TokenKind} {name : String} (h : ∀ t ∈ ts.head?, t.kind ≠ kind) :
    Declines (tokenOf kind name) ts := by
  cases ts with
  | nil => exact .inl rfl
  | cons t rest =>
    refine .inl ?_
    simp [Source.tokenOf, h t rfl]

theorem map (f : α → β) (h : Declines r ts) : Declines (r.map f) ts := by
  rcases h with h | ⟨fault, rest, h, hfinal⟩
  · exact .inl (by simp [Rule.map, h, Outcome.map])
  · exact .inr ⟨fault, rest, by simp [Rule.map, h, Outcome.map], hfinal⟩

theorem located (h : Declines r ts) : Declines r.located ts := by
  rcases h with h | ⟨fault, rest, h, hfinal⟩
  · exact .inl (by simp [Rule.located, h])
  · exact .inr ⟨fault, rest, by simp [Rule.located, h], hfinal⟩

/-- A sequence is given up with its first rule. -/
theorem cons (s : Sequence β) (h : Declines r ts) : Declines (Sequence.cons r s).toRule ts := by
  rcases h with h | ⟨fault, rest, h, hfinal⟩
  · exact .inl (by simp [Sequence.toRule, Sequence.cons, h])
  · exact .inr ⟨fault, rest, by simp [Sequence.toRule, Sequence.cons, h], hfinal⟩

/-- A sequence is given up when its first rule takes nothing and the others do not apply. -/
theorem behind {s : Sequence β} {a : α} (hr : r.read ts = .accept a ts)
    (hs : Declines s.toRule ts) : Declines (Sequence.cons r s).toRule ts := by
  rcases hs with hs | ⟨fault, rest, hs, hfinal⟩
  · have hpass : s.read ts = .pass := hs
    refine .inr ⟨unexpected ts s.texts, ts, ?_, isFinal_self ts⟩
    simp only [Sequence.toRule, Sequence.cons, hr, Sequence.require, hpass, Outcome.map]
  · have hreject : s.read ts = .reject fault rest := hs
    refine .inr ⟨fault, rest, ?_, hfinal⟩
    simp only [Sequence.toRule, Sequence.cons, hr, Sequence.require, hreject, Outcome.map]

/-- A sequence is given up when its first rule takes a token and the others pass. -/
theorem next {s : Sequence β} {a : α} {t : Token} {rest : List Token}
    (hr : r.read (t :: rest) = .accept a rest) (hs : s.read rest = .pass) :
    Declines (Sequence.cons r s).toRule (t :: rest) := by
  refine .inr ⟨unexpected rest s.texts, rest, ?_, isFinal_next t rest⟩
  simp only [Sequence.toRule, Sequence.cons, hr, Sequence.require, hs, Outcome.map]

/-- Where an alternative does not apply, the others are tried. -/
theorem firstOf (h : Declines r ts) (held : Option (GrammarFault × List Token))
    (others : List (Rule α)) :
    ∃ held', Rule.firstOf ts held (r :: others) = Rule.firstOf ts held' others := by
  rcases h with h | ⟨fault, rest, h, hfinal⟩
  · exact ⟨held, by simp only [Rule.firstOf, h]⟩
  · simp only [Rule.firstOf, h, hfinal, Bool.false_eq_true, if_false]
    exact ⟨_, rfl⟩

/-- A choice is given up if each of its alternatives is. -/
theorem choice {rules : List (Rule α)} (h : ∀ r ∈ rules, Declines r ts) :
    Declines (Rule.choice rules) ts := by
  have hall : ∀ held, Rule.firstOf ts held rules = .pass ∨
      ∃ fault, Rule.firstOf ts held rules = .reject fault ts := by
    induction rules with
    | nil =>
      intro held
      cases held with
      | none => exact .inl rfl
      | some x => exact .inr ⟨_, rfl⟩
    | cons r others ih =>
      intro held
      have hothers := ih fun r hr => h r (List.mem_cons_of_mem _ hr)
      obtain ⟨held', hfirst⟩ := (h r List.mem_cons_self).firstOf held others
      rw [hfirst]
      exact hothers held'
  rcases hall none with h | ⟨fault, h⟩
  · exact .inl h
  · exact .inr ⟨fault, ts, h, isFinal_self ts⟩

end Declines

/-! ## Rules that accept -/

theorem literal_accept {t : Token} {text : String} (htext : t.text = text) (hkind : t.kind ≠ .eof)
    (rest : List Token) : (literal text).read (t :: rest) = .accept t rest := by
  simp [literal, htext, hkind]

theorem word_accept {t : Token} {kind : TokenKind} {text : String} (h : t.word = (kind, text))
    (hkind : kind ≠ .eof) (rest : List Token) : (literal text).read (t :: rest) = .accept t rest := by
  obtain ⟨rfl, rfl⟩ := Prod.mk.inj h
  exact literal_accept rfl hkind rest

theorem mark_accept {t : Token} {text : String} (h : t.word = mark text) (rest : List Token) :
    (literal text).read (t :: rest) = .accept t rest := word_accept h (by simp) rest

theorem tokenOf_accept {t : Token} {kind : TokenKind} (h : t.kind = kind) (name : String)
    (rest : List Token) : (tokenOf kind name).read (t :: rest) = .accept t rest := by
  simp [tokenOf, h]

/-- A rule and those after it accept one behind the other. -/
theorem accept_cons {r : Rule α} {s : Sequence β} {ts between rest : List Token} {a : α} {b : β}
    (hr : r.read ts = .accept a between) (hs : s.read between = .accept b rest) :
    (Sequence.cons r s).read ts = .accept (a, b) rest := cons_accept.mpr ⟨between, hr, hs⟩

theorem located_of_accept {r : Rule α} {ts rest : List Token} {a : α}
    (h : r.read ts = .accept a rest) : ∃ span, r.located.read ts = .accept (span, a) rest := by
  simp only [Rule.located, h]
  exact ⟨_, rfl⟩

/-- One of the alternatives is read, whatever has been rejected before. -/
def Picks (rules : List (Rule α)) (ts : List Token) (a : α) (rest : List Token) : Prop :=
  ∀ held, Rule.firstOf ts held rules = .accept a rest

namespace Picks

variable {r : Rule α} {others : List (Rule α)} {ts rest : List Token} {a : α}

theorem here (h : r.read ts = .accept a rest) : Picks (r :: others) ts a rest := fun held => by
  simp only [Rule.firstOf, h]

theorem skip (h : Declines r ts) (hothers : Picks others ts a rest) :
    Picks (r :: others) ts a rest := fun held => by
  obtain ⟨held', hfirst⟩ := h.firstOf held others
  rw [hfirst]
  exact hothers held'

theorem choice (h : Picks others ts a rest) : (Rule.choice others).read ts = .accept a rest :=
  h none

end Picks

theorem optional_declines {r : Rule α} {ts : List Token} (h : Declines r ts) :
    r.optional.read ts = .accept none ts := by
  rcases h with h | ⟨fault, rest, h, hfinal⟩
  · simp [Rule.optional, h]
  · simp [Rule.optional, h, hfinal]

theorem optional_accept {r : Rule α} {ts rest : List Token} {a : α}
    (h : r.read ts = .accept a rest) : r.optional.read ts = .accept (some a) rest := by
  simp [Rule.optional, h]

theorem repeatRead_declines {r : Rule α} {ts : List Token} (h : Declines r ts) (rounds : Nat) :
    Rule.repeatRead r rounds ts = .accept [] ts := by
  cases rounds with
  | zero => rfl
  | succ rounds =>
    rcases h with h | ⟨fault, rest, h, hfinal⟩
    · simp [Rule.repeatRead, h]
    · simp [Rule.repeatRead, h, hfinal]

theorem repeatRead_step {r : Rule α} {ts between rest : List Token} {a : α} {as : List α}
    {rounds : Nat} (h : r.read ts = .accept a between)
    (hothers : Rule.repeatRead r rounds between = .accept as rest) :
    Rule.repeatRead r (rounds + 1) ts = .accept (a :: as) rest := by
  simp [Rule.repeatRead, h, hothers, Outcome.map]

theorem literal_pass {text : String} {ts : List Token} (h : Unlike text ts) :
    (literal text).read ts = .pass := by
  cases ts with
  | nil => rfl
  | cons t rest => simp [literal, h t rfl]

theorem cons_pass {r : Rule α} {ts : List Token} (h : r.read ts = .pass) (s : Sequence β) :
    (Sequence.cons r s).read ts = .pass := by
  simp only [Sequence.cons, h]

/-! ## Operators -/

namespace Grammar

/-- The symbol of a binary operator does not stand next. -/
def NoOperator (ts : List Token) : Prop := ∀ op ∈ binaryOps, Unlike op.symbol ts

theorem binaryOp_accept {t : Token} {op : BinaryOp} (hop : op ∈ BinaryOp.all)
    (ht : t.word = (.operator, op.symbol)) (rest : List Token) :
    binaryOp.read (t :: rest) = .accept op rest := by
  obtain ⟨kind, text, start, stop⟩ := t
  cases ht
  simp only [BinaryOp.all, List.mem_cons, List.not_mem_nil, or_false] at hop
  rcases hop with rfl | rfl | rfl | rfl | rfl | rfl | rfl | rfl | rfl | rfl | rfl | rfl | rfl <;> rfl

theorem binaryOp_declines {ts : List Token} (h : NoOperator ts) : Declines binaryOp ts := by
  refine .choice fun r hr => ?_
  obtain ⟨op, hop, rfl⟩ := List.mem_map.mp hr
  exact .map _ (.literal (h op hop))

theorem unaryOp_accept {t : Token} {op : UnaryOp} (hop : op ∈ [.neg, .not])
    (ht : t.word = (.operator, op.symbol)) (rest : List Token) :
    unaryOp.read (t :: rest) = .accept op rest := by
  obtain ⟨kind, text, start, stop⟩ := t
  cases ht
  simp only [List.mem_cons, List.not_mem_nil, or_false] at hop
  rcases hop with rfl | rfl <;> rfl

theorem unaryOp_declines {ts : List Token} (hnot : Unlike "!" ts) (hneg : Unlike "-" ts) :
    Declines unaryOp ts := by
  refine .choice ?_
  simp only [List.forall_mem_cons]
  exact ⟨.map _ (.literal hnot), .map _ (.literal hneg), nofun⟩

/-! ## Atoms -/

section Atoms

variable {chain : Rule Chain} {t : Token} {rest : List Token}

/-- A call needs an identifier and a parenthesis. -/
theorem call_declines (h : t.kind ≠ .ident ∨ Unlike "(" rest) :
    Declines ((call chain).named "CallExpr") (t :: rest) := by
  refine .map _ ?_
  by_cases hkind : t.kind = .ident
  · have hpass := literal_pass (h.resolve_left fun hne => hne hkind)
    exact .next (tokenOf_accept hkind "ident" rest) (cons_pass hpass _)
  · refine .cons _ (.tokenOf ?_)
    rintro _ ⟨⟩
    exact hkind

theorem kind_declines {kind : TokenKind} (name : String) (h : t.kind ≠ kind) (f : Token → Atom) :
    Declines ((tokenOf kind name).map f) (t :: rest) := by
  refine .map _ (.tokenOf ?_)
  rintro _ ⟨⟩
  exact h

theorem text_declines {text : String} (h : t.text ≠ text) (f : Token → β) :
    Declines ((literal text).map f) (t :: rest) := by
  refine .map _ (.literal ?_)
  rintro _ ⟨⟩
  exact h

theorem bool_declines (h : t.text ≠ "true") (h' : t.text ≠ "false") :
    Declines (Rule.choice [(literal "true").map fun _ => Atom.bool true,
      (literal "false").map fun _ => Atom.bool false]) (t :: rest) := by
  refine .choice ?_
  simp only [List.forall_mem_cons]
  exact ⟨text_declines h _, text_declines h' _, nofun⟩

theorem atom_integer (h : t.kind = .integer) :
    (atom chain).read (t :: rest) = .accept (.number t.text) rest :=
  Picks.choice (.skip (call_declines (.inl (by simp [h])))
    (.here (by simp [Rule.map, tokenOf_accept h, Outcome.map])))

theorem atom_string (h : t.kind = .string) :
    (atom chain).read (t :: rest) = .accept (.text t.text) rest :=
  Picks.choice (.skip (call_declines (.inl (by simp [h]))) (.skip (kind_declines _ (by simp [h]) _)
    (.here (by simp [Rule.map, tokenOf_accept h, Outcome.map]))))

/-- In front of an identifier that is not called, the first alternatives do not apply. -/
theorem ident_picks (h : t.kind = .ident) (hrest : Unlike "(" rest) {others : List (Rule Atom)}
    {a : Atom} (hothers : Picks others (t :: rest) a rest) :
    Picks ((call chain).named "CallExpr" ::
      ((tokenOf .integer "integer").map fun t => .number t.text) ::
      ((tokenOf .string "string").map fun t => .text t.text) :: others) (t :: rest) a rest :=
  .skip (call_declines (.inr hrest)) (.skip (kind_declines _ (by simp [h]) _)
    (.skip (kind_declines _ (by simp [h]) _) hothers))

theorem atom_bool {b : Bool} (h : t.word = (.ident, if b then "true" else "false"))
    (hrest : Unlike "(" rest) : (atom chain).read (t :: rest) = .accept (.bool b) rest := by
  obtain ⟨kind, text, start, stop⟩ := t
  cases h
  refine Picks.choice (ident_picks rfl hrest (.here ?_))
  cases b <;> rfl

theorem atom_null (h : t.word = (.ident, "null")) (hrest : Unlike "(" rest) :
    (atom chain).read (t :: rest) = .accept .null rest := by
  obtain ⟨kind, text, start, stop⟩ := t
  cases h
  exact Picks.choice (ident_picks rfl hrest
    (.skip (bool_declines (by simp) (by simp)) (.here rfl)))

theorem atom_name {s : String} (h : t.word = (.ident, s)) (hs : s ∉ ["true", "false", "null"])
    (hrest : Unlike "(" rest) : (atom chain).read (t :: rest) = .accept (.name s) rest := by
  obtain ⟨kind, text, start, stop⟩ := t
  cases h
  simp only [List.mem_cons, List.not_mem_nil, or_false, not_or] at hs
  exact Picks.choice (ident_picks rfl hrest (.skip (bool_declines hs.1 hs.2.1)
    (.skip (text_declines hs.2.2 _) (.here rfl))))

theorem call_accept {u w : Token} {ts : List Token} {args : List Chain} (h : t.kind = .ident)
    (hu : u.word = mark "(") (hargs : (commaList chain).read ts = .accept args (w :: rest))
    (hw : w.word = mark ")") : (atom chain).read (t :: u :: ts) = .accept (.call t.text args) rest :=
  Picks.choice (.here (map_accept.mpr ⟨(t, u, args, w), accept_cons (tokenOf_accept h _ _)
    (accept_cons (mark_accept hu _) (accept_cons hargs (mark_accept hw _))), rfl⟩))

/-- In front of a mark only the parentheses may apply. -/
theorem mark_picks {s : String} (h : t.word = mark s) (hs : s ∉ ["true", "false", "null"])
    {others : List (Rule Atom)} {a : Atom} {behind : List Token}
    (hothers : Picks others (t :: rest) a behind) :
    Picks ((call chain).named "CallExpr" ::
      ((tokenOf .integer "integer").map fun t => .number t.text) ::
      ((tokenOf .string "string").map fun t => .text t.text) ::
      Rule.choice [(literal "true").map fun _ => .bool true,
        (literal "false").map fun _ => .bool false] ::
      ((literal "null").map fun _ => .null) :: (ident.map fun t => .name t.text) :: others)
      (t :: rest) a behind := by
  obtain ⟨hkind, rfl⟩ := Prod.mk.inj h
  simp only [List.mem_cons, List.not_mem_nil, or_false, not_or] at hs
  exact .skip (call_declines (.inl (by simp [hkind]))) (.skip (kind_declines _ (by simp [hkind]) _)
    (.skip (kind_declines _ (by simp [hkind]) _) (.skip (bool_declines hs.1 hs.2.1)
      (.skip (text_declines hs.2.2 _) (.skip (kind_declines _ (by simp [hkind]) _) hothers)))))

theorem parens_accept {w : Token} {ts : List Token} {c : Chain} (h : t.word = mark "(")
    (hinner : chain.read ts = .accept c (w :: rest)) (hw : w.word = mark ")") :
    (atom chain).read (t :: ts) = .accept (.parens c) rest :=
  Picks.choice (mark_picks h (by decide) (.here (map_accept.mpr ⟨(t, c, w),
    accept_cons (mark_accept h _) (accept_cons hinner (mark_accept hw _)), rfl⟩)))

/-- No atom starts with a closing parenthesis. -/
theorem atom_declines (h : t.word = mark ")") : Declines (atom chain) (t :: rest) := by
  obtain ⟨hkind, htext⟩ := Prod.mk.inj h
  refine .choice ?_
  simp only [List.forall_mem_cons]
  exact ⟨call_declines (.inl (by simp [hkind])), kind_declines _ (by simp [hkind]) _,
    kind_declines _ (by simp [hkind]) _, bool_declines (by simp [htext]) (by simp [htext]),
    text_declines (by simp [htext]) _, kind_declines _ (by simp [hkind]) _,
    .map _ (.cons _ (.literal (by rintro _ ⟨⟩; simp [htext]))), nofun⟩

end Atoms

/-! ## Operands and chains -/

section Operands

variable {c : Rule Chain} {t : Token} {ts ts' rest : List Token} {a : Atom}

theorem operand_plain (hunary : Declines unaryOp ts) (h : (atom c).read ts = .accept a rest) :
    ∃ span, (operand c).read ts = .accept (.mk none span a) rest := by
  obtain ⟨span, hatom⟩ := located_of_accept h
  exact ⟨span, map_accept.mpr ⟨_, accept_cons (optional_declines hunary) hatom, rfl⟩⟩

theorem operand_unary {op : UnaryOp} (hop : op ∈ [.neg, .not])
    (ht : t.word = (.operator, op.symbol)) (h : (atom c).read ts = .accept a rest) :
    ∃ span, (operand c).read (t :: ts) = .accept (.mk (some op) span a) rest := by
  obtain ⟨span, hatom⟩ := located_of_accept h
  exact ⟨span, map_accept.mpr
    ⟨_, accept_cons (optional_accept (unaryOp_accept hop ht ts)) hatom, rfl⟩⟩

/-- A binary operator and the operand behind it. -/
def binOp (operand : Rule Operand) : Rule (BinaryOp × Operand) :=
  (Sequence.cons binaryOp (.one operand)).toRule.named "BinOp"

theorem binOp_stops {o : Rule Operand} (h : NoOperator rest) (rounds : Nat) :
    Rule.repeatRead (binOp o) rounds rest = .accept [] rest := by
  have hdeclines : Declines (binOp o) rest := .cons (.one o) (binaryOp_declines h)
  exact repeatRead_declines hdeclines rounds

variable {levels : Nat} {o o' : Operand}

/-- A chain of one operand. -/
theorem chain_last (h : (operand (chain levels)).read ts = .accept o rest)
    (hrest : NoOperator rest) : (chain (levels + 1)).read ts = .accept (.last o) rest :=
  map_accept.mpr ⟨_, accept_cons h (binOp_stops hrest rest.length), rfl⟩

/-- A chain of two operands. -/
theorem chain_link {op : BinaryOp} (h : (operand (chain levels)).read ts = .accept o (t :: ts'))
    (hop : op ∈ BinaryOp.all) (ht : t.word = (.operator, op.symbol))
    (h' : (operand (chain levels)).read ts' = .accept o' rest) (hrest : NoOperator rest) :
    (chain (levels + 1)).read ts = .accept (.link o op (.last o')) rest := by
  have hfirst : (binOp (operand (chain levels))).read (t :: ts') = .accept (op, o') rest :=
    accept_cons (binaryOp_accept hop ht ts') h'
  have hlink := repeatRead_step hfirst (binOp_stops hrest ts'.length)
  exact map_accept.mpr ⟨_, accept_cons h hlink, rfl⟩

/-- No expression starts with a closing parenthesis. -/
theorem chain_declines (h : t.word = mark ")") (levels : Nat) :
    Declines (chain levels) (t :: rest) := by
  have htext : t.text = ")" := congrArg Prod.snd h
  have hunlike : ∀ text, text ≠ ")" → Unlike text (t :: rest) := by
    rintro text hne _ ⟨⟩
    rw [htext]
    exact hne.symm
  cases levels with
  | zero => exact .inl rfl
  | succ levels =>
    have hunary := optional_declines (unaryOp_declines (hunlike "!" (by simp)) (hunlike "-" (by simp)))
    have hoperand : Declines (operand (chain levels)) (t :: rest) :=
      .map _ (.behind hunary (.located (atom_declines h)))
    exact .map _ (.cons _ hoperand)

end Operands

/-! ## Statements -/

section Statements

variable {expr : Rule Chain} {statement : Rule Statement} {t u : Token} {ts rest : List Token}

theorem braces_pass (h : Unlike "\x7b" ts) : (braces statement).read ts = .pass := by
  show Outcome.map _ ((Sequence.cons (literal "\x7b") _).read ts) = .pass
  rw [cons_pass (literal_pass h)]
  rfl

theorem ident_pass (h : ∀ t ∈ ts.head?, t.kind ≠ .ident) : ident.read ts = .pass := by
  cases ts with
  | nil => rfl
  | cons t rest => simp [ident, tokenOf, h t rfl]

/-- What starts with a keyword is given up when the rules behind it pass. -/
theorem keyword_declines (ht : t.kind ≠ .eof) (keyword : String) {s : Sequence β}
    (hs : s.read rest = .pass) : Declines (Sequence.cons (literal keyword) s).toRule (t :: rest) := by
  by_cases htext : t.text = keyword
  · exact .next (literal_accept htext ht rest) hs
  · refine .cons s (.literal ?_)
    rintro _ ⟨⟩
    exact htext

/-- A call and a semicolon are the statement of this call, unless the name is a keyword that an
expression in parentheses may follow. -/
theorem call_statement {c : Chain} {semicolon : Token}
    (ht : t.kind = .ident) (hname : isIdent t.text = true)
    (hcallable : t.text ∉ ["return", "throw", "if", "while"])
    (hu : u.word = mark "(") (hexpr : expr.read (t :: u :: ts) = .accept c (semicolon :: rest))
    (hsemicolon : semicolon.word = mark ";") :
    Picks (forms expr statement) (t :: u :: ts) (.expression c) rest := by
  simp only [List.mem_cons, List.not_mem_nil, or_false, not_or] at hcallable
  obtain ⟨hreturn, hthrow, hif, hwhile⟩ := hcallable
  obtain ⟨hukind, hutext⟩ := Prod.mk.inj hu
  have hkind : t.kind ≠ .eof := by simp [ht]
  have hunlike : ∀ text, t.text ≠ text → Unlike text (t :: u :: ts) := by
    rintro text hne _ ⟨⟩
    exact hne
  have hbehind : ∀ text, text ≠ "(" → Unlike text (u :: ts) := by
    rintro text hne _ ⟨⟩
    rw [hutext]
    exact hne.symm
  have hblock : ∀ r : Rule Statement, (braces r).read (u :: ts) = .pass :=
    fun r => braces_pass (hbehind _ (by decide))
  have hident : ident.read (u :: ts) = .pass := by
    refine ident_pass ?_
    rintro _ ⟨⟩
    simp [hukind]
  have hmark : ∀ text, isIdent text = false → Unlike text (t :: u :: ts) := fun text htext =>
    hunlike text fun heq => by simp [heq, htext] at hname
  have hlast : (Sequence.one (literal ";")).read (u :: ts) = .pass :=
    literal_pass (hbehind _ (by decide))
  -- The alternatives in the order in which they are tried.
  refine .skip (.map _ (keyword_declines hkind _ ?_)) ?_
  · show Outcome.map _ ((braces statement).read (u :: ts)) = .pass
    rw [hblock]
    rfl
  refine .skip (.map _ (.map _ (.cons _ (.literal (hmark _ (by decide)))))) ?_
  refine .skip (.map _ (.literal (hmark _ (by decide)))) ?_
  refine .skip (.map _ (keyword_declines hkind _ (cons_pass hident _))) ?_
  refine .skip (.map _ (keyword_declines hkind _
    (cons_pass (literal_pass (hbehind "return" (by decide))) _))) ?_
  refine .skip (.map _ (keyword_declines hkind _
    (cons_pass (literal_pass (hbehind "break" (by decide))) _))) ?_
  refine .skip (.map _ (.map _ (.cons _ (.literal (hunlike _ hreturn))))) ?_
  refine .skip (.map _ (keyword_declines hkind _ (cons_pass (hblock _) _))) ?_
  refine .skip (.map _ (.map _ (.cons _ (.literal (hunlike _ hthrow))))) ?_
  refine .skip (.map _ (.cons _ (.literal (hunlike _ hif)))) ?_
  refine .skip (.map _ (.cons _ (.literal (hunlike _ hwhile)))) ?_
  refine .skip (.map _ (keyword_declines hkind _ hlast)) ?_
  refine .skip (.map _ (keyword_declines hkind _ hlast)) ?_
  refine .skip (.map _ (.map _ (keyword_declines hkind _ (cons_pass hident _)))) ?_
  refine .skip (.map _ (.next (tokenOf_accept ht _ _)
    (literal_pass (hbehind ":" (by decide))))) ?_
  refine .skip (.map _ (.next (tokenOf_accept ht _ _)
    (cons_pass (literal_pass (hbehind "=" (by decide))) _))) ?_
  exact .here (map_accept.mpr ⟨(c, semicolon), accept_cons hexpr (mark_accept hsemicolon _), rfl⟩)

end Statements

end Grammar

/-! ## Values with commas between them -/

section Commas

variable {r : Rule α} {ts ts' rest : List Token} {a : α}

/-- A comma and the value behind it. -/
def commaThen (r : Rule α) : Rule (Token × α) := (Sequence.cons (literal ",") (.one r)).toRule

theorem commaList_none (h : Declines r ts) : (commaList r).read ts = .accept [] ts := by
  have hdeclines : Declines (commaSeparated r) ts := .map _ (.cons _ h)
  exact map_accept.mpr ⟨none, optional_declines hdeclines, rfl⟩

theorem commaList_some {more : List (Token × α)} (h : r.read ts = .accept a ts')
    (hmore : Rule.repeatRead (commaThen r) ts'.length ts' = .accept more rest) :
    (commaList r).read ts = .accept (a :: more.map Prod.snd) rest := by
  have hsome : (commaSeparated r).read ts = .accept (a :: more.map Prod.snd) rest :=
    map_accept.mpr ⟨(a, more), accept_cons h hmore, rfl⟩
  exact map_accept.mpr ⟨some _, optional_accept hsome, rfl⟩

end Commas

end Resumable.Source
