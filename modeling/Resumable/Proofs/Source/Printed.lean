import Resumable.Proofs.Source.Parsing
import Resumable.Proofs.Source.Precedence

/-!
# Printed expressions read back

An expression that can be written in a scope, printed and put as an argument into the call of a host
method, is read and resolved in this scope without a fault, and gives itself again up to origins
(`printed_reads_back`).  The proof goes along the expression: each part is read as one operand, in
front of any tokens that do not go on with it.
-/

set_option autoImplicit false

namespace Resumable.Source

open Resumable.Text Resumable.Symbol Resumable.Tree

variable {α β : Type}

/-! ## Expressions up to origins -/

mutual

/-- The expression with no node knowing where it comes from. -/
def unplacedExpr : Expr → Expr
  | .absent => .absent
  | .literal _ v t => .literal {} v t
  | .localRef _ l => .localRef {} l
  | .parameterRef _ q => .parameterRef {} q
  | .fieldRef _ r f => .fieldRef {} (unplacedExpr r) f
  | .this _ t => .this {} t
  | .assignment _ target value => .assignment {} (unplacedExpr target) (unplacedExpr value)
  | .binary _ op left right => .binary {} op (unplacedExpr left) (unplacedExpr right)
  | .unary _ op operand => .unary {} op (unplacedExpr operand)
  | .call _ r m args => .call {} (unplacedExpr r) m (unplacedExprs args)
  | .foreign _ n d => .foreign {} n d

/-- The expressions with no node knowing where it comes from. -/
def unplacedExprs : List Expr → List Expr
  | [] => []
  | e :: rest => unplacedExpr e :: unplacedExprs rest

end

/-! ## Resolution without faults -/

/-- Each name stands for the same host method as in `hosts`. -/
def Progress.Agrees (hosts : List Method) (p : Progress) : Prop :=
  ∀ name, hostOf p.hosts name = hostOf hosts name

/-- A step that reports no fault, changes the host method of no name, and gives something good. -/
def Resolve.Yields (hosts : List Method) (x : Resolve α) (good : α → Prop) : Prop :=
  ∀ p : Progress, p.Agrees hosts →
    good (x p).1 ∧ (x p).2.Agrees hosts ∧ (x p).2.faults = p.faults

namespace Resolve.Yields

variable {hosts : List Method} {x : Resolve α} {f : α → Resolve β} {good good' : α → Prop}
  {next : β → Prop}

theorem pure {a : α} (h : good a) : Yields hosts (Pure.pure a : Resolve α) good :=
  fun _ hp => ⟨h, hp, rfl⟩

theorem bind (hx : Yields hosts x good) (hf : ∀ a, good a → Yields hosts (f a) next) :
    Yields hosts (x >>= f) next := fun p hp => by
  obtain ⟨ha, hm, hfaults⟩ := hx p hp
  obtain ⟨hb, hq, hfaults'⟩ := hf (x p).1 ha (x p).2 hm
  exact ⟨hb, hq, hfaults'.trans hfaults⟩

/-- The host method of a name. -/
theorem host (name : String) : Yields hosts (Resolve.host name) fun m => m = hostOf hosts name := by
  intro p hp
  rw [host_eq, ← hp name]
  cases hfind : p.hosts.find? fun h => h.name == name with
  | some m => exact ⟨by simp [hostOf, hfind], hp, rfl⟩
  | none =>
    refine ⟨by simp [hostOf, hfind], fun name' => ?_, rfl⟩
    have hkept : p.hosts.filter (fun h => h.name != name) = p.hosts :=
      List.filter_eq_self.mpr fun h hh => by simpa using List.find?_eq_none.mp hfind h hh
    rw [← hp name']
    simp only [hostOf, hkept, List.find?_append]
    cases hname : p.hosts.find? fun h => h.name == name' with
    | some m => rfl
    | none =>
      by_cases heq : name = name'
      · subst heq
        simp [Method.host]
      · simp [Method.host, heq]

end Resolve.Yields

/-! ## Signs -/

/-- The words of a printed expression that are not dropped. -/
def signsExpr (e : Expr) : List Word := (wordsExpr e).filter isSolid

/-- The words of printed expressions with commas between them that are not dropped. -/
def signsExprs (es : List Expr) : List Word := (wordsExprs es).filter isSolid

/-- The words of further expressions, each behind a comma. -/
def signsMore (es : List Expr) : List Word := es.flatMap fun e => mark "," :: signsExpr e

theorem signsExpr_constant (o : Origin) (value : Constant) (type : Option Ty) :
    signsExpr (.literal o value type) = [wordConstant value] := by
  cases value <;> rfl

theorem signsExpr_binary (o : Origin) (op : BinaryOp) (left right : Expr) :
    signsExpr (.binary o op left right) =
      mark "(" :: (signsExpr left ++ (.operator, op.symbol) :: (signsExpr right ++ [mark ")"])) := by
  simp [signsExpr, wordsExpr, List.filter_append, isSolid, mark, blank]

theorem signsExpr_unary (o : Origin) (op : UnaryOp) (operand : Expr) :
    signsExpr (.unary o op operand) = (.operator, op.symbol) :: signsExpr operand := by
  simp [signsExpr, wordsExpr, isSolid]

theorem signsExpr_call (o : Origin) (r : Expr) (m : Method) (args : List Expr) :
    signsExpr (.call o r m args) =
      (.ident, m.name) :: mark "(" :: (signsExprs args ++ [mark ")"]) := by
  simp [signsExpr, signsExprs, wordsExpr, List.filter_append, isSolid, mark]

theorem signsExprs_cons : ∀ (e : Expr) (es : List Expr),
    signsExprs (e :: es) = signsExpr e ++ signsMore es
  | e, [] => (List.append_nil _).symm
  | e, e' :: es => by
    have hrest := signsExprs_cons e' es
    have hcomma : signsExprs (e :: e' :: es) =
        signsExpr e ++ mark "," :: signsExprs (e' :: es) := by
      simp [signsExprs, signsExpr, wordsExprs, List.filter_append, isSolid, mark,
        blank]
    rw [hcomma, hrest, signsMore, signsMore, List.flatMap_cons, List.cons_append]

theorem length_signsExpr_le {e : Expr} : ∀ {es : List Expr}, e ∈ es →
    (signsExpr e).length ≤ (signsExprs es).length
  | e' :: es, h => by
    rw [signsExprs_cons, List.length_append]
    rcases List.mem_cons.mp h with rfl | h
    · exact Nat.le_add_right _ _
    · have hmore : (mark "," :: signsExpr e).Sublist (signsMore es) :=
        List.sublist_flatten_of_mem (List.mem_map_of_mem h)
      have hlength := hmore.length_le
      simp only [List.length_cons] at hlength
      omega

/-! ## Atoms -/

open Grammar

variable {v : Visible} {hosts : List Method} {levels : Nat}

/-- The tokens of a printed expression are read by the rule, in front of any tokens that do not go
on with it, and resolved to this expression. -/
def Rereads (hosts : List Method) (r : Rule α)
    (resolve : Provenance → α → Resolve Expr) (follows : List Token → Prop) (e : Expr) : Prop :=
  ∀ ts rest, ts.map Token.word = signsExpr e → follows rest →
    ∃ a, r.read (ts ++ rest) = .accept a rest ∧
      ∀ p, (resolve p a).Yields hosts fun e' => unplacedExpr e' = unplacedExpr e

/-- Neither a call nor an operator goes on here. -/
def Stops (ts : List Token) : Prop := Unlike "(" ts ∧ NoOperator ts

theorem stops_mark {t : Token} {s : String} (h : t.word = mark s) (hs : s ∈ [")", ",", ";"])
    (rest : List Token) : Stops (t :: rest) := by
  have htext : t.text = s := congrArg Prod.snd h
  have hall : ∀ text, s ≠ text → Unlike text (t :: rest) := by
    rintro text hne _ ⟨⟩
    rwa [htext]
  simp only [List.mem_cons, List.not_mem_nil, or_false] at hs
  rcases hs with rfl | rfl | rfl <;> exact ⟨hall _ (by decide), fun op hop => hall _ (by
    revert op
    decide)⟩

theorem unlike_operator {t : Token} {op : BinaryOp} (hop : op ∈ BinaryOp.all)
    (h : t.word = (.operator, op.symbol)) (rest : List Token) : Unlike "(" (t :: rest) := by
  have hsymbol : ∀ op ∈ BinaryOp.all, op.symbol ≠ "(" := by decide
  rintro _ ⟨⟩
  rw [show t.text = op.symbol from congrArg Prod.snd h]
  exact hsymbol op hop

/-- An operand without a unary operator is read as an atom, and every one as an operand. -/
structure Reread (v : Visible) (hosts : List Method) (levels : Nat) (e : Expr) : Prop where
  atom : (e matches .unary ..) = false →
    Rereads hosts (atom (chain levels)) (Atom.resolve v) (Unlike "(") e
  operand : Rereads hosts (operand (chain levels)) (Operand.resolve v) (Unlike "(") e

/-- The one token of a word. -/
theorem single_of_map {ts : List Token} {w : Word} (h : ts.map Token.word = [w]) :
    ∃ t, ts = [t] ∧ t.word = w := List.map_eq_singleton_iff.mp h

theorem rereads_literal {o : Origin} {value : Constant} {type : Option Ty}
    (h : readableExpr v hosts (.literal o value type) = true) :
    Rereads hosts (atom (chain levels)) (Atom.resolve v) (Unlike "(") (.literal o value type) := by
  intro ts rest hts hrest
  rw [signsExpr_constant] at hts
  obtain ⟨t, rfl, ht⟩ := single_of_map hts
  cases value with
  | null =>
    cases of_decide_eq_true h
    exact ⟨_, atom_null ht hrest, fun p => .pure rfl⟩
  | bool b =>
    cases of_decide_eq_true h
    exact ⟨_, atom_bool ht hrest, fun p => .pure rfl⟩
  | string text =>
    cases of_decide_eq_true h
    obtain ⟨hkind, htext⟩ := Prod.mk.inj ht
    refine ⟨_, atom_string hkind, fun p => ?_⟩
    rw [Atom.resolve, htext, unquote_quoteBytes]
    exact .pure rfl
  | int n =>
    simp only [readableExpr, typedConstant, Bool.and_eq_true, decide_eq_true_eq] at h
    obtain ⟨⟨hn, hsmall⟩, rfl⟩ := h
    obtain ⟨k, rfl⟩ := Int.eq_ofNat_of_zero_le hn
    obtain ⟨hkind, htext⟩ := Prod.mk.inj ht
    refine ⟨_, atom_integer hkind, fun p => ?_⟩
    rw [Atom.resolve, htext, Numeral.decimal_toString (by omega)]
    exact .pure rfl

theorem lookup_local {name : String} {l : Local} (h : v.local? name = some l) (place : Position)
    (p : Provenance) : Resolve.lookup v name place p = Pure.pure (.localRef (.bound p) l) := by
  unfold Visible.local? at h
  simp only [Resolve.lookup, h]

theorem lookup_param {name : String} {q : Param} (hlocal : v.local? name = none)
    (h : v.param? name = some q) (place : Position) (p : Provenance) :
    Resolve.lookup v name place p = Pure.pure (.parameterRef (.bound p) q) := by
  unfold Visible.local? at hlocal
  unfold Visible.param? at h
  simp only [Resolve.lookup, hlocal, h]

theorem rereads_local {o : Origin} {l : Local}
    (h : readableExpr v hosts (.localRef o l) = true) :
    Rereads hosts (atom (chain levels)) (Atom.resolve v) (Unlike "(") (.localRef o l) := by
  intro ts rest hts hrest
  simp only [readableExpr, isName, Bool.and_eq_true, decide_eq_true_eq] at h
  obtain ⟨t, rfl, ht⟩ := single_of_map hts
  refine ⟨_, atom_name ht h.1.2 hrest, fun p => ?_⟩
  rw [Atom.resolve, lookup_local h.2]
  exact .pure rfl

theorem rereads_parameter {o : Origin} {q : Param}
    (h : readableExpr v hosts (.parameterRef o q) = true) :
    Rereads hosts (atom (chain levels)) (Atom.resolve v) (Unlike "(") (.parameterRef o q) := by
  intro ts rest hts hrest
  simp only [readableExpr, isName, Bool.and_eq_true, decide_eq_true_eq] at h
  obtain ⟨t, rfl, ht⟩ := single_of_map hts
  refine ⟨_, atom_name ht h.1.1.2 hrest, fun p => ?_⟩
  rw [Atom.resolve, lookup_param h.1.2 h.2]
  exact .pure rfl

/-! ## Operands -/

/-- The first token of an operand without a unary operator is not that of such an operator. -/
theorem unlike_unary {e : Expr} (h : readableExpr v hosts e = true)
    (hunary : (e matches .unary ..) = false) {ts : List Token}
    (hts : ts.map Token.word = signsExpr e) {text : String} {d : Char} (htext : text.toList = [d])
    (hd : Lexer.isAtomStart d = false) (rest : List Token) : Unlike text (ts ++ rest) := by
  obtain ⟨w, ws, c, cs, hwords, hsolid, hw, hc⟩ := Lexer.atom_start h hunary
  rw [signsExpr, hwords, List.filter_cons_of_pos hsolid] at hts
  obtain ⟨t, ts, rfl, ht, -⟩ := List.map_eq_cons_iff.mp hts
  rintro _ ⟨⟩ heq
  have hsecond : t.text = w.2 := congrArg Prod.snd ht
  rw [heq] at hsecond
  rw [← hsecond, htext] at hw
  obtain ⟨rfl, -⟩ := List.cons.inj hw
  rw [hd] at hc
  cases hc

/-- What is read as an atom is read as an operand. -/
theorem Reread.of_atom {e : Expr} (h : readableExpr v hosts e = true)
    (hunary : (e matches .unary ..) = false)
    (hatom : Rereads hosts (Grammar.atom (chain levels)) (Atom.resolve v) (Unlike "(") e) :
    Reread v hosts levels e where
  atom _ := hatom
  operand ts rest hts hrest := by
    obtain ⟨a, hread, hresolve⟩ := hatom ts rest hts hrest
    obtain ⟨span, hoperand⟩ := operand_plain
      (unaryOp_declines (unlike_unary h hunary hts rfl (by decide) rest)
        (unlike_unary h hunary hts rfl (by decide) rest)) hread
    exact ⟨_, hoperand, fun p => by rw [Operand.resolve]; exact hresolve _⟩

theorem Reread.unary {o : Origin} {op : UnaryOp} {operand : Expr} (hop : op ∈ [.neg, .not])
    (hne : (operand matches .unary ..) = false) (hoperand : Reread v hosts levels operand) :
    Reread v hosts levels (.unary o op operand) where
  atom hunary := nomatch hunary
  operand ts rest hts hrest := by
    rw [signsExpr_unary] at hts
    obtain ⟨t, ts, rfl, ht, hts⟩ := List.map_eq_cons_iff.mp hts
    obtain ⟨a, hread, hresolve⟩ := hoperand.atom hne ts rest hts hrest
    obtain ⟨span, hread⟩ := operand_unary hop ht hread
    refine ⟨_, hread, fun p => ?_⟩
    rw [Operand.resolve]
    exact (hresolve _).bind fun e' he' => .pure (by simp only [unplacedExpr, he'])

/-- One operator is at the root of its tree. -/
theorem operatorTree_one {op : BinaryOp} (hop : op ∈ BinaryOp.all) (origin : Origin)
    (left right : Expr) : operatorTree origin left [(op, right)] = .binary origin op left right := by
  have hpositive : ¬op.precedence ≤ 0 := by
    rw [precedence_eq hop]
    omega
  simp [operatorTree, climb, hpositive]

theorem Rereads.binary {o : Origin} {op : BinaryOp} {left right : Expr} (hop : op ∈ BinaryOp.all)
    (hleft : Reread v hosts levels left) (hright : Reread v hosts levels right) :
    Rereads hosts (atom (chain (levels + 1))) (Atom.resolve v) (Unlike "(")
      (.binary o op left right) := by
  intro ts rest hts hrest
  rw [signsExpr_binary] at hts
  obtain ⟨opening, _, rfl, hopening, hts⟩ := List.map_eq_cons_iff.mp hts
  obtain ⟨lefts, _, rfl, hlefts, hts⟩ := List.map_eq_append_iff.mp hts
  obtain ⟨operator, _, rfl, hoperator, hts⟩ := List.map_eq_cons_iff.mp hts
  obtain ⟨rights, _, rfl, hrights, hts⟩ := List.map_eq_append_iff.mp hts
  obtain ⟨closing, rfl, hclosing⟩ := single_of_map hts
  have hstops : Stops (closing :: rest) := stops_mark hclosing (by decide) rest
  obtain ⟨a, hread, hresolve⟩ := hleft.operand lefts (operator :: (rights ++ closing :: rest)) hlefts
    (unlike_operator hop hoperator _)
  obtain ⟨b, hread', hresolve'⟩ := hright.operand rights (closing :: rest) hrights hstops.1
  have hchain := chain_link hread hop hoperator hread' hstops.2
  refine ⟨.parens (.link a op (.last b)), ?_, fun p => ?_⟩
  · simpa using parens_accept hopening hchain hclosing
  · have hlink : ((Chain.last b).resolveLinks v p).Yields hosts fun r =>
        unplacedExpr r.1 = unplacedExpr right ∧ r.2 = [] := by
      rw [Chain.resolveLinks]
      exact (hresolve' p).bind fun e he => .pure ⟨he, rfl⟩
    rw [Atom.resolve, Chain.resolve]
    refine (hresolve p).bind fun e he => hlink.bind fun r hr => .pure ?_
    obtain ⟨he', hothers⟩ := hr
    simp only [hothers, operatorTree_one hop, unplacedExpr, he, he']

/-- An operand alone is a chain. -/
theorem Reread.chain {e : Expr} (h : Reread v hosts levels e) :
    Rereads hosts (Grammar.chain (levels + 1)) (Chain.resolve v) Stops e := by
  intro ts rest hts hrest
  obtain ⟨a, hread, hresolve⟩ := h.operand ts rest hts hrest.1
  refine ⟨.last a, chain_last hread hrest.2, fun p => ?_⟩
  rw [Chain.resolve]
  exact (hresolve p).bind fun e' he' => .pure he'

/-! ## Arguments -/

theorem stops_more {es : List Expr} {ts : List Token} (hts : ts.map Token.word = signsMore es)
    {closing : Token} (hclosing : closing.word = mark ")") (rest : List Token) :
    Stops (ts ++ closing :: rest) := by
  cases es with
  | nil =>
    obtain rfl := List.map_eq_nil_iff.mp hts
    exact stops_mark hclosing (by decide) rest
  | cons e es =>
    obtain ⟨comma, ts, rfl, hcomma, -⟩ := List.map_eq_cons_iff.mp hts
    exact stops_mark hcomma (by decide) _

/-- Further arguments are read and resolved one after the other. -/
theorem rereads_more : ∀ {es : List Expr} {ts : List Token} {closing : Token} (rest : List Token)
    (rounds : Nat), (∀ e ∈ es, Reread v hosts levels e) → ts.map Token.word = signsMore es →
    closing.word = mark ")" → ts.length ≤ rounds →
    ∃ more, Rule.repeatRead (commaThen (chain (levels + 1))) rounds (ts ++ closing :: rest) =
        .accept more (closing :: rest) ∧
      ∀ p, (Chain.resolveAll v p (more.map Prod.snd)).Yields hosts fun es' =>
        unplacedExprs es' = unplacedExprs es
  | [], ts, closing, rest, rounds, _, hts, hclosing, _ => by
    obtain rfl := List.map_eq_nil_iff.mp hts
    have hunlike : Unlike "," (closing :: rest) := by
      rintro _ ⟨⟩
      rw [show closing.text = ")" from congrArg Prod.snd hclosing]
      decide
    exact ⟨[], repeatRead_declines (.cons _ (.literal hunlike)) rounds, fun p => .pure rfl⟩
  | e :: es, ts, closing, rest, rounds, hes, hts, hclosing, hrounds => by
    obtain ⟨comma, _, rfl, hcomma, hts⟩ := List.map_eq_cons_iff.mp hts
    obtain ⟨args, others, rfl, hargs, hothers⟩ := List.map_eq_append_iff.mp hts
    obtain ⟨rounds, rfl⟩ : ∃ k, rounds = k + 1 := ⟨rounds - 1, by simp at hrounds; omega⟩
    obtain ⟨a, hread, hresolve⟩ := (hes e List.mem_cons_self).chain args (others ++ closing :: rest)
      hargs (stops_more hothers hclosing rest)
    obtain ⟨more, hmore, hresolve'⟩ := rereads_more rest rounds
      (fun e' he' => hes e' (List.mem_cons_of_mem _ he')) hothers hclosing
      (by simp at hrounds; omega)
    refine ⟨(comma, a) :: more, ?_, fun p => ?_⟩
    · have hfirst : (commaThen (chain (levels + 1))).read
          (comma :: (args ++ (others ++ closing :: rest))) =
            .accept (comma, a) (others ++ closing :: rest) :=
        accept_cons (mark_accept hcomma _) hread
      simpa using repeatRead_step hfirst hmore
    · simp only [List.map_cons, Chain.resolveAll]
      refine (hresolve p).bind fun e' he' => (hresolve' p).bind fun es' hes' => .pure ?_
      simp only [unplacedExprs, he', hes']

/-- All arguments are read and resolved. -/
theorem rereads_args {es : List Expr} (hes : ∀ e ∈ es, Reread v hosts levels e) {ts : List Token}
    (hts : ts.map Token.word = signsExprs es) {closing : Token} (hclosing : closing.word = mark ")")
    (rest : List Token) :
    ∃ args, (commaList (chain (levels + 1))).read (ts ++ closing :: rest) =
        .accept args (closing :: rest) ∧
      ∀ p, (Chain.resolveAll v p args).Yields hosts fun es' =>
        unplacedExprs es' = unplacedExprs es := by
  cases es with
  | nil =>
    obtain rfl := List.map_eq_nil_iff.mp hts
    exact ⟨[], commaList_none (chain_declines hclosing _), fun p => .pure rfl⟩
  | cons e es =>
    rw [signsExprs_cons] at hts
    obtain ⟨first, others, rfl, hfirst, hothers⟩ := List.map_eq_append_iff.mp hts
    obtain ⟨a, hread, hresolve⟩ := (hes e List.mem_cons_self).chain first (others ++ closing :: rest)
      hfirst (stops_more hothers hclosing rest)
    obtain ⟨more, hmore, hresolve'⟩ := rereads_more rest (others ++ closing :: rest).length
      (fun e' he' => hes e' (List.mem_cons_of_mem _ he')) hothers hclosing (by simp)
    refine ⟨a :: more.map Prod.snd, ?_, fun p => ?_⟩
    · rw [List.append_assoc]
      exact commaList_some hread hmore
    · simp only [Chain.resolveAll]
      refine (hresolve p).bind fun e' he' => (hresolve' p).bind fun es' hes' => .pure ?_
      simp only [unplacedExprs, he', hes']

theorem Rereads.call {o : Origin} {m : Method} {args : List Expr} (hm : m = hostOf hosts m.name)
    (hargs : ∀ e ∈ args, Reread v hosts levels e) :
    Rereads hosts (atom (chain (levels + 1))) (Atom.resolve v) (Unlike "(")
      (.call o .absent m args) := by
  intro ts rest hts hrest
  rw [signsExpr_call] at hts
  obtain ⟨name, _, rfl, hname, hts⟩ := List.map_eq_cons_iff.mp hts
  obtain ⟨opening, _, rfl, hopening, hts⟩ := List.map_eq_cons_iff.mp hts
  obtain ⟨inner, _, rfl, hinner, hts⟩ := List.map_eq_append_iff.mp hts
  obtain ⟨closing, rfl, hclosing⟩ := single_of_map hts
  obtain ⟨as, hread, hresolve⟩ := rereads_args hargs hinner hclosing rest
  obtain ⟨hkind, htext⟩ := Prod.mk.inj hname
  refine ⟨.call name.text as, by simpa using call_accept hkind hopening hread hclosing, fun p => ?_⟩
  rw [Atom.resolve, htext]
  refine (hresolve p).bind fun es hes => (Resolve.Yields.host m.name).bind fun m' hm' => .pure ?_
  simp only [unplacedExpr, hes, hm', ← hm]

/-! ## Expressions -/

mutual

/-- An expression that can be written is read back. -/
theorem reread : ∀ {e : Expr} {levels : Nat}, readableExpr v hosts e = true →
    (signsExpr e).length ≤ levels → Reread v hosts levels e
  | .literal .., _, h, _ => .of_atom h rfl (rereads_literal h)
  | .localRef .., _, h, _ => .of_atom h rfl (rereads_local h)
  | .parameterRef .., _, h, _ => .of_atom h rfl (rereads_parameter h)
  | .binary _ op left right, levels, h, hlevels => by
    refine .of_atom h rfl ?_
    simp only [readableExpr, Bool.and_eq_true, decide_eq_true_eq] at h
    simp only [signsExpr_binary, List.length_cons, List.length_append] at hlevels
    obtain ⟨levels, rfl⟩ : ∃ k, levels = k + 1 := ⟨levels - 1, by omega⟩
    exact .binary h.1.1 (reread h.1.2 (by omega)) (reread h.2 (by omega))
  | .unary _ op operand, levels, h, hlevels => by
    simp only [readableExpr, Bool.and_eq_true, decide_eq_true_eq, Bool.not_eq_true'] at h
    simp only [signsExpr_unary, List.length_cons] at hlevels
    exact .unary h.1.1 h.1.2 (reread h.2 (by omega))
  | .call _ r m args, levels, h, hlevels => by
    refine .of_atom h rfl ?_
    simp only [readableExpr, Bool.and_eq_true, decide_eq_true_eq] at h
    simp only [signsExpr_call, List.length_cons, List.length_append] at hlevels
    obtain ⟨levels, rfl⟩ : ∃ k, levels = k + 1 := ⟨levels - 1, by omega⟩
    cases r with
    | absent =>
      refine .call h.1.2 (rereads h.2 fun e he => ?_)
      have hlength := length_signsExpr_le he
      omega
    | _ => cases h.1.1.1
  | .absent, _, h, _ | .fieldRef .., _, h, _ | .this .., _, h, _ | .assignment .., _, h, _
  | .foreign .., _, h, _ => nomatch h

theorem rereads : ∀ {es : List Expr} {levels : Nat}, readableExprs v hosts es = true →
    (∀ e ∈ es, (signsExpr e).length ≤ levels) → ∀ e ∈ es, Reread v hosts levels e
  | [], _, _, _, _, he => nomatch he
  | e :: es, levels, h, hlevels, e', he' => by
    simp only [readableExprs, Bool.and_eq_true] at h
    rcases List.mem_cons.mp he' with heq | he'
    · rw [heq]
      exact reread h.1 (hlevels e List.mem_cons_self)
    · exact rereads h.2 (fun e he => hlevels e (List.mem_cons_of_mem _ he)) e' he'

end

/-! ## Calls as statements -/

theorem name_hostOf (hosts : List Method) (name : String) : (hostOf hosts name).name = name := by
  unfold hostOf
  cases h : hosts.find? fun m => m.name == name with
  | none => rfl
  | some m => simpa using List.find?_some h

/-- What is a call of one argument, up to origins, is one. -/
theorem call_of_unplacedExpr {e' e : Expr} {o : Origin} {m : Method}
    (h : unplacedExpr e' = unplacedExpr (.call o .absent m [e])) :
    ∃ o' e'', e' = .call o' .absent m [e''] ∧ unplacedExpr e'' = unplacedExpr e := by
  cases e' with
  | call o' r m' args =>
    simp only [unplacedExpr, unplacedExprs, Expr.call.injEq, true_and] at h
    obtain ⟨hr, rfl, hargs⟩ := h
    obtain rfl : r = .absent := by
      cases r <;> first | rfl | cases hr
    match args, hargs with
    | [e''], hargs => exact ⟨o', e'', rfl, (List.cons.inj hargs).1⟩
    | [], hargs => cases hargs
    | _ :: _ :: _, hargs => cases (List.cons.inj hargs).2
  | _ => simp [unplacedExpr] at h

/-- The tokens of a call and a semicolon are read as a statement, and this is resolved to the
call. -/
theorem reread_call (parent : Provenance) {p : Progress} {m : Method} {e : Expr} {depth : Nat}
    (h : readableExpr v p.hosts (.call {} .absent m [e]) = true)
    (hcallable : m.name ∉ ["return", "throw", "if", "while"]) {ts : List Token}
    (hts : ts.map Token.word = signsExpr (.call {} .absent m [e]) ++ [mark ";"])
    (hlevels : ts.length ≤ levels) (rest : List Token) :
    ∃ s o o' e' q, (statement (chain levels) (depth + 1)).read (ts ++ rest) = .accept s rest ∧
      (s.resolve v parent).run p = ((some (.expression o (.call o' .absent m [e'])), none), q) ∧
      unplacedExpr e' = unplacedExpr e ∧ q.faults = p.faults := by
  obtain ⟨call, _, rfl, hcall, hlast⟩ := List.map_eq_append_iff.mp hts
  obtain ⟨semicolon, rfl, hsemicolon⟩ := single_of_map hlast
  have hlength : call.length = (signsExpr (.call {} .absent m [e])).length := by
    rw [← List.length_map, hcall]
  obtain ⟨levels, rfl⟩ : ∃ k, levels = k + 1 := ⟨levels - 1, by simp at hlevels; omega⟩
  have hreread : Reread v p.hosts levels (.call {} .absent m [e]) :=
    reread h (by simp at hlevels; omega)
  obtain ⟨c, hread, hresolve⟩ := hreread.chain call (semicolon :: rest) hcall
    (stops_mark hsemicolon (by decide) rest)
  rw [signsExpr_call] at hcall
  obtain ⟨t, _, rfl, ht, hcall⟩ := List.map_eq_cons_iff.mp hcall
  obtain ⟨u, ts, rfl, hu, -⟩ := List.map_eq_cons_iff.mp hcall
  obtain ⟨hkind, htext⟩ := Prod.mk.inj ht
  simp only [readableExpr, Bool.and_eq_true] at h
  have hpicks : Picks (forms (chain (levels + 1)) (statement (chain (levels + 1)) depth))
      (t :: u :: (ts ++ semicolon :: rest)) (.expression c) rest :=
    call_statement hkind (htext ▸ h.1.1.2) (htext ▸ hcallable) hu hread hsemicolon
  obtain ⟨span, hform⟩ := located_of_accept hpicks.choice
  obtain ⟨he, -, hfaults⟩ := hresolve (parent.inside .statement span) p fun _ => rfl
  obtain ⟨o', e', hcall', he'⟩ := call_of_unplacedExpr he
  refine ⟨.mk span (.expression c), .bound (parent.inside .statement span), o', e', _, ?_, ?_, he',
    hfaults⟩
  · rw [List.append_assoc]
    exact map_accept.mpr ⟨_, hform, rfl⟩
  · rw [← hcall']
    rfl

/-- **Printed expressions read back.**  An expression that can be written where the names of `v` are
visible is printed and put as the argument into the call of a host method: any identifier but a
keyword that an expression in parentheses may follow.  The text is cut into tokens, in front of any
others these are read as one statement, and it is resolved without a fault to the call of the host
method with this expression, up to origins. -/
theorem printed_reads_back (v : Visible) (parent : Provenance) (p : Progress) (file name : String)
    (e : Expr) (hname : isIdent name = true) (hcallable : name ∉ ["return", "throw", "if", "while"])
    (he : readableExpr v p.hosts e = true) :
    ∃ ts eof, tokens file (name ++ "(" ++ e.render ++ ");") = .ok (ts ++ [eof]) ∧ eof.kind = .eof ∧
      ∀ levels depth rest, ts.length ≤ levels → ∃ s o o' e' q,
        (statement (chain levels) (depth + 1)).read (ts ++ rest) = .accept s rest ∧
        (s.resolve v parent).run p =
          ((some (.expression o (.call o' .absent (hostOf p.hosts name) [e'])), none), q) ∧
        unplacedExpr e' = unplacedExpr e ∧ q.faults = p.faults := by
  have hm : (hostOf p.hosts name).name = name := name_hostOf p.hosts name
  have hcall : readableExpr v p.hosts (.call {} .absent (hostOf p.hosts name) [e]) = true := by
    simp [readableExpr, readableExprs, Expr.isAbsent, hm, hname, he]
  have hsource : (name ++ "(" ++ e.render ++ ");").toList =
      spelling (wordsExpr (.call {} .absent (hostOf p.hosts name) [e]) ++ [mark ";"]) := by
    rw [spelling_append, spelling_wordsExpr hcall]
    simp [Expr.render, Expr.renderAll, hm, spelling, mark]
  have hcuts : Lexer.Cuts
      (wordsExpr (.call {} .absent (hostOf p.hosts name) [e]) ++ [mark ";"]) [] :=
    (Lexer.cuts_wordsExpr hcall (.mark (by decide) _ _)).append (.mark (by decide) trivial)
  obtain ⟨all, hall, hwords⟩ := tokens_cuts file hsource hcuts
  obtain ⟨ts, _, rfl, hts, hlast⟩ := List.map_eq_append_iff.mp hwords
  obtain ⟨eof, rfl, heof⟩ := single_of_map hlast
  rw [List.filter_append] at hts
  obtain ⟨hkind, -⟩ := Prod.mk.inj heof
  exact ⟨ts, eof, hall, hkind, fun levels depth rest hlevels =>
    reread_call parent hcall (by rwa [hm]) hts hlevels rest⟩

/-- A scope with a local that is named like a keyword, and a parameter. -/
def crowdedScope : Visible where
  params := [{ name := "x", type := some .int, ordinal := 0 }]
  scopes := [[{ number := 0, name := "while", type := some .int }]]

/-- The expression `((while - -(7 * x)) && !if("\"", null))`. -/
def crowded : Expr :=
  let difference := Expr.binary {} .sub
    (.localRef {} { number := 0, name := "while", type := some .int })
    (.unary {} .neg (.binary {} .mul (.literal {} (.int 7) (some .int))
      (.parameterRef {} { name := "x", type := some .int, ordinal := 0 })))
  .binary {} .and difference (.unary {} .not (.call {} .absent (.host "if" (some .object))
    [.literal {} (.string [34]) (some .string), .literal {} .null (some .object)]))

theorem printed_reads_back_crowded :
    crowded.render = "((while - -(7 * x)) && !if(\"\\\"\", null))" ∧
    readableExpr crowdedScope [] crowded = true ∧
    ∃ ts eof s, tokens "" ("yield" ++ "(" ++ crowded.render ++ ");") = .ok (ts ++ [eof]) ∧
      (statement (chain ts.length) 1).read ts = .accept s [] ∧
      ((s.resolve crowdedScope default).run {}).2.faults = [] := by
  have hreadable : readableExpr crowdedScope [] crowded = true := by decide
  obtain ⟨ts, eof, htokens, -, hread⟩ := printed_reads_back crowdedScope default {} "" "yield" crowded
    (by decide) (by decide) hreadable
  obtain ⟨s, o, o', e', q, hread, hresolve, -, hfaults⟩ := hread ts.length 0 [] (Nat.le_refl _)
  rw [List.append_nil] at hread
  exact ⟨by decide, hreadable, ts, eof, s, htokens, hread, by rw [hresolve]; exact hfaults⟩

end Resumable.Source
