import Mathlib.Data.List.Nodup
import Resumable.Proofs.Source.Resolution
import Resumable.Proofs.Tree.Census

/-!
# Locals of a resolved method

Each local of a method is declared once, by a block or as the variable of a handler, and it is
referred to only inside of what declares it (`scoped_methods`).  Locals are numbered in the order in
which they are resolved, so two of one name have different numbers.
-/

set_option autoImplicit false

namespace Resumable.Source

open Resumable.Text Resumable.Report Resumable.Symbol Resumable.Tree

variable {α : Type}

/-! ## Declarations and references -/

/-- The locals that are declared: by a block, or as the variable of a handler. -/
def declarations : Tally (Local × Bool) where
  locals ls xs := ls.map (·, true) ++ xs
  handler l xs := l.toList.map (·, false) ++ xs

/-- The locals that are referred to outside of what declares them. -/
def unbound : Tally Local where
  ref
    | .localRef _ l => [l]
    | _ => []
  locals ls xs := xs.filter (· ∉ ls)
  handler l xs := xs.filter (· ∉ l)

theorem declarations_expr (e : Expr) : declarations.expr e = [] :=
  Tally.expr_eq_nil (fun _ => rfl) e

theorem declarations_braces (o : Origin) : declarations.braces o = [] :=
  Tally.braces_eq_nil (fun _ => rfl) o

theorem unbound_braces (o : Origin) : unbound.braces o = [] := Tally.braces_eq_nil (fun _ => rfl) o

/-- What is declared and referred to between two steps of a resolution, where the locals in `scope`
are visible: what is declared has numbers that were given in between, all different. -/
structure Scoped (scope : List Local) (p : Progress) (declared : List (Local × Bool))
    (used : List Local) (q : Progress) : Prop where
  grows : p.localCount ≤ q.localCount
  numbers : ∀ d ∈ declared, p.localCount ≤ d.1.number ∧ d.1.number < q.localCount
  nodup : (declared.map fun d => d.1.number).Nodup
  visible : ∀ l ∈ used, l ∈ scope

namespace Scoped

variable {scope scope' : List Local} {p q m : Progress} {ds ds' : List (Local × Bool)}
  {us us' : List Local}

/-- Expressions declare nothing. -/
theorem still (hcount : q.localCount = p.localCount) (hvisible : ∀ l ∈ us, l ∈ scope) :
    Scoped scope p [] us q :=
  ⟨Nat.le_of_eq hcount.symm, fun _ hd => (nomatch hd), .nil, hvisible⟩

theorem mono (h : Scoped scope p ds us q) (hscope : ∀ l ∈ us, l ∈ scope → l ∈ scope') :
    Scoped scope' p ds us q :=
  ⟨h.grows, h.numbers, h.nodup, fun l hl => hscope l hl (h.visible l hl)⟩

theorem perm (h : Scoped scope p ds us q) (hds : ds.Perm ds') : Scoped scope p ds' us q :=
  ⟨h.grows, fun d hd => h.numbers d (hds.mem_iff.mpr hd), (hds.map _).nodup_iff.mp h.nodup,
    h.visible⟩

theorem append (h : Scoped scope p ds us m) (h' : Scoped scope m ds' us' q) :
    Scoped scope p (ds ++ ds') (us ++ us') q where
  grows := Nat.le_trans h.grows h'.grows
  numbers d hd := by
    rcases List.mem_append.mp hd with hd | hd
    · exact ⟨(h.numbers d hd).1, Nat.lt_of_lt_of_le (h.numbers d hd).2 h'.grows⟩
    · exact ⟨Nat.le_trans h.grows (h'.numbers d hd).1, (h'.numbers d hd).2⟩
  nodup := by
    rw [List.map_append]
    refine h.nodup.append h'.nodup fun n hn hn' => ?_
    obtain ⟨d, hd, rfl⟩ := List.mem_map.mp hn
    obtain ⟨d', hd', heq⟩ := List.mem_map.mp hn'
    have hbefore := (h.numbers d hd).2
    have hbehind := (h'.numbers d' hd').1
    omega
  visible l hl := (List.mem_append.mp hl).elim (h.visible l) (h'.visible l)

/-- A new local. -/
theorem new {l : Local} (hnumber : l.number = p.localCount)
    (hcount : q.localCount = p.localCount + 1) (b : Bool) : Scoped scope p [(l, b)] [] q where
  grows := by omega
  numbers d hd := by
    rw [List.mem_singleton.mp hd]
    show p.localCount ≤ l.number ∧ l.number < q.localCount
    omega
  nodup := List.nodup_singleton _
  visible _ hl := nomatch hl

end Scoped

/-! ## Steps that declare nothing -/

namespace Resolve.Gives

/-- What can be said of a step without faults, and what always can. -/
theorem and {x : Resolve α} {post : Progress → α → Progress → Prop} (h : Gives x post)
    (post' : Progress → α → Progress → Prop) (h' : ∀ p, post' p (x p).1 (x p).2) :
    Gives x fun p a q => post p a q ∧ post' p a q where
  grows := h.grows
  sound := h.sound
  post p hp hq := ⟨h.post p hp hq, h' p⟩

theorem host_count (name : String) :
    Gives (Resolve.host name) fun p _ q => q.localCount = p.localCount := by
  refine ((host name).and (fun p _ q => q.localCount = p.localCount) fun p => ?_).weaken
    fun _ _ _ _ h => h.2
  rw [host_eq]
  cases p.hosts.find? fun h => h.name == name <;> rfl

theorem updateLabel_count (name : String) (f : LabelUse → LabelUse) (p : Progress) :
    (Resolve.updateLabel name f p).2.localCount = p.localCount := by
  show (if p.labels.any fun use => use.name == name then
      { p with labels := p.labels.map fun use => if use.name == name then f use else use }
    else { p with labels := p.labels ++ [f { name }] } : Progress).localCount = _
  split <;> rfl

theorem useLabel_count (name : String) (position : Position) :
    Gives (Resolve.useLabel name position) fun p _ q => q.localCount = p.localCount :=
  ((useLabel name position).and (fun p _ q => q.localCount = p.localCount)
    fun p => updateLabel_count name _ p).weaken fun _ _ _ _ h => h.2

theorem declareLabel_count (name : String) (position : Position) :
    Gives (Resolve.declareLabel name position) fun p _ q => q.localCount = p.localCount := by
  refine (get.bind fun known => checked _ _ ((updateLabel name _).and
    (fun p _ q => q.localCount = p.localCount)
      fun p => updateLabel_count name _ p)).weaken ?_
  rintro p _ q - ⟨_, p, ⟨rfl, rfl⟩, -, -, hcount⟩
  exact hcount

theorem newLoop_count :
    Gives Resolve.newLoop fun p _ q => q.localCount = p.localCount :=
  (newLoop.and (fun p _ q => q.localCount = p.localCount) fun _ => rfl).weaken
    fun _ _ _ _ h => h.2

theorem newLocal_count (name : String) (type : Ty) :
    Gives (Resolve.newLocal name type) fun p l q =>
      l.number = p.localCount ∧ q.localCount = p.localCount + 1 :=
  ((newLocal name type).and (fun p l q =>
    l.number = p.localCount ∧ q.localCount = p.localCount + 1) fun _ => ⟨rfl, rfl⟩).weaken
      fun _ _ _ _ h => h.2

end Resolve.Gives

/-! ## Expressions -/

/-- The locals that can be seen, inner ones first. -/
def Visible.locals (v : Visible) : List Local := v.scopes.flatten

/-- The expression refers to locals that can be seen. -/
def SeenBy (visible : Visible) (e : Expr) : Prop := ∀ l ∈ unbound.expr e, l ∈ visible.locals

/-- The step declares nothing and gives such an expression. -/
def Draws (visible : Visible) (x : Resolve Expr) : Prop :=
  x.Gives fun p e q => SeenBy visible e ∧ q.localCount = p.localCount

variable {visible : Visible}

theorem SeenBy.binary {a b : Expr} (ha : SeenBy visible a) (hb : SeenBy visible b) (o : Origin)
    (op : BinaryOp) : SeenBy visible (.binary o op a b) := fun l hl =>
  (List.mem_append.mp hl).elim (ha l) (hb l)

theorem climb_seen (o : Origin) : ∀ (steps least : Nat) (left : Expr)
    (rest : List (BinaryOp × Expr)), SeenBy visible left → (∀ x ∈ rest, SeenBy visible x.2) →
    SeenBy visible (climb o steps least left rest).1 ∧
      ∀ x ∈ (climb o steps least left rest).2, SeenBy visible x.2
  | 0, _, _, _, hleft, hrest => ⟨hleft, hrest⟩
  | _ + 1, _, _, [], hleft, hrest => ⟨hleft, hrest⟩
  | steps + 1, least, left, (op, operand) :: rest, hleft, hrest => by
    unfold climb
    split
    · exact ⟨hleft, hrest⟩
    · obtain ⟨hright, hothers⟩ := climb_seen o steps op.precedence operand rest
        (hrest (op, operand) (by simp)) fun x hx => hrest x (by simp [hx])
      exact climb_seen o steps least _ _ (hleft.binary hright o op) hothers

theorem lookup_draws (name : String) (position : Position) (r : Provenance) :
    Draws visible (Resolve.lookup visible name position r) := by
  unfold Resolve.lookup
  split
  · rename_i l hl
    refine (Resolve.Gives.pure _).weaken ?_
    rintro p _ q - ⟨rfl, rfl⟩
    refine ⟨fun l' hl' => ?_, rfl⟩
    obtain ⟨scope, hscope, hfound⟩ := List.exists_of_findSome?_eq_some hl
    rw [List.mem_singleton.mp hl']
    exact List.mem_flatten.mpr ⟨scope, hscope, List.mem_of_find?_eq_some hfound⟩
  · split
    · refine (Resolve.Gives.pure _).weaken ?_
      rintro p _ q - ⟨rfl, rfl⟩
      exact ⟨fun _ hl => absurd hl List.not_mem_nil, rfl⟩
    · refine ((Resolve.Gives.report _).bind fun _ => .pure _).weaken ?_
      rintro _ _ _ - ⟨_, _, h, -⟩
      exact h.elim

theorem literal_draws (o : Origin) (v : Constant) (t : Option Ty) :
    Draws visible (pure (.literal o v t)) := by
  refine (Resolve.Gives.pure _).weaken ?_
  rintro p _ q - ⟨rfl, rfl⟩
  exact ⟨fun _ hl => (nomatch hl), rfl⟩

mutual

theorem chain_draws : ∀ (c : Chain) (parent : Provenance), Draws visible (c.resolve visible parent)
  | .last operand, parent => by
    unfold Chain.resolve
    refine ((operand_draws operand parent).bind fun _ => .pure _).weaken ?_
    rintro p _ q - ⟨e, m, ⟨he, hcount⟩, rfl, rfl⟩
    exact ⟨he, hcount⟩
  | .link operand op rest, parent => by
    unfold Chain.resolve
    refine ((operand_draws operand parent).bind fun _ =>
      (links_draws rest parent).bind fun _ => .pure _).weaken ?_
    rintro p _ q - ⟨e, m, ⟨he, hcount⟩, ⟨second, others⟩, m', ⟨hsecond, hothers, hcount'⟩, rfl, rfl⟩
    refine ⟨(climb_seen _ _ 0 e _ he fun x hx => ?_).1, hcount'.trans hcount⟩
    rcases List.mem_cons.mp hx with rfl | hx
    · exact hsecond
    · exact hothers x hx

theorem links_draws : ∀ (c : Chain) (parent : Provenance),
    (c.resolveLinks visible parent).Gives fun p r q => SeenBy visible r.1 ∧
      (∀ x ∈ r.2, SeenBy visible x.2) ∧ q.localCount = p.localCount
  | .last operand, parent => by
    unfold Chain.resolveLinks
    refine ((operand_draws operand parent).bind fun _ => .pure _).weaken ?_
    rintro p _ q - ⟨e, m, ⟨he, hcount⟩, rfl, rfl⟩
    exact ⟨he, by simp, hcount⟩
  | .link operand op rest, parent => by
    unfold Chain.resolveLinks
    refine ((operand_draws operand parent).bind fun _ =>
      (links_draws rest parent).bind fun _ => .pure _).weaken ?_
    rintro p _ q - ⟨e, m, ⟨he, hcount⟩, ⟨second, others⟩, m', ⟨hsecond, hothers, hcount'⟩, rfl, rfl⟩
    refine ⟨he, fun x hx => ?_, hcount'.trans hcount⟩
    rcases List.mem_cons.mp hx with rfl | hx
    · exact hsecond
    · exact hothers x hx

theorem operand_draws : ∀ (x : Operand) (parent : Provenance),
    Draws visible (x.resolve visible parent)
  | .mk none span atom, parent => by
    unfold Operand.resolve
    exact atom_draws atom _
  | .mk (some op) span atom, parent => by
    unfold Operand.resolve
    refine ((atom_draws atom _).bind fun _ => .pure _).weaken ?_
    rintro p _ q - ⟨e, m, ⟨he, hcount⟩, rfl, rfl⟩
    exact ⟨he, hcount⟩

theorem atom_draws : ∀ (a : Atom) (parent : Provenance), Draws visible (a.resolve visible parent)
  | .call name args, parent => by
    unfold Atom.resolve
    refine ((chains_draws args parent).bind fun _ =>
      (Resolve.Gives.host_count name).bind fun _ => .pure _).weaken ?_
    rintro p _ q - ⟨es, m, ⟨hes, hcount⟩, method, m', hcount', rfl, rfl⟩
    exact ⟨hes, hcount'.trans hcount⟩
  | .number digits, parent => by
    unfold Atom.resolve
    split
    · exact literal_draws ..
    · exact ((Resolve.Gives.report _).bind fun _ => .pure _).weaken
        fun _ _ _ _ ⟨_, _, h, _⟩ => h.elim
  | .text quoted, parent => by
    unfold Atom.resolve
    split
    · exact literal_draws ..
    · exact ((Resolve.Gives.report _).bind fun _ => .pure _).weaken
        fun _ _ _ _ ⟨_, _, h, _⟩ => h.elim
  | .bool value, parent => by
    unfold Atom.resolve
    exact literal_draws ..
  | .null, parent => by
    unfold Atom.resolve
    exact literal_draws ..
  | .name name, parent => by
    unfold Atom.resolve
    exact lookup_draws ..
  | .parens inner, parent => by
    unfold Atom.resolve
    exact chain_draws inner parent

theorem chains_draws : ∀ (cs : List Chain) (parent : Provenance),
    (Chain.resolveAll visible parent cs).Gives fun p es q =>
      (∀ l ∈ unbound.exprs es, l ∈ visible.locals) ∧ q.localCount = p.localCount
  | [], parent => by
    unfold Chain.resolveAll
    refine (Resolve.Gives.pure _).weaken ?_
    rintro p _ q - ⟨rfl, rfl⟩
    exact ⟨fun _ hl => (nomatch hl), rfl⟩
  | c :: rest, parent => by
    unfold Chain.resolveAll
    refine ((chain_draws c parent).bind fun _ =>
      (chains_draws rest parent).bind fun _ => .pure _).weaken ?_
    rintro p _ q - ⟨e, m, ⟨he, hcount⟩, es, m', ⟨hes, hcount'⟩, rfl, rfl⟩
    exact ⟨fun l hl => (List.mem_append.mp hl).elim (he l) (hes l), hcount'.trans hcount⟩

end

theorem optional_draws (c : Option Chain) (parent : Provenance) :
    Draws visible (resolveOptional visible parent c) := by
  cases c with
  | none =>
    refine (Resolve.Gives.pure _).weaken ?_
    rintro p _ q - ⟨rfl, rfl⟩
    exact ⟨fun _ hl => (nomatch hl), rfl⟩
  | some c => exact chain_draws c parent

/-! ## Statements -/

/-- The statement, and the local that it declares in the block around it if there is one. -/
def ScopedStmt (visible : Visible) (p : Progress) (s : Stmt) (l : Option Local) (q : Progress) :
    Prop :=
  Scoped (l.toList ++ visible.locals) p (l.toList.map (·, true) ++ declarations.stmt s)
    (unbound.stmt s) q

/-- The block declares and refers to what is inside it. -/
theorem Scoped.braces {p q : Progress} {o : Origin} {locals : List Local} {ss : List Stmt}
    (h : Scoped (locals ++ visible.locals) p (locals.map (·, true) ++ declarations.stmts ss)
      (unbound.stmts ss) q) :
    Scoped visible.locals p (declarations.block (.mk o locals ss)) (unbound.block (.mk o locals ss))
      q where
  grows := h.grows
  numbers := by
    rw [Tally.block, declarations_braces]
    exact h.numbers
  nodup := by
    rw [Tally.block, declarations_braces]
    exact h.nodup
  visible l hl := by
    rw [Tally.block, unbound_braces] at hl
    obtain ⟨hmem, hout⟩ := List.mem_filter.mp hl
    exact (List.mem_append.mp (h.visible l hmem)).resolve_left (by simpa using hout)

/-- A statement in the place of an if or while declares its local itself. -/
theorem ScopedStmt.embed {p q : Progress} {s : Stmt} {l : Option Local}
    (h : ScopedStmt (visible.enter []) p s l q) (own : Provenance) :
    Scoped visible.locals p (declarations.stmt (Source.embed own (some s, l)))
      (unbound.stmt (Source.embed own (some s, l))) q := by
  cases l with
  | none => exact h
  | some l =>
    refine @Scoped.braces visible p q (.made own) [l] [s] ?_
    rw [Tally.stmts_single, Tally.stmts_single]
    exact h

/-- A statement that declares nothing. -/
theorem ScopedStmt.leaf {p q : Progress} {s : Stmt} (hcount : q.localCount = p.localCount)
    (hdeclared : declarations.stmt s = []) (hseen : ∀ l ∈ unbound.stmt s, l ∈ visible.locals) :
    ScopedStmt visible p s none q := by
  rw [ScopedStmt, hdeclared]
  exact .still hcount hseen

/-- The step gives a statement, which declares and refers to locals as it should. -/
def ScopesStmt (visible : Visible) (x : Resolve (Option Stmt × Option Local)) : Prop :=
  x.Gives fun p r q => ∃ s, r.1 = some s ∧ ScopedStmt visible p s r.2 q

mutual

theorem statement_scopes : ∀ (s : Statement) (visible : Visible) (parent : Provenance),
    ScopesStmt visible (s.resolve visible parent)
  | .mk span form, visible, parent => by
    unfold Statement.resolve
    exact form_scopes form visible parent _

theorem form_scopes : ∀ (f : Form) (visible : Visible) (parent own : Provenance),
    ScopesStmt visible (f.resolve visible parent own)
  | .synthesized body, visible, parent, own => by
    unfold Form.resolve
    refine ((braces_scopes body visible own.toSite true).bind fun _ => .pure _).weaken ?_
    rintro p _ q - ⟨b, m, hb, rfl, rfl⟩
    exact ⟨_, rfl, hb⟩
  | .block body, visible, parent, own => by
    unfold Form.resolve
    refine ((braces_scopes body visible parent.toSite false).bind fun _ => .pure _).weaken ?_
    rintro p _ q - ⟨b, m, hb, rfl, rfl⟩
    exact ⟨_, rfl, hb⟩
  | .noOp, visible, parent, own | .yieldBreak, visible, parent, own => by
    unfold Form.resolve
    refine (Resolve.Gives.pure _).weaken ?_
    rintro p _ q - ⟨rfl, rfl⟩
    exact ⟨_, rfl, .leaf rfl rfl fun _ hl => nomatch hl⟩
  | .var name typeName init, visible, parent, own => by
    unfold Form.resolve
    refine ((Resolve.Gives.type typeName _).bind fun _ =>
      (Resolve.Gives.newLocal_count name _).bind fun _ => (optional_draws init own).bind fun _ =>
        Resolve.Gives.checked _ _ (.pure _)).weaken ?_
    rintro p _ q - ⟨_, _, rfl, l, m, ⟨hnumber, hcount⟩, e, m', ⟨he, hcount'⟩, -, rfl, rfl⟩
    refine ⟨_, rfl, ?_⟩
    have hnone : declarations.stmt (.localDeclaration (.bound own) l e) = [] := by
      rw [Tally.stmt, declarations_expr, ite_self]
    rw [ScopedStmt, hnone]
    have hinit : Scoped (l :: visible.locals) m []
        (unbound.stmt (.localDeclaration (.bound own) l e)) q := by
      refine .still hcount' fun l' hl' => ?_
      rw [Tally.stmt] at hl'
      split at hl'
      · cases hl'
      · rcases List.mem_append.mp hl' with hl' | hl'
        · exact List.mem_append_left visible.locals hl'
        · exact List.mem_cons_of_mem _ (he l' hl')
    exact (Scoped.new hnumber hcount true).append hinit
  | .yieldReturn value, visible, parent, own | .expression value, visible, parent, own => by
    unfold Form.resolve
    refine ((chain_draws value own).bind fun _ => .pure _).weaken ?_
    rintro p _ q - ⟨e, m, ⟨he, hcount⟩, rfl, rfl⟩
    exact ⟨_, rfl, .leaf hcount (declarations_expr e) he⟩
  | .return value, visible, parent, own | .throw value, visible, parent, own => by
    unfold Form.resolve
    refine ((optional_draws value own).bind fun _ => .pure _).weaken ?_
    rintro p _ q - ⟨e, m, ⟨he, hcount⟩, rfl, rfl⟩
    exact ⟨_, rfl, .leaf hcount (declarations_expr e) he⟩
  | .try body handlers none, visible, parent, own => by
    unfold Form.resolve
    refine ((braces_scopes body visible own.toSite false).bind fun _ =>
      (handlers_scopes handlers visible own).bind fun _ => (Resolve.Gives.pure _).bind fun _ =>
        Resolve.Gives.checked _ _ (.pure _)).weaken ?_
    rintro p _ q - ⟨b, k, hb, cs, j, hcs, _, _, ⟨rfl, rfl⟩, -, rfl, rfl⟩
    refine ⟨_, rfl, ?_⟩
    simpa [ScopedStmt, Tally.stmt] using hb.append hcs
  | .try body handlers (some cleanup), visible, parent, own => by
    unfold Form.resolve
    refine ((braces_scopes body visible own.toSite false).bind fun _ =>
      (handlers_scopes handlers visible own).bind fun _ =>
        (braces_scopes cleanup visible own.toSite false).bind fun _ =>
          Resolve.Gives.checked _ _ (.pure _)).weaken ?_
    rintro p _ q - ⟨b, k, hb, cs, j, hcs, f, i, hf, -, rfl, rfl⟩
    exact ⟨_, rfl, hb.append (hcs.append hf)⟩
  | .if condition whenTrue none, visible, parent, own => by
    unfold Form.resolve
    refine ((chain_draws condition own).bind fun _ =>
      (statement_scopes whenTrue (visible.enter []) own).bind fun _ =>
        (Resolve.Gives.pure _).bind fun _ => .pure _).weaken ?_
    rintro p _ q - ⟨c, k, ⟨hc, hcount⟩, ⟨t, l⟩, j, ⟨s, rfl, hs⟩, _, _, ⟨rfl, rfl⟩, rfl, rfl⟩
    refine ⟨_, rfl, ?_⟩
    have hparts := (Scoped.still hcount hc).append (ScopedStmt.embed hs own)
    simpa [ScopedStmt, Tally.stmt, declarations_expr] using hparts
  | .if condition whenTrue (some whenFalse), visible, parent, own => by
    unfold Form.resolve
    refine ((chain_draws condition own).bind fun _ =>
      (statement_scopes whenTrue (visible.enter []) own).bind fun _ =>
        (statement_scopes whenFalse (visible.enter []) own).bind fun _ =>
          (Resolve.Gives.pure _).bind fun _ => .pure _).weaken ?_
    rintro p _ q - ⟨c, k, ⟨hc, hcount⟩, ⟨t, l⟩, j, ⟨s, rfl, hs⟩, ⟨f, l'⟩, i, ⟨s', rfl, hs'⟩, _, _,
      ⟨rfl, rfl⟩, rfl, rfl⟩
    refine ⟨_, rfl, ?_⟩
    have hparts := (Scoped.still hcount hc).append
      ((ScopedStmt.embed hs own).append (ScopedStmt.embed hs' own))
    rwa [ScopedStmt, Tally.stmt, Tally.stmt, declarations_expr]
  | .while condition body, visible, parent, own => by
    unfold Form.resolve
    refine (Resolve.Gives.newLoop_count.bind fun x => (chain_draws condition own).bind fun _ =>
      (statement_scopes body { visible.enter [] with loops := x :: visible.loops } own).bind
        fun _ => .pure _).weaken ?_
    rintro p _ q - ⟨x, k, hloop, c, j, ⟨hc, hcount⟩, ⟨t, l⟩, i, ⟨s, rfl, hs⟩, rfl, rfl⟩
    refine ⟨_, rfl, ?_⟩
    have hs' : ScopedStmt (visible.enter []) j s l q := hs
    have hparts := (Scoped.still (hcount.trans hloop) hc).append (hs'.embed own)
    rwa [ScopedStmt, Tally.stmt, Tally.stmt, declarations_expr]
  | .break, visible, parent, own | .continue, visible, parent, own => by
    unfold Form.resolve
    split
    · refine (Resolve.Gives.pure _).weaken ?_
      rintro p _ q - ⟨rfl, rfl⟩
      exact ⟨_, rfl, .leaf rfl rfl fun _ hl => nomatch hl⟩
    · exact ((Resolve.Gives.report _).bind fun _ => .pure _).weaken
        fun _ _ _ _ ⟨_, _, h, _⟩ => h.elim
  | .goto label, visible, parent, own => by
    unfold Form.resolve
    refine ((Resolve.Gives.useLabel_count label _).bind fun _ => .pure _).weaken ?_
    rintro p _ q - ⟨_, m, hcount, rfl, rfl⟩
    exact ⟨_, rfl, .leaf hcount rfl fun _ hl => nomatch hl⟩
  | .label label, visible, parent, own => by
    unfold Form.resolve
    refine ((Resolve.Gives.declareLabel_count label _).bind fun _ => .pure _).weaken ?_
    rintro p _ q - ⟨_, m, hcount, rfl, rfl⟩
    exact ⟨_, rfl, .leaf hcount rfl fun _ hl => nomatch hl⟩
  | .assign target value, visible, parent, own => by
    unfold Form.resolve
    refine ((lookup_draws target _ own).bind fun _ =>
      (chain_draws value own).bind fun _ => .pure _).weaken ?_
    rintro p _ q - ⟨t, m, ⟨ht, hcount⟩, e, m', ⟨he, hcount'⟩, rfl, rfl⟩
    exact ⟨_, rfl, .leaf (hcount'.trans hcount) (declarations_expr _) fun l hl =>
      (List.mem_append.mp hl).elim (ht l) (he l)⟩

theorem braces_scopes : ∀ (b : Braces) (visible : Visible) (parent : Site) (made : Bool),
    (b.resolve visible parent made).Gives fun p b q =>
      Scoped visible.locals p (declarations.block b) (unbound.block b) q
  | .mk opening statements closing, visible, parent, made => by
    unfold Braces.resolve
    refine ((statements_scopes statements (visible.enter []) _).bind fun _ => .pure _).weaken ?_
    rintro p _ q - ⟨⟨locals, ss⟩, m, hss, rfl, rfl⟩
    exact Scoped.braces hss

theorem statements_scopes : ∀ (ss : List Statement) (visible : Visible) (parent : Provenance),
    (Statement.resolveAll visible parent ss).Gives fun p r q =>
      Scoped (r.1 ++ visible.locals) p (r.1.map (·, true) ++ declarations.stmts r.2)
        (unbound.stmts r.2) q
  | [], visible, parent => by
    unfold Statement.resolveAll
    refine (Resolve.Gives.pure _).weaken ?_
    rintro p _ q - ⟨rfl, rfl⟩
    exact .still rfl fun _ hl => nomatch hl
  | s :: rest, visible, parent => by
    unfold Statement.resolveAll
    refine ((statement_scopes s visible parent).bind fun r =>
      (statements_scopes rest _ parent).bind fun _ => .pure _).weaken ?_
    rintro p _ q - ⟨⟨t, l⟩, m, ⟨t, rfl, ht⟩, ⟨locals, ss⟩, m', hss, rfl, rfl⟩
    have hvisible : ∀ x, x ∈ (match l with
        | some l => visible.declare l
        | none => visible).locals ↔ x ∈ l.toList ++ visible.locals := by
      intro x
      cases l with
      | none => rfl
      | some l => cases h : visible.scopes <;> simp [Visible.locals, Visible.declare, h]
    have hfirst : Scoped (l.toList ++ locals ++ visible.locals) p _ _ m :=
      ht.mono fun x _ hx => by
        rcases List.mem_append.mp hx with hx | hx
        · exact List.mem_append_left _ (List.mem_append_left _ hx)
        · exact List.mem_append_right _ hx
    have hothers : Scoped (l.toList ++ locals ++ visible.locals) m _ _ q :=
      hss.mono fun x _ hx => by
        rcases List.mem_append.mp hx with hx | hx
        · exact List.mem_append_left _ (List.mem_append_right _ hx)
        · rcases List.mem_append.mp ((hvisible x).mp hx) with hx | hx
          · exact List.mem_append_left _ (List.mem_append_left _ hx)
          · exact List.mem_append_right _ hx
    refine (hfirst.append hothers).perm ?_
    simp only [List.map_append, Option.toList_some, List.cons_append, List.nil_append,
      Tally.stmts_cons, List.append_assoc]
    exact (List.perm_append_comm_assoc _ _ _).append_left _

theorem handlers_scopes : ∀ (hs : List Handler) (visible : Visible) (parent : Provenance),
    (Handler.resolveAll visible parent hs).Gives fun p cs q =>
      Scoped visible.locals p (declarations.catches cs) (unbound.catches cs) q
  | [], visible, parent => by
    unfold Handler.resolveAll
    refine (Resolve.Gives.pure _).weaken ?_
    rintro p _ q - ⟨rfl, rfl⟩
    exact .still rfl fun _ hl => nomatch hl
  | .mk start none body :: rest, visible, parent => by
    unfold Handler.resolveAll
    refine (((braces_scopes body visible parent.toSite false).bind fun _ => .pure _).bind fun _ =>
      (handlers_scopes rest visible parent).bind fun _ => .pure _).weaken ?_
    rintro p _ q - ⟨_, m, ⟨b, _, hb, rfl, rfl⟩, cs, m', hcs, rfl, rfl⟩
    have hparts := hb.append hcs
    simpa [Tally.catches, declarations, unbound] using hparts
  | .mk start (some name) body :: rest, visible, parent => by
    unfold Handler.resolveAll
    refine ((Resolve.Gives.newLocal_count name .object).bind fun l =>
      (braces_scopes body (visible.enter [l]) parent.toSite false).bind fun _ =>
        (Resolve.Gives.pure _).bind fun _ =>
          (handlers_scopes rest visible parent).bind fun _ => .pure _).weaken ?_
    rintro p _ q - ⟨l, _, ⟨hnumber, hcount⟩, b, _, hb, _, m, ⟨rfl, rfl⟩, cs, m', hcs, rfl, rfl⟩
    have hbody : Scoped visible.locals p ((l, false) :: declarations.block b)
        ((unbound.block b).filter (· ∉ some l)) m := by
      have hnew : Scoped (l :: visible.locals) p [(l, false)] [] _ := .new hnumber hcount false
      have hparts := hnew.append hb
      refine ⟨hparts.grows, hparts.numbers, hparts.nodup, fun x hx => ?_⟩
      obtain ⟨hmem, hout⟩ := List.mem_filter.mp hx
      refine (List.mem_cons.mp (hb.visible x hmem)).resolve_left fun hx => ?_
      exact of_decide_eq_true hout (congrArg some hx.symm)
    exact hbody.append hcs

end

/-! ## Methods and programs -/

/-- Each local of the body is declared once, and it is referred to only inside of what declares
it. -/
structure WellScoped (b : Block) : Prop where
  closed : unbound.block b = []
  nodup : ((declarations.block b).map fun d => d.1.number).Nodup

theorem method_scopes (cls : TypeDecl) (decl : MethodDecl) :
    (decl.resolve cls).Gives fun _ m _ => WellScoped m.body := by
  have hreset : Resolve.Gives
      (modify fun p => { p with labels := [], loopCount := 0 } : Resolve PUnit)
      fun _ _ _ => True :=
    ⟨fun _ => ⟨[], (List.append_nil _).symm⟩, fun _ h => h, fun _ _ _ => trivial⟩
  unfold MethodDecl.resolve
  refine ((params_gives decl.params 0).bind fun params => (Resolve.Gives.type _ _).bind fun _ =>
    hreset.bind fun _ => (braces_scopes decl.body { params } _ false).bind fun _ =>
      reportLabels_gives.bind fun _ => .pure _).weaken ?_
  rintro p _ q - ⟨params, _, -, type, _, -, _, k, -, b, m, hb, _, _, -, rfl, rfl⟩
  refine ⟨List.eq_nil_iff_forall_not_mem.mpr fun l hl => ?_, hb.nodup⟩
  exact List.not_mem_nil (hb.visible l hl)

theorem class_scopes (decl : ClassDecl) :
    decl.resolve.Gives fun _ program _ => ∀ m ∈ program.methods, WellScoped m.body := by
  unfold ClassDecl.resolve
  refine ((@Resolve.Gives.forIn _ _ (fun _ => True) (fun h _ => ?_) decl.hosts).bind fun _ =>
    (Resolve.Gives.mapM (method_scopes _) decl.methods).bind fun _ =>
      Resolve.Gives.get.bind fun _ => .pure _).weaken ?_
  · refine ((Resolve.Gives.type _ _).bind fun _ => (Resolve.Gives.declareHost rfl).bind fun _ =>
      .pure _).weaken ?_
    rintro p _ q - ⟨_, _, rfl, _, _, hstill, rfl, rfl⟩
    exact ⟨⟨_, rfl⟩, hstill, trivial⟩
  · rintro p _ q - ⟨_, _, -, methods, _, hmethods, _, _, -, rfl, rfl⟩
    exact hmethods

/-- The locals of the methods of a program that was read. -/
theorem scoped_methods {file source : String} {program : Program}
    (h : read file source = .ok program) {m : MethodBody} (hm : m ∈ program.methods) :
    WellScoped m.body := by
  obtain ⟨decl, -, rfl, hfaults⟩ := read_ok h
  have hsound : Progress.Sound {} := fun k hk => nomatch hk
  exact (class_scopes decl).post {} hsound hfaults m hm

end Resumable.Source
