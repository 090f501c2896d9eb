import Resumable.Proofs.Lowering.Unmarked
import Resumable.Proofs.StateMachine.Conserved
import Resumable.Proofs.StateMachine.Variables

/-!
# Variables

The variables of a resumable method become fields of its machine, one for each: what refers to a
parameter or to a local of a block in the method refers to its field in the methods of the machine,
and the variable of a handler is the only thing that is left (`variables_housed`).
-/

set_option autoImplicit false

namespace Resumable.Lowering

open Resumable.Report Resumable.Symbol Resumable.Tree Resumable.Source Resumable.StateMachine

variable {α : Type}

/-! ## References -/

/-- References to variables count as references to the fields that are theirs, those to a local only
if it is one of `locals`. -/
def references (locals : List Local) (house : Variable → Field) : Tally (Origin × Field) where
  ref
    | .localRef o l => if l ∈ locals then [(o, house (.ofLocal l))] else []
    | .parameterRef o p => [(o, house (.ofParam p))]
    | _ => []

/-- References to fields of a machine's own instance, apart from those to its state and element. -/
def fieldReferences (state current : Field) : Tally (Origin × Field) where
  ref
    | .fieldRef o (.this ..) f => if f = state ∨ f = current then [] else [(o, f)]
    | _ => []

/-- What is inside the handler, without its variable. -/
def apart (l : Option Local) (vs : List Variable) : List Variable :=
  vs.filter (· ∉ l.map Variable.ofLocal)

/-- References to variables, other than those of a handler's variable inside of the handler. -/
def remaining : Tally Variable where
  ref
    | .localRef _ l => [.ofLocal l]
    | .parameterRef _ p => [.ofParam p]
    | _ => []
  handler := apart

/-- References to variables that have no field, in the same way. -/
def homeless (last : Hoisted) : Tally Variable where
  ref
    | .localRef _ l => if (last.locals.lookup l).isSome then [] else [.ofLocal l]
    | _ => []
  handler := apart

/-! ## Hoisted expressions -/

/-- What a tally of trees with variables makes of a variable, one of trees with fields makes of the
field in its place. -/
structure Relocates (last : Hoisted) (params : List Param) (S T : Tally α) : Prop where
  marker : ∀ place, T.marker place = S.marker place
  locals : ∀ ls xs, T.locals ls xs = xs ∧ S.locals ls xs = xs
  handler : ∀ l xs, T.handler l xs = S.handler l xs
  field : ∀ o l f, last.locals.lookup l = some f → T.expr (inPlace o f) = S.ref (.localRef o l)
  stay : ∀ o l, last.locals.lookup l = none → T.ref (.localRef o l) = S.ref (.localRef o l)
  param : ∀ o, ∀ p ∈ params, ∀ f, last.param? p = some f →
    T.expr (inPlace o f) = S.ref (.parameterRef o p)

variable {last : Hoisted} {params : List Param} {S T : Tally α}

mutual

theorem Relocates.bound (hR : Relocates last params S T) : ∀ {e e' : Expr},
    boundExpr params e = true → hoistExpr last e = .ok e' → T.expr e' = S.expr e
  | .literal .., _, _, hoist => by
    cases hoist
    rfl
  | .localRef o l, _, _, hoist => by
    rw [hoistExpr] at hoist
    split at hoist
    · rename_i f hf
      cases hoist
      exact hR.field o l f hf
    · rename_i hnone
      cases hoist
      exact hR.stay o l hnone
  | .parameterRef o p, _, hp, hoist => by
    rw [hoistExpr] at hoist
    split at hoist
    · rename_i f hf
      cases hoist
      exact hR.param o p (by simpa [boundExpr] using hp) f hf
    · cases hoist
  | .unary _ _ e, _, he, hoist => by
    obtain ⟨e', hinner, hpure⟩ := Machine.bind_ok_iff.mp hoist
    cases hpure
    exact @Relocates.bound hR e e' he hinner
  | .binary _ _ a b, _, hab, hoist => by
    simp only [boundExpr, Bool.and_eq_true] at hab
    obtain ⟨a', ha, hrest⟩ := Machine.bind_ok_iff.mp hoist
    obtain ⟨b', hb, hpure⟩ := Machine.bind_ok_iff.mp hrest
    cases hpure
    rw [Tally.expr, Tally.expr, hR.bound hab.1 ha, hR.bound hab.2 hb]
  | .call _ r _ args, _, hcall, hoist => by
    simp only [boundExpr, Bool.and_eq_true] at hcall
    cases r with
    | absent =>
      rw [hoistExpr] at hoist
      obtain ⟨args', hargs, hpure⟩ := Machine.bind_ok_iff.mp hoist
      cases hpure
      rw [Tally.expr, Tally.expr, hR.bounds hcall.2 hargs, Tally.expr, Tally.expr]
    | _ => cases hcall.1.1
  | .absent, _, he, _ | .fieldRef .., _, he, _ | .this .., _, he, _ | .assignment .., _, he, _
  | .foreign .., _, he, _ => nomatch he

theorem Relocates.bounds (hR : Relocates last params S T) : ∀ {es es' : List Expr},
    boundExprs params es = true → hoistExprs last es = .ok es' → T.exprs es' = S.exprs es
  | [], _, _, hoist => by
    cases hoist
    rfl
  | e :: rest, _, hes, hoist => by
    simp only [boundExprs, Bool.and_eq_true] at hes
    obtain ⟨e', he, hrest⟩ := Machine.bind_ok_iff.mp hoist
    obtain ⟨rest', hrest', hpure⟩ := Machine.bind_ok_iff.mp hrest
    cases hpure
    rw [Tally.exprs, Tally.exprs, hR.bound hes.1 he, hR.bounds hes.2 hrest']

end

/-- So the one counts trees with variables as the other one counts them with fields. -/
theorem Relocates.transports (hR : Relocates last params S T) :
    Transports (HoistsBy last params) S T where
  marker := hR.marker
  locals := hR.locals
  handler := hR.handler
  expr _ e e' := by
    rintro ⟨hoist, hbound⟩
    cases e with
    | assignment o target value =>
      simp only [BoundIn, boundEffect, Bool.and_eq_true] at hbound
      obtain ⟨target', htarget, hrest⟩ := Machine.bind_ok_iff.mp hoist
      obtain ⟨value', hvalue, hpure⟩ := Machine.bind_ok_iff.mp hrest
      cases hpure
      rw [Tally.expr, Tally.expr, hR.bound hbound.1.2 htarget, hR.bound hbound.2 hvalue]
    | _ => exact hR.bound hbound hoist

/-- References to variables become references to their fields. -/
theorem references_relocate {state current : Field} {locals : List Local}
    {house : Variable → Field} (hhouse : ∀ v f, last.field? v = some f → house v = f)
    (hfree : ∀ v f, last.field? v = some f → ¬ (f = state ∨ f = current))
    (hlocals : ∀ l, (last.locals.lookup l).isSome ↔ l ∈ locals) :
    Relocates last params (references locals house) (fieldReferences state current) where
  marker _ := rfl
  locals _ _ := ⟨rfl, rfl⟩
  handler _ _ := rfl
  field o l f hf := by
    have hmem : l ∈ locals := (hlocals l).mp (Option.isSome_of_mem hf)
    simp [inPlace, Made.this, Tally.expr, fieldReferences, references, hmem,
      hfree (.ofLocal l) f hf, hhouse (.ofLocal l) f hf]
  stay o l hnone := by
    have hmem : l ∉ locals := by simp [← hlocals, hnone]
    simp [fieldReferences, references, hmem]
  param o p _ f hf := by
    simp [inPlace, Made.this, Tally.expr, fieldReferences, references,
      hfree (.ofParam p) f hf, hhouse (.ofParam p) f hf]

/-- What remains are the variables without a field. -/
theorem remaining_relocate : Relocates last params (homeless last) remaining where
  marker _ := rfl
  locals _ _ := ⟨rfl, rfl⟩
  handler _ _ := rfl
  field o l f hf := by simp [inPlace, Made.this, Tally.expr, remaining, homeless, hf]
  stay o l hnone := by simp [remaining, homeless, hnone]
  param o p _ f _ := by simp [inPlace, Made.this, Tally.expr, remaining, homeless]

/-! ## Variables without a field -/

/-- These refer to locals from outside, which have no field. -/
def Strays (last : Hoisted) (vs : List Variable) (ls : List Local) : Prop :=
  ∀ v ∈ vs, ∃ l ∈ ls, v = .ofLocal l ∧ last.locals.lookup l = none

/-- The locals that blocks declare have fields. -/
def Housing (last : Hoisted) (ds : List (Local × Bool)) : Prop :=
  ∀ l, (l, true) ∈ ds → (last.locals.lookup l).isSome

theorem Strays.append {vs vs' : List Variable} {ls ls' : List Local} (h : Strays last vs ls)
    (h' : Strays last vs' ls') : Strays last (vs ++ vs') (ls ++ ls') := by
  intro v hv
  rcases List.mem_append.mp hv with hv | hv
  · obtain ⟨l, hl, hrest⟩ := h v hv
    exact ⟨l, List.mem_append_left _ hl, hrest⟩
  · obtain ⟨l, hl, hrest⟩ := h' v hv
    exact ⟨l, List.mem_append_right _ hl, hrest⟩

theorem Strays.nil (ls : List Local) : Strays last [] ls := fun _ hv => nomatch hv

theorem Housing.left {ds ds' : List (Local × Bool)} (h : Housing last (ds ++ ds')) :
    Housing last ds := fun l hl => h l (List.mem_append_left _ hl)

theorem Housing.right {ds ds' : List (Local × Bool)} (h : Housing last (ds ++ ds')) :
    Housing last ds' := fun l hl => h l (List.mem_append_right _ hl)

mutual

theorem homeless_expr : ∀ e : Expr, Strays last ((homeless last).expr e) (unbound.expr e)
  | .localRef _ l => by
    intro v hv
    simp only [Tally.expr, homeless] at hv
    split at hv
    · cases hv
    · rename_i hnone
      exact ⟨l, List.mem_singleton_self l, List.mem_singleton.mp hv,
        Option.not_isSome_iff_eq_none.mp hnone⟩
  | .fieldRef _ r _ => homeless_expr r
  | .assignment _ a b | .binary _ _ a b => (homeless_expr a).append (homeless_expr b)
  | .unary _ _ e => homeless_expr e
  | .call _ r _ args => (homeless_expr r).append (homeless_exprs args)
  | .absent | .literal .. | .this .. | .parameterRef .. | .foreign .. => .nil _

theorem homeless_exprs : ∀ es : List Expr, Strays last ((homeless last).exprs es) (unbound.exprs es)
  | [] => .nil _
  | e :: rest => (homeless_expr e).append (homeless_exprs rest)

end

mutual

theorem homeless_stmt : ∀ {s : Stmt}, Housing last (declarations.stmt s) →
    Strays last ((homeless last).stmt s) (unbound.stmt s)
  | .block b, h => homeless_block (b := b) h
  | .list _ ss, h => @homeless_stmts ss h
  | .localDeclaration o l init, h => by
    rw [Tally.stmt, Tally.stmt]
    split
    · exact .nil _
    · exact homeless_expr _
  | .expression _ e, _ | .return _ e, _ | .yieldReturn _ e, _ | .throw _ e, _
  | .conditionalGoto _ e _ _, _ | .dispatch _ e _ _, _ => homeless_expr e
  | .if _ c t f, h =>
    (homeless_expr c).append ((homeless_stmt h.right.left).append (homeless_stmt h.right.right))
  | .while _ c body _ _, h => (homeless_expr c).append (homeless_stmt h.right)
  | .try _ body catches cleanup, h =>
    (homeless_block h.left).append
      ((homeless_catches h.right.left).append (homeless_block h.right.right))
  | .noOp _, _ => by
    rw [Tally.stmt]
    split <;> exact .nil _
  | .sequencePoint .., _ | .absent, _ | .yieldBreak _, _ | .break .., _ | .continue .., _
  | .label .., _ | .goto .., _ | .foreign .., _ => .nil _

theorem homeless_stmts : ∀ {ss : List Stmt}, Housing last (declarations.stmts ss) →
    Strays last ((homeless last).stmts ss) (unbound.stmts ss)
  | [], _ => .nil _
  | _ :: _, h => (homeless_stmt h.left).append (homeless_stmts h.right)

/-- In a block whose locals have fields, only locals from outside have none. -/
theorem homeless_block : ∀ {b : Block}, Housing last (declarations.block b) →
    Strays last ((homeless last).block b) (unbound.block b)
  | .absent, _ => .nil _
  | .mk o ls ss, h => by
    rw [Tally.block, declarations_braces] at h
    rw [Tally.block, Tally.block, unbound_braces, Tally.braces_eq_nil fun _ => rfl]
    intro v hv
    obtain ⟨l, hl, hv, hnone⟩ := homeless_stmts h.right v hv
    refine ⟨l, List.mem_filter.mpr ⟨hl, decide_eq_true fun hmem => ?_⟩, hv, hnone⟩
    have hsome := h.left l (List.mem_map.mpr ⟨l, hmem, rfl⟩)
    rw [hnone] at hsome
    cases hsome

theorem homeless_catches : ∀ {cs : List Catch}, Housing last (declarations.catches cs) →
    Strays last ((homeless last).catches cs) (unbound.catches cs)
  | [], _ => .nil _
  | .mk _ x body :: rest, h => by
    have hinner : Strays last (apart x ((homeless last).block body))
        ((unbound.block body).filter (· ∉ x)) := by
      intro v hv
      obtain ⟨hv, hout⟩ := List.mem_filter.mp hv
      obtain ⟨l, hl, rfl, hnone⟩ := homeless_block h.left.right v hv
      exact ⟨l, List.mem_filter.mpr ⟨hl, by simpa using hout⟩, rfl, hnone⟩
    exact hinner.append (homeless_catches h.right)

end

/-! ## Methods -/

theorem unbound_fair {markers : Bool} : unbound.Fair markers where
  marked := .inr fun _ => rfl
  unscoped xs := by simp [unbound]
  locals _ _ _ h := h.filter _
  handler _ _ _ h := h.filter _

theorem declarations_fair {markers : Bool} : declarations.Fair markers where
  marked := .inr fun _ => rfl
  unscoped _ := rfl
  locals _ _ _ h := h.append_left _
  handler _ _ _ h := h.append_left _

theorem references_fair {markers : Bool} (locals : List Local) (house : Variable → Field) :
    (references locals house).Fair markers where
  marked := .inr fun _ => rfl
  unscoped _ := rfl
  locals _ _ _ h := h
  handler _ _ _ h := h

theorem fieldReferences_fair {markers : Bool} (state current : Field) :
    (fieldReferences state current).Fair markers where
  marked := .inr fun _ => rfl
  unscoped _ := rfl
  locals _ _ _ h := h
  handler _ _ _ h := h

theorem fieldReferences_silent (plan : Plan) :
    Silent (fieldReferences plan.state plan.current) plan where
  locals _ _ := rfl
  handler _ := rfl
  state _ r := by cases r <;> simp [fieldReferences]
  current _ r := by cases r <;> simp [fieldReferences]

theorem remaining_fair {markers : Bool} : remaining.Fair markers where
  marked := .inr fun _ => rfl
  unscoped _ := rfl
  locals _ _ _ h := h
  handler _ _ _ h := h.filter _

theorem remaining_silent (plan : Plan) : Silent remaining plan where
  locals _ _ := rfl
  handler _ := rfl
  state _ _ := rfl
  current _ _ := rfl

/-- The variables of a method with well-scoped locals are different. -/
theorem variablesOf_nodup {m : MethodBody} (hscoped : WellScoped m.body)
    (hordinals : ∀ (i : Nat) (p : Param), m.symbol.params[i]? = some p → p.ordinal = i) :
    (variablesOf m).Nodup := by
  have hparams : m.symbol.params.Nodup := by
    refine List.nodup_iff_getElem?_ne_getElem?.mpr fun i j hij hj heq => ?_
    have hp := List.getElem?_eq_getElem hj
    have hi := hordinals i _ (heq.trans hp)
    have hj' := hordinals j _ hp
    omega
  have hlocals : (blockLocals m.body).Nodup := by
    have hnumbers := hscoped.nodup.sublist
      ((@List.filter_sublist _ (fun d => d.2) (declarations.block m.body)).map _)
    exact List.Nodup.of_map Local.number (by rwa [blockLocals, List.map_map])
  refine List.nodup_append.mpr ⟨hparams.map fun _ _ h => Variable.ofParam.inj h,
    hlocals.map fun _ _ h => Variable.ofLocal.inj h, fun v hv v' hv' => ?_⟩
  obtain ⟨p, -, rfl⟩ := List.mem_map.mp hv
  obtain ⟨l, -, rfl⟩ := List.mem_map.mp hv'
  rintro ⟨⟩

/-- The fields that there are in the end, after the hoisting of a lowered body `w`. -/
structure HoistedAll (m : MethodBody) (w b : Block) (last : Hoisted) : Prop where
  named : Named [stateField (machineType m.symbol), currentField (machineType m.symbol) m.symbol]
    last
  types : last.params.map Field.type = m.symbol.params.map Param.type
  known : ∀ l, (last.locals.lookup l).isSome ↔ l ∈ blockLocals m.body
  moved : ∃ h h', MovedBlock (HoistsBy last m.symbol.params) h w b h'
  housing : Housing last (declarations.block w)
  closed : unbound.block w = []

theorem hoistedAll_of_walked {m : MethodBody} (hscoped : WellScoped m.body)
    (hbound : BoundMethod m) {markers : Bool} {w b : Block} {h h' : Hoisted}
    (hwalked : WalkedBlock markers m.body w)
    (hdeclare : declareMembers (machineType m.symbol) m.symbol = .ok h)
    (hhoist : hoistBlock w h = .ok (b, h')) : HoistedAll m w b h' := by
  have hdeclared := walkedBlock_tally declarations_fair hwalked
  have hclosed : unbound.block w = [] := by
    have hperm := walkedBlock_tally unbound_fair hwalked
    rw [hscoped.closed] at hperm
    exact hperm.eq_nil
  obtain ⟨hnamed, hlocals, htypes⟩ := declareMembers_named hdeclare
  have hmoved := movedBlock_of_ok hhoist
  have hadds := movedBlock_adds hmoved
  have hknown : ∀ l, (h'.locals.lookup l).isSome ↔ l ∈ blockLocals m.body := fun l => by
    rw [hadds.known, hlocals, mem_blockLocals, hdeclared.mem_iff]
    simp
  obtain ⟨n, hblock⟩ := hbound.bound
  have hready := readyBlock_walked hblock hwalked
  have htoward : Toward h' (declarations.block w) (unbound.block w) h h' := by
    refine ⟨.refl h', fun l hl => ?_, by simp [hclosed]⟩
    rw [← Option.not_isSome_iff_eq_none, hknown, mem_blockLocals]
    intro hblockLocal
    have hpair := List.inj_on_of_nodup_map hscoped.nodup hblockLocal (hdeclared.mem_iff.mp hl) rfl
    cases hpair
  refine ⟨hadds.named hnamed, by rw [hadds.params, htypes], hknown,
    ⟨h, h', movedBlock_last hmoved hready htoward⟩, fun l hl => ?_, hclosed⟩
  exact (hadds.known l).mpr (.inr hl)

namespace HoistedAll

variable {m : MethodBody} {w b : Block} {last : Hoisted}

/-- Each variable of the method has a field of its type. -/
theorem field?_of_mem (hall : HoistedAll m w b last)
    (hordinals : ∀ (i : Nat) (p : Param), m.symbol.params[i]? = some p → p.ordinal = i)
    {v : Variable} (hv : v ∈ variablesOf m) : ∃ f, last.field? v = some f ∧ f.type = v.type := by
  rcases List.mem_append.mp hv with hv | hv
  · obtain ⟨p, hp, rfl⟩ := List.mem_map.mp hv
    obtain ⟨i, hi⟩ := List.mem_iff_getElem?.mp hp
    have htypes := congrArg (·[i]?) hall.types
    simp only [List.getElem?_map, hi, Option.map_some] at htypes
    obtain ⟨f, hf, htype⟩ := Option.map_eq_some_iff.mp htypes
    exact ⟨f, by simpa [Hoisted.field?, Hoisted.param?, hordinals i p hi] using hf, htype⟩
  · obtain ⟨l, hl, rfl⟩ := List.mem_map.mp hv
    obtain ⟨f, hf⟩ := Option.isSome_iff_exists.mp ((hall.known l).mpr hl)
    exact ⟨f, hf, hall.named.types _ (mem_of_lookup hf)⟩

/-- No two variables of the method have one field. -/
theorem field?_inj (hall : HoistedAll m w b last)
    (hordinals : ∀ (i : Nat) (p : Param), m.symbol.params[i]? = some p → p.ordinal = i)
    {v v' : Variable} (hv : v ∈ variablesOf m) (hv' : v' ∈ variablesOf m) {f : Field}
    (hf : last.field? v = some f) (hf' : last.field? v' = some f) : v = v' := by
  have hparams : ∀ v ∈ variablesOf m, ∀ p, v = .ofParam p → p ∈ m.symbol.params := by
    rintro _ hv p rfl
    simpa [variablesOf] using hv
  exact hall.named.field?_injective hordinals (hparams v hv) (hparams v' hv') hf hf'

/-- Nothing but variables of handlers is left in the hoisted body. -/
theorem remaining_eq (hall : HoistedAll m w b last) : remaining.block b = [] := by
  obtain ⟨h, h', hmoved⟩ := hall.moved
  rw [movedBlock_tally remaining_relocate.transports hmoved]
  refine List.eq_nil_iff_forall_not_mem.mpr fun v hv => ?_
  obtain ⟨l, hl, -⟩ := homeless_block hall.housing v hv
  rw [hall.closed] at hl
  cases hl

end HoistedAll

/-- A machine has the fields for parameters that hoisting has given them, and the members that there
are after the analysis. -/
theorem machine_of_lowered {m : MethodBody} {markers : Bool} {sm : StateMachine}
    (hlower : lowerMethod markers m = .ok (.machine sm)) {w b : Block} {k : Nat}
    (hwalk : walkBlock markers m.body 0 = (.ok w, k)) {h h' : Hoisted}
    (hdeclare : declareMembers (machineType m.symbol) m.symbol = .ok h)
    (hhoist : hoistBlock w h = .ok (b, h')) :
    sm.params = h'.params ∧ ∃ c a n, sm.members = a.members.freeze ∧
      analyzeBlock (stateField (machineType m.symbol)) stateRunning b
        { members := h'.members, owners := [(some (.generated "exit" (k + 1 : Nat)), stateRunning)] }
        (k + 1) = (.ok (c, a), n) := by
  rw [lowerMethod_eq] at hlower
  rcases hbody : lowerBody markers m 0 with ⟨_ | made, n⟩
  · rw [hbody] at hlower
    cases hlower
  · simp only [hbody] at hlower
    obtain ⟨-, -, hlower⟩ := Machine.bind_ok_iff.mp hlower
    cases hlower
    obtain ⟨w', i, hwalk', hbody⟩ := Lower.bind_ok.mp hbody
    cases hwalk.symm.trans hwalk'
    obtain ⟨_, i₁, hverify, hbody⟩ := Lower.bind_ok.mp hbody
    have h₁ := (Lower.ofExcept_ok.mp hverify).2
    split at hbody
    · obtain ⟨made, i₂, hbuild, hbody⟩ := Lower.bind_ok.mp hbody
      cases (Lower.pure_ok.mp hbody).1
      obtain ⟨_, i₃, hiterator, hbuild⟩ := Lower.bind_ok.mp hbuild
      have h₃ := (Lower.ofExcept_ok.mp hiterator).2
      obtain ⟨exit, i₄, hexit, hbuild⟩ := Lower.bind_ok.mp hbuild
      cases hexit
      obtain ⟨first, i₅, hfirst, hbuild⟩ := Lower.bind_ok.mp hbuild
      obtain ⟨hfirst, h₅⟩ := Lower.ofExcept_ok.mp hfirst
      cases hdeclare.symm.trans hfirst
      obtain ⟨_, i₆, hcheck, hbuild⟩ := Lower.bind_ok.mp hbuild
      have h₆ := (Lower.ofExcept_ok.mp hcheck).2
      obtain ⟨⟨b', last⟩, i₇, hlast, hbuild⟩ := Lower.bind_ok.mp hbuild
      obtain ⟨hlast, h₇⟩ := Lower.ofExcept_ok.mp hlast
      cases hhoist.symm.trans hlast
      obtain ⟨⟨contents, analysis⟩, n, hanalyze, hbuild⟩ := Lower.bind_ok.mp hbuild
      obtain ⟨moveNext, i₈, -, hbuild⟩ := Lower.bind_ok.mp hbuild
      obtain ⟨moveNext', i₉, -, hbuild⟩ := Lower.bind_ok.mp hbuild
      obtain ⟨dispose, i₁₀, -, hbuild⟩ := Lower.bind_ok.mp hbuild
      obtain ⟨cleanups, i₁₁, -, hbuild⟩ := Lower.bind_ok.mp hbuild
      cases (Lower.pure_ok.mp hbuild).1
      subst h₇ h₆ h₅ h₃ h₁
      exact ⟨rfl, contents, analysis, n, rfl, hanalyze⟩
    · cases (Lower.pure_ok.mp hbody).1

/-- The parameters of a machine are in the fields that hoisting has given them. -/
theorem params_of_lowered {m : MethodBody} {markers : Bool} {sm : StateMachine}
    (hlower : lowerMethod markers m = .ok (.machine sm)) {w b : Block} {k : Nat}
    (hwalk : walkBlock markers m.body 0 = (.ok w, k)) {h h' : Hoisted}
    (hdeclare : declareMembers (machineType m.symbol) m.symbol = .ok h)
    (hhoist : hoistBlock w h = .ok (b, h')) : sm.params = h'.params :=
  (machine_of_lowered hlower hwalk hdeclare hhoist).1

/-- The parameters and the locals of blocks of a resumable method have become fields of its machine,
one for each and of its type, that hold neither the state nor the element.  The references to fields
of the machine in its methods are those that were references to variables, each at its place, and
what is left of variables are those of handlers, inside of the handlers that declare them. -/
theorem variables_housed {file source : String} {program : Program}
    (hread : read file source = .ok program) {m : MethodBody} (hm : m ∈ program.methods)
    {markers : Bool} {sm : StateMachine} (hlower : lowerMethod markers m = .ok (.machine sm)) :
    (variablesOf m).Nodup ∧ (∀ x ∈ sm.methods, remaining.block x.body = []) ∧
    ∃ house : Variable → Field,
      (∀ v ∈ variablesOf m, ∀ v' ∈ variablesOf m, house v = house v' → v = v') ∧
      (∀ v ∈ variablesOf m,
        (house v).type = v.type ∧ house v ≠ sm.state ∧ house v ≠ sm.current) ∧
      (sm.methods.flatMap fun x => (fieldReferences sm.state sm.current).block x.body).Perm
        ((references (blockLocals m.body) house).block m.body) := by
  have hscoped := scoped_methods hread hm
  have hbound := bound_methods hread hm
  have hordinals := hbound.ordinals
  obtain ⟨plan, w, b, k, n, hwalk, hprepares, hbuilt⟩ := built_of_walked hread hm hlower
  obtain ⟨h, last, a, hdeclare, hhoist, -, hplan⟩ := id hprepares
  have hwalked := walkedBlock_of_ok hwalk
  have hall := hoistedAll_of_walked hscoped hbound hwalked hdeclare hhoist
  have hstate : sm.state = stateField (machineType m.symbol) := hbuilt.state.trans hbuilt.planned
  have hcurrent : sm.current = currentField (machineType m.symbol) m.symbol := by
    rw [hbuilt.current, hplan]
  have hfree : ∀ v f, last.field? v = some f → ¬ (f = sm.state ∨ f = sm.current) := by
    intro v f hf hfixed
    exact hall.named.notMem_of_field? hf (by simpa [hstate, hcurrent] using hfixed)
  let house : Variable → Field := fun v => (last.field? v).getD default
  have hhouse : ∀ v f, last.field? v = some f → house v = f := fun v f hf => by simp [house, hf]
  refine ⟨variablesOf_nodup hscoped hordinals, fun x hx => ?_, house, fun v hv v' hv' heq => ?_,
    fun v hv => ?_, ?_⟩
  · have hnone := hbuilt.tally hprepares remaining_fair (remaining_silent plan)
    rw [hall.remaining_eq] at hnone
    exact List.flatMap_eq_nil_iff.mp hnone.eq_nil x hx
  · obtain ⟨f, hf, -⟩ := hall.field?_of_mem hordinals hv
    obtain ⟨f', hf', -⟩ := hall.field?_of_mem hordinals hv'
    rw [hhouse v f hf, hhouse v' f' hf'] at heq
    exact hall.field?_inj hordinals hv hv' hf (heq ▸ hf')
  · obtain ⟨f, hf, htype⟩ := hall.field?_of_mem hordinals hv
    rw [hhouse v f hf]
    exact ⟨htype, not_or.mp (hfree v f hf)⟩
  · have hfields := hbuilt.tally hprepares (fieldReferences_fair plan.state plan.current)
      (fieldReferences_silent plan)
    rw [← hbuilt.state, ← hbuilt.current] at hfields
    obtain ⟨h₁, h₂, hmoved⟩ := hall.moved
    rw [movedBlock_tally (references_relocate hhouse hfree hall.known).transports hmoved] at hfields
    exact hfields.trans (walkedBlock_tally (references_fair _ house) hwalked)

/-- A program with two parameters of one name, two locals of one name and the variable of a
handler. -/
def housedSource : String :=
  "class C \x7b extern int F(int n); iterator int M(int n, int n) \x7b " ++
    "try \x7b var i int = n; yield return i; \x7d finally \x7b var i int = 0; F(i + n); \x7d " ++
    "try \x7b F(n); \x7d catch (e) \x7b F(e); \x7d \x7d \x7d"

/-- The names of the fields that are referred to in each method of a machine. -/
def namesReferred (sm : StateMachine) : List (List String) := sm.methods.map fun x =>
  ((fieldReferences sm.state sm.current).block x.body).map fun r => r.2.name

theorem variables_housed_nested : ∃ program m sm, read "" housedSource = .ok program ∧
    m ∈ program.methods ∧ lowerMethod true m = .ok (.machine sm) ∧
    (variablesOf m).length = 4 ∧
    namesReferred sm = [["$local.i$2", "$param.n$2", "$local.i$2", "$param.n$2"], [],
      ["$local.i", "$local.i", "$param.n$2"]] ∧
    ∀ x ∈ sm.methods, remaining.block x.body = [] := by
  have hfact : ((sample true housedSource).map fun (m, sm) =>
      ((variablesOf m).length, namesReferred sm)) =
      some (4, [["$local.i$2", "$param.n$2", "$local.i$2", "$param.n$2"], [],
        ["$local.i", "$local.i", "$param.n$2"]]) := by
    rw [sample, show housedSource = .ofList _ from append_ofList (append_ofList rfl rfl) rfl,
      read_ofList]
    decide +kernel
  obtain ⟨⟨m, sm⟩, hsample, hcounts⟩ := Option.map_eq_some_iff.mp hfact
  obtain ⟨program, hread, hm, hlower⟩ := sample_eq_some hsample
  simp only [Prod.mk.injEq] at hcounts
  exact ⟨program, m, sm, hread, hm, hlower, hcounts.1, hcounts.2,
    (variables_housed hread hm hlower).2.1⟩

end Resumable.Lowering
