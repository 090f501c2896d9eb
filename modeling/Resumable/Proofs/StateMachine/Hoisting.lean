import Resumable.Proofs.StateMachine.Finallys
import Resumable.Proofs.StateMachine.Ready
import Resumable.StateMachine.Build

/-!
# Hoisting goes through

Hoisting replaces variables by fields and leaves all else of a lowered body as it is (`Same`).  It
goes through for the bodies that are left of what resolution makes, since their parameters are
those of the method (`hoistBlock_ok`).  The expressions it gives read and write fields of the
machine other than its state and call host methods (`userExpr`).
-/

set_option autoImplicit false

namespace Resumable.StateMachine

open Resumable.Report Resumable.Symbol Resumable.Tree Resumable.Source Resumable.Lowering

/-! ## Expressions of a machine -/

mutual

/-- The expression is made of literals, locals, fields and methods of the machine's own instance,
operators and calls of host methods. -/
def machineExpr (owner : TypeDecl) : Expr → Bool
  | .literal .. | .localRef .. => true
  | .fieldRef _ (.this ..) f => f.owner == owner
  | .unary _ _ e => machineExpr owner e
  | .binary _ _ a b | .assignment _ a b => machineExpr owner a && machineExpr owner b
  | .call _ .absent m args => m.isHost && machineExprs owner args
  | .call _ (.this ..) m args => m.owner == some owner && machineExprs owner args
  | _ => false

/-- All of the expressions are. -/
def machineExprs (owner : TypeDecl) : List Expr → Bool
  | [] => true
  | e :: rest => machineExpr owner e && machineExprs owner rest

end

/-- The expression is one of the machine. -/
def OfMachine (owner : TypeDecl) (e : Expr) : Prop := machineExpr owner e = true

mutual

/-- The expression is made of literals, locals, fields of the machine's own instance other than its
state, operators and calls of host methods. -/
def userExpr (owner : TypeDecl) : Expr → Bool
  | .literal .. | .localRef .. => true
  | .fieldRef _ (.this ..) f => f.owner == owner && f != stateField owner
  | .unary _ _ e => userExpr owner e
  | .binary _ _ a b | .assignment _ a b => userExpr owner a && userExpr owner b
  | .call _ .absent m args => m.isHost && userExprs owner args
  | _ => false

/-- All of the expressions are. -/
def userExprs (owner : TypeDecl) : List Expr → Bool
  | [] => true
  | e :: rest => userExpr owner e && userExprs owner rest

end

/-- The expression is what hoisting makes of one of the user's. -/
def OfUser (owner : TypeDecl) (e : Expr) : Prop := userExpr owner e = true

mutual

theorem machineExpr_of_user {owner : TypeDecl} : ∀ {e : Expr}, userExpr owner e = true →
    machineExpr owner e = true
  | .literal .., _ | .localRef .., _ => rfl
  | .fieldRef _ r _, h => by
    cases r with
    | this =>
      simp only [userExpr, Bool.and_eq_true] at h
      simpa only [machineExpr] using h.1
    | _ => cases h
  | .unary _ _ e, h => machineExpr_of_user (e := e) h
  | .binary _ _ a b, h | .assignment _ a b, h => by
    simp only [userExpr, Bool.and_eq_true] at h
    simp only [machineExpr, machineExpr_of_user h.1, machineExpr_of_user h.2, Bool.and_self]
  | .call _ r _ args, h => by
    cases r with
    | absent =>
      simp only [userExpr, Bool.and_eq_true] at h
      simp only [machineExpr, h.1, machineExprs_of_user h.2, Bool.and_self]
    | _ => cases h
  | .absent, h | .parameterRef .., h | .this .., h | .foreign .., h => nomatch h

theorem machineExprs_of_user {owner : TypeDecl} : ∀ {es : List Expr},
    userExprs owner es = true → machineExprs owner es = true
  | [], _ => rfl
  | e :: rest, h => by
    simp only [userExprs, Bool.and_eq_true] at h
    simp only [machineExprs, machineExpr_of_user h.1, machineExprs_of_user h.2, Bool.and_self]

end

mutual

theorem soundExpr_of_machine {owner : TypeDecl} : ∀ {e : Expr}, machineExpr owner e = true →
    soundExpr e = true
  | .literal .., _ | .localRef .., _ => rfl
  | .fieldRef _ r _, h => by
    cases r with
    | this => rfl
    | _ => cases h
  | .unary _ _ e, h => soundExpr_of_machine (e := e) h
  | .binary _ _ a b, h | .assignment _ a b, h => by
    simp only [machineExpr, Bool.and_eq_true] at h
    simp only [soundExpr, soundExpr_of_machine h.1, soundExpr_of_machine h.2, Bool.and_self]
  | .call _ r _ args, h => by
    cases r with
    | absent | this =>
      simp only [machineExpr, Bool.and_eq_true] at h
      simp [soundExpr, Expr.isAbsent, soundExprs_of_machine h.2]
    | _ => cases h
  | .absent, h | .parameterRef .., h | .this .., h | .foreign .., h => nomatch h

theorem soundExprs_of_machine {owner : TypeDecl} : ∀ {es : List Expr},
    machineExprs owner es = true → soundExprs es = true
  | [], _ => rfl
  | e :: rest, h => by
    simp only [machineExprs, Bool.and_eq_true] at h
    simp only [soundExprs, soundExpr_of_machine h.1, soundExprs_of_machine h.2, Bool.and_self]

end

/-! ## What hoisting keeps -/

/-- Statements with the same labels and jumps in the same places, and the same tries. -/
structure Same (ss ts : List Stmt) : Prop where
  landings : landingsStmts ts = landingsStmts ss
  leaps : leapsStmts ts = leapsStmts ss
  exits : exitsStmts ts = exitsStmts ss
  own : ownStmts ts = ownStmts ss
  opened : openStmts ts = openStmts ss
  shut : shutStmts ts = shutStmts ss
  guarded : GuardedAll ts ↔ GuardedAll ss
  fits : ∀ V, FitsAll V ts ↔ FitsAll V ss
  leads : ∀ V, LeadsAll V ts ↔ LeadsAll V ss
  settled : ∀ markers again, SettledAll markers again ts ↔ SettledAll markers again ss

/-- The same for two blocks. -/
structure SameBlock (b c : Block) : Prop where
  landings : landingsBlock c = landingsBlock b
  leaps : leapsBlock c = leapsBlock b
  exits : exitsBlock c = exitsBlock b
  own : ownBlock c = ownBlock b
  opened : openBlock c = openBlock b
  shut : shutBlock c = shutBlock b
  guarded : GuardedBlock c ↔ GuardedBlock b
  fits : ∀ V, FitsBlock V c ↔ FitsBlock V b
  leads : ∀ V, LeadsBlock V c ↔ LeadsBlock V b
  settled : ∀ markers again, SettledBlock markers again c ↔ SettledBlock markers again b
  absent : c = .absent ↔ b = .absent

/-- The same for handlers. -/
structure SameCatches (cs ds : List Catch) : Prop where
  landings : landingsCatches ds = landingsCatches cs
  leaps : leapsCatches ds = leapsCatches cs
  exits : exitsCatches ds = exitsCatches cs
  own : ownCatches ds = ownCatches cs
  opened : openCatches ds = openCatches cs
  shut : shutCatches ds = shutCatches cs
  guarded : GuardedCatches ds ↔ GuardedCatches cs
  fits : ∀ V, FitsCatches V ds ↔ FitsCatches V cs
  leads : ∀ V, LeadsCatches V ds ↔ LeadsCatches V cs
  settled : ∀ markers again, SettledCatches markers again ds ↔ SettledCatches markers again cs
  empty : ds = [] ↔ cs = []

theorem Same.refl (ss : List Stmt) : Same ss ss :=
  ⟨rfl, rfl, rfl, rfl, rfl, rfl, .rfl, fun _ => .rfl, fun _ => .rfl, fun _ _ => .rfl⟩

theorem SameBlock.refl (b : Block) : SameBlock b b :=
  ⟨rfl, rfl, rfl, rfl, rfl, rfl, .rfl, fun _ => .rfl, fun _ => .rfl, fun _ _ => .rfl, .rfl⟩

theorem SameCatches.nil : SameCatches [] [] :=
  ⟨rfl, rfl, rfl, rfl, rfl, rfl, .rfl, fun _ => .rfl, fun _ => .rfl, fun _ _ => .rfl, .rfl⟩

theorem Same.cons {s t : Stmt} {ss ts : List Stmt} (h : Same [s] [t]) (h' : Same ss ts) :
    Same (s :: ss) (t :: ts) where
  landings := by
    have := h.landings
    simp only [landingsStmts, List.append_nil] at this ⊢
    rw [this, h'.landings]
  leaps := by
    have := h.leaps
    simp only [leapsStmts, List.append_nil] at this ⊢
    rw [this, h'.leaps]
  exits := by
    have := h.exits
    simp only [exitsStmts, List.append_nil] at this ⊢
    rw [this, h'.exits]
  own := by
    have := h.own
    simp only [ownStmts, List.append_nil] at this ⊢
    rw [this, h'.own]
  opened := by
    have := h.opened
    simp only [openStmts, List.append_nil] at this ⊢
    rw [this, h'.opened]
  shut := by
    have := h.shut
    simp only [shutStmts, List.append_nil] at this ⊢
    rw [this, h'.shut]
  guarded := by
    have := h.guarded
    simp only [GuardedAll, and_true] at this ⊢
    rw [this, h'.guarded]
  fits V := by
    have := h.fits V
    simp only [FitsAll, and_true] at this ⊢
    rw [this, h'.fits V]
  leads V := by
    have := h.leads V
    simp only [LeadsAll, and_true] at this ⊢
    rw [this, h'.leads V]
  settled markers again := by
    have := h.settled markers again
    simp only [SettledAll, and_true] at this ⊢
    rw [this, h'.settled]

theorem Same.list {ss ts : List Stmt} (h : Same ss ts) (o : Origin) :
    Same [.list o ss] [.list o ts] where
  landings := by simp only [landingsStmts, landingsStmt, h.landings]
  leaps := by simp only [leapsStmts, leapsStmt, h.leaps]
  exits := by simp only [exitsStmts, exitsStmt, h.exits]
  own := by simp only [ownStmts, ownStmt, h.own]
  opened := by simp only [openStmts, openStmt, h.opened]
  shut := by simp only [shutStmts, shutStmt, h.shut]
  guarded := by simp only [GuardedAll, Guarded, h.guarded]
  fits V := by simp only [FitsAll, Fits, h.fits]
  leads V := by simp only [LeadsAll, Leads, h.leads]
  settled markers again := by simp only [SettledAll, Settled, h.settled]

/-- A block, whatever its locals are. -/
theorem Same.block {ss ts : List Stmt} (h : Same ss ts) (o : Origin) (ls ls' : List Local) :
    SameBlock (.mk o ls ss) (.mk o ls' ts) :=
  ⟨h.landings, h.leaps, h.exits, h.own, h.opened, h.shut, h.guarded, h.fits, h.leads,
    fun markers again => and_congr_right fun _ => h.settled markers again, by simp⟩

theorem SameBlock.stmt {b c : Block} (h : SameBlock b c) : Same [.block b] [.block c] where
  landings := by simp only [landingsStmts, landingsStmt, h.landings]
  leaps := by simp only [leapsStmts, leapsStmt, h.leaps]
  exits := by simp only [exitsStmts, exitsStmt, h.exits]
  own := by simp only [ownStmts, ownStmt, h.own]
  opened := by simp only [openStmts, openStmt, h.opened]
  shut := by simp only [shutStmts, shutStmt, h.shut]
  guarded := by simp only [GuardedAll, Guarded, h.guarded]
  fits V := by simp only [FitsAll, Fits, h.fits]
  leads V := by simp only [LeadsAll, Leads, h.leads]
  settled markers again := by simp only [SettledAll, Settled, h.settled]

theorem SameCatches.cons {b c : Block} {cs ds : List Catch} (h : SameBlock b c)
    (h' : SameCatches cs ds) (o : Origin) (l : Option Local) :
    SameCatches (.mk o l b :: cs) (.mk o l c :: ds) where
  landings := by simp only [landingsCatches, h.landings, h'.landings]
  leaps := by simp only [leapsCatches, h.leaps, h'.leaps]
  exits := by simp only [exitsCatches, h.exits, h'.exits]
  own := by simp only [ownCatches, h.own, h'.own]
  opened := by simp only [openCatches, h.opened, h'.opened]
  shut := by simp only [shutCatches, h.shut, h'.shut]
  guarded := by simp only [GuardedCatches, h.guarded, h'.guarded]
  fits V := by simp only [FitsCatches, h.fits, h'.fits]
  leads V := by simp only [LeadsCatches, h.leads, h'.leads]
  settled markers again := by simp only [SettledCatches, h.settled, h'.settled]
  empty := by simp

theorem SameBlock.closed {b c : Block} (h : SameBlock b c) : Closed c ↔ Closed b := by
  simp only [Closed, h.leaps, h.landings, h.exits]

theorem Same.try {body body' cleanup cleanup' : Block} {catches catches' : List Catch} (o : Origin)
    (hbody : SameBlock body body') (hcatches : SameCatches catches catches')
    (hcleanup : SameBlock cleanup cleanup') :
    Same [.try o body catches cleanup] [.try o body' catches' cleanup'] := by
  have hframed : framed body' cleanup' = framed body cleanup :=
    framed_congr hbody.exits hcleanup.absent
  refine ⟨?_, ?_, ?_, ?_, ?_, ?_, ?_, fun V => ?_, fun V => ?_, fun markers again => ?_⟩
  · simp only [landingsStmts, landingsStmt, hbody.landings, hcatches.landings, hcleanup.landings]
  · simp only [leapsStmts, leapsStmt, hbody.leaps, hcatches.leaps, hcleanup.leaps]
  · simp only [exitsStmts, exitsStmt, hbody.exits, hcatches.exits, hcleanup.exits]
  · simp only [ownStmts, ownStmt, hframed, hbody.own, hcatches.own, hcleanup.own]
  · simp only [openStmts, openStmt, hbody.opened, hcatches.opened]
  · simp only [shutStmts, shutStmt, hbody.shut, hcatches.shut, hcleanup.landings]
  · simp only [GuardedAll, Guarded, hbody.exits, hcatches.exits, hcleanup.exits, hbody.guarded,
      hcatches.guarded, hcleanup.guarded, hcatches.empty, ne_eq]
  · simp only [FitsAll, Fits, hframed, hbody.own, hbody.fits, hcatches.fits, hcleanup.fits,
      hcleanup.closed]
  · simp only [LeadsAll, Leads, hbody.leads, hcatches.leads]
  · simp only [SettledAll, Settled, hbody.settled, hcatches.settled, hcleanup.settled,
      hcleanup.absent, hcatches.empty]

/-! ## Fields -/

/-- The field is one of the machine, but not its state. -/
def HoldsVariable (owner : TypeDecl) (f : Field) : Prop := f.owner = owner ∧ f ≠ stateField owner

/-- The fields are those of a machine that is being built, and each parameter has one. -/
structure Housed (owner : TypeDecl) (params : List Param) (h : Hoisted) : Prop where
  within : h.members.owner = owner
  unfrozen : h.members.frozen = false
  reachable : ∀ p ∈ params, ∃ f, h.param? p = some f
  ofParams : ∀ f ∈ h.params, HoldsVariable owner f
  ofLocals : ∀ x ∈ h.locals, HoldsVariable owner x.2

/-- A parameter's field is one of those of parameters. -/
theorem mem_params_of_param? {h : Hoisted} {p : Param} {f : Field} (hf : h.param? p = some f) :
    f ∈ h.params := by
  unfold Hoisted.param? at hf
  split at hf
  · cases hf
  · exact List.mem_of_getElem? hf

theorem mem_of_lookup {h : Hoisted} {l : Local} {f : Field} (hf : h.locals.lookup l = some f) :
    (l, f) ∈ h.locals := by
  obtain ⟨before, behind, hlocals, -⟩ := List.lookup_eq_some_iff.mp hf
  simp [hlocals]

theorem Hoist.bind_apply {α β : Type} (x : Hoist α) (f : α → Hoist β) (h : Hoisted) :
    (x >>= f) h = match x h with
      | .ok (a, h') => f a h'
      | .error e => .error e := by
  simp only [bind, StateT.bind, Except.bind]
  cases x h <;> rfl

theorem Hoist.pure_apply {α : Type} (a : α) (h : Hoisted) : (pure a : Hoist α) h = .ok (a, h) := rfl

theorem Hoist.get_apply (h : Hoisted) : (get : Hoist Hoisted) h = .ok (h, h) := rfl

theorem Hoist.lift_apply {α : Type} (x : Except Violation α) (h : Hoisted) :
    (liftM x : Hoist α) h = match x with
      | .ok a => .ok (a, h)
      | .error e => .error e := by
  cases x <;> rfl

theorem add_ok {members : MemberList} (hunfrozen : members.frozen = false) {m : Member}
    (howner : m.owner? = some members.owner) :
    members.add m = .ok { members with members := members.members ++ [m] } := by
  simp only [MemberList.add, hunfrozen, howner, Violation.check, Bool.not_false, decide_true]
  rfl

/-- A name that is made unique begins with the name that was asked for. -/
theorem uniqueName_extends (l : MemberList) (base : String) :
    ∃ rest, l.uniqueName base = base ++ rest := by
  have hfree : ∀ tries n, ∃ rest, MemberList.firstFree l.names base tries n = base ++ rest := by
    intro tries
    induction tries with
    | zero => exact fun n => ⟨_, String.append_assoc⟩
    | succ tries ih =>
      intro n
      unfold MemberList.firstFree
      dsimp only
      split
      · exact ih (n + 1)
      · exact ⟨_, String.append_assoc⟩
  unfold MemberList.uniqueName
  split
  · exact hfree _ _
  · exact ⟨"", String.append_empty.symm⟩

/-- A new field is one of the machine that holds a variable, and the members stay those of the
machine. -/
theorem newField_ok {h : Hoisted} (hunfrozen : h.members.frozen = false) {base : String}
    (hbase : ∀ rest, base ++ rest ≠ "$state") (type : Option Ty) :
    ∃ f members, Hoist.newField base type h = .ok (f, { h with members }) ∧
      HoldsVariable h.members.owner f ∧ members.owner = h.members.owner ∧
      members.frozen = false := by
  simp only [Hoist.newField, Hoist.bind_apply, Hoist.get_apply, Hoist.lift_apply]
  rw [add_ok hunfrozen rfl]
  refine ⟨_, _, rfl, ⟨rfl, fun heq => ?_⟩, rfl, hunfrozen⟩
  obtain ⟨rest, hrest⟩ := uniqueName_extends h.members base
  exact hbase rest (hrest.symm.trans (congrArg Field.name heq))

theorem param_ne_state (name rest : String) : s!"$param.{name}" ++ rest ≠ "$state" := by
  intro h
  have hlist := congrArg String.toList h
  simp [toString] at hlist

theorem local_ne_state (name rest : String) : s!"$local.{name}" ++ rest ≠ "$state" := by
  intro h
  have hlist := congrArg String.toList h
  simp [toString] at hlist

namespace Housed

variable {owner : TypeDecl} {params : List Param} {h h' : Hoisted}

/-- Other members and further locals of the machine do not matter. -/
theorem grown (hh : Housed owner params h) (hparams : h'.params = h.params)
    (howner : h'.members.owner = h.members.owner) (hunfrozen : h'.members.frozen = false)
    (hlocals : ∀ x ∈ h'.locals, HoldsVariable owner x.2) : Housed owner params h' where
  within := howner.trans hh.within
  unfrozen := hunfrozen
  reachable p hp := by
    obtain ⟨f, hf⟩ := hh.reachable p hp
    exact ⟨f, by rwa [Hoisted.param?, hparams]⟩
  ofParams f hf := hh.ofParams f (hparams ▸ hf)
  ofLocals := hlocals

theorem declare (hh : Housed owner params h) (l : Local) :
    ∃ h', Hoist.declare l h = .ok ((), h') ∧ Housed owner params h' := by
  simp only [Hoist.declare, Hoist.bind_apply, Hoist.get_apply]
  split
  · obtain ⟨f, members, hnew, hf, howner, hunfrozen⟩ :=
      newField_ok hh.unfrozen (local_ne_state l.name) l.type
    simp only [Hoist.bind_apply, hnew]
    refine ⟨_, rfl, hh.grown rfl howner hunfrozen fun x hx => ?_⟩
    rcases List.mem_append.mp hx with hx | hx
    · exact hh.ofLocals x hx
    · rw [List.mem_singleton.mp hx, ← hh.within]
      exact hf
  · exact ⟨h, rfl, hh⟩

/-- The locals of a block become fields. -/
theorem declareAll (hh : Housed owner params h) (ls : List Local) :
    ∃ h', ls.forM Hoist.declare h = .ok ((), h') ∧ Housed owner params h' := by
  induction ls generalizing h with
  | nil => exact ⟨h, rfl, hh⟩
  | cons l rest ih =>
    obtain ⟨h₁, hdeclare, hh₁⟩ := hh.declare l
    obtain ⟨h₂, hrest, hh₂⟩ := ih hh₁
    refine ⟨h₂, ?_, hh₂⟩
    change (Hoist.declare l >>= fun _ => rest.forM Hoist.declare) h = _
    rw [Hoist.bind_apply, hdeclare]
    exact hrest

/-- The fields of parameters. -/
theorem param (hh : Housed owner [] h) (ps : List Param) :
    ∃ h', ps.forM Hoist.param h = .ok ((), h') ∧ Housed owner [] h' ∧
      h'.params.length = h.params.length + ps.length ∧ h'.locals = h.locals := by
  induction ps generalizing h with
  | nil => exact ⟨h, rfl, hh, rfl, rfl⟩
  | cons p rest ih =>
    obtain ⟨f, members, hnew, hf, howner, hunfrozen⟩ :=
      newField_ok hh.unfrozen (param_ne_state p.name) p.type
    have hh₁ : Housed owner [] { h with members, params := h.params ++ [f] } := by
      refine ⟨howner.trans hh.within, hunfrozen, (fun _ hp => nomatch hp), fun g hg => ?_,
        hh.ofLocals⟩
      rcases List.mem_append.mp hg with hg | hg
      · exact hh.ofParams g hg
      · rw [List.mem_singleton.mp hg, ← hh.within]
        exact hf
    obtain ⟨h₂, hrest, hh₂, hlength, hlocals⟩ := ih hh₁
    refine ⟨h₂, ?_, hh₂, ?_, hlocals⟩
    · change (Hoist.param p >>= fun _ => rest.forM Hoist.param) h = _
      rw [Hoist.bind_apply, Hoist.param, Hoist.bind_apply, hnew]
      exact hrest
    · rw [hlength]
      simp only [List.length_append, List.length_cons, List.length_nil]
      omega

end Housed

/-- The members that every machine has can be declared, and each parameter gets its field. -/
theorem declareMembers_ok (owner : TypeDecl) {m : Method}
    (hordinals : ∀ (i : Nat) (p : Param), m.params[i]? = some p → p.ordinal = i) :
    ∃ h, declareMembers owner m = .ok h ∧ Housed owner m.params h ∧ h.locals = [] := by
  have hstate := @add_ok { owner } rfl (.field (stateField owner)) rfl
  have hcurrent := @add_ok { owner, members := [.field (stateField owner)] } rfl
    (.field (currentField owner m)) rfl
  have hh : Housed owner [] { members := { owner, members := [.field (stateField owner),
      .field (currentField owner m)] } } :=
    ⟨rfl, rfl, (fun _ hp => nomatch hp), (fun _ hf => nomatch hf), fun _ hx => nomatch hx⟩
  obtain ⟨h, hrun, hh, hlength, hlocals⟩ := hh.param m.params
  have hmoveNext := @add_ok h.members hh.unfrozen (.method (.moveNext owner))
    (by rw [hh.within]; rfl)
  have hdispose := @add_ok { h.members with members := h.members.members ++
    [.method (.moveNext owner)] } hh.unfrozen (.method (.dispose owner)) (by rw [hh.within]; rfl)
  have heq : declareMembers owner m = .ok { h with members := { h.members with members :=
      h.members.members ++ [.method (.moveNext owner)] ++ [.method (.dispose owner)] } } := by
    unfold declareMembers
    simp only [bind, Except.bind, hstate, List.nil_append, hcurrent, List.cons_append, StateT.run,
      hrun, hmoveNext, hdispose]
    rfl
  refine ⟨_, heq, ⟨hh.within, hh.unfrozen, fun p hp => ?_, hh.ofParams, hh.ofLocals⟩, hlocals⟩
  obtain ⟨i, hi⟩ := List.mem_iff_getElem?.mp hp
  have hordinal := hordinals i p hi
  have hlt : i < h.params.length := by
    have hbound := (List.getElem?_eq_some_iff.mp hi).1
    rw [hlength]
    simpa using hbound
  refine ⟨h.params[i], ?_⟩
  simp [Hoisted.param?, hordinal, hlt]

/-! ## Hoisted expressions -/

variable {owner : TypeDecl} {params : List Param}

theorem inPlace_user (o : Origin) {f : Field} (hf : HoldsVariable owner f) :
    userExpr owner (inPlace o f) = true := by
  simp [inPlace, Made.this, userExpr, hf.1, hf.2]

mutual

theorem hoistExpr_ok {h : Hoisted} (hh : Housed owner params h) : ∀ {e : Expr},
    boundExpr params e = true → ∃ e', hoistExpr h e = .ok e' ∧ userExpr owner e' = true
  | .literal .., _ => ⟨_, rfl, rfl⟩
  | .localRef o l, _ => by
    rw [hoistExpr]
    cases hl : h.locals.lookup l with
    | none => exact ⟨_, rfl, rfl⟩
    | some f =>
      exact ⟨_, rfl, inPlace_user o (hh.ofLocals (l, f) (mem_of_lookup hl))⟩
  | .parameterRef o p, hp => by
    obtain ⟨f, hf⟩ := hh.reachable p (by simpa [boundExpr] using hp)
    rw [hoistExpr, hf]
    exact ⟨_, rfl, inPlace_user o (hh.ofParams f (mem_params_of_param? hf))⟩
  | .unary o op e, he => by
    obtain ⟨e', hoist, he'⟩ := @hoistExpr_ok h hh e he
    exact ⟨.unary o op e', by simp only [hoistExpr, hoist]; rfl, he'⟩
  | .binary o op a b, hab => by
    simp only [boundExpr, Bool.and_eq_true] at hab
    obtain ⟨a', hoist, ha⟩ := hoistExpr_ok hh hab.1
    obtain ⟨b', hoist', hb⟩ := hoistExpr_ok hh hab.2
    refine ⟨.binary o op a' b', by simp only [hoistExpr, hoist, hoist']; rfl, ?_⟩
    simp only [userExpr, ha, hb, Bool.and_self]
  | .call o r m args, hcall => by
    simp only [boundExpr, Bool.and_eq_true] at hcall
    obtain ⟨⟨hr, hm⟩, hargs⟩ := hcall
    obtain ⟨args', hoist, hargs'⟩ := hoistExprs_ok hh hargs
    cases r with
    | absent =>
      refine ⟨.call o .absent m args', by simp only [hoistExpr, hoist]; rfl, ?_⟩
      simp only [userExpr, hm, hargs', Bool.and_self]
    | _ => cases hr
  | .absent, he | .fieldRef .., he | .this .., he | .assignment .., he | .foreign .., he =>
    nomatch he

theorem hoistExprs_ok {h : Hoisted} (hh : Housed owner params h) : ∀ {es : List Expr},
    boundExprs params es = true → ∃ es', hoistExprs h es = .ok es' ∧ userExprs owner es' = true
  | [], _ => ⟨[], rfl, rfl⟩
  | e :: rest, hes => by
    simp only [boundExprs, Bool.and_eq_true] at hes
    obtain ⟨e', hoist, he⟩ := hoistExpr_ok hh hes.1
    obtain ⟨rest', hoist', hrest⟩ := hoistExprs_ok hh hes.2
    refine ⟨e' :: rest', by simp only [hoistExprs, hoist, hoist']; rfl, ?_⟩
    simp only [userExprs, he, hrest, Bool.and_self]

end

theorem hoistNow_ok {h : Hoisted} (hh : Housed owner params h) {e : Expr} (he : BoundIn params e) :
    ∃ e', hoistNow e h = .ok (e', h) ∧ OfUser owner e' := by
  have hexpr : ∃ e', hoistExpr h e = .ok e' ∧ userExpr owner e' = true := by
    cases e with
    | assignment o target value =>
      simp only [BoundIn, boundEffect, Bool.and_eq_true] at he
      obtain ⟨target', hoist, htarget⟩ := hoistExpr_ok hh he.1.2
      obtain ⟨value', hoist', hvalue⟩ := hoistExpr_ok hh he.2
      refine ⟨.assignment o target' value', by simp only [hoistExpr, hoist, hoist']; rfl, ?_⟩
      simp only [userExpr, htarget, hvalue, Bool.and_self]
    | _ => exact hoistExpr_ok hh he
  obtain ⟨e', hoist, he'⟩ := hexpr
  refine ⟨e', ?_, he'⟩
  simp only [hoistNow, Hoist.bind_apply, Hoist.get_apply, Hoist.lift_apply, hoist]

theorem hoistOptional_ok {h : Hoisted} (hh : Housed owner params h) {e : Expr}
    (he : e = .absent ∨ BoundIn params e) :
    ∃ e', hoistOptional e h = .ok (e', h) ∧ (e' = .absent ∨ OfUser owner e') ∧
      (e' = .absent ↔ e = .absent) := by
  by_cases habsent : e = .absent
  · subst habsent
    exact ⟨.absent, rfl, .inl rfl, .rfl⟩
  · obtain ⟨e', hoist, he'⟩ := hoistNow_ok hh (he.resolve_left habsent)
    have hpresent : e' ≠ .absent := by
      rintro rfl
      cases he'
    refine ⟨e', ?_, .inr he', iff_of_false hpresent habsent⟩
    cases e with
    | absent => exact absurd rfl habsent
    | _ => exact hoist

/-! ## Hoisted statements -/

mutual

theorem hoistStmt_ok : ∀ {s : Stmt}, Ready (BoundIn params) s → ∀ {h : Hoisted},
    Housed owner params h → ∃ s' h', hoistStmt s h = .ok (s', h') ∧ Housed owner params h' ∧
      Ready (OfUser owner) s' ∧ Same [s] [s']
  | .block b, hs, h, hh => by
    obtain ⟨b', h', hoist, hh', hready, hsame⟩ := hoistBlock_ok (b := b) hs hh
    refine ⟨.block b', h', ?_, hh', hready, hsame.stmt⟩
    simp only [hoistStmt, Hoist.bind_apply, hoist, Hoist.pure_apply]
  | .list o ss, hs, h, hh => by
    obtain ⟨ss', h', hoist, hh', hready, hsame⟩ := @hoistStmts_ok ss hs h hh
    refine ⟨.list o ss', h', ?_, hh', hready, hsame.list o⟩
    simp only [hoistStmt, Hoist.bind_apply, hoist, Hoist.pure_apply]
  | .sequencePoint .., _, h, hh | .yieldBreak _, _, h, hh | .label .., _, h, hh
  | .goto .., _, h, hh => ⟨_, h, rfl, hh, trivial, .refl _⟩
  | .expression o e, he, h, hh => by
    obtain ⟨e', hoist, he'⟩ := hoistNow_ok hh he
    refine ⟨.expression o e', h, ?_, hh, he',
      ⟨rfl, rfl, rfl, rfl, rfl, rfl, .rfl, fun _ => .rfl, fun _ => .rfl, fun _ _ => .rfl⟩⟩
    simp only [hoistStmt, Hoist.bind_apply, hoist, Hoist.pure_apply]
  | .yieldReturn o e, he, h, hh => by
    obtain ⟨e', hoist, he'⟩ := hoistNow_ok hh he
    refine ⟨.yieldReturn o e', h, ?_, hh, he',
      ⟨rfl, rfl, rfl, rfl, rfl, rfl, .rfl, fun _ => .rfl, fun _ => .rfl, fun _ _ => .rfl⟩⟩
    simp only [hoistStmt, Hoist.bind_apply, hoist, Hoist.pure_apply]
  | .conditionalGoto o c w l, he, h, hh => by
    obtain ⟨c', hoist, hc⟩ := hoistNow_ok hh he
    refine ⟨.conditionalGoto o c' w l, h, ?_, hh, hc,
      ⟨rfl, rfl, rfl, rfl, rfl, rfl, .rfl, fun _ => .rfl, fun _ => .rfl, fun _ _ => .rfl⟩⟩
    simp only [hoistStmt, Hoist.bind_apply, hoist, Hoist.pure_apply]
  | .return o e, he, h, hh => by
    obtain ⟨e', hoist, he', -⟩ := hoistOptional_ok hh he
    refine ⟨.return o e', h, ?_, hh, he',
      ⟨rfl, rfl, rfl, rfl, rfl, rfl, .rfl, fun _ => .rfl, fun _ => .rfl, fun _ _ => .rfl⟩⟩
    simp only [hoistStmt, Hoist.bind_apply, hoist, Hoist.pure_apply]
  | .throw o e, he, h, hh => by
    obtain ⟨e', hoist, he', habsent⟩ := hoistOptional_ok hh he
    refine ⟨.throw o e', h, ?_, hh, he',
      ⟨rfl, rfl, rfl, rfl, rfl, rfl, .rfl, fun _ => .rfl, fun _ => .rfl, fun _ _ => ?_⟩⟩
    · simp only [hoistStmt, Hoist.bind_apply, hoist, Hoist.pure_apply]
    · simp only [SettledAll, Settled, ne_eq, habsent]
  | .try o body catches cleanup, ⟨hbody, hcatches, hcleanup, hform⟩, h, hh => by
    have hlast : ∃ cleanup' h₁, hoistBlock cleanup h = .ok (cleanup', h₁) ∧
        Housed owner params h₁ ∧ (cleanup' = .absent ∨ ReadyBlock (OfUser owner) cleanup') ∧
        SameBlock cleanup cleanup' := by
      rcases hcleanup with rfl | hcleanup
      · exact ⟨.absent, h, rfl, hh, .inl rfl, .refl _⟩
      · obtain ⟨cleanup', h₁, hoist, hh₁, hready, hsame⟩ := hoistBlock_ok hcleanup hh
        exact ⟨cleanup', h₁, hoist, hh₁, .inr hready, hsame⟩
    obtain ⟨cleanup', h₁, hoist₁, hh₁, hready₁, hsame₁⟩ := hlast
    obtain ⟨catches', h₂, hoist₂, hh₂, hready₂, hsame₂⟩ := hoistCatches_ok hcatches hh₁
    obtain ⟨body', h₃, hoist₃, hh₃, hready₃, hsame₃⟩ := hoistBlock_ok hbody hh₂
    refine ⟨.try o body' catches' cleanup', h₃, ?_, hh₃, ⟨hready₃, hready₂, hready₁, ?_⟩,
      .try o hsame₃ hsame₂ hsame₁⟩
    · simp only [hoistStmt, Hoist.bind_apply, hoist₁, hoist₂, hoist₃, Hoist.pure_apply]
    · rw [hsame₂.empty, Ne, hsame₁.absent]
      exact hform
  | .absent, hs, _, _ | .noOp .., hs, _, _ | .localDeclaration .., hs, _, _ | .if .., hs, _, _
  | .while .., hs, _, _ | .break .., hs, _, _ | .continue .., hs, _, _ | .dispatch .., hs, _, _
  | .foreign .., hs, _, _ => hs.elim

theorem hoistStmts_ok : ∀ {ss : List Stmt}, ReadyAll (BoundIn params) ss → ∀ {h : Hoisted},
    Housed owner params h → ∃ ss' h', hoistStmts ss h = .ok (ss', h') ∧ Housed owner params h' ∧
      ReadyAll (OfUser owner) ss' ∧ Same ss ss'
  | [], _, h, hh => ⟨[], h, rfl, hh, trivial, .refl _⟩
  | s :: rest, ⟨hs, hrest⟩, h, hh => by
    obtain ⟨s', h₁, hoist₁, hh₁, hready₁, hsame₁⟩ := hoistStmt_ok hs hh
    obtain ⟨rest', h₂, hoist₂, hh₂, hready₂, hsame₂⟩ := hoistStmts_ok hrest hh₁
    refine ⟨s' :: rest', h₂, ?_, hh₂, ⟨hready₁, hready₂⟩, hsame₁.cons hsame₂⟩
    simp only [hoistStmts, Hoist.bind_apply, hoist₁, hoist₂, Hoist.pure_apply]

theorem hoistBlock_ok : ∀ {b : Block}, ReadyBlock (BoundIn params) b → ∀ {h : Hoisted},
    Housed owner params h → ∃ b' h', hoistBlock b h = .ok (b', h') ∧ Housed owner params h' ∧
      ReadyBlock (OfUser owner) b' ∧ SameBlock b b'
  | .absent, hb, _, _ => hb.elim
  | .mk o ls ss, ⟨hbraces, hss⟩, h, hh => by
    obtain ⟨h₁, hdeclare, hh₁⟩ := hh.declareAll ls
    obtain ⟨ss', h₂, hoist, hh₂, hready, hsame⟩ := hoistStmts_ok hss hh₁
    refine ⟨.mk o [] ss', h₂, ?_, hh₂, ⟨hbraces, hready⟩, hsame.block o ls []⟩
    simp only [hoistBlock, Hoist.bind_apply, hdeclare, hoist, Hoist.pure_apply]

theorem hoistCatches_ok : ∀ {cs : List Catch}, ReadyCatches (BoundIn params) cs →
    ∀ {h : Hoisted}, Housed owner params h → ∃ cs' h', hoistCatches cs h = .ok (cs', h') ∧
      Housed owner params h' ∧ ReadyCatches (OfUser owner) cs' ∧ SameCatches cs cs'
  | [], _, h, hh => ⟨[], h, rfl, hh, trivial, .nil⟩
  | .mk o l body :: rest, ⟨hbody, hrest⟩, h, hh => by
    obtain ⟨body', h₁, hoist₁, hh₁, hready₁, hsame₁⟩ := hoistBlock_ok hbody hh
    obtain ⟨rest', h₂, hoist₂, hh₂, hready₂, hsame₂⟩ := hoistCatches_ok hrest hh₁
    refine ⟨.mk o l body' :: rest', h₂, ?_, hh₂, ⟨hready₁, hready₂⟩, .cons hsame₁ hsame₂ o l⟩
    simp only [hoistCatches, Hoist.bind_apply, hoist₁, hoist₂, Hoist.pure_apply]

end

end Resumable.StateMachine
