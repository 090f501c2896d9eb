import Resumable.Proofs.Source.Variables
import Resumable.Proofs.StateMachine.Moved
import Resumable.Proofs.StateMachine.Numbering

/-!
# Fields of variables

Hoisting gives each parameter and each local of a block a field with a name and of a type of its own
(`Named`).  A local is referred to only inside of the block that declares it, and that block has made
its field before, so an expression is hoisted as it would be with the fields that there are in the
end (`movedBlock_final`).
-/

set_option autoImplicit false

namespace Resumable.StateMachine

open Resumable.Report Resumable.Symbol Resumable.Tree Resumable.Source Resumable.Lowering

variable {α : Type}

/-! ## Variables -/

/-- A variable of a method. -/
inductive Variable where
  | ofParam (p : Param)
  | ofLocal (l : Local)
  deriving DecidableEq, Repr, Inhabited

/-- The type of a variable. -/
def Variable.type : Variable → Option Ty
  | ofParam p => p.type
  | ofLocal l => l.type

/-- The locals that blocks declare. -/
def blockLocals (b : Block) : List Local := ((declarations.block b).filter fun d => d.2).map Prod.fst

/-- The variables of a method: its parameters and the locals of its blocks. -/
def variablesOf (m : MethodBody) : List Variable :=
  m.symbol.params.map .ofParam ++ (blockLocals m.body).map .ofLocal

theorem mem_blockLocals {b : Block} {l : Local} :
    l ∈ blockLocals b ↔ (l, true) ∈ declarations.block b := by
  simp [blockLocals]

/-- The field that a variable has become. -/
def Hoisted.field? (h : Hoisted) : Variable → Option Field
  | .ofParam p => h.param? p
  | .ofLocal l => h.locals.lookup l

/-! ## Names of fields -/

/-- The fields that are made before, those of parameters and those of locals have names of their own,
and each local has its type. -/
structure Named (fixed : List Field) (h : Hoisted) : Prop where
  nodup : ((fixed ++ (h.params ++ h.locals.map Prod.snd)).map Field.name).Nodup
  used : ∀ f ∈ fixed ++ (h.params ++ h.locals.map Prod.snd), f.name ∈ h.members.names
  types : ∀ x ∈ h.locals, x.2.type = x.1.type

/-- A new field has a name that is not in use, and the type that it is made of. -/
theorem newField_eq {base : String} {type : Option Ty} {h h' : Hoisted} {f : Field}
    (hnew : Hoist.newField base type h = .ok (f, h')) :
    f.name ∉ h.members.names ∧ f.type = type ∧
      ∃ members, h' = { h with members } ∧ members.names = h.members.names ++ [f.name] := by
  simp only [Hoist.newField, Hoist.bind_apply, Hoist.get_apply, Hoist.lift_apply] at hnew
  cases hadd : h.members.add (.field { name := h.members.uniqueName base, type := type,
                                       owner := h.members.owner, synthesized := true }) with
  | error v =>
    rw [hadd] at hnew
    cases hnew
  | ok members =>
    rw [hadd] at hnew
    cases hnew
    refine ⟨uniqueName_notMem _ _, rfl, members, rfl, ?_⟩
    rw [add_eq hadd]
    simp [MemberList.names, Member.name]

namespace Named

variable {fixed : List Field} {h : Hoisted}

/-- No two of the fields are the same. -/
theorem fields_nodup (hn : Named fixed h) :
    (fixed ++ (h.params ++ h.locals.map Prod.snd)).Nodup := hn.nodup.of_map

/-- A variable's field is none of those that were made before. -/
theorem notMem_of_field? (hn : Named fixed h) {v : Variable} {f : Field} (hf : h.field? v = some f) :
    f ∉ fixed := by
  intro hfixed
  refine (List.nodup_append.mp hn.fields_nodup).2.2 f hfixed f ?_ rfl
  cases v with
  | ofParam p => exact List.mem_append_left _ (mem_params_of_param? hf)
  | ofLocal l => exact List.mem_append_right _ (List.mem_map.mpr ⟨_, mem_of_lookup hf, rfl⟩)

/-- Variables of one field are the same, if the ordinals of parameters are their positions. -/
theorem field?_injective (hn : Named fixed h) {params : List Param}
    (hordinals : ∀ (i : Nat) (p : Param), params[i]? = some p → p.ordinal = i) {v v' : Variable}
    (hv : ∀ p, v = .ofParam p → p ∈ params) (hv' : ∀ p, v' = .ofParam p → p ∈ params) {f : Field}
    (hf : h.field? v = some f) (hf' : h.field? v' = some f) : v = v' := by
  obtain ⟨hparams, hlocals, happart⟩ :=
    List.nodup_append.mp (List.nodup_append.mp hn.fields_nodup).2.1
  cases v with
  | ofParam p =>
    cases v' with
    | ofParam p' =>
      obtain ⟨i, hi⟩ := List.mem_iff_getElem?.mp (hv p rfl)
      obtain ⟨j, hj⟩ := List.mem_iff_getElem?.mp (hv' p' rfl)
      have hi' : h.params[i]? = some f := by
        simpa [Hoisted.field?, Hoisted.param?, hordinals i p hi] using hf
      have hj' : h.params[j]? = some f := by
        simpa [Hoisted.field?, Hoisted.param?, hordinals j p' hj] using hf'
      obtain rfl : i = j :=
        (List.getElem?_inj (List.getElem?_eq_some_iff.mp hi').1 hparams).mp (hi'.trans hj'.symm)
      rw [Option.some.inj (hi.symm.trans hj)]
    | ofLocal l =>
      exact absurd rfl (happart f (mem_params_of_param? hf) f
        (List.mem_map.mpr ⟨_, mem_of_lookup hf', rfl⟩))
  | ofLocal l =>
    cases v' with
    | ofParam p =>
      exact absurd rfl (happart f (mem_params_of_param? hf') f
        (List.mem_map.mpr ⟨_, mem_of_lookup hf, rfl⟩))
    | ofLocal l' =>
      have hpair := List.inj_on_of_nodup_map hlocals (mem_of_lookup hf) (mem_of_lookup hf') rfl
      rw [(Prod.mk.inj hpair).1]

/-- One more field, for a parameter or for a local. -/
theorem grown (hn : Named fixed h) {f : Field} (hf : f.name ∉ h.members.names)
    {members : MemberList} (hmembers : members.names = h.members.names ++ [f.name])
    {params : List Field} {locals : List (Local × Field)}
    (hfields : (fixed ++ (params ++ locals.map Prod.snd)).Perm
      (f :: (fixed ++ (h.params ++ h.locals.map Prod.snd))))
    (htypes : ∀ x ∈ locals, x.2.type = x.1.type) : Named fixed { members, params, locals } where
  nodup := by
    refine ((hfields.map Field.name).nodup_iff).mpr (List.nodup_cons.mpr ⟨fun hmem => hf ?_, hn.nodup⟩)
    obtain ⟨g, hg, hname⟩ := List.mem_map.mp hmem
    exact hname ▸ hn.used g hg
  used g hg := by
    show g.name ∈ members.names
    rw [hmembers]
    rcases List.mem_cons.mp (hfields.mem_iff.mp hg) with rfl | hg
    · exact List.mem_append_right _ (List.mem_singleton_self _)
    · exact List.mem_append_left _ (hn.used g hg)
  types := htypes

/-- The fields of parameters, in their order. -/
theorem ofParams : ∀ {ps : List Param} {h h' : Hoisted}, Named fixed h →
    ps.forM Hoist.param h = .ok ((), h') →
    Named fixed h' ∧ h'.locals = h.locals ∧
      h'.params.map Field.type = h.params.map Field.type ++ ps.map Param.type
  | [], h, h', hn, hps => by
    cases hps
    exact ⟨hn, rfl, by simp⟩
  | p :: rest, h, h', hn, hps => by
    change (Hoist.param p >>= fun _ => rest.forM Hoist.param) h = _ at hps
    obtain ⟨_, h₁, hp, hrest⟩ := Hoist.bind_ok.mp hps
    obtain ⟨f, h₂, hnew, hmodify⟩ := Hoist.bind_ok.mp hp
    obtain ⟨hfree, htype, members, rfl, hmembers⟩ := newField_eq hnew
    cases hmodify
    have hgrown : Named fixed { members, params := h.params ++ [f], locals := h.locals } := by
      refine hn.grown hfree hmembers ?_ hn.types
      simp only [List.append_assoc, List.singleton_append]
      exact ((List.perm_middle (a := f)).append_left fixed).trans List.perm_middle
    obtain ⟨hn', hlocals, htypes⟩ := ofParams hgrown hrest
    refine ⟨hn', hlocals, ?_⟩
    rw [htypes]
    simp [htype]

/-- Further members do not matter. -/
theorem further (hn : Named fixed h) {members : MemberList}
    (hnames : ∀ name ∈ h.members.names, name ∈ members.names) :
    Named fixed { h with members } :=
  ⟨hn.nodup, fun f hf => hnames _ (hn.used f hf), hn.types⟩

end Named

/-- The fields that every machine has, and those of the parameters. -/
theorem declareMembers_named {owner : TypeDecl} {m : Method} {h : Hoisted}
    (hdeclare : declareMembers owner m = .ok h) :
    Named [stateField owner, currentField owner m] h ∧ h.locals = [] ∧
      h.params.map Field.type = m.params.map Param.type := by
  obtain ⟨l₁, hfirst, hdeclare⟩ := Machine.bind_ok_iff.mp hdeclare
  obtain ⟨l₂, hsecond, hdeclare⟩ := Machine.bind_ok_iff.mp hdeclare
  obtain ⟨⟨_, h₁⟩, hparams, hdeclare⟩ := Machine.bind_ok_iff.mp hdeclare
  obtain ⟨l₃, hthird, hdeclare⟩ := Machine.bind_ok_iff.mp hdeclare
  obtain ⟨l₄, hfourth, hdeclare⟩ := Machine.bind_ok_iff.mp hdeclare
  cases hdeclare
  have hfixed : Named [stateField owner, currentField owner m] { members := l₂ } := by
    rw [add_eq hsecond, add_eq hfirst]
    exact ⟨by simp [stateField, currentField],
      by simp [MemberList.names, Member.name], fun _ hx => nomatch hx⟩
  obtain ⟨hnamed, hlocals, htypes⟩ := hfixed.ofParams hparams
  refine ⟨hnamed.further fun name hname => ?_, hlocals, htypes⟩
  rw [add_eq hfourth, add_eq hthird]
  simp only [MemberList.names, List.map_append, List.mem_append]
  exact .inl (.inl hname)

/-! ## Fields of locals -/

/-- Fields that are there stay. -/
structure Retains (h h' : Hoisted) : Prop where
  params : h'.params = h.params
  locals : ∀ l f, h.locals.lookup l = some f → h'.locals.lookup l = some f

/-- The locals that are declared in between get fields, and no others do. -/
structure Adds (ds : List (Local × Bool)) (h h' : Hoisted) : Prop extends Retains h h' where
  known : ∀ l, (h'.locals.lookup l).isSome ↔ (h.locals.lookup l).isSome ∨ (l, true) ∈ ds
  named : ∀ {fixed : List Field}, Named fixed h → Named fixed h'

theorem Retains.refl (h : Hoisted) : Retains h h := ⟨rfl, fun _ _ => id⟩

theorem Retains.trans {h₁ h₂ h₃ : Hoisted} (h : Retains h₁ h₂) (h' : Retains h₂ h₃) :
    Retains h₁ h₃ :=
  ⟨h'.params.trans h.params, fun l f hl => h'.locals l f (h.locals l f hl)⟩

/-- A local that has its last field already has it from then on. -/
theorem Retains.settled {h₁ h₂ h₃ : Hoisted} (h : Retains h₁ h₂) (h' : Retains h₂ h₃) {l : Local}
    (hl : h₁.locals.lookup l = h₃.locals.lookup l) : h₂.locals.lookup l = h₃.locals.lookup l := by
  cases h₁l : h₁.locals.lookup l with
  | some f => rw [h.locals l f h₁l, ← hl, h₁l]
  | none =>
    cases h₂l : h₂.locals.lookup l with
    | none => rw [← hl, h₁l]
    | some f =>
      rw [h₁l, h'.locals l f h₂l] at hl
      cases hl

namespace Adds

variable {ds ds' : List (Local × Bool)} {h h₁ h₂ h₃ : Hoisted}

theorem still (h : Hoisted) : Adds [] h h := ⟨.refl h, fun l => by simp, id⟩

theorem trans (h : Adds ds h₁ h₂) (h' : Adds ds' h₂ h₃) : Adds (ds ++ ds') h₁ h₃ :=
  ⟨h.toRetains.trans h'.toRetains,
    fun l => by rw [h'.known, h.known, List.mem_append, or_assoc], fun hn => h'.named (h.named hn)⟩

theorem congr (h : Adds ds h₁ h₂) (hds : ∀ l, (l, true) ∈ ds ↔ (l, true) ∈ ds') : Adds ds' h₁ h₂ :=
  ⟨h.toRetains, fun l => by rw [h.known, hds], h.named⟩

/-- A local gets a field when it is first declared. -/
theorem declare {l : Local} (hdeclare : Hoist.declare l h = .ok ((), h₁)) :
    Adds [(l, true)] h h₁ := by
  simp only [Hoist.declare, Hoist.bind_apply, Hoist.get_apply] at hdeclare
  split at hdeclare
  · rename_i hnone
    rw [Option.isNone_iff_eq_none] at hnone
    obtain ⟨f, h₂, hnew, hmodify⟩ := Hoist.bind_ok.mp hdeclare
    obtain ⟨hfree, htype, members, rfl, hmembers⟩ := newField_eq hnew
    cases hmodify
    refine ⟨⟨rfl, fun l' f' hl' => ?_⟩, fun l' => ?_, fun hn => ?_⟩
    · show (h.locals ++ [(l, f)]).lookup l' = some f'
      rw [List.lookup_append, hl', Option.some_or]
    · show ((h.locals ++ [(l, f)]).lookup l').isSome ↔ _
      rw [List.lookup_append, Option.isSome_or, Bool.or_eq_true]
      refine or_congr_right ?_
      simp [List.lookup_isSome_iff]
    · refine hn.grown hfree hmembers ?_ fun x hx => ?_
      · show (_ ++ (h.params ++ (h.locals ++ [(l, f)]).map Prod.snd)).Perm _
        rw [List.map_append, ← List.append_assoc, ← List.append_assoc, List.append_assoc _ h.params]
        exact List.perm_append_singleton f _
      · rcases List.mem_append.mp hx with hx | hx
        · exact hn.types x hx
        · rw [List.mem_singleton.mp hx]
          exact htype
  · rename_i hsome
    cases hdeclare
    refine ⟨.refl h, fun l' => ⟨.inl, fun hl' => hl'.elim id fun hl' => ?_⟩, id⟩
    obtain rfl : l' = l := by simpa using hl'
    rwa [Option.isNone_iff_eq_none, ← Ne, Option.ne_none_iff_isSome] at hsome

/-- The locals of a block. -/
theorem declareAll : ∀ {ls : List Local} {h h' : Hoisted},
    ls.forM Hoist.declare h = .ok ((), h') → Adds (ls.map (·, true)) h h'
  | [], h, h', hall => by
    cases hall
    exact .still h
  | l :: rest, h, h', hall => by
    change (Hoist.declare l >>= fun _ => rest.forM Hoist.declare) h = _ at hall
    obtain ⟨_, h₁, hl, hrest⟩ := Hoist.bind_ok.mp hall
    exact (declare hl).trans (declareAll hrest)

end Adds

variable {R : Hoisted → Expr → Expr → Prop}

mutual

theorem moved_adds : ∀ {s t : Stmt} {h h' : Hoisted}, Moved R h s t h' →
    Adds (declarations.stmt s) h h'
  | .block b, _, _, _, ⟨_, hb, _⟩ => movedBlock_adds (b := b) hb
  | .list _ ss, _, _, _, ⟨_, hss, _⟩ => movedAll_adds (s := ss) hss
  | .try _ body catches cleanup, _, _, _, ⟨_, _, _, _, _, hcleanup, hcatches, hbody, _⟩ =>
    ((movedBlock_adds hcleanup).trans
      ((movedCatches_adds hcatches).trans (movedBlock_adds hbody))).congr fun l => by
        simp only [Tally.stmt, List.mem_append]
        tauto
  | .expression _ e, _, h, _, ⟨_, _, _, hh⟩ | .yieldReturn _ e, _, h, _, ⟨_, _, _, hh⟩
  | .conditionalGoto _ e _ _, _, h, _, ⟨_, _, _, hh⟩ | .dispatch _ e _ _, _, h, _, ⟨_, _, _, hh⟩
  | .return _ e, _, h, _, ⟨_, _, _, hh⟩ | .throw _ e, _, h, _, ⟨_, _, _, hh⟩ => by
    rw [hh, Tally.stmt, declarations_expr]
    exact .still h
  | .sequencePoint .., _, h, _, ⟨_, hh⟩ | .yieldBreak _, _, h, _, ⟨_, hh⟩
  | .label .., _, h, _, ⟨_, hh⟩ | .goto .., _, h, _, ⟨_, hh⟩ => by
    rw [hh]
    exact .still h
  | .absent, _, _, _, hs | .noOp .., _, _, _, hs | .localDeclaration .., _, _, _, hs
  | .if .., _, _, _, hs | .while .., _, _, _, hs | .break .., _, _, _, hs
  | .continue .., _, _, _, hs | .foreign .., _, _, _, hs => by
    rw [Moved] at hs
    exact hs.elim
termination_by structural s => s

theorem movedAll_adds : ∀ {s ts : List Stmt} {h h' : Hoisted}, MovedAll R h s ts h' →
    Adds (declarations.stmts s) h h'
  | [], _, h, _, ⟨_, hh⟩ => by
    rw [hh]
    exact .still h
  | s :: rest, _, _, _, ⟨_, _, _, hs, hrest, _⟩ => (moved_adds hs).trans (movedAll_adds hrest)
termination_by structural ss => ss

/-- Hoisting a block gives the locals that are declared in it their fields. -/
theorem movedBlock_adds : ∀ {b b' : Block} {h h' : Hoisted}, MovedBlock R h b b' h' →
    Adds (declarations.block b) h h'
  | .absent, _, h, _, ⟨_, hh⟩ => by
    rw [hh]
    exact .still h
  | .mk o ls ss, _, _, _, ⟨_, _, hdeclare, hss, _⟩ => by
    rw [Tally.block, declarations_braces]
    exact (Adds.declareAll hdeclare).trans (movedAll_adds hss)
termination_by structural b => b

theorem movedCatches_adds : ∀ {cs ds : List Catch} {h h' : Hoisted}, MovedCatches R h cs ds h' →
    Adds (declarations.catches cs) h h'
  | [], _, h, _, ⟨_, hh⟩ => by
    rw [hh]
    exact .still h
  | .mk o l body :: rest, _, _, _, ⟨_, _, _, hbody, hrest, _⟩ =>
    ((movedBlock_adds hbody).trans (movedCatches_adds hrest)).congr fun l' => by
      simp [Tally.catches, declarations]
termination_by structural cs => cs

end

/-! ## The fields that there are in the end -/

mutual

/-- An expression is hoisted with the fields of the variables that it refers to. -/
theorem hoistExpr_congr {h h' : Hoisted} (hparams : h'.params = h.params) : ∀ {e : Expr},
    (∀ l ∈ unbound.expr e, h.locals.lookup l = h'.locals.lookup l) →
    hoistExpr h' e = hoistExpr h e
  | .absent, _ | .literal .., _ | .this .., _ | .foreign .., _ => rfl
  | .localRef _ l, he => by simp only [hoistExpr, he l (List.mem_singleton_self l)]
  | .parameterRef .., _ => by simp only [hoistExpr, Hoisted.param?, hparams]
  | .fieldRef _ r _, he | .unary _ _ r, he => by
    simp only [hoistExpr, hoistExpr_congr hparams (e := r) he]
  | .assignment _ a b, he | .binary _ _ a b, he => by
    simp only [hoistExpr, hoistExpr_congr hparams fun l hl => he l (List.mem_append_left _ hl),
      hoistExpr_congr hparams fun l hl => he l (List.mem_append_right _ hl)]
  | .call _ r _ args, he => by
    have hr := hoistExpr_congr hparams fun l hl => he l (List.mem_append_left _ hl)
    have hargs := hoistExprs_congr hparams fun l hl => he l (List.mem_append_right _ hl)
    cases r with
    | absent | literal | this | foreign => simp only [hoistExpr, hargs]
    | _ =>
      simp only [hoistExpr] at hr ⊢
      simp only [hr, hargs]

theorem hoistExprs_congr {h h' : Hoisted} (hparams : h'.params = h.params) : ∀ {es : List Expr},
    (∀ l ∈ unbound.exprs es, h.locals.lookup l = h'.locals.lookup l) →
    hoistExprs h' es = hoistExprs h es
  | [], _ => rfl
  | e :: rest, he => by
    simp only [hoistExprs, hoistExpr_congr hparams fun l hl => he l (List.mem_append_left _ hl),
      hoistExprs_congr hparams fun l hl => he l (List.mem_append_right _ hl)]

end

/-- The expression is one of the method's, and it is hoisted with these fields. -/
def HoistsBy (last : Hoisted) (params : List Param) (_ : Hoisted) (e e' : Expr) : Prop :=
  hoistExpr last e = .ok e' ∧ BoundIn params e

/-- On the way to the last fields: those of the part's outer locals are there, and handlers keep
their variables. -/
structure Toward (last : Hoisted) (ds : List (Local × Bool)) (us : List Local) (h h' : Hoisted) :
    Prop where
  retains : Retains h' last
  handlers : ∀ l, (l, false) ∈ ds → last.locals.lookup l = none
  outer : ∀ l ∈ us, h.locals.lookup l = last.locals.lookup l

namespace Toward

variable {last h h₁ h₂ h' : Hoisted} {ds ds₁ : List (Local × Bool)} {us us₁ : List Local}
  {params : List Param}

/-- A part of a part. -/
theorem part (ht : Toward last ds us h h') (hearlier : Retains h h₁) (hwithin : Retains h₁ h₂)
    (hlater : Retains h₂ h') (hds : ds₁ ⊆ ds) (hus : us₁ ⊆ us) : Toward last ds₁ us₁ h₁ h₂ :=
  have hafter := hlater.trans ht.retains
  ⟨hafter, fun l hl => ht.handlers l (hds hl), fun l hl =>
    hearlier.settled (hwithin.trans hafter) (ht.outer l (hus hl))⟩

theorem expr {e e' : Expr} (ht : Toward last ds (unbound.expr e) h h) (he : Hoists h e e')
    (hbound : BoundIn params e) : HoistsBy last params h e e' := by
  refine ⟨?_, hbound⟩
  rw [hoistExpr_congr ht.retains.params ht.outer]
  exact he

theorem optional {e e' : Expr} (ht : Toward last ds (unbound.expr e) h h)
    (he : e = .absent ∧ e' = .absent ∨ Hoists h e e') (hbound : e = .absent ∨ BoundIn params e) :
    e = .absent ∧ e' = .absent ∨ HoistsBy last params h e e' := by
  rcases he with he | he
  · exact .inl he
  · rcases hbound with rfl | hbound
    · cases he
    · exact .inr (ht.expr he hbound)

/-- The statements of a block, whose locals have just become fields. -/
theorem block {o : Origin} {ls : List Local} {ss : List Stmt}
    (ht : Toward last (declarations.block (.mk o ls ss)) (unbound.block (.mk o ls ss)) h h')
    (hdeclared : Adds (ls.map (·, true)) h h₁) (hlater : Retains h₁ h') :
    Toward last (declarations.stmts ss) (unbound.stmts ss) h₁ h' := by
  have hafter := hlater.trans ht.retains
  refine ⟨ht.retains, fun l hl => ht.handlers l ?_, fun l hl => ?_⟩
  · rw [Tally.block, declarations_braces]
    exact List.mem_append_right _ hl
  · by_cases hmem : l ∈ ls
    · obtain ⟨f, hf⟩ := Option.isSome_iff_exists.mp
        ((hdeclared.known l).mpr (.inr (List.mem_map.mpr ⟨l, hmem, rfl⟩)))
      rw [hf, hafter.locals l f hf]
    · refine hdeclared.toRetains.settled hafter (ht.outer l ?_)
      rw [Tally.block, unbound_braces]
      exact List.mem_filter.mpr ⟨hl, by simpa using hmem⟩

/-- The body of a handler, whose variable is no field. -/
theorem handler {o : Origin} {x : Option Local} {body : Block} {rest : List Catch}
    (ht : Toward last (declarations.catches (.mk o x body :: rest))
      (unbound.catches (.mk o x body :: rest)) h h') (hearlier : Retains h h₁)
    (hlater : Retains h₁ h') : Toward last (declarations.block body) (unbound.block body) h h₁ := by
  refine ⟨hlater.trans ht.retains, fun l hl => ht.handlers l ?_, fun l hl => ?_⟩
  · exact List.mem_append_left _ (List.mem_append_right _ hl)
  · by_cases hmem : l ∈ x
    · have hnone : last.locals.lookup l = none := by
        refine ht.handlers l (List.mem_append_left _ (List.mem_append_left _ ?_))
        exact List.mem_map.mpr ⟨l, Option.mem_toList.mpr hmem, rfl⟩
      rw [hnone, Option.eq_none_iff_forall_not_mem]
      intro f hf
      have hlast := (hearlier.trans (hlater.trans ht.retains)).locals l f hf
      rw [hnone] at hlast
      cases hlast
    · refine ht.outer l (List.mem_append_left _ ?_)
      exact List.mem_filter.mpr ⟨hl, by simpa using hmem⟩

end Toward

variable {last : Hoisted} {params : List Param}

mutual

theorem moved_last : ∀ {s t : Stmt} {h h' : Hoisted}, Moved Hoists h s t h' →
    Ready (BoundIn params) s → Toward last (declarations.stmt s) (unbound.stmt s) h h' →
    Moved (HoistsBy last params) h s t h'
  | .block b, _, _, _, ⟨b', hb, ht⟩, hready, htoward =>
    ⟨b', movedBlock_last (b := b) hb hready htoward, ht⟩
  | .list _ ss, _, _, _, ⟨ts, hss, ht⟩, hready, htoward =>
    ⟨ts, movedAll_last (s := ss) hss hready htoward, ht⟩
  | .try o body catches cleanup, _, h, h', ⟨body', catches', cleanup', h₁, h₂, hcleanup, hcatches,
      hbody, ht⟩, ⟨hready, hready', hready'', _⟩, htoward => by
    have hearly := (movedBlock_adds hcleanup).toRetains
    have hmiddle := (movedCatches_adds hcatches).toRetains
    have hlate := (movedBlock_adds hbody).toRetains
    refine ⟨body', catches', cleanup', h₁, h₂, ?_, ?_, ?_, ht⟩
    · rcases hready'' with rfl | hready''
      · exact hcleanup
      · refine movedBlock_last hcleanup hready''
          (htoward.part (.refl _) hearly (hmiddle.trans hlate) ?_ ?_) <;>
          exact fun _ hl => List.mem_append_right _ (List.mem_append_right _ hl)
    · refine movedCatches_last hcatches hready' (htoward.part hearly hmiddle hlate ?_ ?_) <;>
        exact fun _ hl => List.mem_append_right _ (List.mem_append_left _ hl)
    · refine movedBlock_last hbody hready
        (htoward.part (hearly.trans hmiddle) hlate (.refl _) ?_ ?_) <;>
        exact fun _ hl => List.mem_append_left _ hl
  | .expression _ e, _, _, _, ⟨e', he, ht, hh⟩, hready, htoward
  | .yieldReturn _ e, _, _, _, ⟨e', he, ht, hh⟩, hready, htoward
  | .conditionalGoto _ e _ _, _, _, _, ⟨e', he, ht, hh⟩, hready, htoward => by
    rw [hh] at htoward
    exact ⟨e', htoward.expr he hready, ht, hh⟩
  | .return _ e, _, _, _, ⟨e', he, ht, hh⟩, hready, htoward
  | .throw _ e, _, _, _, ⟨e', he, ht, hh⟩, hready, htoward => by
    rw [hh] at htoward
    exact ⟨e', htoward.optional he hready, ht, hh⟩
  | .sequencePoint .., _, _, _, hs, _, _ | .yieldBreak _, _, _, _, hs, _, _
  | .label .., _, _, _, hs, _, _ | .goto .., _, _, _, hs, _, _ => hs
  | .absent, _, _, _, _, hready, _ | .noOp .., _, _, _, _, hready, _
  | .localDeclaration .., _, _, _, _, hready, _ | .if .., _, _, _, _, hready, _
  | .while .., _, _, _, _, hready, _ | .break .., _, _, _, _, hready, _
  | .continue .., _, _, _, _, hready, _ | .dispatch .., _, _, _, _, hready, _
  | .foreign .., _, _, _, _, hready, _ => hready.elim
termination_by structural s => s

theorem movedAll_last : ∀ {s ts : List Stmt} {h h' : Hoisted}, MovedAll Hoists h s ts h' →
    ReadyAll (BoundIn params) s → Toward last (declarations.stmts s) (unbound.stmts s) h h' →
    MovedAll (HoistsBy last params) h s ts h'
  | [], _, _, _, hs, _, _ => hs
  | _ :: _, _, _, _, ⟨t, ts, h₁, hs, hrest, ht⟩, ⟨hready, hready'⟩, htoward =>
    have hearlier := (moved_adds hs).toRetains
    have hlater := (movedAll_adds hrest).toRetains
    ⟨t, ts, h₁,
      moved_last hs hready (htoward.part (.refl _) hearlier hlater
        (fun _ hl => List.mem_append_left _ hl) fun _ hl => List.mem_append_left _ hl),
      movedAll_last hrest hready' (htoward.part hearlier hlater (.refl _)
        (fun _ hl => List.mem_append_right _ hl) fun _ hl => List.mem_append_right _ hl), ht⟩
termination_by structural ss => ss

/-- A block is hoisted as it would be with the last fields. -/
theorem movedBlock_last : ∀ {b b' : Block} {h h' : Hoisted}, MovedBlock Hoists h b b' h' →
    ReadyBlock (BoundIn params) b → Toward last (declarations.block b) (unbound.block b) h h' →
    MovedBlock (HoistsBy last params) h b b' h'
  | .absent, _, _, _, _, hready, _ => hready.elim
  | .mk _ _ _, _, _, _, ⟨ts, h₁, hdeclare, hss, ht⟩, ⟨_, hready⟩, htoward =>
    ⟨ts, h₁, hdeclare, movedAll_last hss hready
      (htoward.block (.declareAll hdeclare) (movedAll_adds hss).toRetains), ht⟩
termination_by structural b => b

theorem movedCatches_last : ∀ {cs ds : List Catch} {h h' : Hoisted},
    MovedCatches Hoists h cs ds h' → ReadyCatches (BoundIn params) cs →
    Toward last (declarations.catches cs) (unbound.catches cs) h h' →
    MovedCatches (HoistsBy last params) h cs ds h'
  | [], _, _, _, hcs, _, _ => hcs
  | .mk .. :: _, _, _, _, ⟨body', ds, h₁, hbody, hrest, ht⟩, ⟨hready, hready'⟩, htoward =>
    have hearlier := (movedBlock_adds hbody).toRetains
    have hlater := (movedCatches_adds hrest).toRetains
    ⟨body', ds, h₁, movedBlock_last hbody hready (htoward.handler hearlier hlater),
      movedCatches_last hrest hready' (htoward.part hearlier hlater (.refl _)
        (fun _ hl => List.mem_append_right _ hl) fun _ hl => List.mem_append_right _ hl), ht⟩
termination_by structural cs => cs

end

end Resumable.StateMachine
