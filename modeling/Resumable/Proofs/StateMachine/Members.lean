import Resumable.Proofs.Lowering.Variables
import Resumable.Proofs.StateMachine.Extracted

/-!
# The members of a machine

The member list of a machine grows from the empty list to its last state, one member at a time, and
the name of each member is free when it is added (`Grows`).  So the list consists of the two fixed
fields, the fields of the parameters, the two entry points, the fields of the locals and the methods
of the finallys, and their names are all different (`members_named_apart`).
-/

set_option autoImplicit false

namespace Resumable.Symbol

/-! ## Lists that grow -/

/-- The second list is the first one with the members added, and if the names of the first were
different those of the second are. -/
structure Grows (l l' : MemberList) (added : List Member) : Prop where
  members : l'.members = l.members ++ added
  distinct : l.names.Nodup → l'.names.Nodup

namespace Grows

variable {l l' l'' : MemberList} {added added' : List Member}

theorem refl (l : MemberList) : Grows l l [] where
  members := (List.append_nil _).symm
  distinct := id

theorem trans (h : Grows l l' added) (h' : Grows l' l'' added') :
    Grows l l'' (added ++ added') where
  members := by rw [h'.members, h.members, List.append_assoc]
  distinct := h'.distinct ∘ h.distinct

theorem names (h : Grows l l' added) : l'.names = l.names ++ added.map Member.name := by
  simp only [MemberList.names, h.members, List.map_append]

/-- Members with different names that are free. -/
theorem of_fresh (hmembers : l'.members = l.members ++ added)
    (hdistinct : (added.map Member.name).Nodup)
    (hfresh : ∀ m ∈ added, m.name ∉ l.names) : Grows l l' added where
  members := hmembers
  distinct hnodup := by
    rw [MemberList.names, hmembers, List.map_append]
    refine List.nodup_append.mpr ⟨hnodup, hdistinct, ?_⟩
    rintro name hname _ hadded rfl
    obtain ⟨m, hm, rfl⟩ := List.mem_map.mp hadded
    exact hfresh m hm hname

/-- One member whose name is free. -/
theorem add {m : Member} (hadd : l.add m = .ok l') (hfresh : m.name ∉ l.names) :
    Grows l l' [m] :=
  .of_fresh (by rw [add_eq hadd]) (List.nodup_singleton _) fun _ hm' => by
    rwa [List.mem_singleton.mp hm']

end Grows

/-! ## Names that are made unique -/

/-- The name is the base, or the base with a number behind it. -/
def NamedAfter (base name : String) : Prop := name = base ∨ ∃ n : Nat, name = s!"{base}${n}"

theorem uniqueName_namedAfter (l : MemberList) (base : String) :
    NamedAfter base (l.uniqueName base) := by
  have hfree : ∀ tries n, ∃ k : Nat, MemberList.firstFree l.names base tries n = s!"{base}${k}" := by
    intro tries
    induction tries with
    | zero => exact fun n => ⟨n, rfl⟩
    | succ tries ih =>
      intro n
      unfold MemberList.firstFree
      dsimp only
      split
      · exact ih (n + 1)
      · exact ⟨n, rfl⟩
  unfold MemberList.uniqueName
  split
  · exact .inr (hfree _ _)
  · exact .inl rfl

/-- A name after a base begins with it. -/
theorem NamedAfter.extends {base name : String} (h : NamedAfter base name) :
    ∃ rest, name = base ++ rest := by
  rcases h with rfl | ⟨n, rfl⟩
  · exact ⟨"", String.append_empty.symm⟩
  · exact ⟨"$" ++ toString n, String.append_assoc⟩

/-- The field of a parameter is not called as an entry point is. -/
theorem ne_of_param {x name fixed : String} (h : NamedAfter s!"$param.{x}" name)
    (hfixed : fixed.toList.head? ≠ some '$') : name ≠ fixed := by
  rintro rfl
  obtain ⟨rest, rfl⟩ := h.extends
  apply hfixed
  rw [String.toList_append, String.toList_append]
  rfl

end Resumable.Symbol

namespace Resumable.StateMachine

open Resumable.Report Resumable.Symbol Resumable.Tree Resumable.Source Resumable.Lowering

/-! ## Fields -/

/-- A field of the type for a variable of a name. -/
structure HoldsAfter (base : String) (type : Option Ty) (f : Field) : Prop where
  type : f.type = type
  name : NamedAfter base f.name

/-- A new field is one more member. -/
theorem newField_grows {base : String} {type : Option Ty} {h h' : Hoisted} {f : Field}
    (hnew : Hoist.newField base type h = .ok (f, h')) :
    HoldsAfter base type f ∧ ∃ members, h' = { h with members } ∧
      Grows h.members members [.field f] := by
  simp only [Hoist.newField, Hoist.bind_apply, Hoist.get_apply, Hoist.lift_apply] at hnew
  cases hadd : h.members.add (.field { name := h.members.uniqueName base, type := type,
                                       owner := h.members.owner, synthesized := true }) with
  | error v =>
    rw [hadd] at hnew
    cases hnew
  | ok members =>
    rw [hadd] at hnew
    cases hnew
    exact ⟨⟨rfl, uniqueName_namedAfter _ _⟩, members, rfl, .add hadd (uniqueName_notMem _ _)⟩

/-- The fields of parameters, in their order. -/
theorem params_grow : ∀ {ps : List Param} {h h' : Hoisted},
    ps.forM Hoist.param h = .ok ((), h') → ∃ fs, h'.params = h.params ++ fs ∧
      h'.locals = h.locals ∧ Grows h.members h'.members (fs.map .field) ∧
      List.Forall₂ (fun p f => HoldsAfter s!"$param.{p.name}" p.type f) ps fs
  | [], h, h', hps => by
    cases hps
    exact ⟨[], (List.append_nil _).symm, rfl, .refl _, .nil⟩
  | p :: rest, h, h', hps => by
    change (Hoist.param p >>= fun _ => rest.forM Hoist.param) h = _ at hps
    obtain ⟨_, h₁, hp, hrest⟩ := Hoist.bind_ok.mp hps
    obtain ⟨f, h₂, hnew, hmodify⟩ := Hoist.bind_ok.mp hp
    obtain ⟨hholds, members, rfl, hgrows⟩ := newField_grows hnew
    cases hmodify
    obtain ⟨fs, hparams, hlocals, hgrows', hall⟩ := params_grow hrest
    refine ⟨f :: fs, ?_, hlocals, hgrows.trans hgrows', .cons hholds hall⟩
    rw [hparams]
    exact List.append_assoc ..

/-- The members before the body is hoisted. -/
theorem declareMembers_grows {owner : TypeDecl} {m : Method} {h : Hoisted}
    (hdeclare : declareMembers owner m = .ok h) : h.locals = [] ∧
      List.Forall₂ (fun p f => HoldsAfter s!"$param.{p.name}" p.type f) m.params h.params ∧
      Grows { owner } h.members ([.field (stateField owner), .field (currentField owner m)] ++
        h.params.map .field ++ [.method (.moveNext owner), .method (.dispose owner)]) := by
  obtain ⟨l₁, hfirst, hdeclare⟩ := Machine.bind_ok_iff.mp hdeclare
  obtain ⟨l₂, hsecond, hdeclare⟩ := Machine.bind_ok_iff.mp hdeclare
  obtain ⟨⟨_, h₁⟩, hparams, hdeclare⟩ := Machine.bind_ok_iff.mp hdeclare
  obtain ⟨l₃, hthird, hdeclare⟩ := Machine.bind_ok_iff.mp hdeclare
  obtain ⟨l₄, hfourth, hdeclare⟩ := Machine.bind_ok_iff.mp hdeclare
  cases hdeclare
  obtain ⟨fs, hfs, hlocals, hgrows, hall⟩ := params_grow hparams
  obtain rfl : h₁.params = fs := hfs
  have hfields : Grows { owner } l₂ [.field (stateField owner), .field (currentField owner m)] := by
    refine (Grows.add hfirst (by simp [MemberList.names])).trans (.add hsecond ?_)
    rw [add_eq hfirst]
    simp [MemberList.names, Member.name, stateField, currentField]
  -- Behind the fixed fields and those of parameters the names of the entry points are free.
  have hnames : ∀ fixed : String, fixed.toList.head? ≠ some '$' → fixed ∉ h₁.members.names := by
    intro fixed hfixed hmem
    rw [hgrows.names, hfields.names, List.mem_append] at hmem
    rcases hmem with hmem | hmem
    · simp only [MemberList.names, List.map_nil, List.nil_append, List.map_cons, Member.name,
        stateField, currentField, List.mem_cons, List.not_mem_nil, or_false] at hmem
      rcases hmem with rfl | rfl <;> exact hfixed rfl
    · obtain ⟨member, hmember, hname⟩ := List.mem_map.mp hmem
      obtain ⟨f, hf, rfl⟩ := List.mem_map.mp hmember
      obtain ⟨i, rfl⟩ := List.mem_iff_get.mp hf
      exact ne_of_param (hall.get (by rw [hall.length_eq]; exact i.isLt) i.isLt).name hfixed hname
  have hentries : Grows h₁.members l₄ [.method (.moveNext owner), .method (.dispose owner)] := by
    refine (Grows.add hthird (hnames "MoveNext" (by decide))).trans (.add hfourth ?_)
    rw [add_eq hthird]
    simp only [MemberList.names, List.map_append, List.mem_append, not_or]
    exact ⟨hnames "Dispose" (by decide), by simp [Member.name, Method.moveNext, Method.dispose]⟩
  exact ⟨hlocals, hall, (hfields.trans hgrows).trans hentries⟩

/-! ## Locals -/

/-- Between two states of hoisting some locals get their fields, each of them one. -/
def Houses (h h' : Hoisted) : Prop :=
  ∃ housed : List (Local × Field), h'.locals = h.locals ++ housed ∧ h'.params = h.params ∧
    Grows h.members h'.members (housed.map fun x => .field x.2) ∧
    ((h.locals.map Prod.fst).Nodup → (h'.locals.map Prod.fst).Nodup) ∧
    ∀ x ∈ housed, HoldsAfter s!"$local.{x.1.name}" x.1.type x.2

namespace Houses

variable {h h₁ h₂ : Hoisted}

theorem refl (h : Hoisted) : Houses h h :=
  ⟨[], (List.append_nil _).symm, rfl, .refl _, id, fun _ hx => nomatch hx⟩

theorem trans : Houses h h₁ → Houses h₁ h₂ → Houses h h₂ := by
  rintro ⟨housed, hlocals, hparams, hgrows, hnodup, hholds⟩
    ⟨housed', hlocals', hparams', hgrows', hnodup', hholds'⟩
  refine ⟨housed ++ housed', ?_, hparams'.trans hparams, ?_, hnodup' ∘ hnodup, fun x hx => ?_⟩
  · rw [hlocals', hlocals, List.append_assoc]
  · rw [List.map_append]
    exact hgrows.trans hgrows'
  · exact (List.mem_append.mp hx).elim (hholds x) (hholds' x)

/-- A local gets a field when it is first declared. -/
theorem declare {l : Local} (hdeclare : Hoist.declare l h = .ok ((), h₁)) : Houses h h₁ := by
  simp only [Hoist.declare, Hoist.bind_apply, Hoist.get_apply] at hdeclare
  split at hdeclare
  · rename_i hnone
    obtain ⟨f, h₂, hnew, hmodify⟩ := Hoist.bind_ok.mp hdeclare
    obtain ⟨hholds, members, rfl, hgrows⟩ := newField_grows hnew
    cases hmodify
    refine ⟨[(l, f)], rfl, rfl, hgrows, fun hnodup => ?_, fun x hx => ?_⟩
    · have hfresh : l ∉ h.locals.map Prod.fst := by
        intro hmem
        obtain ⟨x, hx, rfl⟩ := List.mem_map.mp hmem
        rw [Option.isNone_iff_eq_none, List.lookup_eq_none_iff] at hnone
        simpa using hnone x hx
      show ((h.locals ++ [(l, f)]).map Prod.fst).Nodup
      rw [List.map_append]
      refine List.nodup_append.mpr ⟨hnodup, List.nodup_singleton _, ?_⟩
      rintro k hk k' hk' rfl
      obtain rfl := List.mem_singleton.mp hk'
      exact hfresh hk
    · rw [List.mem_singleton.mp hx]
      exact hholds
  · cases hdeclare
    exact .refl h

end Houses

section Moved

variable {R : Hoisted → Expr → Expr → Prop} {P : Hoisted → Hoisted → Prop}

/-- What declarations do one after the other, all those of a block do. -/
theorem declareAll_steps (hrefl : ∀ h, P h h) (htrans : ∀ {h₁ h₂ h₃}, P h₁ h₂ → P h₂ h₃ → P h₁ h₃)
    (hdeclare : ∀ {l h h'}, Hoist.declare l h = .ok ((), h') → P h h') :
    ∀ {ls : List Local} {h h' : Hoisted}, ls.forM Hoist.declare h = .ok ((), h') → P h h'
  | [], h, _, hall => by
    cases hall
    exact hrefl h
  | l :: rest, h, h', hall => by
    change (Hoist.declare l >>= fun _ => rest.forM Hoist.declare) h = _ at hall
    obtain ⟨_, h₁, hl, hrest⟩ := Hoist.bind_ok.mp hall
    exact htrans (hdeclare hl) (declareAll_steps hrefl htrans hdeclare hrest)

mutual

theorem moved_steps (hrefl : ∀ h, P h h) (htrans : ∀ {h₁ h₂ h₃}, P h₁ h₂ → P h₂ h₃ → P h₁ h₃)
    (hdeclare : ∀ {l h h'}, Hoist.declare l h = .ok ((), h') → P h h') :
    ∀ {s t : Stmt} {h h' : Hoisted}, Moved R h s t h' → P h h'
  | .block b, _, _, _, ⟨_, hb, _⟩ => movedBlock_steps hrefl htrans hdeclare (b := b) hb
  | .list _ ss, _, _, _, ⟨_, hss, _⟩ => movedAll_steps hrefl htrans hdeclare (s := ss) hss
  | .try _ body catches cleanup, _, _, _, ⟨_, _, _, _, _, hcleanup, hcatches, hbody, _⟩ =>
    htrans (movedBlock_steps hrefl htrans hdeclare hcleanup)
      (htrans (movedCatches_steps hrefl htrans hdeclare hcatches)
        (movedBlock_steps hrefl htrans hdeclare hbody))
  | .expression .., _, h, _, ⟨_, _, _, hh⟩ | .yieldReturn .., _, h, _, ⟨_, _, _, hh⟩
  | .conditionalGoto .., _, h, _, ⟨_, _, _, hh⟩ | .dispatch .., _, h, _, ⟨_, _, _, hh⟩
  | .return .., _, h, _, ⟨_, _, _, hh⟩ | .throw .., _, h, _, ⟨_, _, _, hh⟩ => hh ▸ hrefl h
  | .sequencePoint .., _, h, _, ⟨_, hh⟩ | .yieldBreak _, _, h, _, ⟨_, hh⟩
  | .label .., _, h, _, ⟨_, hh⟩ | .goto .., _, h, _, ⟨_, hh⟩ => hh ▸ hrefl h
  | .absent, _, _, _, hs | .noOp .., _, _, _, hs | .localDeclaration .., _, _, _, hs
  | .if .., _, _, _, hs | .while .., _, _, _, hs | .break .., _, _, _, hs
  | .continue .., _, _, _, hs | .foreign .., _, _, _, hs => by
    rw [Moved] at hs
    exact hs.elim
termination_by structural s => s

theorem movedAll_steps (hrefl : ∀ h, P h h) (htrans : ∀ {h₁ h₂ h₃}, P h₁ h₂ → P h₂ h₃ → P h₁ h₃)
    (hdeclare : ∀ {l h h'}, Hoist.declare l h = .ok ((), h') → P h h') :
    ∀ {s ts : List Stmt} {h h' : Hoisted}, MovedAll R h s ts h' → P h h'
  | [], _, h, _, ⟨_, hh⟩ => hh ▸ hrefl h
  | _ :: _, _, _, _, ⟨_, _, _, hs, hrest, _⟩ =>
    htrans (moved_steps hrefl htrans hdeclare hs) (movedAll_steps hrefl htrans hdeclare hrest)
termination_by structural ss => ss

/-- What declarations do one after the other, the hoisting of a block does. -/
theorem movedBlock_steps (hrefl : ∀ h, P h h) (htrans : ∀ {h₁ h₂ h₃}, P h₁ h₂ → P h₂ h₃ → P h₁ h₃)
    (hdeclare : ∀ {l h h'}, Hoist.declare l h = .ok ((), h') → P h h') :
    ∀ {b b' : Block} {h h' : Hoisted}, MovedBlock R h b b' h' → P h h'
  | .absent, _, h, _, ⟨_, hh⟩ => hh ▸ hrefl h
  | .mk _ _ _, _, _, _, ⟨_, _, hlocals, hss, _⟩ =>
    htrans (declareAll_steps hrefl htrans hdeclare hlocals)
      (movedAll_steps hrefl htrans hdeclare hss)
termination_by structural b => b

theorem movedCatches_steps (hrefl : ∀ h, P h h)
    (htrans : ∀ {h₁ h₂ h₃}, P h₁ h₂ → P h₂ h₃ → P h₁ h₃)
    (hdeclare : ∀ {l h h'}, Hoist.declare l h = .ok ((), h') → P h h') :
    ∀ {cs ds : List Catch} {h h' : Hoisted}, MovedCatches R h cs ds h' → P h h'
  | [], _, h, _, ⟨_, hh⟩ => hh ▸ hrefl h
  | .mk .. :: _, _, _, _, ⟨_, _, _, hbody, hrest, _⟩ =>
    htrans (movedBlock_steps hrefl htrans hdeclare hbody)
      (movedCatches_steps hrefl htrans hdeclare hrest)
termination_by structural cs => cs

end

end Moved

/-! ## The machine -/

theorem map_eq_of_forall₂ {α β γ : Type} {f : α → γ} {g : β → γ} {as : List α} {bs : List β}
    (h : List.Forall₂ (fun a b => g b = f a) as bs) : bs.map g = as.map f := by
  induction h with
  | nil => rfl
  | cons hpair _ ih => rw [List.map_cons, List.map_cons, hpair, ih]

/-- The methods of finallys come from where the finallys of the extracted tries do. -/
theorem finallys_of_lowered {m : MethodBody} (hbound : BoundMethod m) {markers : Bool}
    {sm : StateMachine} {plan : Plan} {w b : Block} {k n : Nat}
    (hwalk : walkBlock markers m.body 0 = (.ok w, k))
    (hprepares : Prepares (machineType m.symbol) m w k plan b (contentsOf markers m) n)
    (hbuilt : Built markers m (machineType m.symbol) sm plan (contentsOf markers m) b k n) :
    sm.cleanups.map (fun x => x.body.origin.provenance) =
      provenances (extractedOf (regionsBlock [] m.body)) := by
  obtain ⟨h, last, a, hdeclare, hhoist, hanalyze, -⟩ := hprepares
  obtain ⟨N, hblock⟩ := hbound.bound
  have hwalked := walkedBlock_of_ok hwalk
  obtain ⟨_, hdeclare', hhoused, -⟩ := declareMembers_ok (machineType m.symbol) hbound.ordinals
  cases hdeclare.symm.trans hdeclare'
  obtain ⟨_, _, hhoist', hhoused', -, hsame⟩ :=
    hoistBlock_ok (readyBlock_walked hblock hwalked) hhoused
  cases hhoist.symm.trans hhoist'
  have hguarded : GuardedBlock m.body :=
    (guardedBlock_walked hwalked).mp (hsame.guarded.mp hbuilt.prepared.guarded)
  obtain ⟨-, hextracted⟩ := analyzeBlock_cleanups (fun _ he => soundExpr_of_machine he)
    (stateField (machineType m.symbol)) hbuilt.prepared.ready _ _ _ _ _ _ hhoused'.within hanalyze
  have hmethods : sm.cleanups.map (fun x => x.body.origin.provenance) =
      (Frame.preorderAll (contentsOf markers m).children).map
        fun f => f.cleanup.body.origin.provenance :=
    map_eq_of_forall₂ (hbuilt.cleanups.imp fun _ _ hpair => walkedBlock_provenance hpair.2)
  have hframes : (Frame.preorderAll (contentsOf markers m).children).map
      (fun f => f.cleanup.body.origin.provenance) = provenances (cleanupsBlock b) := by
    refine map_eq_of_forall₂ (hextracted.imp ?_)
    rintro cleanup f ⟨name, parent, hmethod⟩
    rw [hmethod]
    rfl
  rw [hmethods, hframes, (movedBlock_tries (movedBlock_of_ok hhoist)).cleanups,
    walkedBlock_cleanups hguarded hwalked, cleanupsBlock_eq_regions hguarded]

/-- The members of a machine are its state and its element, a field for each parameter, in their
order, the two entry points, a field for each local of a block and a method for each finally of an
extracted try, each of them once, and no two have one name.  Which names the parameters and the
locals have does not matter: a name that is in use gets a number. -/
theorem members_named_apart {file source : String} {program : Program}
    (hread : read file source = .ok program) {m : MethodBody} (hm : m ∈ program.methods)
    {markers : Bool} {sm : StateMachine} (hlower : lowerMethod markers m = .ok (.machine sm)) :
    ∃ housed : List (Local × Field),
      sm.members.published = [.field sm.state, .field sm.current] ++ sm.params.map .field ++
        [.method sm.moveNext.symbol, .method sm.dispose.symbol] ++
        housed.map (fun x => .field x.2) ++ sm.cleanups.map (fun x => .method x.symbol) ∧
      (sm.state.name = "$state" ∧ sm.current.name = "$current" ∧
        sm.moveNext.symbol.name = "MoveNext" ∧ sm.dispose.symbol.name = "Dispose") ∧
      List.Forall₂ (fun p f => HoldsAfter s!"$param.{p.name}" p.type f)
        m.symbol.params sm.params ∧
      (housed.map Prod.fst).Perm (blockLocals m.body) ∧ (blockLocals m.body).Nodup ∧
      (∀ x ∈ housed, HoldsAfter s!"$local.{x.1.name}" x.1.type x.2) ∧
      sm.cleanups.map (fun x => x.body.origin.provenance) =
        provenances (extractedOf (regionsBlock [] m.body)) ∧
      (sm.members.published.map Member.name).Nodup := by
  have hscoped := scoped_methods hread hm
  have hbound := bound_methods hread hm
  obtain ⟨plan, w, b, k, n, hwalk, hprepares, hbuilt⟩ := built_of_walked hread hm hlower
  obtain ⟨h, last, a, hdeclare, hhoist, hanalyze, hplan⟩ := id hprepares
  obtain ⟨hparams, c, a', n', hmembers, hanalyze'⟩ :=
    machine_of_lowered hlower hwalk hdeclare hhoist
  cases hanalyze.symm.trans hanalyze'
  -- The list grows from the empty one in three parts.
  obtain ⟨hnone, hholds, hfirst⟩ := declareMembers_grows hdeclare
  obtain ⟨housed, hlocals, hsame, hfields, hkeys, hhoused⟩ :=
    movedBlock_steps Houses.refl Houses.trans Houses.declare (movedBlock_of_ok hhoist)
  have hcounted := analyzeBlock_counted _ _ _ _ _ _ _ _ hanalyze
  have hmethods : Grows last.members a.members (cleanupMembers (contentsOf markers m).children) := by
    refine .of_fresh (congrArg MemberList.members hcounted.members) ?_ fun x hx => ?_
    · rw [cleanupMembers_names]
      exact hcounted.distinct
    · apply hcounted.fresh
      rw [← cleanupMembers_names]
      exact List.mem_map_of_mem hx
  have hgrows := (hfirst.trans hfields).trans hmethods
  have hpublished : sm.members.published = a.members.members := by
    rw [hmembers]
    rfl
  have hall := hoistedAll_of_walked hscoped hbound (walkedBlock_of_ok hwalk) hdeclare hhoist
  have hvariables := variablesOf_nodup hscoped hbound.ordinals
  have hdistinct : (blockLocals m.body).Nodup := (List.nodup_append.mp hvariables).2.1.of_map _
  rw [hnone, List.nil_append] at hlocals
  refine ⟨housed, ?_, ⟨?_, ?_, ?_, ?_⟩, ?_, ?_, hdistinct, hhoused,
    finallys_of_lowered hbound hwalk hprepares hbuilt, ?_⟩
  · have hcleanups : cleanupMembers (contentsOf markers m).children =
        sm.cleanups.map fun x => .method x.symbol := by
      have hsymbols := congrArg (List.map Member.method) hbuilt.cleanup_symbols
      rw [List.map_map, List.map_map] at hsymbols
      exact hsymbols.symm
    rw [hpublished, hgrows.members, hparams, hsame, hbuilt.moveNextSymbol, hbuilt.disposeSymbol,
      hbuilt.state, hbuilt.current, hplan, hcleanups, List.nil_append]
  · rw [hbuilt.state, hplan]
    rfl
  · rw [hbuilt.current, hplan]
    rfl
  · rw [hbuilt.moveNextSymbol]
    rfl
  · rw [hbuilt.disposeSymbol]
    rfl
  · rwa [hparams, hsame]
  · have hnodup : (housed.map Prod.fst).Nodup := hlocals ▸ hkeys (by simp [hnone])
    refine (List.perm_ext_iff_of_nodup hnodup hdistinct).mpr fun l => ?_
    rw [← hall.known l, hlocals, List.lookup_isSome_iff, List.mem_map]
    simp
  · rw [hpublished]
    exact hgrows.distinct List.nodup_nil

/-- A program whose parameters and locals are called alike, some of them as names with a number. -/
def imitatingSource : String :=
  "class C \x7b extern void F(int n); iterator int M(int n, int n$2, int n) \x7b " ++
    "try \x7b var x int = n; var x$2 int = n$2; try \x7b yield return x; \x7d " ++
    "finally \x7b F(x$2); \x7d \x7d finally \x7b var x int = 0; F(x); \x7d \x7d \x7d"

theorem members_named_apart_imitating : ∃ program m sm, read "" imitatingSource = .ok program ∧
    m ∈ program.methods ∧ lowerMethod true m = .ok (.machine sm) ∧
    sm.members.published.map Member.name =
      ["$state", "$current", "$param.n", "$param.n$2", "$param.n$3", "MoveNext", "Dispose",
        "$local.x", "$local.x$2", "$local.x$2$2", "$finally1", "$finally2"] ∧
    (sm.members.published.map Member.name).Nodup := by
  have hfact : ((sample true imitatingSource).map fun (_, sm) =>
      sm.members.published.map Member.name) =
      some ["$state", "$current", "$param.n", "$param.n$2", "$param.n$3", "MoveNext", "Dispose",
        "$local.x", "$local.x$2", "$local.x$2$2", "$finally1", "$finally2"] := by
    rw [sample, show imitatingSource = .ofList _ from append_ofList (append_ofList rfl rfl) rfl,
      read_ofList]
    decide +kernel
  obtain ⟨⟨m, sm⟩, hsample, hnames⟩ := Option.map_eq_some_iff.mp hfact
  obtain ⟨program, hread, hm, hlower⟩ := sample_eq_some hsample
  obtain ⟨-, -, -, -, -, -, -, -, hnodup⟩ := members_named_apart hread hm hlower
  exact ⟨program, m, sm, hread, hm, hlower, hnames, hnodup⟩

end Resumable.StateMachine
