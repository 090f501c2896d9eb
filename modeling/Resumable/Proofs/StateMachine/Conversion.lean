import Resumable.Proofs.StateMachine.Routes

/-!
# What the conversion makes of a body

The conversion of a body goes through if and only if its jumps go to labels whose frames are around
(`convertBlock_ok`).  What it gives has the labels of the body, apart from those in finallys of
frames, and those that resuming goes to; each jump goes to a label of the result, or to one that the
innermost scope reaches (`Converted`).  It does not suspend any more.
-/

set_option autoImplicit false

namespace Resumable.StateMachine

open Resumable.Report Resumable.Symbol Resumable.Tree Resumable.Source Resumable.Lowering

/-! ## Steps of the conversion -/

/-- The step goes through if and only if `fits` holds, and then `post` holds of its outcome. -/
structure Converts {α : Type} (fits : Prop) (x : Convert α) (scopes : List Scope) (n : Nat)
    (post : α → List Scope → Nat → Prop) : Prop where
  forward : ∀ a scopes' m, x scopes n = (.ok (a, scopes'), m) → fits ∧ post a scopes' m
  backward : fits → ∃ a scopes' m, x scopes n = (.ok (a, scopes'), m)

namespace Converts

variable {α β : Type} {fits fits' : Prop} {x : Convert α} {f : α → Convert β} {scopes : List Scope}
  {n : Nat} {post post' : α → List Scope → Nat → Prop} {next : β → List Scope → Nat → Prop}

theorem pure {a : α} (h : post a scopes n) : Converts True (Pure.pure a) scopes n post where
  forward a' scopes' m h' := by
    cases h'
    exact ⟨trivial, h⟩
  backward _ := ⟨a, scopes, n, rfl⟩

theorem bind (hx : Converts fits x scopes n post)
    (hf : ∀ a scopes' m, post a scopes' m → Converts fits' (f a) scopes' m next) :
    Converts (fits ∧ fits') (x >>= f) scopes n next where
  forward b scopes'' k h := by
    rw [Stateful.bind_apply] at h
    cases hstep : x scopes n with
    | mk result m =>
      rw [hstep] at h
      cases result with
      | error e => cases h
      | ok pair =>
        obtain ⟨a, scopes'⟩ := pair
        obtain ⟨hfits, hpost⟩ := hx.forward a scopes' m hstep
        obtain ⟨hfits', hnext⟩ := (hf a scopes' m hpost).forward b scopes'' k h
        exact ⟨⟨hfits, hfits'⟩, hnext⟩
  backward h := by
    obtain ⟨a, scopes', m, hstep⟩ := hx.backward h.1
    obtain ⟨b, scopes'', k, hrest⟩ := (hf a scopes' m (hx.forward a scopes' m hstep).2).backward h.2
    refine ⟨b, scopes'', k, ?_⟩
    rw [Stateful.bind_apply, hstep]
    exact hrest

theorem weaken (h : Converts fits x scopes n post) (hfits : fits ↔ fits')
    (hpost : ∀ a scopes' m, post a scopes' m → post' a scopes' m) :
    Converts fits' x scopes n post' where
  forward a scopes' m hx := by
    obtain ⟨hholds, hp⟩ := h.forward a scopes' m hx
    exact ⟨hfits.mp hholds, hpost a scopes' m hp⟩
  backward hholds := h.backward (hfits.mpr hholds)

/-- A step followed by one that always goes through. -/
theorem followed (h : Converts fits x scopes n post)
    (hf : ∀ a scopes' m, post a scopes' m → Converts True (f a) scopes' m next) :
    Converts fits (x >>= f) scopes n next :=
  (h.bind hf).weaken (by simp) fun _ _ _ hpost => hpost

/-- A step followed by one that only makes a value of it. -/
theorem map (h : Converts fits x scopes n post) {g : α → β}
    (hnext : ∀ a scopes' m, post a scopes' m → next (g a) scopes' m) :
    Converts fits (x >>= fun a => Pure.pure (g a)) scopes n next :=
  h.followed fun a scopes' m hp => .pure (hnext a scopes' m hp)

/-- A step that always gives the same. -/
theorem of_eq {a : α} {scopes' : List Scope} {m : Nat} (h : x scopes n = (.ok (a, scopes'), m))
    (hpost : post a scopes' m) : Converts True x scopes n post where
  forward a' scopes'' m' h' := by
    rw [h] at h'
    cases h'
    exact ⟨trivial, hpost⟩
  backward _ := ⟨a, scopes', m, h⟩

/-- A step that always gives the same, followed by another one. -/
theorem step {a : α} {scopes' : List Scope} {m : Nat} (h : x scopes n = (.ok (a, scopes'), m))
    (hf : Converts fits (f a) scopes' m next) : Converts fits (x >>= f) scopes n next := by
  have heq : (x >>= f) scopes n = f a scopes' m := by
    rw [Stateful.bind_apply, h]
  exact ⟨fun b scopes'' k hb => hf.forward b scopes'' k (heq ▸ hb),
    fun hfits => heq ▸ hf.backward hfits⟩

end Converts

variable {plan : Plan} {scopes : List Scope} {n : Nat}

/-- A jump is made if and only if the frame of its label is around. -/
theorem jump_converts (plan : Plan) (o : Origin) (target : Option Label)
    (hlinked : Linked plan.owners scopes) :
    Converts (Sees plan.owners (scopes.map Scope.state) target) (jump plan o target) scopes n
      (Routing plan.owners target scopes n) := by
  cases hlookup : plan.owners.lookup target with
  | none =>
    have hfail : jump plan o target scopes n =
        (.error { cause := .undefinedJump (labelName target), span := o.span }, n) := by
      unfold jump
      rw [hlookup]
      rfl
    refine ⟨fun l scopes' m h => ?_, fun ⟨s, _, hs⟩ => ?_⟩
    · rw [hfail] at h
      cases h
    · rw [hlookup] at hs
      cases hs
  | some owner =>
    have hsees : Sees plan.owners (scopes.map Scope.state) target ↔
        ∃ s ∈ scopes, s.state = owner := by
      simp [Sees, hlookup]
    by_cases haround : ∃ s ∈ scopes, s.state = owner
    · obtain ⟨l, scopes', m, hproxy, hrouting⟩ := proxy_ok hlookup haround hlinked n
      have hany : (scopes.any fun s => s.state = owner) = true := by simpa using haround
      have hstep : jump plan o target scopes n = (.ok (l, scopes'), m) := by
        unfold jump
        simp only [hlookup, Stateful.bind_apply, Stateful.get_apply, hany, if_true,
          Stateful.lift_apply, hproxy, Stateful.set_apply, Stateful.pure_apply]
      exact (Converts.of_eq hstep hrouting).weaken
        (iff_of_true trivial (hsees.mpr haround)) fun _ _ _ h => h
    · have hany : (scopes.any fun s => s.state = owner) = false := by simpa using haround
      have hfail : jump plan o target scopes n =
          (.error { cause := .entersRegion (labelName target), span := o.span }, n) := by
        unfold jump
        simp only [hlookup, Stateful.bind_apply, Stateful.get_apply, hany, Bool.false_eq_true,
          if_false]
        rfl
      refine ⟨fun l scopes' m h => ?_, fun h => absurd (hsees.mp h) haround⟩
      rw [hfail] at h
      cases h

/-! ## Converted parts -/

/-- What the conversion of a part of a body gives between two of its points: `kept` are the labels
of the part, `c` its contents, `landings` and `leaps` the labels and jumps of the result. -/
structure Converted (owners : List (Option Label × Int)) (kept : List (Option Label)) (c : Contents)
    (landings : List (Option Label)) (leaps : List Leap) (scopes : List Scope) (n : Nat)
    (scopes' : List Scope) (m : Nat) : Prop where
  grown : Grown scopes scopes'
  linked : Linked owners scopes'
  labels : ∃ made, (landings ++ pending scopes').Perm (kept ++ c.labels ++ pending scopes ++ made) ∧
    Numbered n m made
  keeps : ∀ l ∈ kept ++ c.labels, l ∈ landings
  jumps : ∀ j ∈ leaps, j.target ∈ landings ∨ ∃ target, Reaches owners scopes' target j.target

namespace Converted

variable {owners : List (Option Label × Int)} {kept kept' : List (Option Label)} {c c' : Contents}
  {landings landings' : List (Option Label)} {leaps leaps' : List Leap}
  {scopes₁ scopes₂ : List Scope} {m k : Nat}

/-- A part that keeps its labels and makes no jump. -/
theorem still (hlinked : Linked owners scopes) (ls : List (Option Label)) :
    Converted owners ls {} ls [] scopes n scopes n where
  grown := .refl scopes
  linked := hlinked
  labels := ⟨[], by simp [Contents.labels, Frame.labelsAll], .nil⟩
  keeps l hl := by simpa [Contents.labels, Frame.labelsAll] using hl
  jumps _ hj := nomatch hj

/-- A jump. -/
theorem jump {target l : Option Label} (h : Routing owners target scopes n l scopes₁ m)
    (ofLoop : Bool) :
    Converted owners [] {} [] [⟨l, ofLoop⟩] scopes n scopes₁ m where
  grown := h.grown
  linked := h.linked
  labels := by
    obtain ⟨made, hperm, hmade⟩ := h.labels
    exact ⟨made, by simpa [Contents.labels, Frame.labelsAll] using hperm, hmade⟩
  keeps l hl := by simp [Contents.labels, Frame.labelsAll] at hl
  jumps j hj := by
    rw [List.mem_singleton.mp hj]
    exact .inr ⟨target, h.reaches⟩

/-- One part after another. -/
theorem append (h : Converted owners kept c landings leaps scopes n scopes₁ m)
    (h' : Converted owners kept' c' landings' leaps' scopes₁ m scopes₂ k) :
    Converted owners (kept ++ kept') (c.append c') (landings ++ landings') (leaps ++ leaps') scopes
      n scopes₂ k where
  grown := h.grown.trans h'.grown
  linked := h'.linked
  labels := by
    obtain ⟨made, hperm, hmade⟩ := h.labels
    obtain ⟨made', hperm', hmade'⟩ := h'.labels
    refine ⟨made ++ made', List.perm_iff_count.mpr fun l => ?_, hmade.append hmade'⟩
    have hcount := hperm.count_eq l
    have hcount' := hperm'.count_eq l
    have hlabels := (Contents.labels_append c c').count_eq l
    simp only [List.count_append] at hcount hcount' hlabels ⊢
    omega
  keeps l hl := by
    have hmem := (Contents.labels_append c c').mem_iff (a := l)
    have hkeeps := h.keeps l
    have hkeeps' := h'.keeps l
    simp only [List.mem_append] at hl hmem hkeeps hkeeps' ⊢
    grind
  jumps j hj := by
    rw [List.mem_append]
    rcases List.mem_append.mp hj with hj | hj
    · exact (h.jumps j hj).imp .inl (Exists.imp fun _ => h'.grown.reaches)
    · exact (h'.jumps j hj).imp .inr id

/-- The order of labels and jumps does not matter. -/
theorem perm (h : Converted owners kept c landings leaps scopes n scopes₁ m)
    (hkept : kept'.Perm kept) (hlandings : landings'.Perm landings)
    (hleaps : ∀ j ∈ leaps', j ∈ leaps) :
    Converted owners kept' c landings' leaps' scopes n scopes₁ m where
  grown := h.grown
  linked := h.linked
  labels := by
    obtain ⟨made, hperm, hmade⟩ := h.labels
    refine ⟨made, ?_, hmade⟩
    refine (hlandings.append_right _).trans (hperm.trans ?_)
    exact ((hkept.symm.append_right _).append_right _).append_right _
  keeps l hl := by
    refine hlandings.mem_iff.mpr (h.keeps l ?_)
    rw [List.mem_append] at hl ⊢
    exact hl.imp hkept.mem_iff.mp id
  jumps j hj := by
    rw [hlandings.mem_iff]
    exact h.jumps j (hleaps j hj)

/-- What is still to come inside the innermost scope does not matter. -/
theorem retop {st : Int} {x : Contents} {routes : List Route} {outer : List Scope}
    (h : Converted owners kept c landings leaps (⟨st, x, routes⟩ :: outer) n scopes₁ m)
    (y : Contents) : ∃ routes₁ outer₁, scopes₁ = ⟨st, x, routes₁⟩ :: outer₁ ∧
      outer₁.map Scope.state = outer.map Scope.state ∧
      Converted owners kept c landings leaps (⟨st, y, routes⟩ :: outer) n
        (⟨st, y, routes₁⟩ :: outer₁) m := by
  match scopes₁, h.grown with
  | ⟨_, _, routes₁⟩ :: outer₁, ⟨rfl, rfl, hmore, houter⟩ =>
    refine ⟨routes₁, outer₁, rfl, houter.states, ⟨rfl, rfl, hmore, houter⟩, h.linked, h.labels,
      h.keeps, fun j hj => (h.jumps j hj).imp id ?_⟩
    rintro ⟨target, _, hs, hreach⟩
    cases hs
    exact ⟨target, _, rfl, hreach⟩

end Converted

/-! ## Suspension points -/

variable {owner : TypeDecl}

/-- The expressions that the conversion makes are those of the machine. -/
structure Fitting (owner : TypeDecl) (plan : Plan) : Prop where
  state : plan.state.owner = owner
  current : plan.current.owner = owner

theorem machine_int (p : Option Provenance) (k : Int) : OfMachine owner (Made.int p k) := rfl

theorem machine_bool (p : Option Provenance) (b : Bool) : OfMachine owner (Made.bool p b) := rfl

theorem machine_field (p : Option Provenance) {f : Field} (hf : f.owner = owner) :
    OfMachine owner (Made.field p f) := by
  simp [OfMachine, Made.field, Made.this, machineExpr, hf]

theorem formed_assign (p : Option Provenance) {f : Field} (hf : f.owner = owner) {e : Expr}
    (he : OfMachine owner e) : Formed (OfMachine owner) (Made.assign p (Made.field p f) e) := by
  have hfield := machine_field p hf
  simp only [OfMachine] at he hfield
  simp only [Made.assign, Formed, OfMachine, machineExpr, hfield, he, Bool.and_self]

theorem Fitting.setState (h : Fitting owner plan) (k : Int) :
    Formed (OfMachine owner) (plan.setState k) :=
  formed_assign _ h.state (machine_int _ k)

theorem formed_callCleanup (p : Option Provenance) {f : Frame}
    (hf : f.cleanup.symbol.owner = some owner) :
    Formed (OfMachine owner) (callCleanup p f) := by
  simp [callCleanup, Made.callThis, Formed, OfMachine, Made.this, machineExpr, machineExprs, hf]

/-- A suspension places the label that resuming goes to. -/
theorem Converted.suspended {owners : List (Option Label × Int)} (hlinked : Linked owners scopes)
    (plan : Plan) (o : Origin) (e : Expr) (s : Suspension) (frame : Int) :
    Converted owners [] ⟨[s], []⟩ (landingsStmt (suspend plan o e s frame))
      (leapsStmt (suspend plan o e s frame)) scopes n scopes n := by
  have hlandings : landingsStmt (suspend plan o e s frame) = [some s.resume] := rfl
  have hleaps : leapsStmt (suspend plan o e s frame) = [] := rfl
  have hlabels : Contents.labels ⟨[s], []⟩ = [some s.resume] := rfl
  rw [hlandings, hleaps]
  refine ⟨.refl scopes, hlinked, ⟨[], ?_, .nil⟩, fun l hl => ?_, fun j hj => nomatch hj⟩
  · simp [hlabels]
  · simpa [hlabels] using hl

theorem formed_suspend (hplan : Fitting owner plan) (o : Origin) {e : Expr}
    (he : OfMachine owner e) (s : Suspension) (frame : Int) :
    Formed (OfMachine owner) (suspend plan o e s frame) := by
  refine ⟨formed_assign _ hplan.current he, hplan.setState _, .inr (machine_bool _ _), trivial,
    hplan.setState _, trivial⟩

/-! ## Frames -/

theorem landingsStmts_proxies (p : Option Provenance) (f : Frame) (routes : List Route)
    (after : Label) :
    landingsStmts (proxies p f routes after) =
      routes.map (fun r => some r.proxy) ++ [some after] := by
  have hroutes : landingsStmts (routes.flatMap fun r =>
      [Made.label p r.proxy, callCleanup p f, .goto (.made p) r.next]) =
      routes.map fun r => some r.proxy := by
    induction routes with
    | nil => rfl
    | cons r rest ih =>
      rw [List.flatMap_cons, landingsStmts_append, ih]
      rfl
  rw [proxies, List.cons_append, landingsStmts, landingsStmts_append, hroutes]
  rfl

theorem leapsStmts_proxies (p : Option Provenance) (f : Frame) (routes : List Route)
    (after : Label) :
    leapsStmts (proxies p f routes after) =
      ⟨some after, false⟩ :: routes.map fun r => ⟨r.next, false⟩ := by
  have hroutes : leapsStmts (routes.flatMap fun r =>
      [Made.label p r.proxy, callCleanup p f, .goto (.made p) r.next]) =
      routes.map fun r => ⟨r.next, false⟩ := by
    induction routes with
    | nil => rfl
    | cons r rest ih =>
      rw [List.flatMap_cons, leapsStmts_append, ih]
      rfl
  rw [proxies, List.cons_append, leapsStmts, leapsStmts_append, hroutes]
  simp [leapsStmts, leapsStmt, Made.label, Made.goto]

theorem exitsStmts_proxies (p : Option Provenance) (f : Frame) (routes : List Route)
    (after : Label) : exitsStmts (proxies p f routes after) = [] := by
  have hroutes : exitsStmts (routes.flatMap fun r =>
      [Made.label p r.proxy, callCleanup p f, .goto (.made p) r.next]) = [] := by
    induction routes with
    | nil => rfl
    | cons r rest ih =>
      rw [List.flatMap_cons, exitsStmts_append, ih]
      rfl
  rw [proxies, List.cons_append, exitsStmts, exitsStmts_append, hroutes]
  rfl

theorem formedAll_proxies (p : Option Provenance) {f : Frame}
    (hf : f.cleanup.symbol.owner = some owner) (routes : List Route) (after : Label) :
    FormedAll (OfMachine owner) (proxies p f routes after) := by
  have hroutes : FormedAll (OfMachine owner) (routes.flatMap fun r =>
      [Made.label p r.proxy, callCleanup p f, .goto (.made p) r.next]) := by
    induction routes with
    | nil => trivial
    | cons r rest ih =>
      rw [List.flatMap_cons, formedAll_append]
      exact ⟨⟨trivial, formed_callCleanup p hf, trivial, trivial⟩, ih⟩
  rw [proxies, List.cons_append, FormedAll, formedAll_append]
  exact ⟨trivial, hroutes, trivial, trivial⟩

theorem landingsStmt_region (plan : Plan) (o bo : Origin) (f : Frame) (start : Label)
    (ss ways : List Stmt) : landingsStmt (region plan o bo f start ss ways) =
      some f.entry :: some start :: (landingsStmts ss ++ landingsStmts ways) := by
  simp [region, landingsStmt, landingsStmts, landingsBlock, Made.label,
    Plan.setState, assignState, Made.assign, callCleanup, Made.callThis]

theorem leapsStmt_region (plan : Plan) (o bo : Origin) (f : Frame) (start : Label)
    (ss ways : List Stmt) : leapsStmt (region plan o bo f start ss ways) =
      ((Contents.resumeCases ⟨f.suspensions, f.children⟩).map DispatchCase.label ++
        [some start]).map (fun target => ⟨target, false⟩) ++ leapsStmts ss ++ leapsStmts ways := by
  simp [region, leapsStmt, leapsStmts, leapsBlock, Made.label,
    Plan.setState, assignState, Made.assign, callCleanup, Made.callThis]

theorem exitsStmt_region (plan : Plan) (o bo : Origin) (f : Frame) (start : Label)
    (ss ways : List Stmt) : exitsStmt (region plan o bo f start ss ways) =
      exitsStmts ss ++ exitsStmts ways := by
  simp [region, exitsStmt, exitsStmts, exitsBlock, Made.label,
    Plan.setState, assignState, Made.assign, callCleanup, Made.callThis]

/-- The cases of a dispatch go to labels that resuming goes to. -/
theorem mem_resumeCases {c : Contents} {l : Option Label}
    (h : l ∈ c.resumeCases.map DispatchCase.label) : l ∈ c.labels := by
  simp only [Contents.resumeCases, List.map_append, List.map_map, List.mem_append, List.mem_map,
    Function.comp_apply, List.mem_flatMap] at h
  rw [Contents.labels, List.mem_append]
  rcases h with ⟨s, hs, rfl⟩ | ⟨case, ⟨f, hf, hcase⟩, rfl⟩
  · exact .inl (List.mem_map.mpr ⟨s, hs, rfl⟩)
  · right
    obtain ⟨state, -, rfl⟩ := hcase
    generalize c.children = fs at hf
    induction fs with
    | nil => cases hf
    | cons g rest ih =>
      rw [Frame.labelsAll, List.mem_append]
      rcases List.mem_cons.mp hf with rfl | hf
      · left
        cases f
        simp [Frame.labels, Frame.entry]
      · exact .inr (ih hf)

/-- The labels of what stands behind a frame: its proxies, and one behind them. -/
theorem waysOut_ok (p : Option Provenance) (f : Frame) (routes : List Route) (scopes : List Scope)
    (n : Nat) : ∃ ways after m, waysOut p f routes scopes n = (.ok (ways, scopes), m) ∧
      landingsStmts ways = routes.map (fun r => some r.proxy) ++ after ∧ Numbered n m after ∧
      (∀ j ∈ leapsStmts ways, j.target ∈ after ∨ ∃ r ∈ routes, r.next = j.target) ∧
      exitsStmts ways = [] ∧
      (f.cleanup.symbol.owner = some owner → FormedAll (OfMachine owner) ways) := by
  cases routes with
  | nil =>
    exact ⟨[], [], n, rfl, rfl, .nil, fun _ hj => (nomatch hj), rfl, fun _ => trivial⟩
  | cons r rest =>
    refine ⟨proxies p f (r :: rest) (.generated "after" (n + 1 : Nat)), _, n + 1, rfl,
      landingsStmts_proxies .., .single (by decide) (by decide), fun j hj => ?_,
      exitsStmts_proxies .., fun hf => formedAll_proxies p hf _ _⟩
    rw [leapsStmts_proxies, List.mem_cons, List.mem_map] at hj
    rcases hj with rfl | ⟨r, hr, rfl⟩
    · exact .inl List.mem_cons_self
    · exact .inr ⟨r, hr, rfl⟩

/-- What stands in the place of a frame, from what its try block has become.  The proxies of the
frame are placed behind it. -/
theorem Converted.region {owners : List (Option Label × Int)} {kept after : List (Option Label)}
    {inner : Contents} {ss ways : List Stmt} {state st : Int} {entry : Label} {method : MethodBody}
    {rest : Contents} {routes : List Route} {outer scopes' : List Scope} {m k : Nat}
    (h : Converted owners kept inner (landingsStmts ss) (leapsStmts ss)
      (⟨state, {}, []⟩ :: ⟨st, rest, routes⟩ :: outer) (n + 1) scopes' m)
    (howners : ∀ l, owners.lookup l = some state → l ∈ kept)
    (hlandings : landingsStmts ways = pending (scopes'.take 1) ++ after)
    (hafter : Numbered m k after)
    (hleaps : ∀ j ∈ leapsStmts ways, j.target ∈ after ∨
      ∃ r ∈ (scopes'.take 1).flatMap Scope.routes, r.next = j.target)
    (plan : Plan) (o bo : Origin) :
    Converted owners kept ⟨[], [.mk state entry method inner.suspensions inner.children]⟩
      (landingsStmt (StateMachine.region plan o bo
        (.mk state entry method inner.suspensions inner.children)
        (.generated "body" (n + 1 : Nat)) ss ways))
      (leapsStmt (StateMachine.region plan o bo
        (.mk state entry method inner.suspensions inner.children)
        (.generated "body" (n + 1 : Nat)) ss ways))
      (⟨st, rest, routes⟩ :: outer) n scopes'.tail k := by
  match scopes', h with
  | ⟨_, _, routes'⟩ :: outer', h =>
    obtain ⟨hstate, -, -, hgrown⟩ := h.grown
    obtain ⟨hnext, hlinked⟩ := h.linked
    obtain ⟨made, hperm, hmade⟩ := h.labels
    have hlabels : Contents.labels ⟨[], [.mk state entry method inner.suspensions inner.children]⟩ =
        some entry :: inner.labels := by
      simp [Contents.labels, Frame.labelsAll, Frame.labels]
    simp only [List.take_succ_cons, List.take_zero, pending, Scope.proxies, List.append_nil,
      List.flatMap_cons, List.flatMap_nil] at hlandings hleaps
    rw [landingsStmt_region, leapsStmt_region, hlandings]
    refine ⟨hgrown, hlinked, ⟨some (.generated "body" (n + 1 : Nat)) :: made ++ after, ?_, ?_⟩,
      fun l hl => ?_, fun j hj => ?_⟩
    · refine List.perm_iff_count.mpr fun l => ?_
      have hcount := hperm.count_eq l
      simp only [pending, Scope.proxies, List.map_nil, List.nil_append, List.count_append,
        List.count_cons, hlabels, List.tail_cons, Frame.entry] at hcount ⊢
      omega
    · exact ((Numbered.single (by decide) (by decide)).append hmade).append hafter
    · have hkeeps := h.keeps l
      rw [hlabels] at hl
      simp only [List.mem_append, List.mem_cons, Frame.entry] at hl hkeeps ⊢
      grind
    · simp only [List.mem_append, List.mem_cons] at hj ⊢
      rcases hj with (hj | hj) | hj
      · -- A case of the dispatch, or the start of the try block.
        obtain ⟨target, htarget, rfl⟩ := List.mem_map.mp hj
        rcases List.mem_append.mp htarget with htarget | htarget
        · have hmem := h.keeps target (List.mem_append_right _ (mem_resumeCases htarget))
          exact .inl (.inr (.inr (.inl hmem)))
        · exact .inl (.inr (.inl (List.mem_singleton.mp htarget)))
      · rcases h.jumps j hj with hmem | ⟨_, _, hs, ⟨-, hown⟩ | ⟨r, hr, -, heq⟩⟩
        · exact .inl (.inr (.inr (.inl hmem)))
        · cases hs
          have hkept := howners _ (hown.trans (congrArg some hstate))
          have hmem := h.keeps _ (List.mem_append_left _ hkept)
          exact .inl (.inr (.inr (.inl hmem)))
        · cases hs
          have hproxy : j.target ∈ routes'.map fun r => some r.proxy :=
            List.mem_map.mpr ⟨r, hr, heq.symm⟩
          exact .inl (.inr (.inr (.inr (.inl hproxy))))
      · rcases hleaps j hj with hmem | ⟨r, hr, hmem⟩
        · exact .inl (.inr (.inr (.inr (.inr hmem))))
        · exact .inr ⟨r.target, hmem ▸ hnext r hr⟩

theorem formed_region (hplan : Fitting owner plan) (o bo : Origin) {f : Frame}
    (hf : f.cleanup.symbol.owner = some owner) (start : Label) {ss ways : List Stmt}
    (hss : FormedAll (OfMachine owner) ss) (hways : FormedAll (OfMachine owner) ways) :
    Formed (OfMachine owner) (region plan o bo f start ss ways) := by
  have hblock : Formed (OfMachine owner) (.block (.mk bo.asGenerated [] (.dispatch
      (.made o.provenance) plan.stateRef (Contents.resumeCases ⟨f.suspensions, f.children⟩)
        (some start) :: Made.label o.provenance start :: ss))) :=
    ⟨.inl rfl, machine_field _ hplan.state, trivial, hss⟩
  exact ⟨hplan.setState _, trivial, hblock, formed_callCleanup _ hf, hways⟩

/-! ## Parts of a body -/

/-- Two parts of given shapes. -/
def Both {α β : Type} (shape : α → List (Option Label) → List Leap → Prop)
    (shape' : β → List (Option Label) → List Leap → Prop) (p : α × β)
    (landings : List (Option Label)) (leaps : List Leap) : Prop :=
  ∃ ls js ls' js', shape p.1 ls js ∧ shape' p.2 ls' js' ∧ landings = ls ++ ls' ∧ leaps = js ++ js'

/-- In scopes with the states, the conversion of a part with the labels `kept` and the contents `c`
goes through if and only if `fits` holds, and gives a part of the given shape. -/
def Turns {α : Type} (plan : Plan) (states : List Int) (fits : Prop) (kept : List (Option Label))
    (c : Contents) (x : Convert α) (shape : α → List (Option Label) → List Leap → Prop) : Prop :=
  ∀ (st : Int) (rest : Contents) (routes : List Route) (outer : List Scope) (n : Nat),
    st :: outer.map Scope.state = states → Linked plan.owners (⟨st, rest, routes⟩ :: outer) →
    Converts fits x (⟨st, c.append rest, routes⟩ :: outer) n fun a scopes' m =>
      ∃ landings leaps, shape a landings leaps ∧
        Converted plan.owners kept c landings leaps (⟨st, rest, routes⟩ :: outer) n scopes' m

namespace Turns

variable {α β γ : Type} {states : List Int} {fits fits' : Prop} {kept kept' : List (Option Label)}
  {c c' : Contents} {x : Convert α} {y : Convert β}
  {shape : α → List (Option Label) → List Leap → Prop}
  {shape' : β → List (Option Label) → List Leap → Prop}
  {shape'' : γ → List (Option Label) → List Leap → Prop}

/-- A part that stays as it is. -/
theorem still {a : α} (hshape : shape a kept []) :
    Turns plan states True kept {} (pure a) shape := by
  intro st rest routes outer n _ hlinked
  exact .pure ⟨kept, [], hshape, .still hlinked kept⟩

/-- A jump. -/
theorem jump (o : Origin) (target : Option Label) {g : Option Label → β}
    (hshape : ∀ l, shape' (g l) [] [⟨l, false⟩]) :
    Turns plan states (Sees plan.owners states target) [] {} (do
      let l ← StateMachine.jump plan o target
      return g l) shape' := by
  intro st rest routes outer n hstates hlinked
  have hjump := jump_converts (n := n) plan o target hlinked
  simp only [List.map_cons, hstates] at hjump
  exact hjump.map fun l scopes' m h => ⟨[], [⟨l, false⟩], hshape l, .jump h false⟩

/-- A part that is made into another one, where the order of labels and jumps does not matter. -/
theorem map (h : Turns plan states fits kept c x shape) {g : α → β} (hkept : kept'.Perm kept)
    (hshape : ∀ a ls js, shape a ls js → ∃ ls' js', shape' (g a) ls' js' ∧ ls'.Perm ls ∧
      ∀ j ∈ js', j ∈ js) :
    Turns plan states fits kept' c (x >>= fun a => pure (g a)) shape' := by
  intro st rest routes outer n hstates hlinked
  refine (h st rest routes outer n hstates hlinked).map ?_
  rintro a scopes' m ⟨ls, js, ha, hconverted⟩
  obtain ⟨ls', js', hg, hperm, hsub⟩ := hshape a ls js ha
  exact ⟨ls', js', hg, hconverted.perm hkept hperm hsub⟩

/-- One part after another. -/
theorem append (h : Turns plan states fits kept c x shape)
    (h' : Turns plan states fits' kept' c' y shape') {g : α → β → γ}
    (hshape : ∀ a ls js b ls' js', shape a ls js → shape' b ls' js' →
      shape'' (g a b) (ls ++ ls') (js ++ js')) :
    Turns plan states (fits ∧ fits') (kept ++ kept') (c.append c') (do
      let a ← x
      let b ← y
      return g a b) shape'' := by
  intro st rest routes outer n hstates hlinked
  have hfirst := h st (c'.append rest) routes outer n hstates hlinked
  have hassoc : (c.append c').append rest = c.append (c'.append rest) := by
    simp [Contents.append]
  rw [hassoc]
  refine hfirst.bind ?_
  rintro a scopes₁ m ⟨ls, js, ha, hconverted⟩
  obtain ⟨routes₁, outer₁, rfl, houter, hconverted⟩ := hconverted.retop rest
  have hsecond := h' st rest routes₁ outer₁ m (by rw [houter, hstates]) hconverted.linked
  refine hsecond.map ?_
  rintro b scopes₂ k ⟨ls', js', hb, hconverted'⟩
  exact ⟨_, _, hshape a ls js b ls' js' ha hb, hconverted.append hconverted'⟩

theorem both (h : Turns plan states fits kept c x shape)
    (h' : Turns plan states fits' kept' c' y shape') :
    Turns plan states (fits ∧ fits') (kept ++ kept') (c.append c') (do
      let a ← x
      let b ← y
      return (a, b)) (Both shape shape') :=
  h.append h' fun _ ls js _ ls' js' ha hb => ⟨ls, js, ls', js', ha, hb, rfl, rfl⟩

theorem imp {form : α → List (Option Label) → List Leap → Prop}
    (h : Turns plan states fits kept c x shape) (hshape : ∀ a ls js, shape a ls js → form a ls js) :
    Turns plan states fits kept c x form := by
  intro st rest routes outer n hstates hlinked
  refine (h st rest routes outer n hstates hlinked).weaken .rfl ?_
  rintro a scopes' m ⟨ls, js, ha, hconverted⟩
  exact ⟨ls, js, hshape a ls js ha, hconverted⟩

theorem weaken (h : Turns plan states fits kept c x shape) (hfits : fits ↔ fits') :
    Turns plan states fits' kept c x shape := by
  intro st rest routes outer n hstates hlinked
  exact (h st rest routes outer n hstates hlinked).weaken hfits fun _ _ _ hpost => hpost

end Turns

/-! ## Forms of what is made -/

/-- The statement has the labels and jumps, it can be lowered, and it does not suspend. -/
structure Shaped (owner : TypeDecl) (s : Stmt) (landings : List (Option Label))
    (leaps : List Leap) : Prop where
  landings : landingsStmt s = landings
  leaps : leapsStmt s = leaps
  formed : Formed (OfMachine owner) s
  free : YieldFree (exitsStmt s)

/-- The statements have the labels and jumps, they can be lowered, and they do not suspend. -/
structure ShapedAll (owner : TypeDecl) (ss : List Stmt) (landings : List (Option Label))
    (leaps : List Leap) : Prop where
  landings : landingsStmts ss = landings
  leaps : leapsStmts ss = leaps
  formed : FormedAll (OfMachine owner) ss
  free : YieldFree (exitsStmts ss)

/-- The block has the labels and jumps, it can be lowered, and it does not suspend. -/
structure ShapedBlock (owner : TypeDecl) (b : Block) (landings : List (Option Label))
    (leaps : List Leap) : Prop where
  landings : landingsBlock b = landings
  leaps : leapsBlock b = leaps
  formed : FormedBlock (OfMachine owner) b
  free : YieldFree (exitsBlock b)

/-- The handlers have the labels and jumps, they can be lowered, and they do not suspend. -/
structure ShapedCatches (owner : TypeDecl) (cs : List Catch) (landings : List (Option Label))
    (leaps : List Leap) : Prop where
  landings : landingsCatches cs = landings
  leaps : leapsCatches cs = leaps
  formed : FormedCatches (OfMachine owner) cs
  free : YieldFree (exitsCatches cs)

/-- The finally of a try has the labels and jumps, it can be lowered, and it does not suspend; or
there is none. -/
def ShapedCleanup (owner : TypeDecl) (cleanup b : Block) (landings : List (Option Label))
    (leaps : List Leap) : Prop :=
  (b = .absent ∧ cleanup = .absent ∧ landings = [] ∧ leaps = []) ∨
    ShapedBlock owner b landings leaps

/-! ## Bodies -/

mutual

theorem own_kept {P : Expr → Prop} {l : Option Label} : ∀ {s : Stmt}, Ready P s → l ∈ ownStmt s →
    l ∈ keptStmt s
  | .block b, hs, hl => ownBlock_kept (b := b) hs hl
  | .list _ ss, hs, hl => @ownAll_kept P l ss hs hl
  | .label .., _, hl => hl
  | .try _ body catches cleanup, hs, hl => by
    rw [keptStmt]
    rw [ownStmt] at hl
    split at hl
    · cases hl
    · rename_i hframed
      rw [if_neg hframed, List.mem_append, List.mem_append]
      rw [List.mem_append, List.mem_append] at hl
      rcases hl with (hl | hl) | hl
      · exact .inl (.inl (ownBlock_kept hs.1 hl))
      · exact .inl (.inr (ownCatches_kept hs.2.1 hl))
      · rcases hs.2.2.1 with rfl | hcleanup
        · cases hl
        · exact .inr (ownBlock_kept hcleanup hl)
  | .sequencePoint .., _, hl | .yieldBreak _, _, hl | .goto .., _, hl | .expression .., _, hl
  | .yieldReturn .., _, hl | .conditionalGoto .., _, hl | .return .., _, hl | .throw .., _, hl =>
    nomatch hl
  | .absent, hs, _ | .noOp .., hs, _ | .localDeclaration .., hs, _ | .if .., hs, _
  | .while .., hs, _ | .break .., hs, _ | .continue .., hs, _ | .dispatch .., hs, _
  | .foreign .., hs, _ => hs.elim

theorem ownAll_kept {P : Expr → Prop} {l : Option Label} : ∀ {ss : List Stmt}, ReadyAll P ss →
    l ∈ ownStmts ss → l ∈ keptStmts ss
  | [], _, hl => nomatch hl
  | _ :: _, hss, hl => List.mem_append.mpr
      ((List.mem_append.mp hl).imp (own_kept hss.1) (ownAll_kept hss.2))

theorem ownBlock_kept {P : Expr → Prop} {l : Option Label} : ∀ {b : Block}, ReadyBlock P b →
    l ∈ ownBlock b → l ∈ keptBlock b
  | .absent, hb, _ => hb.elim
  | .mk _ _ ss, hb, hl => @ownAll_kept P l ss hb.2 hl

theorem ownCatches_kept {P : Expr → Prop} {l : Option Label} : ∀ {cs : List Catch},
    ReadyCatches P cs → l ∈ ownCatches cs → l ∈ keptCatches cs
  | [], _, hl => nomatch hl
  | .mk .. :: _, hcs, hl => List.mem_append.mpr
      ((List.mem_append.mp hl).imp (ownBlock_kept hcs.1) (ownCatches_kept hcs.2))

end

namespace Turns

variable {states : List Int}

/-- A suspension. -/
theorem suspension (hplan : Fitting owner plan) (o : Origin) {e : Expr} (he : OfMachine owner e)
    (s : Suspension) :
    Turns plan states True [] ⟨[s], []⟩ (convertStmt plan (.yieldReturn o e)) (Shaped owner) := by
  intro st rest routes outer n _ hlinked
  have hstep : convertStmt plan (.yieldReturn o e) (⟨st, Contents.append ⟨[s], []⟩ rest, routes⟩ ::
      outer) n = (.ok (suspend plan o e s st, ⟨st, rest, routes⟩ :: outer), n) := rfl
  refine .of_eq hstep ⟨_, _, ⟨rfl, rfl, formed_suspend hplan o he s st, ?_⟩,
    .suspended hlinked plan o e s st⟩
  intro k hk
  rw [List.mem_singleton.mp hk]
  rfl

/-- A frame. -/
theorem region (hplan : Fitting owner plan) (o : Origin) {body cleanup : Block}
    (catches : List Catch) (hframe : isFrame body cleanup = true) {state : Int} {entry : Label}
    {method : MethodBody} {inner : Contents} {kept : List (Option Label)} {fits : Prop}
    (hmethod : method.symbol.owner = some owner)
    (howners : ∀ l, plan.owners.lookup l = some state → l ∈ kept)
    (h : Turns plan (state :: states) fits kept inner (convertBlock plan body)
      (ShapedBlock owner)) :
    Turns plan states fits kept
      ⟨[], [.mk state entry method inner.suspensions inner.children]⟩
      (convertStmt plan (.try o body catches cleanup)) (Shaped owner) := by
  intro st rest routes outer n hstates hlinked
  have hnext : Convert.nextFrame o.span (⟨st, Contents.append ⟨[], [.mk state entry method
      inner.suspensions inner.children]⟩ rest, routes⟩ :: outer) n =
      (.ok (.mk state entry method inner.suspensions inner.children,
        ⟨st, rest, routes⟩ :: outer), n) := rfl
  rw [convertStmt, if_pos hframe]
  refine .step hnext (.step rfl (.step rfl ?_))
  have hbody := h state {} [] (⟨st, rest, routes⟩ :: outer) (n + 1) (by simp [hstates])
    ⟨fun r hr => (nomatch hr), hlinked⟩
  rw [Contents.append_nil] at hbody
  refine hbody.followed ?_
  rintro b' scopes' m ⟨ls, js, hshape, hconverted⟩
  obtain ⟨routes', outer', rfl, -, -⟩ := hconverted.retop {}
  obtain ⟨ways, after, k, hways, hlandings, hafter, hleaps, hexits, hformed⟩ :=
    @waysOut_ok owner o.provenance (.mk state entry method inner.suspensions inner.children) routes'
      outer' m
  refine .step rfl (.step hways (.pure ⟨_, _, ⟨rfl, rfl, ?_, ?_⟩, ?_⟩))
  · cases b' with
    | absent => exact hshape.formed.elim
    | mk =>
      exact formed_region hplan o _ (f := .mk state entry method inner.suspensions inner.children)
        hmethod _ hshape.formed.2 (hformed hmethod)
  · rw [exitsStmt_region, hexits, List.append_nil]
    cases b' with
    | absent => exact hshape.formed.elim
    | mk => exact hshape.free
  · have hlandings' : landingsStmts b'.statements = ls := by
      rw [← hshape.landings]
      cases b' <;> rfl
    have hleaps' : leapsStmts b'.statements = js := by
      rw [← hshape.leaps]
      cases b' <;> rfl
    rw [← hlandings', ← hleaps'] at hconverted
    exact hconverted.region howners (by simpa [pending, Scope.proxies] using hlandings) hafter
      (by simpa using hleaps) plan o body.origin

/-- A try that stays one. -/
theorem unframed {fits : Prop} {kept kept' kept'' : List (Option Label)} {c : Contents}
    {x : Convert ((List Catch × Block) × Block)} {catches : List Catch} {cleanup : Block}
    (h : Turns plan states fits ((kept ++ kept') ++ kept'') c x (Both (Both (fun cs' ls js =>
      ShapedCatches owner cs' ls js ∧ (cs' = [] → catches = [])) (ShapedCleanup owner cleanup))
      (ShapedBlock owner))) (o : Origin) (hform : catches ≠ [] ∨ cleanup ≠ .absent) :
    Turns plan states fits (kept'' ++ kept ++ kept') c
      (x >>= fun p => pure (.try o p.2 p.1.1 p.1.2)) (Shaped owner) := by
  have hperm : ∀ a b c : List (Option Label), (a ++ b ++ c).Perm ((b ++ c) ++ a) := fun a b c => by
    rw [List.append_assoc]
    exact List.perm_append_comm
  refine h.map (hperm _ _ _) ?_
  rintro ⟨⟨cs', cleanup'⟩, body'⟩ _ _
    ⟨_, _, ls'', js'', ⟨ls, js, ls', js', ⟨hcs, hempty⟩, hcleanup, rfl, rfl⟩, hbody, rfl, rfl⟩
  have hlast : landingsBlock cleanup' = ls' ∧ leapsBlock cleanup' = js' ∧
      YieldFree (exitsBlock cleanup') ∧
      (cleanup' = .absent ∧ cleanup = .absent ∨ FormedBlock (OfMachine owner) cleanup') := by
    rcases hcleanup with ⟨rfl, habsent, rfl, rfl⟩ | hshape
    · exact ⟨rfl, rfl, fun _ hk => (nomatch hk), .inl ⟨rfl, habsent⟩⟩
    · exact ⟨hshape.landings, hshape.leaps, hshape.free, .inr hshape.formed⟩
  obtain ⟨hlandings, hleaps, hfree, hformed⟩ := hlast
  refine ⟨ls'' ++ ls ++ ls', js'' ++ js ++ js', ⟨?_, ?_, ?_, ?_⟩, hperm _ _ _, fun j hj => ?_⟩
  · rw [landingsStmt, hbody.landings, hcs.landings, hlandings]
  · rw [leapsStmt, hbody.leaps, hcs.leaps, hleaps]
  · refine ⟨hbody.formed, hcs.formed, hformed.imp (fun h => h.1) id, ?_⟩
    refine hform.imp (fun hne hempty' => hne (hempty hempty')) fun hne habsent => ?_
    rcases hformed with ⟨-, h⟩ | h
    · exact hne h
    · rw [show cleanup' = .absent from habsent] at h
      exact h
  · exact YieldFree.append.mpr ⟨YieldFree.append.mpr ⟨hbody.free, hcs.free⟩, hfree⟩
  · simp only [List.mem_append] at hj ⊢
    exact or_comm.mp (or_assoc.mp hj)

end Turns

variable {owners : List (Option Label × Int)}

/-- Inside a frame the labels that stand directly in it are visible as well. -/
theorem sees_cons {states : List Int} {state : Int} {own : List (Option Label)}
    (h : ∀ l, owners.lookup l = some state ↔ l ∈ own) :
    Sees owners (state :: states) = fun l => Sees owners states l ∨ l ∈ own := by
  funext l
  simp only [Sees, List.mem_cons, exists_eq_or_imp, h, or_comm]

mutual

theorem convertStmt_ok (hplan : Fitting owner plan) : ∀ {k : Nat} {s : Stmt} {c : Contents}
    {states : List Int}, Ready (OfMachine owner) s → Guarded s → .return ∉ exitsStmt s →
    Matches owner plan.owners k s c → Sees plan.owners states (some plan.exit) →
    Turns plan states (Routed (Sees plan.owners states) s) (keptStmt s) c (convertStmt plan s)
      (Shaped owner)
  | _, .block b, c, states, hs, hguarded, hreturn, hmatches, hexit => by
    have hblock := convertBlock_ok hplan (b := b) hs hguarded hreturn hmatches hexit
    refine hblock.map (.refl _) fun b' ls js h => ⟨ls, js, ?_, .refl _, fun _ hj => hj⟩
    exact ⟨h.landings, h.leaps, h.formed, h.free⟩
  | k, .list o ss, c, states, hs, hguarded, hreturn, hmatches, hexit => by
    have hlist := @convertStmts_ok hplan k ss c states hs hguarded hreturn hmatches hexit
    refine hlist.map (.refl _) fun ss' ls js h => ⟨ls, js, ?_, .refl _, fun _ hj => hj⟩
    exact ⟨h.landings, h.leaps, h.formed, h.free⟩
  | _, .yieldReturn o e, c, states, hs, _, _, hmatches, _ => by
    obtain ⟨resume, rfl⟩ := hmatches
    exact .suspension hplan o hs _
  | _, .yieldBreak o, c, states, _, _, _, hmatches, hexit => by
    obtain rfl : c = {} := hmatches
    have hjump : Turns plan states _ [] {} _ (Shaped owner) := .jump o (some plan.exit) fun l =>
      show Shaped owner (.goto o.asGenerated l) _ _ from
        ⟨rfl, rfl, trivial, fun _ hk => (nomatch hk)⟩
    exact hjump.weaken (iff_of_true hexit trivial)
  | _, .goto o l, c, states, _, _, _, hmatches, _ => by
    obtain rfl : c = {} := hmatches
    exact Turns.jump o l fun l => ⟨rfl, rfl, trivial, fun _ hk => (nomatch hk)⟩
  | _, .conditionalGoto o e whenTrue l, c, states, hs, _, _, hmatches, _ => by
    obtain rfl : c = {} := hmatches
    exact Turns.jump o l fun l => ⟨rfl, rfl, hs, fun _ hk => (nomatch hk)⟩
  | _, .sequencePoint .., c, states, hs, _, _, hmatches, _
  | _, .label .., c, states, hs, _, _, hmatches, _
  | _, .expression .., c, states, hs, _, _, hmatches, _
  | _, .throw .., c, states, hs, _, _, hmatches, _ => by
    obtain rfl : c = {} := hmatches
    exact Turns.still ⟨rfl, rfl, hs, fun _ hk => (nomatch hk)⟩
  | _, .try o body catches cleanup, c, states, hs, hguarded, hreturn, hmatches, hexit => by
    have hframe : isFrame body cleanup = framed body cleanup :=
      isFrame_eq (verifiedBlock_of_ready (fun _ => soundExpr_of_machine) hs.1)
    simp only [exitsStmt, List.mem_append, not_or] at hreturn
    obtain ⟨⟨hbody, hcatches⟩, hcleanup⟩ := hreturn
    cases hframed : framed body cleanup with
    | true =>
      simp only [Matches, hframed, if_true] at hmatches
      obtain ⟨state, entry, method, inner, rfl, hmethod, howners, hinner⟩ := hmatches
      have hexit' : Sees plan.owners (state :: states) (some plan.exit) := by
        rw [sees_cons howners]
        exact .inl hexit
      have hregion := convertBlock_ok hplan hs.1 hguarded.2.1 hbody hinner hexit'
      rw [sees_cons howners] at hregion
      simp only [Routed, keptStmt, hframed, if_true]
      exact .region hplan o catches (hframe.trans hframed) hmethod
        (fun l hl => ownBlock_kept hs.1 ((howners l).mp hl)) hregion
    | false =>
      simp only [Matches, hframed, Bool.false_eq_true, if_false] at hmatches
      obtain ⟨rfl, hmatches, hmatches', hmatches''⟩ := hmatches
      have hlast : Turns plan states (RoutedBlock (Sees plan.owners states) cleanup)
          (keptBlock cleanup) {} (convertBlock plan cleanup) (ShapedCleanup owner cleanup) := by
        rcases hs.2.2.1 with rfl | hready
        · exact .still (.inl ⟨rfl, rfl, rfl, rfl⟩)
        · exact (convertBlock_ok hplan hready hguarded.2.2.2 hcleanup hmatches'' hexit).imp
            fun _ _ _ h => .inr h
      have hparts := ((convertCatches_ok hplan hs.2.1 hguarded.2.2.1 hcatches hmatches' hexit).both
        hlast).both (convertBlock_ok hplan hs.1 hguarded.2.1 hbody hmatches hexit)
      have hform : catches ≠ [] ∨ cleanup ≠ .absent := (formed_of_ready hs).2.2.2
      have hmade := hparts.unframed o hform
      simp only [bind_assoc, pure_bind] at hmade
      rw [convertStmt, hframe, hframed]
      simp only [Routed, keptStmt, hframed, Bool.false_eq_true, if_false]
      exact hmade.weaken (by rw [and_comm, and_assoc])
  | _, .return .., _, _, _, _, hreturn, _, _ => absurd List.mem_cons_self hreturn
  | _, .absent, _, _, hs, _, _, _, _ | _, .noOp .., _, _, hs, _, _, _, _
  | _, .localDeclaration .., _, _, hs, _, _, _, _ | _, .if .., _, _, hs, _, _, _, _
  | _, .while .., _, _, hs, _, _, _, _ | _, .break .., _, _, hs, _, _, _, _
  | _, .continue .., _, _, hs, _, _, _, _ | _, .dispatch .., _, _, hs, _, _, _, _
  | _, .foreign .., _, _, hs, _, _, _, _ => hs.elim

theorem convertStmts_ok (hplan : Fitting owner plan) : ∀ {k : Nat} {ss : List Stmt} {c : Contents}
    {states : List Int}, ReadyAll (OfMachine owner) ss → GuardedAll ss → .return ∉ exitsStmts ss →
    MatchesAll owner plan.owners k ss c → Sees plan.owners states (some plan.exit) →
    Turns plan states (RoutedAll (Sees plan.owners states) ss) (keptStmts ss) c
      (convertStmts plan ss) (ShapedAll owner)
  | _, [], _, _, _, _, _, rfl, _ => Turns.still ⟨rfl, rfl, trivial, fun _ hk => (nomatch hk)⟩
  | _, s :: rest, _, states, hss, hguarded, hreturn, ⟨a, b, ha, hb, rfl⟩, hexit => by
    simp only [exitsStmts, List.mem_append, not_or] at hreturn
    have hfirst := convertStmt_ok hplan hss.1 hguarded.1 hreturn.1 ha hexit
    have hrest := convertStmts_ok hplan hss.2 hguarded.2 hreturn.2 hb hexit
    refine hfirst.append hrest fun s' ls js rest' ls' js' hs' hrest' => ?_
    exact ⟨by rw [landingsStmts, hs'.landings, hrest'.landings],
      by rw [leapsStmts, hs'.leaps, hrest'.leaps], ⟨hs'.formed, hrest'.formed⟩,
      YieldFree.append.mpr ⟨hs'.free, hrest'.free⟩⟩

theorem convertBlock_ok (hplan : Fitting owner plan) : ∀ {k : Nat} {b : Block} {c : Contents}
    {states : List Int}, ReadyBlock (OfMachine owner) b → GuardedBlock b → .return ∉ exitsBlock b →
    MatchesBlock owner plan.owners k b c → Sees plan.owners states (some plan.exit) →
    Turns plan states (RoutedBlock (Sees plan.owners states) b) (keptBlock b) c
      (convertBlock plan b) (ShapedBlock owner)
  | _, .absent, _, _, hb, _, _, _, _ => hb.elim
  | k, .mk o locals ss, c, states, hb, hguarded, hreturn, hmatches, hexit => by
    have hlist := @convertStmts_ok hplan k ss c states hb.2 hguarded hreturn hmatches hexit
    refine hlist.map (.refl _) fun ss' ls js h => ⟨ls, js, ?_, .refl _, fun _ hj => hj⟩
    exact ⟨h.landings, h.leaps, ⟨hb.1, h.formed⟩, h.free⟩

theorem convertCatches_ok (hplan : Fitting owner plan) : ∀ {k : Nat} {cs : List Catch}
    {c : Contents} {states : List Int}, ReadyCatches (OfMachine owner) cs → GuardedCatches cs →
    .return ∉ exitsCatches cs → MatchesCatches owner plan.owners k cs c →
    Sees plan.owners states (some plan.exit) →
    Turns plan states (RoutedCatches (Sees plan.owners states) cs) (keptCatches cs) c
      (convertCatches plan cs)
      fun cs' ls js => ShapedCatches owner cs' ls js ∧ (cs' = [] → cs = [])
  | _, [], _, _, _, _, _, rfl, _ =>
    Turns.still ⟨⟨rfl, rfl, trivial, fun _ hk => (nomatch hk)⟩, fun _ => rfl⟩
  | _, .mk o l body :: rest, _, states, hcs, hguarded, hreturn, ⟨a, b, ha, hb, rfl⟩, hexit => by
    simp only [exitsCatches, List.mem_append, not_or] at hreturn
    have hfirst := convertBlock_ok hplan hcs.1 hguarded.1 hreturn.1 ha hexit
    have hrest := convertCatches_ok hplan hcs.2 hguarded.2 hreturn.2 hb hexit
    refine hfirst.append hrest fun body' ls js rest' ls' js' hbody' ⟨hrest', _⟩ => ?_
    exact ⟨⟨by rw [landingsCatches, hbody'.landings, hrest'.landings],
      by rw [leapsCatches, hbody'.leaps, hrest'.leaps], ⟨hbody'.formed, hrest'.formed⟩,
      YieldFree.append.mpr ⟨hbody'.free, hrest'.free⟩⟩, fun h => (nomatch h)⟩

end

end Resumable.StateMachine
