import Resumable.Proofs.StateMachine.Bodies
import Resumable.Proofs.StateMachine.Numbering

/-!
# Ways out of frames

A jump in a body goes to its target or to a proxy in the innermost frame around it, and each proxy
on the way to one in the next frame, until the frame of the target is the innermost one
(`LeadsOut`).  A frame has one proxy for each target at most, which serves every jump to it.  The
conversion makes the jumps of a body before it knows all the proxies of the frames around, so what
it makes of a body is read in the frames as they are left (`Emits`, `convertBlock_emits`).
-/

set_option autoImplicit false

namespace Resumable.StateMachine

open Resumable.Report Resumable.Symbol Resumable.Tree Resumable.Source Resumable.Lowering

/-! ## Layers -/

/-- A frame around a place, with all the ways out of it. -/
structure Layer where
  frame : Frame
  routes : List Route

/-- The state inside the layers, the innermost of which comes first. -/
def stateInside : List Layer → Int
  | [] => stateRunning
  | x :: _ => x.frame.state

/-- Inside the layers, the label leads to the target by way of proxies in the frames `passed`. -/
inductive LeadsOut (owners : List (Option Label × Int)) (target : Option Label) :
    List Layer → Option Label → List Frame → Prop where
  /-- The target stands directly in the innermost frame. -/
  | here {layers : List Layer} (howner : owners.lookup target = some (stateInside layers)) :
    LeadsOut owners target layers target []
  /-- The innermost frame has a way out to the target, and goes on in the layers around it. -/
  | proxy {f : Frame} {routes : List Route} {outer : List Layer} {r : Route} {passed : List Frame}
    (hroute : r ∈ routes) (htarget : r.target = target)
    (hnext : LeadsOut owners target outer r.next passed) :
    LeadsOut owners target (⟨f, routes⟩ :: outer) (some r.proxy) (f :: passed)

/-- The frames that are passed are the innermost ones, up to that of the target. -/
theorem LeadsOut.split {owners : List (Option Label × Int)} {target : Option Label}
    {layers : List Layer} {l : Option Label} {passed : List Frame}
    (h : LeadsOut owners target layers l passed) :
    ∃ front rest, layers = front ++ rest ∧ front.map Layer.frame = passed ∧
      owners.lookup target = some (stateInside rest) := by
  induction h with
  | here howner => exact ⟨[], _, rfl, rfl, howner⟩
  | @proxy f routes _ _ _ _ _ _ ih =>
    obtain ⟨front, rest, rfl, rfl, howner⟩ := ih
    exact ⟨⟨f, routes⟩ :: front, rest, rfl, rfl, howner⟩

/-- A label that leads to its target by way of no proxy is the target. -/
theorem LeadsOut.eq_target {owners : List (Option Label × Int)} {target : Option Label}
    {layers : List Layer} {l : Option Label} (h : LeadsOut owners target layers l []) :
    l = target := by
  cases h
  rfl

/-! ## What becomes of a body -/

/-- What stands behind a frame: its proxies, if there are any. -/
def Behind (p : Option Provenance) (x : Layer) (behind : List Stmt) : Prop :=
  x.routes = [] ∧ behind = [] ∨ ∃ after, behind = proxies p x.frame x.routes after

mutual

/-- What becomes of a statement inside the layers: each jump to a target goes to a label for which
`jump` holds, and `layer` holds of each frame with the ways out of it. -/
def Emits (plan : Plan) (jump : List Layer → Option Label → Option Label → Prop)
    (layer : Layer → Prop) (layers : List Layer) : Stmt → Contents → Stmt → Prop
  | .block b, c, t => ∃ b', EmitsBlock plan jump layer layers b c b' ∧ t = .block b'
  | .list o ss, c, t => ∃ ts, EmitsAll plan jump layer layers ss c ts ∧ t = .list o ts
  | .yieldReturn o e, c, t => ∃ s, c = ⟨[s], []⟩ ∧ t = suspend plan o e s (stateInside layers)
  | .yieldBreak o, c, t => c = {} ∧ ∃ l, jump layers (some plan.exit) l ∧ t = .goto o.asGenerated l
  | .goto o target, c, t => c = {} ∧ ∃ l, jump layers target l ∧ t = .goto o l
  | .conditionalGoto o e whenTrue target, c, t => c = {} ∧ ∃ l, jump layers target l ∧
    t = .conditionalGoto o e whenTrue l
  | .try o body catches cleanup, c, t =>
    if framed body cleanup then ∃ f routes start b' behind, c = ⟨[], [f]⟩ ∧ layer ⟨f, routes⟩ ∧
      EmitsBlock plan jump layer (⟨f, routes⟩ :: layers) body ⟨f.suspensions, f.children⟩ b' ∧
      Behind o.provenance ⟨f, routes⟩ behind ∧
      t = region plan o body.origin f start b'.statements behind
    else c = {} ∧ ∃ body' catches' cleanup', EmitsBlock plan jump layer layers body {} body' ∧
      EmitsCatches plan jump layer layers catches {} catches' ∧
      (cleanup = .absent ∧ cleanup' = .absent ∨
        EmitsBlock plan jump layer layers cleanup {} cleanup') ∧
      t = .try o body' catches' cleanup'
  | .label o l, c, t => c = {} ∧ t = .label o l
  | .sequencePoint o place, c, t => c = {} ∧ t = .sequencePoint o place
  | .expression o e, c, t => c = {} ∧ t = .expression o e
  | .throw o e, c, t => c = {} ∧ t = .throw o e
  | .absent, _, _ | .noOp .., _, _ | .localDeclaration .., _, _ | .return .., _, _ | .if .., _, _
  | .while .., _, _ | .break .., _, _ | .continue .., _, _ | .dispatch .., _, _
  | .foreign .., _, _ => False
termination_by structural s => s

/-- What becomes of statements. -/
def EmitsAll (plan : Plan) (jump : List Layer → Option Label → Option Label → Prop)
    (layer : Layer → Prop) (layers : List Layer) : List Stmt → Contents → List Stmt → Prop
  | [], c, ts => c = {} ∧ ts = []
  | s :: rest, c, ts => ∃ a b t ts', Emits plan jump layer layers s a t ∧
    EmitsAll plan jump layer layers rest b ts' ∧ c = a.append b ∧ ts = t :: ts'
termination_by structural ss => ss

/-- What becomes of a block. -/
def EmitsBlock (plan : Plan) (jump : List Layer → Option Label → Option Label → Prop)
    (layer : Layer → Prop) (layers : List Layer) : Block → Contents → Block → Prop
  | .absent, _, _ => False
  | .mk o locals ss, c, b' => ∃ ts, EmitsAll plan jump layer layers ss c ts ∧ b' = .mk o locals ts
termination_by structural b => b

/-- What becomes of handlers. -/
def EmitsCatches (plan : Plan) (jump : List Layer → Option Label → Option Label → Prop)
    (layer : Layer → Prop) (layers : List Layer) : List Catch → Contents → List Catch → Prop
  | [], c, ds => c = {} ∧ ds = []
  | .mk o l body :: rest, c, ds => ∃ a b body' ds', EmitsBlock plan jump layer layers body a body' ∧
    EmitsCatches plan jump layer layers rest b ds' ∧ c = a.append b ∧ ds = .mk o l body' :: ds'
termination_by structural cs => cs

end

/-! ## Scopes and layers -/

/-- Each scope has one way out to a target at most. -/
def Single (scopes : List Scope) : Prop := ∀ s ∈ scopes, (s.routes.map Route.target).Nodup

/-- The layers are the frames of the scopes, apart from the outermost one, with all the ways out of
them that the scopes know. -/
def Shows : List Layer → List Scope → Prop
  | [], [s] => s.state = stateRunning
  | x :: layers, s :: outer => s.state = x.frame.state ∧ (∀ r ∈ s.routes, r ∈ x.routes) ∧
    Shows layers outer
  | _, _ => False

section Scopes

variable {owners : List (Option Label × Int)} {scopes scopes' : List Scope} {layers : List Layer}

theorem Shows.of_grown : ∀ {layers : List Layer} {a b : List Scope}, Grown a b → Shows layers b →
    Shows layers a
  | [], [_], [_], ⟨hstate, _⟩, h => hstate.symm.trans h
  | _ :: _, _ :: _, _ :: _, ⟨hstate, _, ⟨more, hmore⟩, houter⟩, ⟨h, hroutes, hrest⟩ => by
    refine ⟨hstate.symm.trans h, fun r hr => hroutes r ?_, hrest.of_grown houter⟩
    rw [hmore]
    exact List.mem_append_left _ hr
  | _, [], _ :: _, h, _ | _, _ :: _, [], h, _ => h.elim
  | [], _ :: _ :: _, [_], ⟨_, _, _, h⟩, _ | [], [_], _ :: _ :: _, ⟨_, _, _, h⟩, _ => h.elim
  | [], _, [], _, h | _ :: _, _, [], _, h | [], _, _ :: _ :: _, _, h => h.elim

/-- The state inside the layers is that of the innermost scope. -/
theorem Shows.state {s : Scope} {outer : List Scope} (h : Shows layers (s :: outer)) :
    s.state = stateInside layers := by
  cases layers with
  | nil =>
    cases outer with
    | nil => exact h
    | cons => exact h.elim
  | cons => exact h.1

/-- What the scopes reach, a label in the layers leads to. -/
theorem Shows.leads {target : Option Label} : ∀ {layers : List Layer} {scopes : List Scope}
    {l : Option Label}, Shows layers scopes → Linked owners scopes →
      Reaches owners scopes target l → ∃ passed, LeadsOut owners target layers l passed
  | layers, s :: outer, l, hshows, hlinked, ⟨_, hs, hreach⟩ => by
    cases hs
    rcases hreach with ⟨rfl, howner⟩ | ⟨r, hr, htarget, rfl⟩
    · rw [hshows.state] at howner
      exact ⟨[], .here howner⟩
    · -- The outermost scope has no ways out, as they could go on to nothing around it.
      have hnext := hlinked.1 r hr
      cases layers with
      | nil =>
        cases outer with
        | nil =>
          obtain ⟨_, hnone, -⟩ := hnext
          cases hnone
        | cons => exact hshows.elim
      | cons x rest =>
        obtain ⟨-, hroutes, hrest⟩ := hshows
        rw [htarget] at hnext
        obtain ⟨passed, hleads⟩ := hrest.leads hlinked.2 hnext
        exact ⟨x.frame :: passed, .proxy (hroutes r hr) htarget hleads⟩
  | _, [], _, _, _, ⟨_, hs, _⟩ => nomatch hs

theorem single_cons {s : Scope} {outer : List Scope} :
    Single (s :: outer) ↔ (s.routes.map Route.target).Nodup ∧ Single outer :=
  List.forall_mem_cons

/-- A proxy is made only if there is none for its target. -/
theorem proxy_single {target : Option Label} {owner : Int} : ∀ {scopes : List Scope} {n : Nat}
    {l : Option Label} {scopes' : List Scope} {m : Nat},
    proxy target owner scopes n = (.ok (l, scopes'), m) → Single scopes → Single scopes'
  | [], n, l, scopes', m, h, hsingle => by
    cases h
    exact hsingle
  | s :: outer, n, l, scopes', m, h, hsingle => by
    rw [proxy] at h
    by_cases hhere : s.state = owner
    · simp only [hhere, if_true] at h
      cases h
      exact hsingle
    · simp only [hhere, if_false] at h
      cases hnone : s.proxy? target with
      | some p =>
        rw [hnone] at h
        cases h
        exact hsingle
      | none =>
        rw [hnone] at h
        obtain ⟨⟨next, outer'⟩, i, hstep, h⟩ := Lower.bind_ok.mp h
        cases h
        obtain ⟨hs, houter⟩ := single_cons.mp hsingle
        refine single_cons.mpr ⟨?_, proxy_single hstep houter⟩
        rw [Scope.proxy?, Option.map_eq_none_iff, List.find?_eq_none] at hnone
        rw [List.map_append, List.nodup_append]
        refine ⟨hs, by simp, fun t ht t' ht' => ?_⟩
        obtain ⟨r, hr, rfl⟩ := List.mem_map.mp ht
        obtain rfl := List.mem_singleton.mp ht'
        exact fun htarget => hnone r hr (beq_iff_eq.mpr htarget)

theorem jump_single {plan : Plan} {o : Origin} {target l : Option Label} {n m : Nat}
    (h : jump plan o target scopes n = (.ok (l, scopes'), m)) (hsingle : Single scopes) :
    Single scopes' := by
  unfold jump at h
  cases hlookup : plan.owners.lookup target with
  | none =>
    rw [hlookup] at h
    cases h
  | some owner =>
    rw [hlookup] at h
    dsimp only at h
    rw [Stateful.bind_apply, Stateful.get_apply] at h
    dsimp only at h
    split at h
    · rw [Stateful.bind_apply, Stateful.lift_apply] at h
      cases hproxy : proxy target owner scopes n with
      | mk result i =>
        rw [hproxy] at h
        cases result with
        | error e => cases h
        | ok pair =>
          obtain ⟨l', scopes₁⟩ := pair
          cases h
          exact proxy_single hproxy hsingle
    · cases h

end Scopes

/-! ## Steps of the conversion -/

/-- The conversion of a part of the frame `st` with the contents `c`, whenever it goes through,
leaves further ways out of the scopes, and what it gives is right in the layers of the scopes that
it leaves, and of all those that these grow to. -/
def Emitting {α : Type} (plan : Plan) (st : Int) (c : Contents) (x : Convert α)
    (right : List Layer → α → Prop) : Prop :=
  ∀ rest routes outer n a scopes' m, Linked plan.owners (⟨st, c.append rest, routes⟩ :: outer) →
    Single (⟨st, c.append rest, routes⟩ :: outer) →
    x (⟨st, c.append rest, routes⟩ :: outer) n = (.ok (a, scopes'), m) →
    ∃ routes' outer', scopes' = ⟨st, rest, routes'⟩ :: outer' ∧
      Grown (⟨st, rest, routes⟩ :: outer) scopes' ∧ Linked plan.owners scopes' ∧ Single scopes' ∧
      ∀ layers, Shows layers scopes' → right layers a

namespace Emitting

variable {α β : Type} {plan : Plan} {st : Int} {c c' : Contents} {x : Convert α}
  {right right' : List Layer → α → Prop}

theorem mono (h : Emitting plan st c x right)
    (hright : ∀ layers a, right layers a → right' layers a) :
    Emitting plan st c x right' := by
  intro rest routes outer n a scopes' m hlinked hsingle hstep
  obtain ⟨routes', outer', hscopes, hgrown, hlinked', hsingle', ha⟩ :=
    h rest routes outer n a scopes' m hlinked hsingle hstep
  exact ⟨routes', outer', hscopes, hgrown, hlinked', hsingle',
    fun layers hshows => hright layers a (ha layers hshows)⟩

protected theorem pure (a : α) : Emitting plan st {} (pure a) fun _ a' => a' = a := by
  intro rest routes outer n a' scopes' m hlinked hsingle hstep
  obtain ⟨rfl, rfl, -⟩ := Stateful.pure_ok.mp hstep
  exact ⟨routes, outer, rfl, .refl _, hlinked, hsingle, fun _ _ => rfl⟩

/-- One part after another. -/
protected theorem bind (h : Emitting plan st c x right) {f : α → Convert β}
    {next : α → List Layer → β → Prop} (hf : ∀ a, Emitting plan st c' (f a) (next a)) :
    Emitting plan st (c.append c') (x >>= f) fun layers b =>
      ∃ a, right layers a ∧ next a layers b := by
  intro rest routes outer n b scopes'' m hlinked hsingle hstep
  have hassoc : (c.append c').append rest = c.append (c'.append rest) := by
    simp [Contents.append]
  rw [hassoc] at hlinked hsingle hstep
  obtain ⟨a, scopes₁, i, hx, hstep⟩ := Stateful.bind_ok.mp hstep
  obtain ⟨routes₁, outer₁, rfl, ⟨-, -, hmore, houter⟩, hlinked₁, hsingle₁, ha⟩ :=
    h (c'.append rest) routes outer n a scopes₁ i hlinked hsingle hx
  obtain ⟨routes₂, outer₂, rfl, hgrown, hlinked₂, hsingle₂, hb⟩ :=
    hf a rest routes₁ outer₁ i b scopes'' m hlinked₁ hsingle₁ hstep
  refine ⟨routes₂, outer₂, rfl, ?_, hlinked₂, hsingle₂, fun layers hshows =>
    ⟨a, ha layers ?_, hb layers hshows⟩⟩
  · exact Grown.trans (b := ⟨st, rest, routes₁⟩ :: outer₁) ⟨rfl, rfl, hmore, houter⟩ hgrown
  · obtain ⟨-, -, hmore', houter'⟩ := hgrown
    exact Shows.of_grown (b := ⟨st, c'.append rest, routes₂⟩ :: outer₂) ⟨rfl, rfl, hmore', houter'⟩
      (by cases layers <;> cases outer₂ <;> exact hshows)

/-- A part that is made into another one. -/
theorem map (h : Emitting plan st c x right) (g : α → β) :
    Emitting plan st c (do
      let a ← x
      return g a) fun layers b => ∃ a, right layers a ∧ b = g a := by
  have hpure := h.bind fun a => Emitting.pure (g a)
  rwa [Contents.append_nil] at hpure

/-- A part that is not converted. -/
theorem of_fail {cause : Report.Cause} {span : Text.Span} :
    Emitting plan st c (Convert.fail cause span) right := by
  intro rest routes outer n a scopes' m _ _ h
  cases h

/-- A jump goes to a label that leads to its target. -/
theorem jump (o : Origin) (target : Option Label) :
    Emitting plan st {} (StateMachine.jump plan o target) fun layers l =>
      ∃ passed, LeadsOut plan.owners target layers l passed := by
  intro rest routes outer n l scopes' m hlinked hsingle hstep
  obtain ⟨-, hrouting⟩ := (jump_converts plan o target hlinked).forward l scopes' m hstep
  obtain ⟨routes', outer', rfl, -, -⟩ := hrouting.grown.exists_cons
  exact ⟨routes', outer', rfl, hrouting.grown, hrouting.linked, jump_single hstep hsingle,
    fun layers hshows => hshows.leads hrouting.linked hrouting.reaches⟩

/-- A suspension goes on in the state of the layers. -/
theorem suspension (o : Origin) (e : Expr) (s : Suspension) :
    Emitting plan st ⟨[s], []⟩ (convertStmt plan (.yieldReturn o e)) fun layers t =>
      t = suspend plan o e s (stateInside layers) := by
  intro rest routes outer n t scopes' m hlinked hsingle hstep
  obtain ⟨hroutes, houter⟩ := single_cons.mp hsingle
  cases hstep
  refine ⟨routes, outer, rfl, .refl _, hlinked, single_cons.mpr ⟨hroutes, houter⟩,
    fun layers hshows => ?_⟩
  exact congrArg (suspend plan o e s) hshows.state

/-- A frame is converted with the scope of its own, whose ways out are all known when it is left. -/
theorem region (o : Origin) {body cleanup : Block} (catches : List Catch)
    (hframe : isFrame body cleanup = true) {f : Frame} {right : List Layer → Block → Prop}
    (h : Emitting plan f.state ⟨f.suspensions, f.children⟩ (convertBlock plan body) right) :
    Emitting plan st ⟨[], [f]⟩ (convertStmt plan (.try o body catches cleanup)) fun layers t =>
      ∃ routes start b' behind, (routes.map Route.target).Nodup ∧ right (⟨f, routes⟩ :: layers) b' ∧
        Behind o.provenance ⟨f, routes⟩ behind ∧
        t = StateMachine.region plan o body.origin f start b'.statements behind := by
  intro rest routes outer n t scopes' m hlinked hsingle hstep
  rw [convertStmt, if_pos hframe] at hstep
  obtain ⟨f', scopes₁, n₁, hnext, hstep⟩ := Stateful.bind_ok.mp hstep
  cases hnext
  obtain ⟨start, scopes₂, n₂, hstart, hstep⟩ := Stateful.bind_ok.mp hstep
  cases hstart
  obtain ⟨u, scopes₃, n₃, henter, hstep⟩ := Stateful.bind_ok.mp hstep
  cases henter
  obtain ⟨b', scopes₄, n₄, hbody, hstep⟩ := Stateful.bind_ok.mp hstep
  have hinside : Linked plan.owners (⟨f.state, {}, []⟩ :: ⟨st, rest, routes⟩ :: outer) :=
    ⟨fun r hr => (nomatch hr), hlinked⟩
  obtain ⟨hroutes, hsingle⟩ := single_cons.mp hsingle
  rw [show (⟨f.suspensions, f.children⟩ : Contents) =
    Contents.append ⟨f.suspensions, f.children⟩ {} from (Contents.append_nil _).symm] at hbody
  obtain ⟨inside, outer₁, rfl, ⟨-, -, -, hgrown⟩, ⟨-, hlinked₁⟩, hsingle₁, hright⟩ :=
    h _ _ _ _ _ _ _ hinside
      (single_cons.mpr ⟨List.nodup_nil, single_cons.mpr ⟨hroutes, hsingle⟩⟩) hbody
  obtain ⟨hinsides, hsingle₁⟩ := single_cons.mp hsingle₁
  obtain ⟨routes', outer', rfl, hmore, houter⟩ := hgrown.exists_cons
  obtain ⟨routes₂, scopes₅, n₅, hleave, hstep⟩ := Stateful.bind_ok.mp hstep
  cases hleave
  obtain ⟨behind, scopes₆, n₆, hways, hstep⟩ := Stateful.bind_ok.mp hstep
  obtain ⟨rfl, rfl, -⟩ := Stateful.pure_ok.mp hstep
  have hbehind : scopes' = ⟨st, rest, routes'⟩ :: outer' ∧
      Behind o.provenance ⟨f, inside⟩ behind := by
    cases inside with
    | nil =>
      cases hways
      exact ⟨rfl, .inl ⟨rfl, rfl⟩⟩
    | cons r rs =>
      cases hways
      exact ⟨rfl, .inr ⟨_, rfl⟩⟩
  obtain ⟨rfl, hbehind⟩ := hbehind
  refine ⟨routes', outer', rfl, ⟨rfl, rfl, hmore, houter⟩, hlinked₁, hsingle₁,
    fun layers hshows => ?_⟩
  exact ⟨inside, _, b', behind, hinsides, hright _ ⟨rfl, fun r hr => hr, hshows⟩, hbehind, rfl⟩

end Emitting

/-! ## Bodies -/

/-- Each jump goes to a label that leads to its target. -/
def Leaving (owners : List (Option Label × Int)) (layers : List Layer) (target l : Option Label) :
    Prop :=
  ∃ passed, LeadsOut owners target layers l passed

/-- The frame has one way out to a target at most. -/
def Layer.Single (x : Layer) : Prop := (x.routes.map Route.target).Nodup

variable {plan : Plan} {owner : TypeDecl}

mutual

theorem convertStmt_emits : ∀ {k : Nat} {s : Stmt} {c : Contents} {st : Int},
    Ready (OfMachine owner) s → Matches owner plan.owners k s c →
    Emitting plan st c (convertStmt plan s) fun layers t =>
      Emits plan (Leaving plan.owners) Layer.Single layers s c t
  | _, .block b, c, st, hs, hmatches => (convertBlock_emits (b := b) hs hmatches).map _
  | k, .list o ss, c, st, hs, hmatches => (@convertStmts_emits k ss c st hs hmatches).map _
  | k, .yieldReturn o e, c, st, hs, hmatches => by
    obtain ⟨resume, rfl⟩ := hmatches
    exact (Emitting.suspension o e _).mono fun layers t ht => ⟨_, rfl, ht⟩
  | _, .yieldBreak o, c, st, _, hmatches => by
    obtain rfl : c = {} := hmatches
    exact ((Emitting.jump o (some plan.exit)).map _).mono fun _ _ h => ⟨rfl, h⟩
  | _, .goto o l, c, st, _, hmatches => by
    obtain rfl : c = {} := hmatches
    exact ((Emitting.jump o l).map _).mono fun _ _ h => ⟨rfl, h⟩
  | _, .conditionalGoto o e whenTrue l, c, st, _, hmatches => by
    obtain rfl : c = {} := hmatches
    exact ((Emitting.jump o l).map _).mono fun _ _ h => ⟨rfl, h⟩
  | _, .label .., c, st, _, hmatches | _, .sequencePoint .., c, st, _, hmatches
  | _, .expression .., c, st, _, hmatches | _, .throw .., c, st, _, hmatches => by
    obtain rfl : c = {} := hmatches
    exact (Emitting.pure _).mono fun _ _ h => ⟨rfl, h⟩
  | k, .try o body catches cleanup, c, st, hs, hmatches => by
    have hframe : isFrame body cleanup = framed body cleanup :=
      isFrame_eq (verifiedBlock_of_ready (fun _ => soundExpr_of_machine) hs.1)
    cases hframed : framed body cleanup with
    | true =>
      simp only [Matches, hframed, if_true] at hmatches
      obtain ⟨state, entry, method, inner, rfl, -, -, hinner⟩ := hmatches
      refine (Emitting.region o catches (hframe.trans hframed)
        (convertBlock_emits hs.1 hinner)).mono fun layers t h => ?_
      obtain ⟨routes, start, b', behind, hsingle, hbody, hbehind, rfl⟩ := h
      simp only [Emits, hframed, if_true]
      exact ⟨_, routes, start, b', behind, rfl, hsingle, hbody, hbehind, rfl⟩
    | false =>
      simp only [Matches, hframed, Bool.false_eq_true, if_false] at hmatches
      obtain ⟨rfl, hmatches, hmatches', hmatches''⟩ := hmatches
      have hcleanup : Emitting plan st {} (convertBlock plan cleanup) fun layers cleanup' =>
          cleanup = .absent ∧ cleanup' = .absent ∨
            EmitsBlock plan (Leaving plan.owners) Layer.Single layers cleanup {} cleanup' := by
        rcases hs.2.2.1 with rfl | hready
        · exact (Emitting.pure _).mono fun _ _ h => .inl ⟨rfl, h⟩
        · exact (convertBlock_emits hready hmatches'').mono fun _ _ h => .inr h
      rw [convertStmt, hframe, hframed]
      refine ((convertCatches_emits hs.2.1 hmatches').bind fun catches' =>
        hcleanup.bind fun cleanup' => (convertBlock_emits hs.1 hmatches).map _).mono ?_
      rintro layers t ⟨catches', hcatches', cleanup', hcleanup', body', hbody', rfl⟩
      simp only [Emits, hframed, Bool.false_eq_true, if_false]
      exact ⟨trivial, body', catches', cleanup', hbody', hcatches', hcleanup', rfl⟩
  | _, .return .., _, _, _, _ => .of_fail
  | _, .absent, _, _, hs, _ | _, .noOp .., _, _, hs, _ | _, .localDeclaration .., _, _, hs, _
  | _, .if .., _, _, hs, _ | _, .while .., _, _, hs, _ | _, .break .., _, _, hs, _
  | _, .continue .., _, _, hs, _ | _, .dispatch .., _, _, hs, _ | _, .foreign .., _, _, hs, _ =>
    hs.elim

theorem convertStmts_emits : ∀ {k : Nat} {ss : List Stmt} {c : Contents} {st : Int},
    ReadyAll (OfMachine owner) ss → MatchesAll owner plan.owners k ss c →
    Emitting plan st c (convertStmts plan ss) fun layers ts =>
      EmitsAll plan (Leaving plan.owners) Layer.Single layers ss c ts
  | _, [], _, _, _, rfl => (Emitting.pure _).mono fun _ _ h => ⟨rfl, h⟩
  | _, _ :: _, _, _, hss, ⟨a, b, ha, hb, rfl⟩ =>
    ((convertStmt_emits hss.1 ha).bind fun _ => (convertStmts_emits hss.2 hb).map _).mono
      fun _ _ ⟨t, ht, ts, hts, heq⟩ => ⟨a, b, t, ts, ht, hts, rfl, heq⟩

/-- The conversion makes the jumps of a block go to labels that lead to their targets, with one
proxy for each target in each frame. -/
theorem convertBlock_emits : ∀ {k : Nat} {b : Block} {c : Contents} {st : Int},
    ReadyBlock (OfMachine owner) b → MatchesBlock owner plan.owners k b c →
    Emitting plan st c (convertBlock plan b) fun layers b' =>
      EmitsBlock plan (Leaving plan.owners) Layer.Single layers b c b'
  | _, .absent, _, _, hb, _ => hb.elim
  | k, .mk _ _ ss, c, st, hb, hmatches => (@convertStmts_emits k ss c st hb.2 hmatches).map _

theorem convertCatches_emits : ∀ {k : Nat} {cs : List Catch} {c : Contents} {st : Int},
    ReadyCatches (OfMachine owner) cs → MatchesCatches owner plan.owners k cs c →
    Emitting plan st c (convertCatches plan cs) fun layers ds =>
      EmitsCatches plan (Leaving plan.owners) Layer.Single layers cs c ds
  | _, [], _, _, _, rfl => (Emitting.pure _).mono fun _ _ h => ⟨rfl, h⟩
  | _, .mk .. :: _, _, _, hcs, ⟨a, b, ha, hb, rfl⟩ =>
    ((convertBlock_emits hcs.1 ha).bind fun _ => (convertCatches_emits hcs.2 hb).map _).mono
      fun _ _ ⟨body', hbody', ds, hds, heq⟩ => ⟨a, b, body', ds, hbody', hds, rfl, heq⟩

end

end Resumable.StateMachine
