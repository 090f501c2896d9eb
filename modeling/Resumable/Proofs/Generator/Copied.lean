import Resumable.Proofs.Generator.Copies
import Resumable.Proofs.Generator.Quiet
import Resumable.Proofs.Lowering.Variables

/-!
# What becomes of a lowered body

Hoisting, the analysis and the conversion put in the place of a lowered body what a state machine has
in the place of a generator (`copies_block`), if its jumps heed its tries and none inside of an
extracted try goes to a label directly before it (`restartsBlock`).
-/

set_option autoImplicit false

namespace Resumable.StateMachine

open Resumable.Symbol Resumable.Tree Resumable.Source Resumable.Lowering
open Resumable.Machine hiding Region Outcome Handler

/-! ## Labels directly before extracted tries -/

theorem restarts_try {near : List (Option Label)} {o : Origin} {body cleanup : Block}
    {catches : List Catch} (h : restartsStmt near (.try o body catches cleanup) = false) :
    (if framed body cleanup then (∀ l ∈ targetsBlock body, l ∉ near) ∧ restartsBlock [] body = false
      else restartsBlock near body = false) ∧
    restartsCatches catches = false ∧ restartsBlock [] cleanup = false := by
  simp only [restartsStmt, Bool.or_eq_false_iff] at h
  refine ⟨?_, h.2⟩
  have hbody := h.1
  split at hbody
  · obtain ⟨hany, hrest⟩ := Bool.or_eq_false_iff.mp hbody
    rw [if_pos ‹_›]
    exact ⟨fun l hl hnear => by
      simpa [hnear] using List.any_eq_false.mp hany l hl, hrest⟩
  · rwa [if_neg ‹_›]

/-! ## What is in a part -/

/-- What is in a part of a lowered body: its exits, the targets of its jumps, its labels and those of
them that stand outside of its frames, the locals that it declares, and the references to locals that
have no field. -/
structure Inventory where
  exits : List Kind
  targets : List (Option Label)
  labels : List (Option Label)
  own : List (Option Label)
  declared : List (Local × Bool)
  homeless : List Variable

namespace Inventory

variable (last : Hoisted)

/-- What is in a statement. -/
def ofStmt (s : Stmt) : Inventory :=
  ⟨exitsStmt s, targetsStmt s, labelsStmt s, ownStmt s, declarations.stmt s,
    (Lowering.homeless last).stmt s⟩

/-- What is in statements. -/
def ofStmts (ss : List Stmt) : Inventory :=
  ⟨exitsStmts ss, targetsStmts ss, labelsStmts ss, ownStmts ss, declarations.stmts ss,
    (Lowering.homeless last).stmts ss⟩

/-- What is in a block. -/
def ofBlock (b : Block) : Inventory :=
  ⟨exitsBlock b, targetsBlock b, labelsBlock b, ownBlock b, declarations.block b,
    (Lowering.homeless last).block b⟩

/-- What is in handlers. -/
def ofCatches (cs : List Catch) : Inventory :=
  ⟨exitsCatches cs, targetsCatches cs, labelsCatches cs, ownCatches cs, declarations.catches cs,
    (Lowering.homeless last).catches cs⟩

/-- All that is in the one is in the other one. -/
structure Within (x y : Inventory) : Prop where
  exits : x.exits ⊆ y.exits
  targets : x.targets ⊆ y.targets
  labels : x.labels ⊆ y.labels
  own : x.own ⊆ y.own
  declared : x.declared ⊆ y.declared
  homeless : x.homeless ⊆ y.homeless

variable {last : Hoisted}

theorem Within.head (s : Stmt) (rest : List Stmt) :
    Within (ofStmt last s) (ofStmts last (s :: rest)) :=
  ⟨List.subset_append_left .., List.subset_append_left .., List.subset_append_left ..,
    List.subset_append_left .., List.subset_append_left .., List.subset_append_left ..⟩

theorem Within.tail (s : Stmt) (rest : List Stmt) :
    Within (ofStmts last rest) (ofStmts last (s :: rest)) :=
  ⟨List.subset_append_right .., List.subset_append_right .., List.subset_append_right ..,
    List.subset_append_right .., List.subset_append_right .., List.subset_append_right ..⟩

/-- Only the handlers that come first hide a variable. -/
theorem Within.catches (o : Origin) (v : Option Local) (body : Block) (rest : List Catch) :
    Within (ofCatches last rest) (ofCatches last (.mk o v body :: rest)) :=
  ⟨List.subset_append_right .., List.subset_append_right .., List.subset_append_right ..,
    List.subset_append_right .., List.subset_append_right .., List.subset_append_right ..⟩

/-- The statements of a block. -/
theorem Within.block (o : Origin) (ls : List Local) (ss : List Stmt) :
    Within (ofStmts last ss) (ofBlock last (.mk o ls ss)) := by
  refine ⟨fun _ h => h, fun _ h => h, fun _ h => h, fun _ h => h, ?_, ?_⟩
  · rw [ofBlock, Tally.block, Tally.braces_eq_nil fun _ => rfl]
    exact List.subset_append_right ..
  · have hblock : (Lowering.homeless last).block (.mk o ls ss) = (Lowering.homeless last).stmts ss := by
      rw [Tally.block, Tally.braces_eq_nil fun _ => rfl]
      rfl
    rw [ofBlock, hblock]
    exact fun _ h => h

/-- The try block of a try that is not extracted. -/
theorem Within.body {body cleanup : Block} (o : Origin) (catches : List Catch)
    (hframed : ¬ framed body cleanup = true) :
    Within (ofBlock last body) (ofStmt last (.try o body catches cleanup)) := by
  refine ⟨fun _ h => ?_, fun _ h => ?_, fun _ h => ?_, fun _ h => ?_, fun _ h => ?_, fun _ h => ?_⟩
  case refine_4 =>
    rw [ofStmt, ownStmt, if_neg hframed]
    exact List.mem_append_left _ (List.mem_append_left _ h)
  case refine_5 | refine_6 => exact List.mem_append_left _ h
  all_goals exact List.mem_append_left _ (List.mem_append_left _ h)

/-- Its handlers. -/
theorem Within.handlers {body cleanup : Block} (o : Origin) (catches : List Catch)
    (hframed : ¬ framed body cleanup = true) :
    Within (ofCatches last catches) (ofStmt last (.try o body catches cleanup)) := by
  refine ⟨fun _ h => ?_, fun _ h => ?_, fun _ h => ?_, fun _ h => ?_, fun _ h => ?_, fun _ h => ?_⟩
  case refine_4 =>
    rw [ofStmt, ownStmt, if_neg hframed]
    exact List.mem_append_left _ (List.mem_append_right _ h)
  case refine_5 | refine_6 => exact List.mem_append_right _ (List.mem_append_left _ h)
  all_goals exact List.mem_append_left _ (List.mem_append_right _ h)

end Inventory

/-! ## States of frames -/

/-- The states inside and outside of the layers. -/
def statesAround (layers : List Layer) : List Int :=
  layers.map (fun x => x.frame.state) ++ [stateRunning]

theorem stateInside_mem (layers : List Layer) : stateInside layers ∈ statesAround layers := by
  cases layers <;> simp [statesAround, stateInside]

section Leaving

variable {owners : List (Option Label × Int)} {layers : List Layer} {l k : Option Label}

/-- A label that leads somewhere stands in a frame around. -/
theorem Leaving.owner (h : Leaving owners layers l k) :
    ∃ s ∈ statesAround layers, owners.lookup l = some s := by
  obtain ⟨passed, h⟩ := h
  induction h with
  | here howner => exact ⟨_, stateInside_mem _, howner⟩
  | proxy _ _ _ ih =>
    obtain ⟨s, hs, howner⟩ := ih
    exact ⟨s, List.mem_cons_of_mem _ hs, howner⟩

/-- Outside of every frame a label leads to itself. -/
theorem Leaving.eq (h : Leaving owners [] l k) : k = l := by
  obtain ⟨passed, h⟩ := h
  cases h
  rfl

/-- In a frame a label leads to itself, if it stands there, or goes by way of a proxy. -/
theorem Leaving.cases {x : Layer} (h : Leaving owners (x :: layers) l k) :
    k = l ∧ owners.lookup l = some x.frame.state ∨
      ∃ r ∈ x.routes, k = some r.proxy ∧ Leaving owners layers l r.next := by
  obtain ⟨passed, h⟩ := h
  cases h with
  | here howner => exact .inl ⟨rfl, howner⟩
  | proxy hroute _ hnext => exact .inr ⟨_, hroute, rfl, _, hnext⟩

/-- A label that stands in the innermost frame leads to itself. -/
theorem Leaving.direct {x : Layer} (h : Leaving owners (x :: layers) l k)
    (howner : owners.lookup l = some x.frame.state) (hx : x.frame.state ∉ statesAround layers) :
    k = l := by
  rcases h.cases with ⟨heq, -⟩ | ⟨r, -, -, hnext⟩
  · exact heq
  · obtain ⟨s, hs, howner'⟩ := hnext.owner
    rw [howner, Option.some.injEq] at howner'
    exact absurd (howner' ▸ hs) hx

end Leaving

/-- The frames of a part have the finallys, in order, each begins with setting the state around it,
and their states are different from each other and from those around. -/
structure Framing (owner : TypeDecl) (field : Field) (st : Int) (around : List Int)
    (cleanups : List Block) (c : Contents) : Prop where
  extracted : List.Forall₂ (Extracted owner field) cleanups (Frame.preorderAll c.children)
  rooted : Frame.RootedAll field st c.children
  nodup : (around ++ c.states).Nodup

namespace Framing

variable {owner : TypeDecl} {field : Field} {st : Int} {around : List Int} {xs ys : List Block}
  {a b : Contents}

theorem nil (h : around.Nodup) : Framing owner field st around [] {} :=
  ⟨.nil, trivial, by simpa [Contents.states, Frame.liveStatesAll] using h⟩

theorem parts (h : Framing owner field st around (xs ++ ys) (a.append b))
    (hlength : (Frame.preorderAll a.children).length = xs.length) :
    Framing owner field st around xs a ∧ Framing owner field st around ys b := by
  obtain ⟨hextracted, hrooted, hnodup⟩ := h
  rw [Contents.append, Frame.preorderAll_append] at hextracted
  rw [Contents.append, Frame.rootedAll_append] at hrooted
  have hfirst := List.forall₂_take_append _ _ _ hextracted
  have hlast := List.forall₂_drop_append _ _ _ hextracted
  rw [hlength, List.take_left] at hfirst
  rw [hlength, List.drop_left] at hlast
  have hperm := (Contents.states_append a b).append_left around
  rw [hperm.nodup_iff, ← List.append_assoc] at hnodup
  refine ⟨⟨hfirst, hrooted.1, (List.nodup_append.mp hnodup).1⟩, ⟨hlast, hrooted.2, ?_⟩⟩
  exact hnodup.sublist ((List.sublist_append_left around a.states).append_right b.states)

/-- The first frame and what is inside of it. -/
theorem inside {f : Frame} {cleanup : Block}
    (h : Framing owner field st around (cleanup :: xs) ⟨[], [f]⟩) :
    f.state ∉ around ∧
    Framing owner field f.state (f.state :: around) xs ⟨f.suspensions, f.children⟩ ∧
      f.cleanup.body = .mk cleanup.origin []
        (assignState cleanup.origin.provenance field st :: cleanup.statements) := by
  obtain ⟨state, entry, method, suspensions, children⟩ := f
  obtain ⟨hextracted, ⟨⟨⟨o, rest, hbody⟩, hchildren⟩, -⟩, hnodup⟩ := h
  simp only [Frame.preorderAll, Frame.preorder, List.append_nil, List.forall₂_cons] at hextracted
  obtain ⟨⟨name, parent, heq⟩, hextracted⟩ := hextracted
  have hperm : (around ++ Contents.states ⟨[], [.mk state entry method suspensions children]⟩).Perm
      (state :: (around ++ Contents.states ⟨suspensions, children⟩)) := by
    simp only [Contents.states, Frame.liveStatesAll, List.map_nil, List.nil_append, List.append_nil,
      Frame.liveStates]
    exact List.perm_middle
  rw [hperm.nodup_iff] at hnodup
  refine ⟨fun hmem => (List.nodup_cons.mp hnodup).1 (List.mem_append_left _ hmem),
    ⟨hextracted, hchildren, hnodup⟩, ?_⟩
  simp only [Frame.cleanup] at heq hbody ⊢
  rw [heq] at hbody ⊢
  simp only [Block.mk.injEq, List.cons.injEq, true_and] at hbody ⊢
  obtain ⟨rfl, hfirst, -⟩ := hbody
  exact ⟨hfirst, trivial⟩

end Framing

/-! ## What becomes of each part -/

/-- A part of a lowered body, in the frame `st` inside of the layers, with the labels in `near` directly
before it and frames with the states in it: its jumps to visible labels may go where they are made
to lead, and no label inside of its frames is visible; handlers' variables have no fields, nor have
the locals in `strays`, which are the handlers' around it. -/
structure Steady (H : House) (plan : Plan) (owners : List (Option Label × Int))
    (layers : List Layer) (visible : Option Label → Prop) (J : Jumps) (strays : List Local) (st : Int)
    (near : List (Option Label)) (states : List Int) (x : Inventory) : Prop where
  unreturned : .return ∉ x.exits
  quiet : strays = [] ∨ .yieldReturn ∉ x.exits
  state : .yieldReturn ∈ x.exits → st = stateInside layers
  ends : .yieldBreak ∈ x.exits → visible (some plan.exit)
  exit : some plan.exit ∉ near ∧ some plan.exit ∉ x.labels
  jumps : ∀ l, l ∈ x.targets ∨ l = some plan.exit ∧ .yieldBreak ∈ x.exits → visible l →
    ∀ k, Leaving owners layers l k → J l k
  direct : ∀ l ∈ x.own, ∀ k, Leaving owners layers l k → k = l
  apart : ∀ l, visible l → ∀ s ∈ states, owners.lookup l ≠ some s
  handlers : ∀ l, (l, false) ∈ x.declared → H.last.locals.lookup l = none
  strays : ∀ v ∈ x.homeless, ∃ l ∈ strays, v = .ofLocal l

namespace Steady

variable {H : House} {plan : Plan} {owners : List (Option Label × Int)} {layers : List Layer}
  {visible : Option Label → Prop} {J : Jumps} {strays : List Local} {st : Int}
  {near near' : List (Option Label)} {states states' : List Int} {x y : Inventory}

/-- A part of the part. -/
theorem part (h : Steady H plan owners layers visible J strays st near states x) (hy : y.Within x)
    (hstates : states' ⊆ states) (hnear : ∀ l ∈ near', l ∈ near ∨ l ∈ x.labels) :
    Steady H plan owners layers visible J strays st near' states' y where
  unreturned hl := h.unreturned (hy.exits hl)
  quiet := h.quiet.imp_right fun h hl => h (hy.exits hl)
  state hl := h.state (hy.exits hl)
  ends hl := h.ends (hy.exits hl)
  exit := ⟨fun hl => (hnear _ hl).elim h.exit.1 h.exit.2, fun hl => h.exit.2 (hy.labels hl)⟩
  jumps l hl := h.jumps l (hl.imp (fun hl => hy.targets hl) fun hl => ⟨hl.1, hy.exits hl.2⟩)
  direct l hl := h.direct l (hy.own hl)
  apart l hl s hs := h.apart l hl s (hstates hs)
  handlers l hl := h.handlers l (hy.declared hl)
  strays v hv := h.strays v (hy.homeless hv)

/-- A handler, inside of which its own labels are visible and its variable is a local without a
field. -/
theorem handler {o : Origin} {v : Option Local} {body : Block} {rest : List Catch}
    (h : Steady H plan owners layers visible J strays st near states
      (.ofCatches H.last (.mk o v body :: rest))) (hquiet : .yieldReturn ∉ exitsBlock body) :
    Steady H plan owners layers (fun l => visible l ∨ l ∈ looseBlock body)
      (insideHandler J (looseBlock body)) (v.toList ++ strays) st [] [] (.ofBlock H.last body) where
  unreturned hl := h.unreturned (List.mem_append_left _ hl)
  quiet := .inr hquiet
  state hl := absurd hl hquiet
  ends hl := .inl (h.ends (List.mem_append_left _ hl))
  exit := ⟨List.not_mem_nil, fun hl => h.exit.2 (List.mem_append_left _ hl)⟩
  jumps l hl hvisible k hk := by
    rcases hvisible with hvisible | hloose
    · refine .inl (h.jumps l (hl.imp (fun hl => ?_) fun hl => ⟨hl.1, ?_⟩) hvisible k hk)
      · exact List.mem_append_left _ hl
      · exact List.mem_append_left _ hl.2
    · exact .inr ⟨h.direct l (List.mem_append_left _ (loose_ownBlock hloose)) k hk, hloose⟩
  direct l hl := h.direct l (List.mem_append_left _ hl)
  apart _ _ _ hs := nomatch hs
  handlers l hl := h.handlers l (List.mem_append_left _ (List.mem_append_right _ hl))
  strays w hw := by
    by_cases hv : w ∈ v.map Variable.ofLocal
    · obtain ⟨l, hl, rfl⟩ : ∃ l, l ∈ v ∧ Variable.ofLocal l = w := by simpa using hv
      exact ⟨l, List.mem_append_left _ (Option.mem_toList.mpr hl), rfl⟩
    · obtain ⟨l, hl, rfl⟩ := h.strays w (List.mem_append_left _ (List.mem_filter.mpr ⟨hw, by
        simpa using hv⟩))
      exact ⟨l, List.mem_append_right _ hl, rfl⟩

/-- A finally, inside of which nothing is visible but its own labels; its jumps stay there, whether
it is in the layers or in a method of its own. -/
theorem cleanup {b : Block} (h : Steady H plan owners layers visible J strays st near states x)
    (hexits : exitsBlock b ⊆ x.exits) (hlabels : labelsBlock b ⊆ x.labels)
    (hdeclared : declarations.block b ⊆ x.declared)
    (hhomeless : (homeless H.last).block b ⊆ x.homeless) (hquiet : .yieldReturn ∉ exitsBlock b)
    (hends : .yieldBreak ∉ exitsBlock b) {owners' : List (Option Label × Int)}
    {layers' : List Layer} (hdirect : ∀ l ∈ ownBlock b, ∀ k, Leaving owners' layers' l k → k = l) :
    Steady H plan owners' layers' (· ∈ looseBlock b) (toItself (looseBlock b)) strays st [] []
      (.ofBlock H.last b) where
  unreturned hl := h.unreturned (hexits hl)
  quiet := .inr hquiet
  state hl := absurd hl hquiet
  ends hl := absurd hl hends
  exit := ⟨List.not_mem_nil, fun hl => h.exit.2 (hlabels hl)⟩
  jumps l _ hl k hk := ⟨hdirect l (loose_ownBlock hl) k hk, hl⟩
  direct := hdirect
  apart _ _ _ hs := nomatch hs
  handlers l hl := h.handlers l (hdeclared hl)
  strays v hv := h.strays v (hhomeless hv)

/-- The try block of an extracted try, inside of which its own labels are visible. -/
theorem frame (routes : List Route) {o : Origin} {body cleanup : Block} {f : Frame}
    (h : Steady H plan owners layers visible J [] st near (Contents.states ⟨[], [f]⟩)
      (.ofStmt H.last (.try o body [] cleanup)))
    (hrestarts : ∀ l ∈ targetsBlock body, l ∉ near)
    (howners : ∀ l, owners.lookup l = some f.state ↔ l ∈ ownBlock body)
    (haround : f.state ∉ statesAround layers)
    (hinside : ∀ s ∈ Contents.states ⟨f.suspensions, f.children⟩, s ≠ f.state) :
    Steady H plan owners (⟨f, routes⟩ :: layers) (fun l => visible l ∨ l ∈ looseBlock body)
      (insideFrame J near (looseBlock body) routes) [] f.state []
      (Contents.states ⟨f.suspensions, f.children⟩) (.ofBlock H.last body) := by
  have hstates : ∀ s ∈ f.state :: Contents.states ⟨f.suspensions, f.children⟩,
      s ∈ Contents.states ⟨[], [f]⟩ := by
    obtain ⟨state, entry, method, suspensions, children⟩ := f
    simp [Contents.states, Frame.liveStatesAll, Frame.liveStates, Frame.state, Frame.suspensions,
      Frame.children]
  have hdirect : ∀ l ∈ ownBlock body, ∀ k, Leaving owners (⟨f, routes⟩ :: layers) l k → k = l :=
    fun l hl k hk => hk.direct ((howners l).mpr hl) haround
  exact {
    unreturned := fun hl => h.unreturned (List.mem_append_left _ (List.mem_append_left _ hl))
    quiet := .inl rfl
    state := fun _ => rfl
    ends := fun hl => .inl (h.ends (List.mem_append_left _ (List.mem_append_left _ hl)))
    exit := ⟨List.not_mem_nil, fun hl =>
      h.exit.2 (List.mem_append_left _ (List.mem_append_left _ hl))⟩
    jumps := fun l hl hvisible k hk => by
      have hnear : l ∉ near := hl.elim (hrestarts l) fun hl => hl.1 ▸ h.exit.1
      refine ⟨?_, hnear⟩
      rcases hvisible with hvisible | hloose
      · rcases hk.cases with ⟨rfl, howner⟩ | ⟨r, hr, rfl, hnext⟩
        · exact absurd howner (h.apart _ hvisible _ (hstates _ List.mem_cons_self))
        · refine .inr ⟨r, hr, rfl, h.jumps l (hl.imp (fun hl => ?_) fun hl => ⟨hl.1, ?_⟩) hvisible _
            hnext⟩
          · exact List.mem_append_left _ (List.mem_append_left _ hl)
          · exact List.mem_append_left _ (List.mem_append_left _ hl.2)
      · exact .inl ⟨hdirect l (loose_ownBlock hloose) k hk, hloose⟩
    direct := hdirect
    apart := fun l hl s hs => by
      rcases hl with hvisible | hloose
      · exact h.apart l hvisible s (hstates s (List.mem_cons_of_mem _ hs))
      · rw [(howners l).mpr (loose_ownBlock hloose), ne_eq, Option.some.injEq]
        exact fun heq => hinside s hs heq.symm
    handlers := fun l hl => h.handlers l (List.mem_append_left _ hl)
    strays := fun v hv => h.strays v (List.mem_append_left _ hv) }

end Steady

theorem framed_of_moved {R : Hoisted → Expr → Expr → Prop} {body body' cleanup cleanup' : Block}
    {h h₁ h₂ h' : Hoisted} (hbody : MovedBlock R h body body' h')
    (hcleanup : MovedBlock R h₁ cleanup cleanup' h₂) : framed body' cleanup' = framed body cleanup :=
  framed_congr (movedBlock_tries hbody).exits hcleanup.absent_iff

theorem MovedBlock.origin {R : Hoisted → Expr → Expr → Prop} {b b' : Block} {h h' : Hoisted}
    (hmoved : MovedBlock R h b b' h') : b'.origin = b.origin := by
  cases b with
  | absent => rw [hmoved.1]
  | mk o ls ss =>
    obtain ⟨ts, h₁, -, -, rfl⟩ := hmoved
    rfl

/-- All labels of a list belong to the frame. -/
theorem lookup_ownedBy {ls : List (Option Label)} {l : Option Label} (hl : l ∈ ls) (s : Int) :
    (ls.map fun l => (l, s)).lookup l = some s := by
  induction ls with
  | nil => cases hl
  | cons x rest ih =>
    rw [List.map_cons, List.lookup_cons]
    cases hx : l == x with
    | true => rfl
    | false => exact ih ((List.mem_cons.mp hl).resolve_left fun h => by simp [h] at hx)

section Copied

variable {H : House} {plan : Plan} {owner : TypeDecl} {Q : Expr → Prop} {layer : Layer → Prop}
  {markers : Bool}

section Goals

variable (H plan owner Q layer markers)

/-- What becomes of the statement is what the machine has in its place. -/
def CopiedStmt (s : Stmt) : Prop :=
  ∀ ⦃s' t : Stmt⦄ ⦃h h' : Hoisted⦄ ⦃owners : List (Option Label × Int)⦄ ⦃layers : List Layer⦄
    ⦃k : Nat⦄ ⦃c : Contents⦄ ⦃visible : Option Label → Prop⦄ ⦃J : Jumps⦄ ⦃strays : List Local⦄
    ⦃st : Int⦄ ⦃near : List (Option Label)⦄,
    Moved (HoistsBy H.last H.params) h s s' h' → Ready Q s' →
    Emits plan (Leaving owners) layer layers s' c t → Matches owner owners k s' c →
    Framing owner plan.state st (statesAround layers) (cleanupsStmt s') c →
    Guarded s → Settled markers false s → Heeds visible s → restartsStmt near s = false →
    Steady H plan owners layers visible J strays st near c.states (.ofStmt H.last s) →
    Copies H plan plan.exit s J strays st k near c t

/-- What becomes of the statements is what it has in their place. -/
def CopiedStmts (ss : List Stmt) : Prop :=
  ∀ ⦃ss' ts : List Stmt⦄ ⦃h h' : Hoisted⦄ ⦃owners : List (Option Label × Int)⦄ ⦃layers : List Layer⦄
    ⦃k : Nat⦄ ⦃c : Contents⦄ ⦃visible : Option Label → Prop⦄ ⦃J : Jumps⦄ ⦃strays : List Local⦄
    ⦃st : Int⦄ ⦃near : List (Option Label)⦄,
    MovedAll (HoistsBy H.last H.params) h ss ss' h' → ReadyAll Q ss' →
    EmitsAll plan (Leaving owners) layer layers ss' c ts → MatchesAll owner owners k ss' c →
    Framing owner plan.state st (statesAround layers) (cleanupsStmts ss') c →
    GuardedAll ss → SettledAll markers false ss → HeedsAll visible ss →
    restartsStmts near ss = false →
    Steady H plan owners layers visible J strays st near c.states (.ofStmts H.last ss) →
    CopiesAll H plan plan.exit ss J strays st k near c ts

/-- What becomes of the block is what it has in its place. -/
def CopiedBlock (b : Block) : Prop :=
  ∀ ⦃b' b'' : Block⦄ ⦃h h' : Hoisted⦄ ⦃owners : List (Option Label × Int)⦄ ⦃layers : List Layer⦄
    ⦃k : Nat⦄ ⦃c : Contents⦄ ⦃visible : Option Label → Prop⦄ ⦃J : Jumps⦄ ⦃strays : List Local⦄
    ⦃st : Int⦄ ⦃near : List (Option Label)⦄,
    MovedBlock (HoistsBy H.last H.params) h b b' h' → ReadyBlock Q b' →
    EmitsBlock plan (Leaving owners) layer layers b' c b'' → MatchesBlock owner owners k b' c →
    Framing owner plan.state st (statesAround layers) (cleanupsBlock b') c →
    GuardedBlock b → SettledBlock markers false b → HeedsBlock visible b →
    restartsBlock near b = false →
    Steady H plan owners layers visible J strays st near c.states (.ofBlock H.last b) →
    CopiesBlock H plan plan.exit b J strays st k near c b''

/-- What becomes of the handlers is what it has in their place. -/
def CopiedCatches (cs : List Catch) : Prop :=
  ∀ ⦃cs' ds : List Catch⦄ ⦃h h' : Hoisted⦄ ⦃owners : List (Option Label × Int)⦄
    ⦃layers : List Layer⦄ ⦃k : Nat⦄ ⦃visible : Option Label → Prop⦄ ⦃J : Jumps⦄
    ⦃strays : List Local⦄ ⦃st : Int⦄ ⦃near : List (Option Label)⦄,
    MovedCatches (HoistsBy H.last H.params) h cs cs' h' → ReadyCatches Q cs' →
    EmitsCatches plan (Leaving owners) layer layers cs' {} ds →
    MatchesCatches owner owners k cs' {} → (statesAround layers).Nodup →
    .yieldReturn ∉ exitsCatches cs → GuardedCatches cs → SettledCatches markers false cs →
    HeedsCatches visible cs → restartsCatches cs = false →
    Steady H plan owners layers visible J strays st near [] (.ofCatches H.last cs) →
    CopiesCatches H plan plan.exit cs J strays st k ds

end Goals

section Try

variable {o : Origin} {body body' cleanup cleanup' : Block} {catches catches' : List Catch} {t : Stmt}
  {h h₁ h₂ h' : Hoisted} {owners : List (Option Label × Int)} {layers : List Layer} {k : Nat}
  {c : Contents} {visible : Option Label → Prop} {J : Jumps} {strays : List Local} {st : Int}
  {near : List (Option Label)}

/-- An extracted try becomes a frame.  Its finally becomes a method: the jumps in it stay in it, so that
it is converted to itself. -/
theorem CopiedBlock.extracted (hbodies : CopiedBlock H plan owner Q layer markers body)
    (hcleanups : CopiedBlock H plan owner Q layer markers cleanup)
    (hframed : framed body cleanup = true)
    (hcleanup : MovedBlock (HoistsBy H.last H.params) h cleanup cleanup' h₁)
    (hbody : MovedBlock (HoistsBy H.last H.params) h₂ body body' h')
    (hready : Ready Q (.try o body' catches' cleanup'))
    (hemits : Emits plan (Leaving owners) layer layers (.try o body' catches' cleanup') c t)
    (hmatches : Matches owner owners k (.try o body' catches' cleanup') c)
    (hframing : Framing owner plan.state st (statesAround layers)
      (cleanupsStmt (.try o body' catches' cleanup')) c)
    (hguarded : Guarded (.try o body catches cleanup))
    (hsettled : Settled markers false (.try o body catches cleanup))
    (hheeds : Heeds visible (.try o body catches cleanup))
    (hrestarts : restartsStmt near (.try o body catches cleanup) = false)
    (hsteady : Steady H plan owners layers visible J strays st near c.states
      (.ofStmt H.last (.try o body catches cleanup))) :
    Copies H plan plan.exit (.try o body catches cleanup) J strays st k near c t := by
  obtain ⟨hbodyReady, -, hcleanupReady, -⟩ := hready
  obtain ⟨⟨-, hcleanupQuiet, hguard⟩, hbodyGuarded, -, hcleanupGuarded⟩ := hguarded
  obtain ⟨hbodySettled, -, hcleanupSettled, -⟩ := hsettled
  obtain ⟨hbodyHeeds, -, hcleanupHeeds, hends⟩ := hheeds
  obtain ⟨hbodyApart, -, hcleanupApart⟩ := restarts_try hrestarts
  have hsame := framed_of_moved hbody hcleanup
  rw [Emits, if_pos (hsame.trans hframed)] at hemits
  rw [Matches, if_pos (hsame.trans hframed)] at hmatches
  rw [cleanupsStmt, if_pos (hsame.trans hframed)] at hframing
  rw [if_pos hframed] at hbodyHeeds hbodyApart
  rw [Copies, if_pos hframed]
  obtain ⟨hpresent, hyields⟩ := framed_iff.mp hframed
  obtain rfl := hsteady.quiet.resolve_right fun h =>
    h (List.mem_append_left _ (List.mem_append_left _ hyields))
  obtain rfl : catches = [] := Classical.byContradiction fun hne => hguard hne hyields
  obtain ⟨f, routes, start, b', ways, rfl, -, hb', hways, rfl⟩ := hemits
  obtain ⟨state, entry, method, inner, hf, -, howners, hmatches⟩ := hmatches
  obtain ⟨rfl⟩ : f = .mk state entry method inner.suspensions inner.children := by simpa using hf
  obtain ⟨haround, hinside, hcode⟩ := hframing.inside
  rw [(movedBlock_places hbody).own] at howners
  have hnodup := (List.nodup_append.mp hinside.nodup).2.2
  have hbody' := hbodies hbody hbodyReady hb' hmatches hinside hbodyGuarded hbodySettled
    hbodyHeeds hbodyApart.2 (hsteady.frame routes hbodyApart.1 howners haround
      fun s hs heq => hnodup _ List.mem_cons_self s hs heq.symm)
  have hstill : Still (exitsBlock cleanup') := by
    rw [(movedBlock_tries hcleanup).exits]
    exact ⟨fun hl => hsteady.unreturned (List.mem_append_right _ hl), hcleanupQuiet, hends⟩
  have hcleanupReady := hcleanupReady.resolve_left fun h => hpresent (hcleanup.absent_iff.mp h)
  have hself : EmitsBlock plan
      (Leaving ((targetsBlock cleanup').map fun l => (l, stateRunning))) layer [] cleanup' {}
      cleanup' :=
    emitsBlock_self hcleanupReady hstill fun l hl => lookup_ownedBy hl stateRunning
  have hcleanup' : CopiesBlock H plan plan.exit cleanup (toItself (looseBlock cleanup)) [] st
      (k + ((elementsBlock body).length + (elementsCatches []).length)) [] {} cleanup' :=
    hcleanups hcleanup hcleanupReady hself (matchesBlock_self cleanup' _ hstill.2.1)
      (by
        rw [cleanupsBlock_quiet hstill.2.1]
        exact .nil (List.nodup_singleton _))
      hcleanupGuarded (hcleanupSettled.resolve_left hpresent) hcleanupHeeds hcleanupApart
      (hsteady.cleanup (List.subset_append_right ..) (List.subset_append_right ..)
        (fun _ hl => List.mem_append_right _ (List.mem_append_right _ hl))
        (fun _ hl => List.mem_append_right _ (List.mem_append_right _ hl)) hcleanupQuiet hends
        fun l _ k hk => hk.eq)
  exact ⟨rfl, rfl, _, start, routes, b', ways, _, cleanup', rfl, hbody', hcleanup', hcode, hways,
    by rw [hbody.origin]⟩

/-- A try that stays is a try of the machine, without suspensions. -/
theorem CopiedBlock.staying (hbodies : CopiedBlock H plan owner Q layer markers body)
    (hhandlers : CopiedCatches H plan owner Q layer markers catches)
    (hcleanups : CopiedBlock H plan owner Q layer markers cleanup)
    (hframed : ¬framed body cleanup = true)
    (hcleanup : MovedBlock (HoistsBy H.last H.params) h cleanup cleanup' h₁)
    (hcatches : MovedCatches (HoistsBy H.last H.params) h₁ catches catches' h₂)
    (hbody : MovedBlock (HoistsBy H.last H.params) h₂ body body' h')
    (hready : Ready Q (.try o body' catches' cleanup'))
    (hemits : Emits plan (Leaving owners) layer layers (.try o body' catches' cleanup') c t)
    (hmatches : Matches owner owners k (.try o body' catches' cleanup') c)
    (hframing : Framing owner plan.state st (statesAround layers)
      (cleanupsStmt (.try o body' catches' cleanup')) c)
    (hguarded : Guarded (.try o body catches cleanup))
    (hsettled : Settled markers false (.try o body catches cleanup))
    (hheeds : Heeds visible (.try o body catches cleanup))
    (hrestarts : restartsStmt near (.try o body catches cleanup) = false)
    (hsteady : Steady H plan owners layers visible J strays st near c.states
      (.ofStmt H.last (.try o body catches cleanup))) :
    Copies H plan plan.exit (.try o body catches cleanup) J strays st k near c t := by
  obtain ⟨hbodyReady, hcatchesReady, hcleanupReady, -⟩ := hready
  obtain ⟨⟨hcatchesQuiet, hcleanupQuiet, -⟩, hbodyGuarded, hcatchesGuarded, hcleanupGuarded⟩ :=
    hguarded
  obtain ⟨hbodySettled, hcatchesSettled, hcleanupSettled, -⟩ := hsettled
  obtain ⟨hbodyHeeds, hcatchesHeeds, hcleanupHeeds, hends⟩ := hheeds
  obtain ⟨hbodyApart, hcatchesApart, hcleanupApart⟩ := restarts_try hrestarts
  have hsame : ¬framed body' cleanup' = true := framed_of_moved hbody hcleanup ▸ hframed
  have hcount : (elementsBlock body').length + (elementsCatches catches').length =
      (elementsBlock body).length + (elementsCatches catches).length := by
    rw [(movedBlock_places hbody).count, (movedCatches_places hcatches).count]
  rw [Emits, if_neg hsame] at hemits
  rw [Matches, if_neg hsame] at hmatches
  rw [cleanupsStmt, if_neg hsame] at hframing
  rw [if_neg hframed] at hbodyHeeds hbodyApart
  rw [Copies, if_neg hframed]
  obtain ⟨rfl, body'', catches'', cleanup'', hb', hcs', hcl', rfl⟩ := hemits
  obtain ⟨-, hbodyMatches, hcatchesMatches, hcleanupMatches⟩ := hmatches
  have hnodup := (List.nodup_append.mp hframing.nodup).1
  have hempty : ∀ {bs : List Block}, bs.length = 0 →
      Framing owner plan.state st (statesAround layers) bs {} := fun h => by
    rw [List.length_eq_zero_iff.mp h]
    exact .nil hnodup
  have hbodyFraming := hempty (matchesBlock_length hbodyReady hbodyMatches).symm
  rw [(movedBlock_places hbody).count] at hcatchesMatches
  rw [hcount] at hcleanupMatches
  refine ⟨rfl, body'', catches'', cleanup'', ?_, ?_, ?_, rfl⟩
  · exact hbodies hbody hbodyReady hb' hbodyMatches hbodyFraming hbodyGuarded hbodySettled
      hbodyHeeds hbodyApart (hsteady.part (.body o catches hframed) (List.Subset.refl _)
        fun _ hl => .inl hl)
  · exact hhandlers hcatches hcatchesReady hcs' hcatchesMatches hnodup hcatchesQuiet
      hcatchesGuarded hcatchesSettled hcatchesHeeds hcatchesApart
      (hsteady.part (.handlers o catches hframed) (List.Subset.refl _) fun _ hl => .inl hl)
  · rcases hcl' with ⟨hnone, rfl⟩ | hcl'
    · exact .inl ⟨hcleanup.absent_iff.mp hnone, rfl⟩
    · have hpresent' : cleanup' ≠ .absent := by
        rintro rfl
        exact hcl'
      have hcleanupReady := hcleanupReady.resolve_left hpresent'
      have hcleanupSettled := hcleanupSettled.resolve_left fun h =>
        hpresent' (hcleanup.absent_iff.mpr h)
      refine .inr (hcleanups hcleanup hcleanupReady hcl' hcleanupMatches
        (hempty (matchesBlock_length hcleanupReady hcleanupMatches).symm) hcleanupGuarded
        hcleanupSettled hcleanupHeeds hcleanupApart (hsteady.cleanup (List.subset_append_right ..)
          (List.subset_append_right ..)
          (fun _ hl => List.mem_append_right _ (List.mem_append_right _ hl))
          (fun _ hl => List.mem_append_right _ (List.mem_append_right _ hl)) hcleanupQuiet hends
          fun l hl k hk => hsteady.direct l ?_ k hk))
      rw [Inventory.ofStmt, ownStmt, if_neg hframed]
      exact List.mem_append_right _ hl

end Try

theorem CopiedStmt.cons {s : Stmt} {ss : List Stmt} (hs : CopiedStmt H plan owner Q layer markers s)
    (hss : CopiedStmts H plan owner Q layer markers ss) :
    CopiedStmts H plan owner Q layer markers (s :: ss) := by
  rintro _ _ h h' owners layers k _ visible J strays st near ⟨s', ss', _, hmoved, hmoveds, rfl⟩ hready
    ⟨a, b, t, ts, hemit, hemits, rfl, rfl⟩ ⟨a', b', hmatch, hmatches, heq⟩ hframing hguarded hsettled
    hheeds hrestarts hsteady
  obtain ⟨rfl, rfl⟩ := (emits_sized hemit hmatch).inj heq
  rw [(moved_places hmoved).count] at hmatches
  obtain ⟨hfirst, hlast⟩ := hframing.parts (matches_length hready.1 hmatch)
  have hstates := fun s => (Contents.states_append a b).mem_iff (a := s)
  refine ⟨a, b, t, ts, ?_, ?_, rfl, rfl⟩
  · exact hs hmoved hready.1 hemit hmatch hfirst hguarded.1 hsettled.1 hheeds.1
      (Bool.or_eq_false_iff.mp hrestarts).1 (hsteady.part (.head s ss)
        (fun s hs => (hstates s).mpr (List.mem_append_left _ hs)) fun _ hl => .inl hl)
  · refine hss hmoveds hready.2 hemits hmatches hlast hguarded.2 hsettled.2 hheeds.2
      (Bool.or_eq_false_iff.mp hrestarts).2 (hsteady.part (.tail s ss)
        (fun s hs => (hstates s).mpr (List.mem_append_right _ hs)) fun l hl => ?_)
    have hl : l ∈ followAll near [s] := hl
    exact (Setting.followAll_mem hl).imp_right fun hl => List.mem_append_left _ (by
      simpa [labelsStmts] using hl)

theorem CopiedBlock.catch {o : Origin} {v : Option Local} {body : Block} {rest : List Catch}
    (hbodies : CopiedBlock H plan owner Q layer markers body)
    (hrest : CopiedCatches H plan owner Q layer markers rest) :
    CopiedCatches H plan owner Q layer markers (.mk o v body :: rest) := by
  rintro _ _ h h' owners layers k visible J strays st near ⟨body', cs', _, hbody, hmoved, rfl⟩ hready
    ⟨a, b, body'', ds, hemit, hemits, heq, rfl⟩ ⟨a', b', hmatch, hmatches, heq'⟩ hnodup hquiet hguarded
    hsettled hheeds hrestarts hsteady
  obtain ⟨rfl, rfl⟩ := Contents.append_eq_empty heq
  obtain ⟨rfl, rfl⟩ := Contents.append_eq_empty heq'
  rw [exitsCatches, List.mem_append, not_or] at hquiet
  rw [(movedBlock_places hbody).count] at hmatches
  refine ⟨body'', ds, fun l hl => ?_, ?_, ?_, rfl⟩
  · refine hsteady.handlers l (List.mem_append_left _ (List.mem_append_left _ ?_))
    exact List.mem_map.mpr ⟨l, Option.mem_toList.mpr hl, rfl⟩
  · have hframing : Framing owner plan.state st (statesAround layers) (cleanupsBlock body') {} := by
      rw [cleanupsBlock_quiet (by rw [(movedBlock_tries hbody).exits]; exact hquiet.1)]
      exact .nil hnodup
    exact hbodies hbody hready.1 hemit hmatch hframing hguarded.1 hsettled.1 hheeds.1
      (Bool.or_eq_false_iff.mp hrestarts).1 (hsteady.handler hquiet.1)
  · exact hrest hmoved hready.2 hemits hmatches hnodup hquiet.2 hguarded.2 hsettled.2
      hheeds.2 (Bool.or_eq_false_iff.mp hrestarts).2
      (hsteady.part (.catches o v body rest) (List.Subset.refl _) fun _ hl => .inl hl)

mutual

theorem copies_stmt : ∀ s : Stmt, CopiedStmt H plan owner Q layer markers s
  | .block b => by
    rintro _ _ h h' owners layers k c visible J strays st near ⟨b', hmoved, rfl⟩ hready
      ⟨b'', hemits, rfl⟩ hmatches hframing hguarded hsettled hheeds hrestarts hsteady
    exact ⟨b'', copies_block b hmoved hready hemits hmatches hframing hguarded hsettled hheeds
      hrestarts hsteady, rfl⟩
  | .list _ ss => by
    rintro _ _ h h' owners layers k c visible J strays st near ⟨ss', hmoved, rfl⟩ hready
      ⟨ts, hemits, rfl⟩ hmatches hframing hguarded hsettled hheeds hrestarts hsteady
    exact ⟨ts, copies_all ss hmoved hready hemits hmatches hframing hguarded hsettled hheeds hrestarts
      hsteady, rfl⟩
  | .try o body catches cleanup => by
    rintro _ t h h' owners layers k c visible J strays st near
      ⟨body', catches', cleanup', h₁, h₂, hcleanup, hcatches, hbody, rfl⟩ hready hemits hmatches
      hframing hguarded hsettled hheeds hrestarts hsteady
    by_cases hframed : framed body cleanup = true
    · exact (copies_block body).extracted (copies_block cleanup) hframed hcleanup hbody hready hemits
        hmatches hframing hguarded hsettled hheeds hrestarts hsteady
    · exact (copies_block body).staying (copies_catches catches) (copies_block cleanup) hframed hcleanup
        hcatches hbody hready hemits hmatches hframing hguarded hsettled hheeds hrestarts hsteady
  | .yieldReturn .. => by
    rintro _ _ h h' owners layers k c visible J strays st near ⟨e', he, rfl, -⟩ - ⟨x, rfl, rfl⟩
      ⟨resume, heq⟩ - - - - - hsteady
    obtain rfl := hsteady.quiet.resolve_right fun h => h List.mem_cons_self
    obtain rfl : x = ⟨_, resume⟩ := by simpa using heq
    refine ⟨rfl, _, e', rfl, rfl, ⟨he.1, he.2, hsteady.strays⟩, ?_⟩
    rw [hsteady.state List.mem_cons_self]
  | .yieldBreak .. => by
    rintro _ _ h h' owners layers k c visible J strays st near ⟨rfl, -⟩ - ⟨rfl, l, hl, rfl⟩ - - - - - -
      hsteady
    exact ⟨rfl, l, hsteady.jumps _ (.inr ⟨rfl, List.mem_cons_self⟩) (hsteady.ends List.mem_cons_self) l
      hl, rfl⟩
  | .goto _ l => by
    rintro _ _ h h' owners layers k c visible J strays st near ⟨rfl, -⟩ - ⟨rfl, l', hl, rfl⟩ - - - -
      hheeds - hsteady
    exact ⟨rfl, l', hsteady.jumps l (.inl List.mem_cons_self) hheeds l' hl, rfl⟩
  | .conditionalGoto _ _ _ l => by
    rintro _ _ h h' owners layers k c visible J strays st near ⟨e', he, rfl, -⟩ - ⟨rfl, l', hl, rfl⟩ -
      - - - hheeds - hsteady
    exact ⟨rfl, e', l', ⟨he.1, he.2, hsteady.strays⟩,
      hsteady.jumps l (.inl List.mem_cons_self) hheeds l' hl, rfl⟩
  | .label .. | .sequencePoint .. => by
    rintro _ _ h h' owners layers k c visible J strays st near ⟨rfl, -⟩ - ⟨rfl, rfl⟩ - - - - - - -
    exact ⟨rfl, rfl⟩
  | .expression .. => by
    rintro _ _ h h' owners layers k c visible J strays st near ⟨e', he, rfl, -⟩ - ⟨rfl, rfl⟩ - - - - -
      - hsteady
    exact ⟨rfl, e', ⟨he.1, he.2, hsteady.strays⟩, rfl⟩
  | .throw .. => by
    rintro _ _ h h' owners layers k c visible J strays st near ⟨e', he, rfl, -⟩ - ⟨rfl, rfl⟩ - - -
      hsettled - - hsteady
    have hpresent := hsettled.resolve_left Bool.false_ne_true
    have he := he.resolve_left fun h => hpresent h.1
    exact ⟨rfl, e', ⟨he.1, he.2, hsteady.strays⟩, rfl⟩
  | .return .. => by
    rintro _ _ h h' owners layers k c visible J strays st near - - - - - - - - - hsteady
    exact absurd List.mem_cons_self hsteady.unreturned
  | .dispatch .. => by
    rintro _ _ h h' owners layers k c visible J strays st near ⟨_, _, rfl, -⟩ hready
    exact hready.elim
  | .absent | .noOp .. | .localDeclaration .. | .if .. | .while .. | .break .. | .continue ..
  | .foreign .. => by
    intro _ _ h h' owners layers k c visible J strays st near _ _ _ _ _ _ hsettled
    exact hsettled.elim
termination_by structural s => s

theorem copies_all : ∀ ss : List Stmt, CopiedStmts H plan owner Q layer markers ss
  | [] => by
    rintro _ _ h h' owners layers k c visible J strays st near ⟨rfl, -⟩ - ⟨rfl, rfl⟩ - - - - - - -
    exact ⟨rfl, rfl⟩
  | s :: ss => (copies_stmt s).cons (copies_all ss)
termination_by structural ss => ss

/-- What becomes of a block is what the machine has in its place. -/
theorem copies_block : ∀ b : Block, CopiedBlock H plan owner Q layer markers b
  | .absent => by
    intro _ _ h h' owners layers k c visible J strays st near _ _ _ _ _ _ hsettled
    exact hsettled.elim
  | .mk o ls ss => by
    rintro _ _ h h' owners layers k c visible J strays st near ⟨ss', _, _, hmoved, rfl⟩ hready
      ⟨ts, hemits, rfl⟩ hmatches hframing hguarded hsettled hheeds hrestarts hsteady
    exact ⟨[], ts, copies_all ss hmoved hready.2 hemits hmatches hframing hguarded hsettled.2 hheeds
      hrestarts (hsteady.part (.block o ls ss) (List.Subset.refl _) fun _ hl => .inl hl), rfl⟩
termination_by structural b => b

theorem copies_catches : ∀ cs : List Catch, CopiedCatches H plan owner Q layer markers cs
  | [] => by
    rintro _ _ h h' owners layers k visible J strays st near ⟨rfl, -⟩ - ⟨-, rfl⟩ - - - - - - - -
    exact rfl
  | .mk _ _ body :: rest => (copies_block body).catch (copies_catches rest)
termination_by structural cs => cs

end

end Copied

end Resumable.StateMachine
