import Resumable.Proofs.Session.Counted
import Resumable.Proofs.StateMachine.Reduced
import Resumable.Proofs.StateMachine.Spots
import Resumable.Proofs.StateMachine.Yields

/-!
# The tree of frames

The frames that the analysis finds in a body are the tree of its extracted tries
(`frames_are_regions`): suspension points and frames are numbered in the order of the source, each
is directly inside the frame of the nearest extracted try around it, and the frames that are live in
a state are those of the tries around what has the state, which lie inside each other.
-/

set_option autoImplicit false

namespace Resumable.StateMachine

open Resumable.Report Resumable.Symbol Resumable.Tree Resumable.Source Resumable.Lowering

/-! ## Levels of a tree of frames -/

section Levels

variable {root d d' : Contents} {st : Int}

mutual

theorem level_of_preorder : ∀ {f : Frame}, Level root f.state ⟨f.suspensions, f.children⟩ →
    ∀ g ∈ f.preorder, Level root g.state ⟨g.suspensions, g.children⟩
  | .mk state entry cleanup suspensions children, h, g, hg => by
    rw [Frame.preorder, List.mem_cons] at hg
    rcases hg with rfl | hg
    · exact h
    · exact level_of_preorderAll (fun f hf => .inside h hf) g hg

theorem level_of_preorderAll : ∀ {fs : List Frame},
    (∀ f ∈ fs, Level root f.state ⟨f.suspensions, f.children⟩) →
    ∀ g ∈ Frame.preorderAll fs, Level root g.state ⟨g.suspensions, g.children⟩
  | [], _, _, hg => nomatch hg
  | f :: rest, h, g, hg => by
    rw [Frame.preorderAll, List.mem_append] at hg
    rcases hg with hg | hg
    · exact level_of_preorder (h f List.mem_cons_self) g hg
    · exact level_of_preorderAll (fun f hf => h f (List.mem_cons_of_mem _ hf)) g hg

end

/-- A level is the root or what is in one of the frames. -/
theorem level_iff : Level root st d ↔ st = stateRunning ∧ d = root ∨
    ∃ f ∈ Frame.preorderAll root.children, f.state = st ∧ d = ⟨f.suspensions, f.children⟩ := by
  constructor
  · intro h
    cases h with
    | top => exact .inl ⟨rfl, rfl⟩
    | inside hlevel hf => exact .inr ⟨_, hlevel.mem hf, rfl, rfl⟩
  · rintro (⟨rfl, rfl⟩ | ⟨f, hf, rfl, rfl⟩)
    · exact .top
    · exact level_of_preorderAll (fun g hg => .inside .top hg) f hf

/-- Where all states are different, the state says which level it is. -/
theorem Level.unique (hroot : (stateRunning :: root.states).Nodup) (h : Level root st d)
    (h' : Level root st d') : d' = d := by
  obtain ⟨hrunning, hstates⟩ := List.nodup_cons.mp hroot
  have hlive : (Frame.liveStatesAll root.children).Nodup :=
    hstates.sublist (List.sublist_append_right _ _)
  have houtside : ∀ f ∈ Frame.preorderAll root.children, f.state ≠ stateRunning := by
    rintro f hf heq
    apply hrunning
    rw [← heq]
    refine List.mem_append_right _ (Frame.liveStates_of_preorderAll hf ?_)
    simp [Frame.liveStates_eq]
  rcases level_iff.mp h with ⟨rfl, rfl⟩ | ⟨f, hf, rfl, rfl⟩ <;>
    rcases level_iff.mp h' with ⟨hst, rfl⟩ | ⟨g, hg, hst, rfl⟩
  · rfl
  · exact absurd hst (houtside g hg)
  · exact absurd hst (houtside f hf)
  · rw [Frame.eq_of_state hlive hg hf hst]

end Levels

mutual

/-- The live states of a frame are those of the frame, of the frames inside it, and of what suspends
in these. -/
theorem Frame.mem_liveStates : ∀ {f : Frame} {s : Int}, s ∈ f.liveStates ↔
    ∃ g ∈ f.preorder, s = g.state ∨ s ∈ g.suspensions.map Suspension.state
  | .mk state entry cleanup suspensions children, s => by
    rw [Frame.liveStates, Frame.preorder, List.cons_append, List.mem_cons, List.mem_append,
      Frame.mem_liveStatesAll, List.exists_mem_cons_iff, or_assoc]
    rfl

theorem Frame.mem_liveStatesAll : ∀ {fs : List Frame} {s : Int}, s ∈ Frame.liveStatesAll fs ↔
    ∃ g ∈ Frame.preorderAll fs, s = g.state ∨ s ∈ g.suspensions.map Suspension.state
  | [], s => by simp [Frame.liveStatesAll, Frame.preorderAll]
  | f :: rest, s => by
    rw [Frame.liveStatesAll, Frame.preorderAll, List.mem_append, Frame.mem_liveStates,
      Frame.mem_liveStatesAll]
    simp only [List.mem_append, or_and_right, exists_or]

end

/-! ## Frames and regions -/

/-- The contents of a body are the tree of its extracted tries. -/
structure FrameTree (x : Spots) (c : Contents) : Prop where
  /-- The suspension points are numbered from one on in the order of the source. -/
  points : x.points.map Spot.state = (List.range' 1 x.points.length).map Nat.cast
  /-- So are the extracted tries. -/
  regions : x.regions.map Spot.state = (List.range' 1 x.regions.length).map stateOfFrame
  /-- Each of these has a frame, and a frame comes before those inside it. -/
  frames : (Frame.preorderAll c.children).map Frame.state = x.regions.map Spot.state
  /-- Directly inside each frame, and outside of all of them, are those suspension points and frames
  whose nearest extracted try around is that of the frame. -/
  inside : ∀ st d, Level c st d →
    d.suspensions.map Suspension.state = (x.points.filter (·.region = st)).map Spot.state ∧
      d.children.map Frame.state = (x.regions.filter (·.region = st)).map Spot.state
  /-- A suspension point is directly inside exactly one. -/
  once : ∀ p ∈ x.points, ∃ d, Level c p.region d ∧
    p.state ∈ d.suspensions.map Suspension.state ∧
      ∀ st d', Level c st d' → p.state ∈ d'.suspensions.map Suspension.state →
        st = p.region ∧ d' = d
  /-- The live states of a frame are all different. -/
  distinct : ∀ f ∈ Frame.preorderAll c.children, f.liveStates.Nodup
  /-- A frame is live in the states of the suspension points inside its try. -/
  suspended : ∀ f ∈ Frame.preorderAll c.children, ∀ p ∈ x.points,
    p.state ∈ f.liveStates ↔ f.state ∈ p.around
  /-- It is live in the states of itself and of the frames inside it. -/
  nested : ∀ f ∈ Frame.preorderAll c.children, ∀ g ∈ Frame.preorderAll c.children,
    g.state ∈ f.liveStates ↔ g ∈ f.preorder
  /-- The frames that are live in a state lie inside each other, up to an outermost one. -/
  chain : ∀ s, ∃ fs, (∀ f, f ∈ fs ↔ f ∈ Frame.preorderAll c.children ∧ s ∈ f.liveStates) ∧
    List.IsChain (fun inner outer => inner ∈ outer.children) fs ∧
      ∀ f ∈ fs.getLast?, f ∈ c.children

section Tree

variable {x : Spots} {c : Contents}

/-- The state of a suspension point is positive. -/
theorem Charted.point_pos (h : Charted [] 0 0 x c) {p : Spot} (hp : p ∈ x.points) :
    0 < p.state := by
  have hmem : p.state ∈ x.points.map Spot.state := List.mem_map_of_mem hp
  rw [h.points, List.mem_map] at hmem
  obtain ⟨i, hi, hstate⟩ := hmem
  rw [List.mem_range'_1] at hi
  omega

/-- No suspension point or frame has the state of running outside of every frame. -/
theorem Charted.running_outside (h : Charted [] 0 0 x c) : stateRunning ∉ c.states := by
  rw [h.states, List.mem_map, List.mem_map]
  rintro (⟨p, hp, hstate⟩ | ⟨r, hr, hstate⟩)
  · have := h.point_pos hp
    unfold stateRunning at hstate
    omega
  · have := (h.region_ofFrames hr).2
    unfold stateRunning at hstate
    unfold stateOfFrame at this
    omega

/-- Suspension points are known by their states. -/
theorem Charted.point_unique (h : Charted [] 0 0 x c) {p q : Spot} (hp : p ∈ x.points)
    (hq : q ∈ x.points) (hstate : p.state = q.state) : p = q := by
  have hnodup : (x.points.map Spot.state).Nodup := by
    rw [h.points]
    exact List.Nodup.map (fun _ _ => Int.ofNat.inj) List.nodup_range'
  exact List.inj_on_of_nodup_map hnodup hp hq hstate

/-- The suspension points and frames of a level are those with its region. -/
theorem Charted.level (h : Charted [] 0 0 x c) {st : Int} {d : Contents} (hlevel : Level c st d) :
    d.suspensions.map Suspension.state = (x.points.filter (·.region = st)).map Spot.state ∧
      d.children.map Frame.state = (x.regions.filter (·.region = st)).map Spot.state := by
  rcases level_iff.mp hlevel with ⟨rfl, rfl⟩ | ⟨f, hf, rfl, rfl⟩
  · exact ⟨h.suspensions, h.children⟩
  · exact h.inside f hf

/-- The innermost extracted try around a suspension point has a level. -/
theorem Charted.exists_level (h : Charted [] 0 0 x c) {p : Spot} (hp : p ∈ x.points) :
    ∃ d, Level c p.region d := by
  rcases h.region_cases (List.mem_append_left _ hp) with hregion | hregion
  · rw [hregion]
    exact ⟨c, .top⟩
  · have hframe : p.region ∈ (Frame.preorderAll c.children).map Frame.state := by
      rw [h.frames, h.regions, List.mem_map]
      unfold OfFrames stateOfFrame at hregion
      refine ⟨(-2 - p.region).toNat, List.mem_range'_1.mpr (by omega), ?_⟩
      unfold stateOfFrame
      omega
    obtain ⟨f, hf, hstate⟩ := List.mem_map.mp hframe
    exact ⟨_, level_iff.mpr (.inr ⟨f, hf, hstate, rfl⟩)⟩

/-- A picture of a whole body is the tree of its extracted tries. -/
theorem Charted.frameTree (h : Charted [] 0 0 x c) (hnodup : c.states.Nodup) : FrameTree x c where
  points := h.points
  regions := h.regions
  frames := h.frames
  inside _ _ hlevel := h.level hlevel
  once p hp := by
    have hroot : (stateRunning :: c.states).Nodup := List.nodup_cons.mpr ⟨h.running_outside, hnodup⟩
    obtain ⟨d, hlevel⟩ := h.exists_level hp
    refine ⟨d, hlevel, ?_, fun st d' hlevel' hstate => ?_⟩
    · rw [(h.level hlevel).1]
      exact List.mem_map_of_mem (List.mem_filter.mpr ⟨hp, by simp⟩)
    · rw [(h.level hlevel').1, List.mem_map] at hstate
      obtain ⟨q, hq, hstate⟩ := hstate
      obtain ⟨hq, hregion⟩ := List.mem_filter.mp hq
      obtain rfl := h.point_unique hq hp hstate
      obtain rfl : q.region = st := of_decide_eq_true hregion
      exact ⟨rfl, hlevel.unique hroot hlevel'⟩
  distinct f hf := by
    have hroot : (stateRunning :: c.states).Nodup := List.nodup_cons.mpr ⟨h.running_outside, hnodup⟩
    have hlevel := level_iff.mpr (.inr ⟨f, hf, rfl, rfl⟩)
    have hstates := hlevel.nodup hroot
    rwa [Frame.liveStates_eq]
  suspended f hf p hp := by
    rw [h.live f hf]
    constructor
    · rintro (⟨q, hq, hstate, hinside⟩ | ⟨r, hr, hstate, -⟩)
      · rwa [← h.point_unique hq hp hstate]
      · have hregion := (h.region_ofFrames hr).2
        have hpoint := h.point_pos hp
        unfold stateOfFrame at hregion
        omega
    · exact fun hinside => .inl ⟨p, hp, rfl, hinside⟩
  nested f hf g hg := by
    rw [Frame.mem_liveStates]
    constructor
    · rintro ⟨g', hg', hstate⟩
      have hmem : g' ∈ Frame.preorderAll c.children := by
        rw [Frame.preorder_eq, List.mem_cons] at hg'
        rcases hg' with rfl | hg'
        · exact hf
        · exact (level_iff.mpr (.inr ⟨f, hf, rfl, rfl⟩)).preorder g' hg'
      rcases hstate with hstate | hsuspends
      · have hlive : (Frame.liveStatesAll c.children).Nodup :=
          hnodup.sublist (List.sublist_append_right _ _)
        rwa [Frame.eq_of_state hlive hg hmem hstate]
      · rw [(h.inside g' hmem).1, List.mem_map] at hsuspends
        obtain ⟨p, hp, hstate⟩ := hsuspends
        have hpoint := h.point_pos (List.mem_filter.mp hp).1
        have hframe := (h.frame_ofFrames hg).2
        unfold stateOfFrame at hframe
        omega
    · exact fun hinside => ⟨g, hinside, .inl rfl⟩
  chain s := by
    have hlive : (Frame.liveStatesAll c.children).Nodup :=
      hnodup.sublist (List.sublist_append_right _ _)
    obtain ⟨hchain, hlast⟩ := liveFrames_nested c.children hlive (s := s)
    exact ⟨liveFrames c.children s, fun f => mem_liveFrames, hchain, hlast⟩

end Tree

/-! ## Bodies that are analyzed -/

/-- The analysis makes a picture of a body that was lowered, that a state machine can represent, and
whose variables are hoisted. -/
theorem Prepares.charted {owner : TypeDecl} {m : MethodBody} {w b : Block} {k n : Nat} {plan : Plan}
    {c : Contents} (hprepares : Prepares owner m w k plan b c n)
    (hlowered : verify true (.stmt (.block w)) = .ok ())
    (hrepresentable : checkRepresentable m.symbol w = .ok ()) :
    Charted [] 0 0 (spotsBlock [] 0 0 b) c ∧ c.states.Nodup := by
  obtain ⟨h, h', a, -, hhoist, hanalyze, -⟩ := hprepares
  have hverified : verifiedBlock true w = true := (verify_block_iff.mp hlowered).1
  have hmoved := movedBlock_of_ok hhoist
  have hb : verifiedBlock true b = true := movedBlock_verified hmoved hverified
  have hguarded : GuardedBlock b :=
    movedBlock_guarded hmoved ((checkRepresentable_iff hverified).mp hrepresentable).2
  obtain ⟨hchart, -, -⟩ := analyzeBlock_charted (stateField owner) hb hguarded stateRunning [] _ _ _
    _ _ (fun g hg => (nomatch hg)) hanalyze
  exact ⟨hchart, (analyzeBlock_counted _ _ _ _ _ _ _ _ hanalyze).nodup⟩

/-- The frames that the analysis finds in a body that was lowered, that a state machine can
represent, and whose variables are hoisted, are the tree of its extracted tries. -/
theorem frames_are_regions {owner : TypeDecl} {m : MethodBody} {w b : Block} {k n : Nat}
    {plan : Plan} {c : Contents} (hlowered : verify true (.stmt (.block w)) = .ok ())
    (hrepresentable : checkRepresentable m.symbol w = .ok ())
    (hprepares : Prepares owner m w k plan b c n) : FrameTree (spotsBlock [] 0 0 b) c := by
  obtain ⟨hchart, hnodup⟩ := hprepares.charted hlowered hrepresentable
  exact hchart.frameTree hnodup

/-- The body of a resumable method that became a machine was lowered, and a state machine can
represent it. -/
theorem analyzable_of_lowered {file source : String} {program : Program}
    (hread : read file source = .ok program) {m : MethodBody} (hm : m ∈ program.methods)
    {markers : Bool} {sm : StateMachine} (hlower : lowerMethod markers m = .ok (.machine sm))
    {w : Block} {k : Nat} (hwalk : walkBlock markers m.body 0 = (.ok w, k)) :
    verify true (.stmt (.block w)) = .ok () ∧ checkRepresentable m.symbol w = .ok () := by
  have hbound := bound_methods hread hm
  obtain ⟨w', k', hwalk', -, hverify⟩ := walkBody_ok hbound markers
  rw [hwalk] at hwalk'
  cases hwalk'
  refine ⟨hverify, ?_⟩
  cases hiterator : m.symbol.isIterator with
  | false =>
    rw [lowerMethod_of_walk hiterator hwalk] at hlower
    split at hlower <;> cases hlower
  | true =>
    cases hrepresentable : checkRepresentable m.symbol w with
    | ok u => rfl
    | error e =>
      rw [lowerMethod_of_build hiterator hwalk hverify,
        build_error hiterator hbound.ordinals hrepresentable] at hlower
      cases hlower

/-- A method that suspends before, inside, between and behind extracted tries, one of which is
inside another. -/
def branchingSource : String :=
  "class C \x7b extern void F(int n); iterator int M() \x7b yield return 0; try \x7b " ++
    "yield return 1; try \x7b yield return 2; \x7d finally \x7b F(1); \x7d yield return 3; \x7d " ++
    "finally \x7b F(2); \x7d try \x7b yield return 4; \x7d finally \x7b F(3); \x7d \x7d \x7d"

/-- Its machine, and what the analysis finds: the suspension points and frames, the frames inside
each of them, and the states that they are live in, with the dispatches on the way to the third
suspension point. -/
theorem branching_sample : ∃ m sm, sample true branchingSource = some (m, sm) ∧
    (contentsOf true m).suspensions.map Suspension.state = [1] ∧
    (Frame.preorderAll (contentsOf true m).children).map (fun f =>
        [f.suspensions.map Suspension.state, f.children.map Frame.state, f.liveStates]) =
      [[[2, 4], [-4], [-3, 2, 4, -4, 3]], [[3], [], [-4, 3]], [[5], [], [-5, 5]]] ∧
    (yieldsBlock m.body).length = 5 ∧
    ((Frame.preorderAll (contentsOf true m).children).filter fun f => 3 ∈ f.liveStates).map
      (fun f => entryOf sm f + 1) = [10, 17] ∧
    ∃ f ∈ Frame.preorderAll (contentsOf true m).children,
      f.state = -4 ∧ 3 ∈ f.suspensions.map Suspension.state := by
  have hfact : (sample true branchingSource).map (fun x =>
      ((contentsOf true x.1).suspensions.map Suspension.state,
        (Frame.preorderAll (contentsOf true x.1).children).map fun f =>
          [f.suspensions.map Suspension.state, f.children.map Frame.state, f.liveStates],
        (yieldsBlock x.1.body).length,
        ((Frame.preorderAll (contentsOf true x.1).children).filter fun f => 3 ∈ f.liveStates).map
          fun f => entryOf x.2 f + 1,
        (Frame.preorderAll (contentsOf true x.1).children).any fun f =>
          f.state = -4 ∧ 3 ∈ f.suspensions.map Suspension.state)) =
      some ([1], [[[2, 4], [-4], [-3, 2, 4, -4, 3]], [[3], [], [-4, 3]], [[5], [], [-5, 5]]], 5,
        [10, 17], true) := by
    rw [sample, show branchingSource = .ofList _ from append_ofList (append_ofList rfl rfl) rfl,
      read_ofList]
    decide +kernel
  obtain ⟨⟨m, sm⟩, hsample, hfact⟩ := Option.map_eq_some_iff.mp hfact
  simp only [Prod.mk.injEq, List.any_eq_true, decide_eq_true_eq] at hfact
  exact ⟨m, sm, hsample, hfact⟩

/-- The frames of such a method, with their suspension points, the frames inside them, and the
states that they are live in. -/
theorem frames_are_regions_branching : ∃ program m w b k n plan c,
    read "" branchingSource = .ok program ∧ m ∈ program.methods ∧
    walkBlock true m.body 0 = (.ok w, k) ∧ verify true (.stmt (.block w)) = .ok () ∧
    checkRepresentable m.symbol w = .ok () ∧ Prepares (machineType m.symbol) m w k plan b c n ∧
    c.suspensions.map Suspension.state = [1] ∧
    (Frame.preorderAll c.children).map (fun f => [f.suspensions.map Suspension.state,
        f.children.map Frame.state, f.liveStates]) =
      [[[2, 4], [-4], [-3, 2, 4, -4, 3]], [[3], [], [-4, 3]], [[5], [], [-5, 5]]] ∧
    FrameTree (spotsBlock [] 0 0 b) c := by
  obtain ⟨m, sm, hsample, hsuspensions, hframes, -⟩ := branching_sample
  obtain ⟨program, hread, hm, hlower⟩ := sample_eq_some hsample
  obtain ⟨plan, w, b, k, n, hwalk, hprepares, -⟩ := built_of_walked hread hm hlower
  obtain ⟨hlowered, hrepresentable⟩ := analyzable_of_lowered hread hm hlower hwalk
  exact ⟨program, m, w, b, k, n, plan, _, hread, hm, hwalk, hlowered, hrepresentable, hprepares,
    hsuspensions, hframes, frames_are_regions hlowered hrepresentable hprepares⟩

end Resumable.StateMachine
