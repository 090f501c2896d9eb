import Resumable.Proofs.Machine.Passing
import Resumable.Proofs.Session.Finished
import Resumable.Proofs.Session.FrameTree
import Resumable.Proofs.Session.Sited
import Resumable.Proofs.Session.Starting

/-!
# The way to a suspension point

A machine that is resumed in the state of a suspension point goes on behind it
(`resumes_behind_yield`).  The dispatch at the start leads into the outermost extracted try around
the suspension point, and the dispatch of each extracted try on into the next one, or to the
suspension point itself (`Built.level_leads`).  Each dispatch has one case for every suspension
point inside.
-/

set_option autoImplicit false

namespace Resumable.StateMachine

open Resumable.Report Resumable.Symbol Resumable.Tree Resumable.Source Resumable.Lowering
open Resumable.Machine hiding Region Outcome Handler

variable {σ : Type}

/-! ## Cases -/

section Cases

mutual

theorem Frame.resumeStates_sublist : ∀ f : Frame, f.resumeStates.Sublist f.liveStates
  | .mk state entry cleanup suspensions children => by
    rw [Frame.resumeStates, Frame.liveStates, List.cons_append]
    exact .cons _ ((List.Sublist.refl _).append (Frame.resumeStatesAll_sublist children))

theorem Frame.resumeStatesAll_sublist : ∀ fs : List Frame,
    (Frame.resumeStatesAll fs).Sublist (Frame.liveStatesAll fs)
  | [] => .slnil
  | f :: rest => (Frame.resumeStates_sublist f).append (Frame.resumeStatesAll_sublist rest)

end

mutual

/-- The suspension points inside a frame are those directly in the frames inside it. -/
theorem Frame.mem_resumeStates : ∀ {f : Frame} {s : Int}, s ∈ f.resumeStates ↔
    ∃ g ∈ f.preorder, s ∈ g.suspensions.map Suspension.state
  | .mk state entry cleanup suspensions children, s => by
    rw [Frame.resumeStates, Frame.preorder, List.mem_append, Frame.mem_resumeStates_preorderAll,
      List.exists_mem_cons_iff]
    rfl

theorem Frame.mem_resumeStates_preorderAll : ∀ {fs : List Frame} {s : Int},
    s ∈ Frame.resumeStatesAll fs ↔
      ∃ g ∈ Frame.preorderAll fs, s ∈ g.suspensions.map Suspension.state
  | [], s => by simp [Frame.resumeStatesAll, Frame.preorderAll]
  | f :: rest, s => by
    rw [Frame.resumeStatesAll, Frame.preorderAll, List.mem_append, Frame.mem_resumeStates,
      Frame.mem_resumeStates_preorderAll]
    simp only [List.mem_append, or_and_right, exists_or]

end

variable {c : Contents} {s : Int}

/-- The suspension points of a body are those directly in its levels. -/
theorem Contents.mem_resumeStates : s ∈ c.resumeStates ↔
    ∃ st level, Level c st level ∧ s ∈ level.suspensions.map Suspension.state := by
  rw [Contents.resumeStates, List.mem_append, Frame.mem_resumeStates_preorderAll]
  constructor
  · rintro (hs | ⟨g, hg, hs⟩)
    · exact ⟨_, _, .top, hs⟩
    · exact ⟨_, _, level_iff.mpr (.inr ⟨g, hg, rfl, rfl⟩), hs⟩
  · rintro ⟨st, level, hlevel, hs⟩
    rcases level_iff.mp hlevel with ⟨-, rfl⟩ | ⟨g, hg, -, rfl⟩
    · exact .inl hs
    · exact .inr ⟨g, hg, hs⟩

/-- A dispatch has a case for each suspension point inside. -/
theorem Contents.resumeCases_values (c : Contents) :
    c.resumeCases.map DispatchCase.value = c.resumeStates := by
  have hchildren : ∀ fs : List Frame, (fs.flatMap fun f => f.resumeStates.map fun state =>
      (⟨state, some f.entry⟩ : DispatchCase)).map DispatchCase.value = Frame.resumeStatesAll fs := by
    intro fs
    induction fs with
    | nil => rfl
    | cons f rest ih =>
      rw [List.flatMap_cons, List.map_append, ih, Frame.resumeStatesAll, List.map_map]
      exact congrArg (· ++ _) (List.map_id _)
  rw [Contents.resumeCases, List.map_append, hchildren, List.map_map]
  rfl

theorem Contents.resumeStates_nodup (h : c.states.Nodup) : c.resumeStates.Nodup :=
  h.sublist ((List.Sublist.refl _).append (Frame.resumeStatesAll_sublist c.children))

/-- A dispatch whose cases are for different numbers goes to the label of the case. -/
theorem caseLabel_of_mem {cases : List DispatchCase} (h : (cases.map DispatchCase.value).Nodup)
    {x : DispatchCase} (hx : x ∈ cases) (otherwise : Option Label) :
    Setting.caseLabel cases otherwise x.value = x.label := by
  rcases caseLabel_cases cases otherwise x.value with ⟨y, hy, hvalue, hlabel⟩ | ⟨hnone, -⟩
  · rw [hlabel, List.inj_on_of_nodup_map h hy hx hvalue]
  · exact absurd rfl (hnone x hx)

/-- For a number that no case is for, a dispatch goes to its other label. -/
theorem caseLabel_of_notMem {cases : List DispatchCase} (h : s ∉ cases.map DispatchCase.value)
    (otherwise : Option Label) : Setting.caseLabel cases otherwise s = otherwise := by
  rcases caseLabel_cases cases otherwise s with ⟨y, hy, rfl, -⟩ | ⟨-, hlabel⟩
  · exact absurd (List.mem_map_of_mem hy) h
  · exact hlabel

/-- Of frames side by side, the live ones are those in the one that has the state, and itself. -/
theorem liveFrames_of_mem {fs : List Frame} (h : (Frame.liveStatesAll fs).Nodup) {f : Frame}
    (hf : f ∈ fs) (hs : s ∈ f.liveStates) : liveFrames fs s = liveFrames f.children s ++ [f] := by
  induction fs with
  | nil => cases hf
  | cons g rest ih =>
    rcases List.mem_cons.mp hf with rfl | hrest
    · exact liveFrames_cons_inside h hs
    · have hne : s ∉ g.liveStates := by
        rw [Frame.liveStatesAll] at h
        exact fun hmem =>
          (List.nodup_append.mp h).2.2 s hmem s (Frame.liveStates_of_mem hrest hs) rfl
      rw [Frame.liveStatesAll] at h
      rw [liveFrames_cons_outside hne, ih (List.nodup_append.mp h).2.1 hrest]

end Cases

/-! ## The try around the body -/

section Guarded

variable (plan : Plan) (dispose : Method) (c : Contents) (invalid start : Label) (b' : Block)

/-- The try around the body of the method that resumes. -/
def wholeTry : TryAt :=
  ⟨0, guardedBody plan c invalid start b', [faultHandler plan.provenance plan.state.owner dispose],
    .absent⟩

/-- The sites inside it. -/
def guardedSites : List Machine.Site :=
  sitesBlock [.guarded (wholeTry plan dispose c invalid start b')] 0
    (guardedBody plan c invalid start b')

/-- What stands there before the body. -/
def beginningSites : List Machine.Site :=
  let p := plan.provenance
  let around : List Part := [.guarded (wholeTry plan dispose c invalid start b')]
  [⟨0, .stmt (.dispatch (.made p) plan.stateRef (⟨stateCreated, some start⟩ :: c.resumeCases)
      (some invalid)), around⟩,
    ⟨1, .stmt (Made.label p invalid), around⟩,
    ⟨1, .stmt (Made.callHost p .invalidResumption), around⟩,
    ⟨2, .stmt (plan.returnBool false), around⟩,
    ⟨3, .stmt (Made.label p start), around⟩,
    ⟨3, .stmt (plan.setState stateRunning), around⟩]

/-- What stands there behind the body. -/
def endingSites : List Machine.Site :=
  let p := plan.provenance
  let around : List Part := [.guarded (wholeTry plan dispose c invalid start b')]
  [⟨4 + sizeBlock b', .stmt (Made.label p plan.exit), around⟩,
    ⟨4 + sizeBlock b', .stmt (plan.setState stateFinished), around⟩,
    ⟨4 + sizeBlock b' + 1, .stmt (plan.returnBool false), around⟩]

theorem guardedSites_eq : guardedSites plan dispose c invalid start b' =
    beginningSites plan dispose c invalid start b' ++
      (sitesBlock [.guarded (wholeTry plan dispose c invalid start b')] 4 b' ++
        endingSites plan dispose c invalid start b') := rfl

theorem beginningSites_inside : beginningSites plan dispose c invalid start b' <:+:
    guardedSites plan dispose c invalid start b' := by
  rw [guardedSites_eq]
  exact (List.prefix_append _ _).isInfix

theorem bodySites_inside :
    sitesBlock [.guarded (wholeTry plan dispose c invalid start b')] 4 b' <:+:
      guardedSites plan dispose c invalid start b' := by
  rw [guardedSites_eq]
  exact ⟨_, _, List.append_assoc ..⟩

/-- Behind what stands inside the try stands its handler. -/
theorem sites_moveNextBody : sitesBlock [] 0 (moveNextBody plan dispose c invalid start b') =
    let t := wholeTry plan dispose c invalid start b'
    guardedSites plan dispose c invalid start b' ++
      (⟨0 + sizeBlock t.body, .exit t.behind, [.guarded t]⟩ ::
        sitesCatches [] t.behind (behindBody 0 t.body) t.catches) := by
  rw [moveNextBody_eq]
  simp only [Made.block, sitesBlock, sitesStmts, sitesStmt, List.append_nil, List.append_assoc]
  rfl

theorem guardedSites_inside : guardedSites plan dispose c invalid start b' <:+:
    sitesBlock [] 0 (moveNextBody plan dispose c invalid start b') := by
  rw [sites_moveNextBody]
  exact (List.prefix_append _ _).isInfix

variable {plan dispose c invalid start b'}

/-- The labels inside the try are covered by it. -/
theorem covers_label {pc : Nat} {o : Origin} {l : Option Label} {parts : List Part}
    (hx : ⟨pc, .stmt (.label o l), parts⟩ ∈ guardedSites plan dispose c invalid start b') :
    (wholeTry plan dispose c invalid start b').region.guarded.covers pc = true := by
  have hmem : (l, pc) ∈ (flattenBlock 0 (guardedBody plan c invalid start b')).labels := by
    rw [(shows_block 0 _).labels]
    exact List.mem_filterMap.mpr ⟨_, mem_placesBlock_of_site hx, rfl⟩
  have hbounds := (fits_block 0 (guardedBody plan c invalid start b')).label_mem _ hmem
  rw [TryAt.guarded_eq, Range.covers_eq_true]
  simp only [wholeTry]
  omega

/-- Only the try around the body has labels inside. -/
theorem mem_guardedSites_of_label {dispose : Method} {x : Machine.Site}
    (hx : x ∈ sitesBlock [] 0 (moveNextBody plan dispose c invalid start b')) {l : Option Label}
    (hlabel : x.label? = some l) : x ∈ guardedSites plan dispose c invalid start b' := by
  have hnone : (sitesCatches [] (wholeTry plan dispose c invalid start b').behind
      (behindBody 0 (wholeTry plan dispose c invalid start b').body)
      (wholeTry plan dispose c invalid start b').catches).filterMap Site.label? = [] := rfl
  rw [sites_moveNextBody, List.mem_append, List.mem_cons] at hx
  rcases hx with hx | rfl | hx
  · exact hx
  · cases hlabel
  · have hmem := List.mem_filterMap.mpr ⟨x, hx, hlabel⟩
    rw [hnone] at hmem
    cases hmem

/-- Labels of the method stand in the try around the body. -/
theorem covers_recorded {dispose : Method} {l : Option Label} {q : Nat}
    (hq : recorded? (moveNextBody plan dispose c invalid start b') l = some q) :
    (wholeTry plan dispose c invalid start b').region.guarded.covers q = true := by
  obtain ⟨o, parts, hx⟩ := site_of_recorded hq
  exact covers_label (mem_guardedSites_of_label hx rfl)

end Guarded

/-! ## From dispatch to dispatch -/

section Levels

variable {markers : Bool} {origin : MethodBody} {owner : TypeDecl} {sm : StateMachine} {plan : Plan}
  {c : Contents} {b : Block} {k n : Nat} {T : Table} {invalid start : Label} {b' : Block}
  {ctx : Context σ} {ref : Ref} {d : Config σ} {N : Int}

theorem Resumes.mem_sites {dispose : Method} {body : Block}
    (h : Resumes plan dispose c b body T invalid start b') {x : Machine.Site}
    (hx : x ∈ guardedSites plan dispose c invalid start b') : x ∈ sitesBlock [] 0 body := by
  rw [h.body]
  exact (guardedSites_inside plan dispose c invalid start b').mem hx

/-- A dispatch of the method goes to the label for the state. -/
theorem Built.dispatch_advances (h : Built markers origin owner sm plan c b k n)
    (hresumes : Resumes plan (.dispose owner) c b sm.moveNext.body T invalid start b')
    (ctx : Context σ) {pc q : Nat} {o o' : Origin} {cases : List DispatchCase}
    {l l' : Option Label} {parts : List Part}
    (hx : ⟨pc, .stmt (.dispatch o plan.stateRef cases l),
      [.guarded (wholeTry plan (.dispose owner) c invalid start b')]⟩ ∈
        guardedSites plan (.dispose owner) c invalid start b')
    (hlabel : Setting.caseLabel cases l N = l')
    (hy : ⟨q, .stmt (.label o' l'), parts⟩ ∈ guardedSites plan (.dispose owner) c invalid start b')
    (hd : d.At ref (World.Reads ref sm.state (.int N))) (hcaught : d.activation.caught = []) :
    Advances ctx (routineOf sm.moveNext.symbol sm.moveNext.body) pc d q d := by
  have hexecutable := h.executable sm.moveNext List.mem_cons_self
  rw [h.state] at hd
  refine hexecutable.dispatch_advances (hresumes.mem_sites hx) (eval_stateRef hd.this hd.world)
    (hlabel ▸ hexecutable.recorded_of_site (hresumes.mem_sites hy)) (fun t ht => ?_) hcaught
  obtain rfl := List.mem_singleton.mp ht
  exact covers_label hy

/-- The code of a frame stands where the frame is entered. -/
theorem Built.opens (h : Built markers origin owner sm plan c b k n)
    (hresumes : Resumes plan (.dispose owner) c b sm.moveNext.body T invalid start b') {f : Frame}
    (hf : f ∈ Frame.preorderAll c.children) : ∃ p first,
      openingSites plan p f first [.guarded (wholeTry plan (.dispose owner) c invalid start b')]
        (entryOf sm f) <:+: guardedSites plan (.dispose owner) c invalid start b' := by
  obtain ⟨⟨pc, p, first, hopens⟩, -⟩ := ((imageBlock_sited hresumes.image _ 4).mono
    (bodySites_inside plan (.dispose owner) c invalid start b')).frames f hf
  have hlabel := hopens.mem (List.mem_cons_of_mem _ List.mem_cons_self)
  have hrecorded := (h.executable sm.moveNext List.mem_cons_self).recorded_of_site
    (hresumes.mem_sites hlabel)
  rw [recorded?, bodyFragment_labels, (h.entry hf).1] at hrecorded
  obtain rfl : entryOf sm f = pc := Nat.succ.inj (Option.some.inj hrecorded)
  exact ⟨p, first, hopens⟩

/-- The code of a suspension point that is directly in a level stands in the method. -/
theorem Built.suspends
    (hresumes : Resumes plan (.dispose owner) c b sm.moveNext.body T invalid start b') {st : Int}
    {level : Contents} (hlevel : Level c st level) {s : Suspension} (hs : s ∈ level.suspensions) :
    Suspends plan (ElementOf b) [.guarded (wholeTry plan (.dispose owner) c invalid start b')]
      (guardedSites plan (.dispose owner) c invalid start b') st s := by
  have hsited := (imageBlock_sited hresumes.image _ 4).mono
    (bodySites_inside plan (.dispose owner) c invalid start b')
  cases hlevel with
  | top => exact hsited.suspensions s hs
  | inside hlevel hf => exact (hsited.frames _ (hlevel.mem hf)).2 s hs

/-- Dispatches lead from the one at `p` through those of the frames to where a suspension point with
the state goes on. -/
def LeadsBack (ctx : Context σ) (sm : StateMachine) (plan : Plan) (b : Block) (c : Contents)
    (xs : List Machine.Site) (around : List Part) (d : Config σ) (N : Int) (p : Nat)
    (fs : List Frame) : Prop :=
  ∃ st level s q o e, Level c st level ∧ s ∈ level.suspensions ∧ s.state = N ∧ ElementOf b N e ∧
    sitesStmt around q (suspend plan o e s st) <:+: xs ∧
    Threads ctx (routineOf sm.moveNext.symbol sm.moveNext.body) plan.stateRef d p
      (p :: fs.map fun f => entryOf sm f + 1) (q + 3)

/-- The dispatch of a level leads to a suspension point in the level, if those of the frames in the
level lead to one in these. -/
theorem Built.level_leads (h : Built markers origin owner sm plan c b k n)
    (hresumes : Resumes plan (.dispose owner) c b sm.moveNext.body T invalid start b')
    (ctx : Context σ) (hd : d.At ref (World.Reads ref sm.state (.int N)))
    (hcaught : d.activation.caught = [])
    {st : Int} {level : Contents} (hlevel : Level c st level) {p : Nat} {o : Origin}
    {cases : List DispatchCase} {l : Option Label}
    (hx : ⟨p, .stmt (.dispatch o plan.stateRef cases l),
      [.guarded (wholeTry plan (.dispose owner) c invalid start b')]⟩ ∈
        guardedSites plan (.dispose owner) c invalid start b')
    (hcases : ∀ x ∈ level.resumeCases, x ∈ cases) (hdistinct : (cases.map DispatchCase.value).Nodup)
    (hN : N ∈ level.resumeStates)
    (hinside : ∀ f ∈ level.children, N ∈ f.resumeStates → LeadsBack ctx sm plan b c
      (guardedSites plan (.dispose owner) c invalid start b')
      [.guarded (wholeTry plan (.dispose owner) c invalid start b')] d N (entryOf sm f + 1)
      (liveFrames f.children N).reverse) :
    LeadsBack ctx sm plan b c (guardedSites plan (.dispose owner) c invalid start b')
      [.guarded (wholeTry plan (.dispose owner) c invalid start b')] d N p
      (liveFrames level.children N).reverse := by
  have hinstr := (h.executable sm.moveNext List.mem_cons_self).dispatch_instr
    sm.moveNext.symbol (hresumes.mem_sites hx) ctx
  have hlive : (Frame.liveStatesAll level.children).Nodup :=
    (List.Nodup.of_cons (hlevel.nodup h.contents_nodup)).sublist (List.sublist_append_right _ _)
  rw [Contents.resumeStates, List.mem_append, Frame.mem_resumeStatesAll] at hN
  rcases hN with hN | ⟨f, hf, hN⟩
  · obtain ⟨s, hs, rfl⟩ := List.mem_map.mp hN
    obtain ⟨q, o', e, he, hcode⟩ := Built.suspends hresumes hlevel hs
    have hcase : ⟨s.state, some s.resume⟩ ∈ level.resumeCases :=
      List.mem_append_left _ (List.mem_map.mpr ⟨s, hs, rfl⟩)
    have hnone : liveFrames level.children s.state = [] := by
      refine liveFrames_outside fun hmem => ?_
      have hstates := List.Nodup.of_cons (hlevel.nodup h.contents_nodup)
      exact (List.nodup_append.mp hstates).2.2 _ hN _ hmem rfl
    rw [hnone]
    exact ⟨st, level, s, q, o', e, hlevel, hs, rfl, he, hcode, .dispatch hinstr
      (h.dispatch_advances hresumes ctx hx (caseLabel_of_mem hdistinct (hcases _ hcase) l)
        (suspend_resume hcode) hd hcaught) (.done _)⟩
  · obtain ⟨st', level', s, q, o', e, hlevel', hs, hstate, he, hcode, hthreads⟩ := hinside f hf hN
    obtain ⟨p', first, hopens⟩ := h.opens hresumes (hlevel.mem hf)
    have hentry := hopens.mem (List.mem_cons_of_mem _ List.mem_cons_self)
    have hcase : ⟨N, some f.entry⟩ ∈ level.resumeCases :=
      List.mem_append_right _ (List.mem_flatMap.mpr ⟨f, hf, List.mem_map.mpr ⟨N, hN, rfl⟩⟩)
    rw [liveFrames_of_mem hlive hf (Frame.liveStates_of_resume hN), List.reverse_append]
    exact ⟨st', level', s, q, o', e, hlevel', hs, hstate, he, hcode, .dispatch hinstr
      (h.dispatch_advances hresumes ctx hx (caseLabel_of_mem hdistinct (hcases _ hcase) l) hentry hd
        hcaught) hthreads⟩

mutual

theorem Built.frame_leads (h : Built markers origin owner sm plan c b k n)
    (hresumes : Resumes plan (.dispose owner) c b sm.moveNext.body T invalid start b')
    (hd : d.At ref (World.Reads ref sm.state (.int N))) (hcaught : d.activation.caught = []) :
    ∀ f : Frame, f ∈ Frame.preorderAll c.children → N ∈ f.resumeStates →
      LeadsBack ctx sm plan b c (guardedSites plan (.dispose owner) c invalid start b')
        [.guarded (wholeTry plan (.dispose owner) c invalid start b')] d N (entryOf sm f + 1)
        (liveFrames f.children N).reverse
  | .mk state entry cleanup suspensions children, hf, hN => by
    have hlevel : Level c state ⟨suspensions, children⟩ := level_iff.mpr (.inr ⟨_, hf, rfl, rfl⟩)
    obtain ⟨p, first, hopens⟩ := h.opens hresumes hf
    refine h.level_leads hresumes ctx hd hcaught hlevel (opening_dispatch hopens) (fun x hx => hx)
      ?_ hN (h.frames_lead hresumes hd hcaught children fun g hg => hlevel.mem hg)
    rw [Contents.resumeCases_values]
    exact Contents.resumeStates_nodup (List.Nodup.of_cons (hlevel.nodup h.contents_nodup))

theorem Built.frames_lead (h : Built markers origin owner sm plan c b k n)
    (hresumes : Resumes plan (.dispose owner) c b sm.moveNext.body T invalid start b')
    (hd : d.At ref (World.Reads ref sm.state (.int N))) (hcaught : d.activation.caught = []) :
    ∀ fs : List Frame, (∀ f ∈ fs, f ∈ Frame.preorderAll c.children) → ∀ f ∈ fs,
      N ∈ f.resumeStates →
      LeadsBack ctx sm plan b c (guardedSites plan (.dispose owner) c invalid start b')
        [.guarded (wholeTry plan (.dispose owner) c invalid start b')] d N (entryOf sm f + 1)
        (liveFrames f.children N).reverse
  | [], _ => fun _ hf => nomatch hf
  | first :: rest, hfs => List.forall_mem_cons.mpr
    ⟨h.frame_leads hresumes hd hcaught first (hfs first List.mem_cons_self),
      h.frames_lead hresumes hd hcaught rest fun g hg => hfs g (List.mem_cons_of_mem _ hg)⟩

end

end Levels

/-! ## Where a machine goes on -/

/-- How the routine `r` of the method that resumes goes on from the states of a machine with `count`
suspension points, whose hoisted body is `b` and whose frames are those of `c`.  No instruction on
the way changes the configuration `d`, apart from the one at its end that sets the state. -/
structure Dispatched (ctx : Context σ) (owner : TypeDecl) (sm : StateMachine) (plan : Plan)
    (b : Block) (c : Contents) (count : Nat) (r : Routine) : Prop where
  /-- No dispatch has two cases for one number. -/
  distinct : ∀ (pc : Nat) e (cases : List (Int × Nat)) otherwise,
    r.instrs[pc]? = some (.dispatch e cases otherwise) → (cases.map Prod.fst).Nodup
  /-- The body stands at position 4. -/
  body : ∃ T invalid start b',
    Resumes plan (.dispose owner) c b sm.moveNext.body T invalid start b' ∧
    placesBlock 4 b' <:+: placesBlock 0 sm.moveNext.body
  /-- From the number of a suspension point, control goes through the dispatch at the start and
  through those of the extracted tries around the suspension point, outer ones first, to the
  instruction that sets the state of the innermost of them, and on behind the code of the suspension
  point. -/
  resumed : ∀ i < count, ∃ p e q o resume, (spotsBlock [] 0 0 b).points[i]? = some p ∧
    p.state = (i + 1 : Nat) ∧ (elementsBlock b)[i]? = some e ∧
    placesStmt q (suspend plan o e ⟨p.state, resume⟩ p.region) <:+: placesBlock 0 sm.moveNext.body ∧
    ∀ ref (d : Config σ), d.At ref (World.Reads ref sm.state (.int (i + 1 : Nat))) →
      d.activation.caught = [] →
      GoesOn ctx r (Made.field plan.provenance sm.state) d
        (0 :: ((Frame.preorderAll c.children).filter fun f => f.state ∈ p.around).map
          fun f => entryOf sm f + 1)
        (q + 3) (q + sizeStmt (suspend plan o e ⟨p.state, resume⟩ p.region))
        { d with world := d.world.put ref sm.state (.int p.region) }
  /-- A new machine begins with the body, outside of every frame. -/
  created : ∀ ref (d : Config σ), d.At ref (World.Reads ref sm.state (.int stateCreated)) →
    d.activation.caught = [] →
    GoesOn ctx r (Made.field plan.provenance sm.state) d [0] 3 4
      { d with world := d.world.put ref sm.state (.int stateRunning) }
  /-- From all other numbers, control goes to the call that says that the machine cannot be
  resumed. -/
  rejected : ∀ N : Int, N < 0 ∨ count < N → ∀ ref (d : Config σ),
    d.At ref (World.Reads ref sm.state (.int N)) → d.activation.caught = [] →
    Threads ctx r (Made.field plan.provenance sm.state) d 0 [0] 1 ∧
      r.instrs[1]? = some (.exec (.call (.made plan.provenance) .absent .invalidResumption []))
  /-- In the state of a frame, control goes through its dispatch to what is inside the frame. -/
  entered : ∀ f ∈ Frame.preorderAll c.children, ∀ ref (d : Config σ),
    d.At ref (World.Reads ref sm.state (.int f.state)) → d.activation.caught = [] →
    Threads ctx r (Made.field plan.provenance sm.state) d (entryOf sm f + 1) [entryOf sm f + 1]
      (entryOf sm f + 2)

/-- A machine is resumed by the numbers of its suspension points. -/
theorem FrameTree.number_of_resume {x : Spots} {c : Contents} (h : FrameTree x c) {s : Int}
    (hs : s ∈ c.resumeStates) : ∃ i < x.points.length, s = (i + 1 : Nat) := by
  obtain ⟨st, level, hlevel, hmem⟩ := Contents.mem_resumeStates.mp hs
  rw [(h.inside st level hlevel).1] at hmem
  obtain ⟨p, hp, rfl⟩ := List.mem_map.mp hmem
  have hrange := List.mem_map_of_mem (f := Spot.state) (List.mem_filter.mp hp).1
  rw [h.points] at hrange
  obtain ⟨i, hi, hstate⟩ := List.mem_map.mp hrange
  rw [List.mem_range'_1] at hi
  exact ⟨i - 1, by omega, by omega⟩

section Machine

variable {markers : Bool} {origin : MethodBody} {owner : TypeDecl} {sm : StateMachine} {plan : Plan}
  {c : Contents} {b : Block} {k n : Nat} {T : Table} {invalid start : Label} {b' : Block}

theorem Built.rootCases_nodup (h : Built markers origin owner sm plan c b k n) (start : Label) :
    ((⟨stateCreated, some start⟩ :: c.resumeCases).map DispatchCase.value).Nodup := by
  rw [List.map_cons, Contents.resumeCases_values]
  exact List.nodup_cons.mpr ⟨fun hs => (h.states_ne (Contents.states_of_resume hs)).1 rfl,
    Contents.resumeStates_nodup (List.Nodup.of_cons h.contents_nodup)⟩

/-- The dispatches of the method are that at its start and those of the frames. -/
theorem Resumes.dispatches
    (hresumes : Resumes plan (.dispose owner) c b sm.moveNext.body T invalid start b') :
    dispatchesOf (placesBlock 0 sm.moveNext.body) =
      (⟨stateCreated, some start⟩ :: c.resumeCases) :: frameCases c.children := by
  have hguarded : dispatchesOf (placesBlock 0 (guardedBody plan c invalid start b')) =
      (⟨stateCreated, some start⟩ :: c.resumeCases) :: (dispatchesOf (placesBlock 4 b') ++ []) := by
    rw [show placesBlock 0 (guardedBody plan c invalid start b') =
      [(0, .dispatch (.made plan.provenance) plan.stateRef
          (⟨stateCreated, some start⟩ :: c.resumeCases) (some invalid)),
        (1, Made.label plan.provenance invalid),
        (1, Made.callHost plan.provenance .invalidResumption), (2, plan.returnBool false),
        (3, Made.label plan.provenance start), (3, plan.setState stateRunning)] ++
      (placesBlock 4 b' ++ _) from rfl, dispatchesOf_append, dispatchesOf_append]
    rfl
  rw [hresumes.body, moveNextBody_eq, Made.block, placesBlock, placesStmts, placesStmt,
    dispatchesOf_append, dispatchesOf_append, dispatchesOf_append, hguarded,
    imageBlock_dispatches hresumes.image, List.append_nil]
  show _ ++ [] ++ [] ++ [] = _
  rw [List.append_nil, List.append_nil, List.append_nil]

/-- No dispatch of the method has two cases for one number. -/
theorem Built.dispatch_distinct (h : Built markers origin owner sm plan c b k n) {pc : Nat}
    {e : Expr} {cases : List (Int × Nat)} {otherwise : Nat}
    (hinstr : (routineOf sm.moveNext.symbol sm.moveNext.body).instrs[pc]? =
      some (.dispatch e cases otherwise)) : (cases.map Prod.fst).Nodup := by
  obtain ⟨T, invalid, start, b', hresumes⟩ := h.resumes
  rcases site_of_instr hinstr with ⟨-, hreturn⟩ | ⟨x, hx, rfl, j, hj, hmap⟩
  · cases hreturn
  · obtain ⟨o, cs, l, hitem, hvalues⟩ := Site.dispatch_of_instr hj hmap
    obtain ⟨pc, item, parts⟩ := x
    obtain rfl : item = .stmt (.dispatch o e cs l) := hitem
    have hmem : cs ∈ dispatchesOf (placesBlock 0 sm.moveNext.body) :=
      List.mem_filterMap.mpr ⟨_, mem_placesBlock_of_site hx, rfl⟩
    rw [hvalues]
    rw [hresumes.dispatches, List.mem_cons] at hmem
    rcases hmem with rfl | hmem
    · exact h.rootCases_nodup start
    · obtain ⟨f, hf, rfl⟩ := List.mem_map.mp hmem
      rw [Contents.resumeCases_values]
      have hlevel : Level c f.state ⟨f.suspensions, f.children⟩ :=
        level_iff.mpr (.inr ⟨f, hf, rfl, rfl⟩)
      exact Contents.resumeStates_nodup (List.Nodup.of_cons (hlevel.nodup h.contents_nodup))

theorem Resumes.places_inside
    (h : Resumes plan (.dispose owner) c b sm.moveNext.body T invalid start b') {around : List Part}
    {pc : Nat} {s : Stmt}
    (hs : sitesStmt around pc s <:+: guardedSites plan (.dispose owner) c invalid start b') :
    placesStmt pc s <:+: placesBlock 0 sm.moveNext.body := by
  rw [← places_of_sites_stmt around pc s, ← places_of_sites [] 0 sm.moveNext.body, h.body]
  exact (hs.trans (guardedSites_inside plan (.dispose owner) c invalid start b')).filterMap _

/-- The instruction that sets the state goes on at the next one. -/
theorem Built.setState_advances (h : Built markers origin owner sm plan c b k n)
    (hresumes : Resumes plan (.dispose owner) c b sm.moveNext.body T invalid start b')
    {ctx : Context σ} {ref : Ref} {d : Config σ} (hthis : d.activation.this = some ref) {pc : Nat}
    {st : Int} {parts : List Part}
    (hx : ⟨pc, .stmt (plan.setState st), parts⟩ ∈
      guardedSites plan (.dispose owner) c invalid start b') :
    Advances ctx (routineOf sm.moveNext.symbol sm.moveNext.body) pc d (pc + 1)
      { d with world := d.world.put ref sm.state (.int st) } := by
  rw [h.state]
  exact exec_advances (instr_of_site sm.moveNext.symbol (hresumes.mem_sites hx) rfl)
    (eval_stateAssignment ctx plan.provenance plan.state st hthis)

/-- The way from the number of a suspension point to behind its code. -/
theorem Built.resumed (h : Built markers origin owner sm plan c b k n)
    (hresumes : Resumes plan (.dispose owner) c b sm.moveNext.body T invalid start b')
    (htree : FrameTree (spotsBlock [] 0 0 b) c) {p : Spot}
    (hp : p ∈ (spotsBlock [] 0 0 b).points) (ctx : Context σ) :
    ∃ e q o resume, ElementOf b p.state e ∧
      placesStmt q (suspend plan o e ⟨p.state, resume⟩ p.region) <:+: placesBlock 0 sm.moveNext.body ∧
      ∀ ref (d : Config σ), d.At ref (World.Reads ref sm.state (.int p.state)) →
        d.activation.caught = [] →
        GoesOn ctx (routineOf sm.moveNext.symbol sm.moveNext.body)
          (Made.field plan.provenance sm.state) d
          (0 :: ((Frame.preorderAll c.children).filter fun f => f.state ∈ p.around).map
            fun f => entryOf sm f + 1)
          (q + 3) (q + sizeStmt (suspend plan o e ⟨p.state, resume⟩ p.region))
          { d with world := d.world.put ref sm.state (.int p.region) } := by
  obtain ⟨level, hlevel, hmem, hunique⟩ := htree.once p hp
  have hN : p.state ∈ c.resumeStates := Contents.mem_resumeStates.mpr ⟨_, level, hlevel, hmem⟩
  obtain ⟨⟨_, resume⟩, hs, rfl⟩ := List.mem_map.mp hmem
  obtain ⟨q, o, e, he, hcode⟩ := Built.suspends hresumes hlevel hs
  have hplaces := hresumes.places_inside hcode
  refine ⟨e, q, o, resume, he, hplaces, fun ref d hd hcaught => .of_threads ?_ ?_⟩
  · have hbegin := (beginningSites_inside plan (.dispose owner) c invalid start b').mem
      List.mem_cons_self
    obtain ⟨st, level', s, q', o', e', hlevel', hs', hstate, -, hcode', hthreads⟩ :=
      h.level_leads hresumes ctx hd hcaught .top hbegin
        (fun x hx => List.mem_cons_of_mem _ hx) (h.rootCases_nodup start) hN
        (h.frames_lead hresumes hd hcaught c.children fun f hf =>
          Frame.preorderAll_of_mem hf f.mem_preorder_self)
    -- The suspension point there has the same label, which stands at one position.
    obtain ⟨-, rfl⟩ := hunique st level' hlevel' (List.mem_map.mpr ⟨s, hs', hstate⟩)
    have hstates : (level'.suspensions.map Suspension.state).Nodup :=
      (List.Nodup.of_cons (hlevel.nodup h.contents_nodup)).sublist (List.sublist_append_left _ _)
    obtain rfl := List.inj_on_of_nodup_map hstates hs' hs hstate
    have hexecutable := h.executable sm.moveNext List.mem_cons_self
    have hlabel := hexecutable.recorded_of_site (hresumes.mem_sites (suspend_resume hcode))
    have hlabel' := hexecutable.recorded_of_site (hresumes.mem_sites (suspend_resume hcode'))
    have hq : q' + 3 = q + 3 := Option.some.inj (hlabel'.symm.trans hlabel)
    have hfilter : (liveFrames c.children p.state).reverse =
        (Frame.preorderAll c.children).filter fun f => f.state ∈ p.around := by
      rw [liveFrames, List.reverse_reverse]
      refine List.filter_congr fun f hf => ?_
      rw [decide_eq_decide]
      exact htree.suspended f hf p hp
    rw [hfilter, hq] at hthreads
    rw [h.state]
    exact hthreads
  · rw [sites_suspend] at hcode
    exact h.setState_advances hresumes hd.this (hcode.mem (List.mem_of_mem_getLast? rfl))

/-- The way through the dispatch at the start to one of its labels. -/
theorem Built.begins (h : Built markers origin owner sm plan c b k n)
    (hresumes : Resumes plan (.dispose owner) c b sm.moveNext.body T invalid start b')
    {ctx : Context σ} {ref : Ref} {d : Config σ} {N : Int}
    (hd : d.At ref (World.Reads ref sm.state (.int N)))
    (hcaught : d.activation.caught = []) {q : Nat} {l : Label}
    (hlabel : Setting.caseLabel (⟨stateCreated, some start⟩ :: c.resumeCases) (some invalid) N =
      some l)
    (hy : ⟨q, .stmt (Made.label plan.provenance l),
      [.guarded (wholeTry plan (.dispose owner) c invalid start b')]⟩ ∈
        beginningSites plan (.dispose owner) c invalid start b') :
    Threads ctx (routineOf sm.moveNext.symbol sm.moveNext.body)
      (Made.field plan.provenance sm.state) d 0 [0] q := by
  have hsites := beginningSites_inside plan (.dispose owner) c invalid start b'
  have hx := hsites.mem List.mem_cons_self
  have hinstr := (h.executable sm.moveNext List.mem_cons_self).dispatch_instr
    sm.moveNext.symbol (hresumes.mem_sites hx) ctx
  have hadvances := h.dispatch_advances hresumes ctx hx hlabel (hsites.mem hy) hd hcaught
  rw [h.state]
  exact .dispatch hinstr hadvances (.done q)

/-- How a machine goes on. -/
theorem Built.dispatched (h : Built markers origin owner sm plan c b k n)
    (htree : FrameTree (spotsBlock [] 0 0 b) c) (ctx : Context σ) :
    Dispatched ctx owner sm plan b c (elementsBlock b).length
      (routineOf sm.moveNext.symbol sm.moveNext.body) := by
  obtain ⟨T, invalid, start, b', hresumes⟩ := h.resumes
  have hcount : (spotsBlock [] 0 0 b).points.length = (elementsBlock b).length :=
    spotsBlock_points h.user [] 0 0
  have hsites := beginningSites_inside plan (.dispose owner) c invalid start b'
  have hdistinct := h.rootCases_nodup start
  refine ⟨fun pc e cases otherwise => h.dispatch_distinct, ?_, fun i hi => ?_,
    fun ref d hd hcaught => .of_threads ?_ ?_, fun N hN ref d hd hcaught => ⟨?_, ?_⟩,
    fun f hf ref d hd hcaught => ?_⟩
  · refine ⟨T, invalid, start, b', hresumes, ?_⟩
    have hplaces := (bodySites_inside plan (.dispose owner) c invalid start b').trans
      (guardedSites_inside plan (.dispose owner) c invalid start b')
    rw [← places_of_sites _ 4 b', ← places_of_sites [] 0 sm.moveNext.body, hresumes.body]
    exact hplaces.filterMap _
  · obtain ⟨p, hp⟩ : ∃ p, (spotsBlock [] 0 0 b).points[i]? = some p :=
      ⟨_, List.getElem?_eq_getElem (hcount ▸ hi)⟩
    have hstate : p.state = (i + 1 : Nat) := by
      have hpoints := congrArg (·[i]?) htree.points
      simp only [List.getElem?_map, hp, Option.map_some] at hpoints
      rw [List.getElem?_range' (hcount ▸ hi)] at hpoints
      have := Option.some.inj hpoints
      omega
    obtain ⟨e, q, o, resume, ⟨j, hj, he⟩, hplaces, hway⟩ :=
      h.resumed hresumes htree (List.mem_of_getElem? hp) ctx
    obtain rfl : j = i := by omega
    exact ⟨p, e, q, o, resume, hp, hstate, he, hplaces, fun ref d hd => hway ref d (hstate ▸ hd)⟩
  · refine h.begins hresumes hd hcaught (caseLabel_of_mem hdistinct List.mem_cons_self _) ?_
    simp [beginningSites]
  · exact h.setState_advances hresumes hd.this (hsites.mem (List.mem_of_mem_getLast? rfl))
  · refine h.begins hresumes hd hcaught (caseLabel_of_notMem (fun hmem => ?_) _) (l := invalid) ?_
    · rw [List.map_cons, Contents.resumeCases_values, List.mem_cons] at hmem
      rcases hmem with hmem | hmem
      · obtain rfl : N = 0 := hmem
        omega
      · obtain ⟨i, hi, rfl⟩ := htree.number_of_resume hmem
        omega
    · simp [beginningSites]
  · exact instr_of_site sm.moveNext.symbol (hresumes.mem_sites (hsites.mem
      (List.mem_cons_of_mem _ (List.mem_cons_of_mem _ List.mem_cons_self)))) rfl
  · have hlevel : Level c f.state ⟨f.suspensions, f.children⟩ :=
      level_iff.mpr (.inr ⟨f, hf, rfl, rfl⟩)
    obtain ⟨p, first, hopens⟩ := h.opens hresumes hf
    have hdispatch := opening_dispatch hopens
    have houtside : f.state ∉ (Contents.resumeCases ⟨f.suspensions, f.children⟩).map
        DispatchCase.value := fun hmem => by
      rw [Contents.resumeCases_values] at hmem
      exact (List.nodup_cons.mp (hlevel.nodup h.contents_nodup)).1 (Contents.states_of_resume hmem)
    have hinstr := (h.executable sm.moveNext List.mem_cons_self).dispatch_instr
      sm.moveNext.symbol (hresumes.mem_sites hdispatch) ctx
    have hadvances := h.dispatch_advances hresumes ctx hdispatch
      (caseLabel_of_notMem houtside _) (hopens.mem (List.mem_of_mem_getLast? rfl)) hd hcaught
    rw [h.state]
    exact .dispatch hinstr hadvances (.done _)

end Machine

/-- Resumption leads to the suspension point whose number the state is.  The dispatch at the start
and those of the frames around lead there, outer ones first, and evaluate nothing but the state;
then the state becomes that of the innermost frame around, or that of running outside of every
frame, and control goes on behind the code of the suspension point.  A new machine begins with the
body, and from every other number the call that reports it comes before anything of the body. -/
theorem resumes_behind_yield {file source : String} {program : Program}
    (hread : read file source = .ok program) {m : MethodBody} (hm : m ∈ program.methods)
    {markers : Bool} {sm : StateMachine} (hlower : lowerMethod markers m = .ok (.machine sm)) :
    ∃ w k plan b n r, walkBlock markers m.body 0 = (.ok w, k) ∧
      Prepares (machineType m.symbol) m w k plan b (contentsOf markers m) n ∧
      (∃ fields : Hoisted, List.Forall₂ (fun e e' => hoistExpr fields e = .ok e')
        (yieldsBlock m.body) (elementsBlock b)) ∧
      flatten sm.moveNext = .ok r ∧ ∀ ctx : Context σ,
        Dispatched ctx (machineType m.symbol) sm plan b (contentsOf markers m)
          (yieldsBlock m.body).length r := by
  have hscoped := scoped_methods hread hm
  have hbound := bound_methods hread hm
  obtain ⟨plan, w, b, k, n, hwalk, hprepares, hbuilt⟩ := built_of_walked hread hm hlower
  obtain ⟨first, fields, a, hdeclare, hhoist, -, -⟩ := id hprepares
  have hyields := Session.yields_hoisted (walkedBlock_of_ok hwalk)
    (hoistedAll_of_walked hscoped hbound (walkedBlock_of_ok hwalk) hdeclare hhoist)
  obtain ⟨hlowered, hrepresentable⟩ := analyzable_of_lowered hread hm hlower hwalk
  obtain ⟨hchart, hnodup⟩ := hprepares.charted hlowered hrepresentable
  refine ⟨w, k, plan, b, n, _, hwalk, hprepares, ⟨fields, hyields⟩,
    (hbuilt.executable sm.moveNext List.mem_cons_self).flatten sm.moveNext.symbol, fun ctx => ?_⟩
  rw [hyields.length_eq]
  exact hbuilt.dispatched (hchart.frameTree hnodup) ctx

/-- From the number 3 of the suspension point that stands inside two extracted tries, one inside the
other, control goes through three dispatches. -/
theorem resumes_behind_yield_branching : ∃ program m sm, ∃ plan : Plan, ∃ r,
    read "" branchingSource = .ok program ∧ m ∈ program.methods ∧
    lowerMethod true m = .ok (.machine sm) ∧ flatten sm.moveNext = .ok r ∧
    ∀ ctx : Context Unit, ∃ q, ∀ ref (d : Config Unit),
      d.At ref (World.Reads ref sm.state (.int 3)) → d.activation.caught = [] →
      GoesOn ctx r (Made.field plan.provenance sm.state) d [0, 10, 17] (q + 3) (q + 4)
        { d with world := d.world.put ref sm.state (.int (-4)) } := by
  obtain ⟨m, sm, hsample, -, -, hcount, hentries, f, hf, hinnermost, hthird⟩ := branching_sample
  obtain ⟨program, hread, hm, hlower⟩ := sample_eq_some hsample
  obtain ⟨w, k, plan, b, n, r, hwalk, hprepares, -, hflatten, hdispatched⟩ :=
    resumes_behind_yield (σ := Unit) hread hm hlower
  refine ⟨program, m, sm, plan, r, hread, hm, hlower, hflatten, fun ctx => ?_⟩
  obtain ⟨hlowered, hrepresentable⟩ := analyzable_of_lowered hread hm hlower hwalk
  obtain ⟨hchart, hnodup⟩ := hprepares.charted hlowered hrepresentable
  have htree := hchart.frameTree hnodup
  have hlt : 2 < (yieldsBlock m.body).length := hcount ▸ (by decide)
  obtain ⟨p, e, q, o, resume, hp, hstate, -, -, hway⟩ := (hdispatched ctx).resumed 2 hlt
  have hp := List.mem_of_getElem? hp
  have haround : ∀ f ∈ Frame.preorderAll (contentsOf true m).children,
      decide (f.state ∈ p.around) = decide (3 ∈ f.liveStates) := fun f hf => by
    rw [decide_eq_decide, ← htree.suspended f hf p hp, hstate]
    rfl
  obtain ⟨level, -, -, hunique⟩ := htree.once p hp
  obtain ⟨hregion, -⟩ := hunique _ _ (level_iff.mpr (.inr ⟨f, hf, rfl, rfl⟩)) (hstate ▸ hthird)
  refine ⟨q, fun ref d hd hcaught => ?_⟩
  have hroute := hway ref d hd hcaught
  rwa [List.filter_congr haround, hentries, ← hregion, hinnermost] at hroute

end Resumable.StateMachine
