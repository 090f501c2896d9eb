import Mathlib.Data.List.Chain
import Resumable.Proofs.Session.Cleanup

/-!
# Disposal

Which finallys the disposal of a state machine runs.  In a state, the frames that are still to be
cleaned up lie inside each other (`liveFrames`); disposal runs their finallys from the inside
outwards, whichever of them fail, reports all the failures (`verdict`), and leaves the machine
finished (`disposal_runs_live_finallys`).
-/

set_option autoImplicit false

namespace Resumable.StateMachine

open Resumable.Symbol Resumable.Tree Resumable.Source Resumable.Machine

/-! ## Frames to clean up -/

/-- The frames whose finallys are still to run in the state, inner ones first. -/
def liveFrames (frames : List Frame) (s : Int) : List Frame :=
  ((Frame.preorderAll frames).filter fun f => s ∈ f.liveStates).reverse

theorem mem_liveFrames {frames : List Frame} {s : Int} {f : Frame} :
    f ∈ liveFrames frames s ↔ f ∈ Frame.preorderAll frames ∧ s ∈ f.liveStates := by
  simp [liveFrames]

theorem liveFrames_cons (f : Frame) (rest : List Frame) (s : Int) :
    liveFrames (f :: rest) s = liveFrames rest s ++ liveFrames [f] s := by
  simp [liveFrames, Frame.preorderAll]

mutual

theorem Frame.liveStates_of_preorder : ∀ {f g : Frame} {s : Int}, g ∈ f.preorder →
    s ∈ g.liveStates → s ∈ f.liveStates
  | .mk state entry cleanup suspensions children, g, s, hg, hs => by
    rw [Frame.preorder, List.mem_cons] at hg
    rcases hg with rfl | hg
    · exact hs
    · rw [Frame.liveStates]
      exact List.mem_append_right _ (Frame.liveStates_of_preorderAll hg hs)

theorem Frame.liveStates_of_preorderAll : ∀ {fs : List Frame} {g : Frame} {s : Int},
    g ∈ Frame.preorderAll fs → s ∈ g.liveStates → s ∈ Frame.liveStatesAll fs
  | [], _, _, hg, _ => nomatch hg
  | f :: rest, g, s, hg, hs => by
    rw [Frame.preorderAll, List.mem_append] at hg
    rw [Frame.liveStatesAll, List.mem_append]
    exact hg.imp (fun h => Frame.liveStates_of_preorder h hs)
      fun h => Frame.liveStates_of_preorderAll h hs

end

/-- Outside of the frames there is nothing to clean up. -/
theorem liveFrames_outside {frames : List Frame} {s : Int} (h : s ∉ Frame.liveStatesAll frames) :
    liveFrames frames s = [] := by
  refine List.eq_nil_iff_forall_not_mem.mpr fun f hf => ?_
  obtain ⟨hmem, hs⟩ := mem_liveFrames.mp hf
  exact h (Frame.liveStates_of_preorderAll hmem hs)

theorem liveFrames_not_inside {f : Frame} {s : Int} (h : s ∉ f.liveStates) :
    liveFrames [f] s = [] := by
  refine liveFrames_outside ?_
  simpa [Frame.liveStatesAll] using h

/-- Inside a frame, those inside it come first. -/
theorem liveFrames_inside {f : Frame} {s : Int} (h : s ∈ f.liveStates) :
    liveFrames [f] s = liveFrames f.children s ++ [f] := by
  obtain ⟨state, entry, cleanup, suspensions, children⟩ := f
  simp [liveFrames, Frame.preorderAll, Frame.preorder, Frame.children, h]

theorem Frame.liveStates_eq (f : Frame) : f.liveStates =
    f.state :: (f.suspensions.map Suspension.state ++ Frame.liveStatesAll f.children) := by
  obtain ⟨state, entry, cleanup, suspensions, children⟩ := f
  simp [Frame.liveStates, Frame.state, Frame.suspensions, Frame.children]

theorem Frame.rooted_children {f : Frame} {field : Field} {parent : Int}
    (h : f.Rooted field parent) : Frame.RootedAll field f.state f.children := by
  obtain ⟨state, entry, cleanup, suspensions, children⟩ := f
  exact h.2

/-- The states inside the frames of a frame are not its own. -/
theorem Frame.nodup_children {f : Frame} (h : f.liveStates.Nodup) :
    (f.state :: Frame.liveStatesAll f.children).Nodup := by
  rw [Frame.liveStates_eq] at h
  exact h.sublist (List.Sublist.cons_cons _ (List.sublist_append_right _ _))

/-- If the first frames are live, the others are not. -/
theorem liveFrames_cons_inside {f : Frame} {rest : List Frame} {s : Int}
    (hnodup : (Frame.liveStatesAll (f :: rest)).Nodup) (h : s ∈ f.liveStates) :
    liveFrames (f :: rest) s = liveFrames f.children s ++ [f] := by
  have hrest : s ∉ Frame.liveStatesAll rest := by
    intro hs
    rw [Frame.liveStatesAll] at hnodup
    exact (List.nodup_append.mp hnodup).2.2 s h s hs rfl
  rw [liveFrames_cons, liveFrames_outside hrest, List.nil_append, liveFrames_inside h]

theorem liveFrames_cons_outside {f : Frame} {rest : List Frame} {s : Int} (h : s ∉ f.liveStates) :
    liveFrames (f :: rest) s = liveFrames rest s := by
  rw [liveFrames_cons, liveFrames_not_inside h, List.append_nil]

mutual

/-- The frames to clean up lie inside each other, and the outermost one is one of those given. -/
theorem liveFrames_nested_frame : ∀ (f : Frame) {s : Int}, f.liveStates.Nodup →
    s ∈ f.liveStates →
    List.IsChain (fun inner outer => inner ∈ outer.children) (liveFrames f.children s ++ [f])
  | .mk state entry cleanup suspensions children, s, hnodup, hs => by
    obtain ⟨hchain, hlast⟩ :=
      liveFrames_nested children (List.Nodup.of_cons (Frame.nodup_children hnodup)) (s := s)
    refine List.isChain_append.mpr ⟨hchain, List.isChain_singleton _, ?_⟩
    intro inner hinner outer houter
    cases houter
    exact hlast inner hinner

theorem liveFrames_nested : ∀ (fs : List Frame) {s : Int}, (Frame.liveStatesAll fs).Nodup →
    List.IsChain (fun inner outer => inner ∈ outer.children) (liveFrames fs s) ∧
      ∀ f ∈ (liveFrames fs s).getLast?, f ∈ fs
  | [], s, _ => ⟨List.isChain_nil, fun f hf => nomatch hf⟩
  | f :: rest, s, hnodup => by
    have hparts := hnodup
    rw [Frame.liveStatesAll] at hparts
    obtain ⟨hfirst, hothers, -⟩ := List.nodup_append.mp hparts
    by_cases hs : s ∈ f.liveStates
    · rw [liveFrames_cons_inside hnodup hs]
      refine ⟨liveFrames_nested_frame f hfirst hs, fun g hg => ?_⟩
      rw [List.getLast?_concat, Option.mem_some_iff] at hg
      exact hg ▸ List.mem_cons_self
    · rw [liveFrames_cons_outside hs]
      obtain ⟨hchain, hlast⟩ := liveFrames_nested rest hothers (s := s)
      exact ⟨hchain, fun g hg => List.mem_cons_of_mem _ (hlast g hg)⟩

end

/-! ## Failures of finallys -/

variable {σ : Type}

/-- The failure of a call, if it has failed. -/
def failuresOf : Except Failure Value → List Failure
  | .ok _ => []
  | .error g => [g]

/-- Run the finallys of frames on an instance in order, whichever of them fail; this gives their
failures. -/
def runCleanups (call : Caller σ) (r : Ref) :
    List Frame → World σ → Option (List Failure × World σ)
  | [], w => some ([], w)
  | f :: rest, w =>
    (call f.cleanup.symbol (some r) [] w).bind fun (result, w) =>
      (runCleanups call r rest w).map fun (failures, w) => (failuresOf result ++ failures, w)

/-- What is reported of failures: nothing if there is none, a single one as it is, and several as
one aggregate of their reasons in order. -/
def verdict : List Failure → Except Failure Unit
  | [] => .ok ()
  | [f] => .error f
  | fs => .error (.aggregate (fs.flatMap Failure.traps))

/-- How a part of the disposal ends that has met the failures. -/
def endingOf (failures : List Failure) : Ending := .ofResult (fun _ => .normal) (verdict failures)

section Cleanups

variable {call : Caller σ} {r : Ref} {f : Frame} {fs gs : List Frame} {w v : World σ}
  {failures : List Failure}

theorem runCleanups_cons : runCleanups call r (f :: fs) w = some (failures, v) ↔
    ∃ result m rest, call f.cleanup.symbol (some r) [] w = some (result, m) ∧
      runCleanups call r fs m = some (rest, v) ∧ failures = failuresOf result ++ rest := by
  simp only [runCleanups, Option.bind_eq_some_iff, Option.map_eq_some_iff]
  constructor
  · rintro ⟨⟨result, m⟩, hcall, ⟨rest, v'⟩, hrest, heq⟩
    cases heq
    exact ⟨result, m, rest, hcall, hrest, rfl⟩
  · rintro ⟨result, m, rest, hcall, hrest, rfl⟩
    exact ⟨(result, m), hcall, (rest, v), hrest, rfl⟩

theorem runCleanups_append : runCleanups call r (fs ++ gs) w = some (failures, v) ↔
    ∃ a b m, runCleanups call r fs w = some (a, m) ∧ runCleanups call r gs m = some (b, v) ∧
      failures = a ++ b := by
  induction fs generalizing w failures with
  | nil =>
    constructor
    · intro h
      exact ⟨[], failures, w, rfl, h, rfl⟩
    · rintro ⟨a, b, m, ha, hb, rfl⟩
      cases ha
      exact hb
  | cons f rest ih =>
    rw [List.cons_append, runCleanups_cons]
    constructor
    · rintro ⟨result, m, others, hcall, hothers, rfl⟩
      obtain ⟨a, b, i, ha, hb, rfl⟩ := ih.mp hothers
      refine ⟨failuresOf result ++ a, b, i, runCleanups_cons.mpr ⟨result, m, a, hcall, ha, rfl⟩, hb,
        ?_⟩
      rw [List.append_assoc]
    · rintro ⟨a, b, i, ha, hb, rfl⟩
      obtain ⟨result, m, a', hcall, ha', rfl⟩ := runCleanups_cons.mp ha
      refine ⟨result, m, a' ++ b, hcall, ih.mpr ⟨a', b, i, ha', hb, rfl⟩, ?_⟩
      rw [List.append_assoc]

theorem runCleanups_concat : runCleanups call r (fs ++ [f]) w = some (failures, v) ↔
    ∃ a m result, runCleanups call r fs w = some (a, m) ∧
      call f.cleanup.symbol (some r) [] m = some (result, v) ∧
      failures = a ++ failuresOf result := by
  rw [runCleanups_append]
  constructor
  · rintro ⟨a, b, m, ha, hb, rfl⟩
    obtain ⟨result, i, rest, hcall, hrest, rfl⟩ := runCleanups_cons.mp hb
    cases hrest
    exact ⟨a, m, result, ha, hcall, by rw [List.append_nil]⟩
  · rintro ⟨a, m, result, ha, hcall, rfl⟩
    refine ⟨a, failuresOf result, m, ha, runCleanups_cons.mpr ⟨result, v, [], hcall, rfl, ?_⟩, rfl⟩
    rw [List.append_nil]

end Cleanups

/-- One more failure joins what is reported. -/
theorem verdict_concat (failures : List Failure) (g : Failure) :
    verdict (failures ++ [g]) = .error (match verdict failures with
      | .ok _ => g
      | .error f => f.append g) := by
  match failures with
  | [] => rfl
  | [f] => simp [verdict, Failure.append]
  | f :: f' :: rest => simp [verdict, Failure.append, Failure.traps]

theorem endingOf_cases (failures : List Failure) : endingOf failures = .normal ∧
    verdict failures = .ok () ∨ ∃ f, endingOf failures = .failed f ∧ verdict failures = .error f := by
  unfold endingOf
  cases verdict failures with
  | ok u => exact .inl ⟨rfl, rfl⟩
  | error f => exact .inr ⟨f, rfl, rfl⟩

/-- A finally that is run behind others adds its failure. -/
theorem behindFinally_endingOf (failures : List Failure) (result : Except Failure Value) :
    (endingOf failures).behindFinally (.ofResult (fun _ => .normal) result) =
      some (endingOf (failures ++ failuresOf result)) := by
  cases result with
  | ok v =>
    rw [failuresOf, List.append_nil]
    cases endingOf failures <;> rfl
  | error g =>
    rw [failuresOf, endingOf.eq_def (failures ++ [g]), verdict_concat]
    rcases endingOf_cases failures with ⟨hending, hverdict⟩ | ⟨f, hending, hverdict⟩
    · rw [hending, hverdict]
      rfl
    · rw [hending, hverdict]
      exact congrArg (fun h => some (Ending.failed h)) (append_eq_together f g).symm

/-! ## Parts of the disposal -/

/-- The state is read. -/
theorem eval_stateRef {ctx : Context σ} {r : Ref} {plan : Plan} {v : Value} {c : Config σ}
    (hthis : c.activation.this = some r) (hv : c.world.Reads r plan.state v) :
    eval ctx plan.stateRef c = some (.ok v, c) := by
  simp only [Plan.stateRef, Made.field, Made.this, eval, Act.bind_apply, readThis_apply, hthis]
  rw [← hv.value]
  rfl

/-- The state decides a condition on it. -/
theorem truth_stateIn {ctx : Context σ} {r : Ref} {plan : Plan} {s : Int} {c : Config σ}
    (hc : c.At r (World.Reads r plan.state (.int s))) (states : List Int) (hne : states ≠ []) :
    truth ctx (stateIn plan states) c = some (.ok (decide (s ∈ states)), c) := by
  have hread : eval ctx plan.stateRef c = some (.ok (.int s), c) := eval_stateRef hc.this hc.world
  have hone : ∀ n, eval ctx (stateIs plan n) c = some (.ok (.bool (decide (s = n))), c) := by
    intro n
    simp only [stateIs, eval, Act.bind_apply, hread, Made.int, Act.pure_apply, BinaryOp.isLogical,
      Bool.false_eq_true, if_false, Value.ofConstant, applyBinary, Act.ofExcept_apply]
    simp
  have hmany : ∀ (rest : List Int) (condition : Expr) (b : Bool),
      eval ctx condition c = some (.ok (.bool b), c) →
      eval ctx (rest.foldl (fun condition n =>
        .binary (.made plan.provenance) .or condition (stateIs plan n)) condition) c =
        some (.ok (.bool (b || decide (s ∈ rest))), c) := by
    intro rest
    induction rest with
    | nil => simp
    | cons n rest ih =>
      intro condition b hcondition
      rw [List.foldl_cons, ih _ (b || decide (s = n)) ?_]
      · simp [Bool.or_assoc]
      · cases b <;> simp [eval, Act.bind_apply, hcondition, hone, BinaryOp.isLogical,
          Value.asBool, Act.ofExcept_apply, Act.pure_apply, -bind_pure_comp]
  cases states with
  | nil => exact absurd rfl hne
  | cons n rest =>
    rw [truth, Act.bind_apply, stateIn, hmany rest _ _ (hone n)]
    simp [Value.asBool, Act.ofExcept_apply]

theorem callCleanup_eq (p : Option Provenance) (f : Frame) : callCleanup p f =
    .expression (.made p) (.call (.made p) (Made.this p ((f.cleanup.symbol.owner).getD default))
      f.cleanup.symbol []) := rfl

/-- The call of a method of the instance. -/
theorem eval_callThis {ctx : Context σ} {r : Ref} {c : Config σ} (hthis : c.activation.this = some r)
    {m : Method} (hm : m.isHost = false) (p : Option Provenance) (owner : TypeDecl) :
    eval ctx (.call (.made p) (Made.this p owner) m []) c =
      (ctx.call m (some r) [] c.world).map fun z => (z.1, { c with world := z.2 }) := by
  simp only [Made.this, eval, evalAll, Act.bind_apply, Act.pure_apply, hm, Bool.false_eq_true,
    if_false, readThis_apply, hthis]
  exact Act.outside_apply _ c

/-- The finally of the frame can be called on the instance, and leaves it in the state that it sets
first. -/
structure Cleanable (call : Caller σ) (r : Ref) (field : Field) (f : Frame) : Prop where
  own : f.cleanup.symbol.isHost = false
  leaves : ∀ {o : Origin} {rest : List Stmt} {parent : Int},
    f.cleanup.body = .mk o [] (assignState o.provenance field parent :: rest) →
    ∀ {w v : World σ} {z : Except Failure Value}, r.number < w.objects.length →
      call f.cleanup.symbol (some r) [] w = some (z, v) → v.Reads r field (.int parent)

theorem Frame.Rooted.body {f : Frame} {field : Field} {parent : Int} (h : f.Rooted field parent) :
    ∃ o rest, f.cleanup.body = .mk o [] (assignState o.provenance field parent :: rest) := by
  obtain ⟨state, entry, cleanup, suspensions, children⟩ := f
  exact h.1

/-- From the configuration, the finallys of the frames are run with the ending. -/
def CleansUp (call : Caller σ) (r : Ref) (live : List Frame) (c : Config σ) (e : Ending)
    (d : Config σ) : Prop :=
  ∃ failures v, runCleanups call r live c.world = some (failures, v) ∧ e = endingOf failures ∧
    d = { c with world := v }

theorem cleansUp_nil {call : Caller σ} {r : Ref} {c d : Config σ} {e : Ending} :
    CleansUp call r [] c e d ↔ e = .normal ∧ d = c := by
  constructor
  · rintro ⟨failures, v, h, rfl, rfl⟩
    cases h
    exact ⟨rfl, rfl⟩
  · rintro ⟨rfl, rfl⟩
    exact ⟨[], d.world, rfl, rfl, rfl⟩

/-- The finally of a frame behind those inside it. -/
theorem cleansUp_concat {ctx : Context σ} {r : Ref} {live : List Frame} {f : Frame}
    {c d : Config σ} {e : Ending} (hthis : c.activation.this = some r)
    (hown : f.cleanup.symbol.isHost = false) (p : Option Provenance) :
    CleansUp ctx.call r (live ++ [f]) c e d ↔
      ∃ e' e'' m, CleansUp ctx.call r live c e' m ∧ Runs ctx (.one (callCleanup p f)) m e'' d ∧
        e'.behindFinally e'' = some e := by
  have heval : ∀ i : World σ, eval ctx (.call (.made p) (Made.this p
      ((f.cleanup.symbol.owner).getD default)) f.cleanup.symbol []) { c with world := i } =
        (ctx.call f.cleanup.symbol (some r) [] i).map fun z => (z.1, { c with world := z.2 }) :=
    fun i => eval_callThis (c := { c with world := i }) hthis hown p _
  constructor
  · rintro ⟨failures, v, hrun, rfl, rfl⟩
    obtain ⟨a, i, result, ha, hcall, rfl⟩ := runCleanups_concat.mp hrun
    refine ⟨endingOf a, .ofResult (fun _ => .normal) result, { c with world := i },
      ⟨a, i, ha, rfl, rfl⟩, ?_, behindFinally_endingOf a result⟩
    rw [callCleanup_eq, Runs.expression_iff]
    refine ⟨result, ?_, rfl⟩
    rw [heval, hcall]
    rfl
  · rintro ⟨e', e'', m, ⟨a, i, ha, rfl, rfl⟩, hcall, hend⟩
    rw [callCleanup_eq, Runs.expression_iff] at hcall
    obtain ⟨result, hresult, rfl⟩ := hcall
    rw [heval] at hresult
    obtain ⟨⟨result', v⟩, hcall, heq⟩ := Option.map_eq_some_iff.mp hresult
    cases heq
    rw [behindFinally_endingOf] at hend
    cases hend
    exact ⟨_, v, runCleanups_concat.mpr ⟨a, i, result', ha, hcall, rfl⟩, rfl, rfl⟩

/-- Finallys keep the instance there. -/
theorem runCleanups_present {call : Caller σ} {r : Ref} {field : Field} {fs : List Frame}
    (hfs : ∀ g ∈ fs, Cleanable call r field g ∧ ∃ p, g.Rooted field p) {w v : World σ}
    {failures : List Failure} (hpresent : r.number < w.objects.length)
    (hrun : runCleanups call r fs w = some (failures, v)) : r.number < v.objects.length := by
  induction fs generalizing w failures with
  | nil =>
    cases hrun
    exact hpresent
  | cons g rest ih =>
    obtain ⟨result, m, others, hcall, hothers, -⟩ := runCleanups_cons.mp hrun
    obtain ⟨⟨hcleanable, p, hp⟩, hrest⟩ := List.forall_mem_cons.mp hfs
    obtain ⟨o, ss, hbody⟩ := hp.body
    exact ih hrest (hcleanable.leaves hbody hpresent hcall).present hothers

/-- Behind the finally of a frame the instance is in the state around the frame. -/
theorem CleansUp.leaves {call : Caller σ} {r : Ref} {field : Field} {live : List Frame} {f : Frame}
    {parent : Int} (hroot : f.Rooted field parent)
    (hlive : ∀ g ∈ live ++ [f], Cleanable call r field g ∧ ∃ p, g.Rooted field p) {c d : Config σ}
    {e : Ending} (hthis : c.activation.this = some r)
    (hpresent : r.number < c.world.objects.length) (h : CleansUp call r (live ++ [f]) c e d) :
    d.At r (World.Reads r field (.int parent)) := by
  obtain ⟨failures, v, hrun, rfl, rfl⟩ := h
  refine ⟨hthis, ?_⟩
  obtain ⟨a, m, result, ha, hcall, -⟩ := runCleanups_concat.mp hrun
  have hm : r.number < m.objects.length :=
    runCleanups_present (fun g hg => hlive g (List.mem_append_left _ hg)) hpresent ha
  obtain ⟨o, ss, hbody⟩ := hroot.body
  exact (hlive f (List.mem_append_right _ (List.mem_singleton_self f))).1.leaves hbody hm hcall

mutual

theorem Frame.Rooted.inside {field : Field} : ∀ {f g : Frame} {parent : Int},
    f.Rooted field parent → g ∈ f.preorder → ∃ p, g.Rooted field p
  | .mk state entry cleanup suspensions children, g, parent, h, hg => by
    rw [Frame.preorder, List.mem_cons] at hg
    rcases hg with rfl | hg
    · exact ⟨parent, h⟩
    · exact Frame.rootedAll_inside h.2 hg

theorem Frame.rootedAll_inside {field : Field} : ∀ {fs : List Frame} {g : Frame} {parent : Int},
    Frame.RootedAll field parent fs → g ∈ Frame.preorderAll fs → ∃ p, g.Rooted field p
  | [], _, _, _, hg => nomatch hg
  | f :: rest, g, parent, h, hg => by
    rw [Frame.preorderAll, List.mem_append] at hg
    rcases hg with hg | hg
    · exact h.1.inside hg
    · exact Frame.rootedAll_inside h.2 hg

end

theorem disposeFrame_eq (plan : Plan) (f : Frame) : disposeFrame plan f =
    .if (.made plan.provenance) (stateIn plan f.liveStates)
      (.block (match f.children with
        | [] => Made.block plan.provenance [callCleanup plan.provenance f]
        | g :: gs => Made.block plan.provenance [.try (.made plan.provenance)
            (Made.block plan.provenance (disposeFrame plan g :: disposeFrames plan gs)) []
            (Made.block plan.provenance [callCleanup plan.provenance f])])) .absent := by
  obtain ⟨state, entry, cleanup, suspensions, children⟩ := f
  cases children with
  | nil => rw [disposeFrame]; rfl
  | cons g gs => rw [disposeFrame]; rfl

theorem runs_single_iff {ctx : Context σ} {s : Stmt} {c d : Config σ} {e : Ending} :
    Runs ctx (.all [s]) c e d ↔ Runs ctx (.one s) c e d := by
  rw [Runs.cons_iff]
  simp only [Runs.nil_iff]
  constructor
  · rintro (⟨m, h, rfl, rfl⟩ | ⟨h, -⟩) <;> exact h
  · intro h
    by_cases he : e = .normal
    · subst he
      exact .inl ⟨d, h, rfl, rfl⟩
    · exact .inr ⟨h, he⟩

/-- The statements inside the condition: first the frames inside, then the finally of the frame. -/
theorem runs_inner_iff {ctx : Context σ} {r : Ref} {plan : Plan} {f : Frame} {c d : Config σ}
    {e : Ending} (hthis : c.activation.this = some r) (hown : f.cleanup.symbol.isHost = false)
    {live : List Frame} (hchildren : ∀ e d, Runs ctx (.all (disposeFrames plan f.children)) c e d ↔
      CleansUp ctx.call r live c e d) :
    Runs ctx (.one (.block (match f.children with
      | [] => Made.block plan.provenance [callCleanup plan.provenance f]
      | g :: gs => Made.block plan.provenance [.try (.made plan.provenance)
          (Made.block plan.provenance (disposeFrame plan g :: disposeFrames plan gs)) []
          (Made.block plan.provenance [callCleanup plan.provenance f])]))) c e d ↔
      CleansUp ctx.call r (live ++ [f]) c e d := by
  rw [cleansUp_concat hthis hown plan.provenance]
  cases hcs : f.children with
  | nil =>
    rw [hcs] at hchildren
    simp only [disposeFrames, Runs.nil_iff] at hchildren
    rw [Made.block, Runs.block_iff, runs_single_iff]
    simp only [← hchildren]
    constructor
    · intro h
      refine ⟨.normal, e, c, ⟨rfl, rfl⟩, h, ?_⟩
      rw [callCleanup_eq, Runs.expression_iff] at h
      obtain ⟨result, -, rfl⟩ := h
      cases result <;> rfl
    · rintro ⟨e', e'', m, ⟨rfl, rfl⟩, h, hend⟩
      rw [callCleanup_eq, Runs.expression_iff] at h
      obtain ⟨result, hresult, rfl⟩ := h
      have : e = .ofResult (fun _ => .normal) result := by
        cases result <;> cases hend <;> rfl
      rw [this, callCleanup_eq, Runs.expression_iff]
      exact ⟨result, hresult, rfl⟩
  | cons g gs =>
    rw [hcs] at hchildren
    simp only [disposeFrames] at hchildren
    dsimp only
    rw [Made.block, Runs.block_iff, runs_single_iff, Runs.tryFinally_iff (by simp [Made.block])]
    simp only [Runs.unhandled_iff, Made.block, Block.statements, runs_single_iff, hchildren]

mutual

/-- The disposal of a frame runs the finallys that are live inside it. -/
theorem disposeFrame_iff {ctx : Context σ} {r : Ref} {plan : Plan} : ∀ (f : Frame) {parent s : Int},
    f.Rooted plan.state parent → f.liveStates.Nodup →
    (∀ g ∈ f.preorder, Cleanable ctx.call r plan.state g) → ∀ {c : Config σ},
    c.At r (World.Reads r plan.state (.int s)) → ∀ e d,
    Runs ctx (.one (disposeFrame plan f)) c e d ↔ CleansUp ctx.call r (liveFrames [f] s) c e d
  | .mk state entry cleanup suspensions children, parent, s, hroot, hnodup, hclean, c, hc, e, d => by
    have htruth : truth ctx (stateIn plan
        (Frame.mk state entry cleanup suspensions children).liveStates) c = _ :=
      truth_stateIn hc _ (by simp [Frame.liveStates])
    have hchildren := disposeFrames_iff children hroot.2 (Frame.nodup_children hnodup)
      (fun g hg => hclean g (List.mem_cons_of_mem _ hg)) hc
    rw [disposeFrame_eq, Runs.if_iff, htruth]
    by_cases hs : s ∈ (Frame.mk state entry cleanup suspensions children).liveStates
    · have hinner := runs_inner_iff (e := e) (d := d) hc.this
        (hclean _ (Frame.mem_preorder_self _)).own hchildren
      rw [liveFrames_inside hs]
      refine Iff.trans ?_ hinner
      simp [hs]
    · rw [liveFrames_not_inside hs, cleansUp_nil]
      simp [hs]

/-- The disposal of several frames of one frame. -/
theorem disposeFrames_iff {ctx : Context σ} {r : Ref} {plan : Plan} : ∀ (fs : List Frame)
    {parent s : Int}, Frame.RootedAll plan.state parent fs →
    (parent :: Frame.liveStatesAll fs).Nodup →
    (∀ g ∈ Frame.preorderAll fs, Cleanable ctx.call r plan.state g) → ∀ {c : Config σ},
    c.At r (World.Reads r plan.state (.int s)) → ∀ e d,
    Runs ctx (.all (disposeFrames plan fs)) c e d ↔ CleansUp ctx.call r (liveFrames fs s) c e d
  | [], parent, s, _, _, _, c, _, e, d => by
    rw [disposeFrames, Runs.nil_iff]
    exact cleansUp_nil.symm
  | f :: rest, parent, s, hroot, hnodup, hclean, c, hc, e, d => by
    obtain ⟨hparent, hstates⟩ := List.nodup_cons.mp hnodup
    rw [Frame.liveStatesAll] at hparent
    have hparts := hstates
    rw [Frame.liveStatesAll] at hparts
    obtain ⟨hfirst, hothers, -⟩ := List.nodup_append.mp hparts
    have hfirstClean : ∀ g ∈ f.preorder, Cleanable ctx.call r plan.state g :=
      fun g hg => hclean g (List.mem_append_left _ hg)
    have hrestClean : ∀ g ∈ Frame.preorderAll rest, Cleanable ctx.call r plan.state g :=
      fun g hg => hclean g (List.mem_append_right _ hg)
    have hrestNodup : (parent :: Frame.liveStatesAll rest).Nodup :=
      List.nodup_cons.mpr ⟨fun h => hparent (List.mem_append_right _ h), hothers⟩
    have hone := disposeFrame_iff f hroot.1 hfirst hfirstClean hc
    rw [disposeFrames, Runs.cons_iff]
    by_cases hs : s ∈ f.liveStates
    · -- Behind the finally of the frame the state is that around it, in which no other is live.
      have hlive : ∀ g ∈ liveFrames f.children s ++ [f],
          Cleanable ctx.call r plan.state g ∧ ∃ p, g.Rooted plan.state p := by
        intro g hg
        have hpre : g ∈ f.preorder := by
          rw [Frame.preorder_eq, List.mem_cons]
          rcases List.mem_append.mp hg with hg | hg
          · exact .inr (mem_liveFrames.mp hg).1
          · exact .inl (List.mem_singleton.mp hg)
        exact ⟨hfirstClean g hpre, hroot.1.inside hpre⟩
      have hrest : ∀ {m : Config σ}, CleansUp ctx.call r (liveFrames f.children s ++ [f]) c .normal m →
          ∀ e d, Runs ctx (.all (disposeFrames plan rest)) m e d ↔ e = .normal ∧ d = m := by
        intro m hm e d
        have hat := hm.leaves hroot.1 hlive hc.this hc.world.present
        rw [disposeFrames_iff rest hroot.2 hrestNodup hrestClean hat,
          liveFrames_outside (List.nodup_cons.mp hrestNodup).1, cleansUp_nil]
      rw [liveFrames_cons_inside hstates hs]
      rw [liveFrames_inside hs] at hone
      simp only [hone]
      constructor
      · rintro (⟨m, hm, hlast⟩ | ⟨h, -⟩)
        · obtain ⟨rfl, rfl⟩ := (hrest hm e d).mp hlast
          exact hm
        · exact h
      · intro h
        by_cases he : e = .normal
        · subst he
          exact .inl ⟨d, h, (hrest h _ _).mpr ⟨rfl, rfl⟩⟩
        · exact .inr ⟨h, he⟩
    · rw [liveFrames_not_inside hs] at hone
      rw [liveFrames_cons_outside hs,
        ← disposeFrames_iff rest hroot.2 hrestNodup hrestClean hc e d]
      simp only [hone]
      constructor
      · rintro (⟨m, hm, h⟩ | ⟨h, hne⟩)
        · obtain ⟨-, rfl⟩ := cleansUp_nil.mp hm
          exact h
        · exact absurd (cleansUp_nil.mp h).1 hne
      · intro h
        exact .inl ⟨c, cleansUp_nil.mpr ⟨rfl, rfl⟩, h⟩

end

/-! ## The whole disposal -/

mutual

theorem plain_disposeFrame (plan : Plan) : ∀ f : Frame, Lowering.Plain none true (disposeFrame plan f)
  | .mk state entry cleanup suspensions children => by
    cases children with
    | nil =>
      rw [disposeFrame]
      exact ⟨⟨trivial, trivial⟩, .inl rfl⟩
    | cons g gs =>
      rw [disposeFrame]
      refine ⟨⟨⟨⟨plain_disposeFrame plan g, plain_disposeFrames plan gs⟩, trivial, .inr ?_, .inr ?_⟩,
        trivial⟩, .inl rfl⟩
      · simp [Made.block]
      · exact ⟨trivial, trivial⟩

theorem plain_disposeFrames (plan : Plan) : ∀ fs : List Frame,
    Lowering.PlainAll none true (disposeFrames plan fs)
  | [] => trivial
  | f :: rest => ⟨plain_disposeFrame plan f, plain_disposeFrames plan rest⟩

end

theorem plain_disposeBody (plan : Plan) (fs : List Frame) :
    Lowering.PlainBlock none true (disposeBody plan fs) := by
  refine ⟨⟨plain_disposeFrames plan fs, trivial, .inr ?_, .inr ⟨trivial, trivial⟩⟩, trivial⟩
  simp [Made.block]

/-- Setting the state does nothing else. -/
theorem runs_setState_iff {ctx : Context σ} {r : Ref} {plan : Plan} {s : Int} {c d : Config σ}
    {e : Ending} (hthis : c.activation.this = some r) :
    Runs ctx (.one (plan.setState s)) c e d ↔
      e = .normal ∧ d = { c with world := c.world.put r plan.state (.int s) } := by
  show Runs ctx (.one (.expression (.made plan.provenance)
    (stateAssignment plan.provenance plan.state s))) c e d ↔ _
  rw [Runs.expression_iff, eval_stateAssignment ctx _ _ _ hthis]
  constructor
  · rintro ⟨result, heq, rfl⟩
    cases heq
    exact ⟨rfl, rfl⟩
  · rintro ⟨rfl, rfl⟩
    exact ⟨_, rfl, rfl⟩

/-- The disposal of all frames ends in the finished state. -/
theorem runs_disposeBody_iff {ctx : Context σ} {r : Ref} {plan : Plan} {fs : List Frame} {s : Int}
    (hroot : Frame.RootedAll plan.state stateRunning fs)
    (hnodup : (stateRunning :: Frame.liveStatesAll fs).Nodup)
    (hclean : ∀ g ∈ Frame.preorderAll fs, Cleanable ctx.call r plan.state g) {c d : Config σ}
    (hc : c.At r (World.Reads r plan.state (.int s))) {e : Ending} :
    Runs ctx (.one (.block (disposeBody plan fs))) c e d ↔
      ∃ failures v, runCleanups ctx.call r (liveFrames fs s) c.world = some (failures, v) ∧
        e = endingOf failures ∧
        d = { c with world := v.put r plan.state (.int stateFinished) } := by
  rw [disposeBody, Made.block, Runs.block_iff, runs_single_iff,
    Runs.tryFinally_iff (by simp [Made.block])]
  simp only [Runs.unhandled_iff, Made.block, Block.statements, runs_single_iff,
    disposeFrames_iff fs hroot hnodup hclean hc]
  constructor
  · rintro ⟨e', e'', m, ⟨failures, v, hrun, rfl, rfl⟩, hlast, hend⟩
    obtain ⟨rfl, rfl⟩ := (runs_setState_iff (c := { c with world := v }) hc.this).mp hlast
    refine ⟨failures, v, hrun, ?_, rfl⟩
    have hbehind := behindFinally_endingOf failures (.ok .null)
    rw [failuresOf, List.append_nil] at hbehind
    exact Option.some.inj (hend.symm.trans hbehind)
  · rintro ⟨failures, v, hrun, rfl, rfl⟩
    refine ⟨endingOf failures, .normal, { c with world := v }, ⟨failures, v, hrun, rfl, rfl⟩,
      (runs_setState_iff (c := { c with world := v }) hc.this).mpr ⟨rfl, rfl⟩, ?_⟩
    have hbehind := behindFinally_endingOf failures (.ok .null)
    rwa [failuresOf, List.append_nil] at hbehind

theorem endingOf_result (failures : List Failure) :
    (endingOf failures).result = (verdict failures).map fun _ => .null := by
  unfold endingOf
  cases verdict failures <;> rfl

section Machine

variable {markers : Bool} {origin : MethodBody} {owner : TypeDecl} {sm : StateMachine} {plan : Plan}
  {c : Contents} {b : Block} {k n : Nat}

theorem Built.rooted (h : Built markers origin owner sm plan c b k n) :
    Frame.RootedAll plan.state stateRunning c.children := by
  obtain ⟨a, a', -, -, hcounted⟩ := h.counted
  rw [h.planned]
  exact hcounted.rooted

/-- The states of the machine are all different, and none is that outside of every frame. -/
theorem Built.contents_nodup (h : Built markers origin owner sm plan c b k n) :
    (stateRunning :: c.states).Nodup := by
  obtain ⟨a, a', hcount, hframes, hcounted⟩ := h.counted
  refine List.nodup_cons.mpr ⟨fun hmem => ?_, hcounted.nodup⟩
  have hnumber := hcounted.states _ hmem
  unfold Numbers Between stateOfFrame stateRunning at hnumber
  omega

theorem Built.states_nodup (h : Built markers origin owner sm plan c b k n) :
    (stateRunning :: Frame.liveStatesAll c.children).Nodup :=
  h.contents_nodup.sublist (List.Sublist.cons_cons _ (List.sublist_append_right _ _))

/-- No two frames to clean up have one method. -/
theorem Built.liveFrames_nodup (h : Built markers origin owner sm plan c b k n) (s : Int) :
    ((liveFrames c.children s).map fun f => f.cleanup.symbol).Nodup := by
  obtain ⟨a, a', -, -, hcounted⟩ := h.counted
  refine List.Nodup.of_map Method.name ?_
  rw [List.map_map]
  refine List.Nodup.sublist ((List.filter_sublist (l := Frame.preorderAll _)).reverse.map _) ?_
  rw [List.map_reverse, List.nodup_reverse]
  exact hcounted.distinct

/-- The finallys of the machine can be called where the machine is loaded. -/
theorem Built.cleanable (h : Built markers origin owner sm plan c b k n) {m : Machine σ} {r : Ref}
    (hcarries : Carries sm m) (hundisturbed : Undisturbed m r) (steps depth : Nat) :
    ∀ f ∈ Frame.preorderAll c.children,
      Cleanable (callWithin m steps (depth + 1)) r sm.state f := by
  intro f hf
  obtain ⟨name, hsymbol⟩ := h.cleanup_symbol hf
  refine ⟨by rw [hsymbol]; rfl, fun hbody _ _ _ hpresent hcall => ?_⟩
  exact h.cleanup_leaves hcarries hundisturbed hf hbody hpresent hcall

/-- The finallys of the machine keep the instance there. -/
theorem Built.present_of_runCleanups (h : Built markers origin owner sm plan c b k n) {m : Machine σ}
    {r : Ref} (hcarries : Carries sm m) (hundisturbed : Undisturbed m r) {steps depth : Nat}
    {w v : World σ} {s : Int} {failures : List Failure} (hpresent : r.number < w.objects.length)
    (hrun : runCleanups (callWithin m steps (depth + 1)) r (liveFrames c.children s) w =
      some (failures, v)) : r.number < v.objects.length := by
  have hlive : ∀ g ∈ liveFrames c.children s,
      Cleanable (callWithin m steps (depth + 1)) r sm.state g ∧ ∃ p, g.Rooted sm.state p := by
    intro g hg
    have hmem := (mem_liveFrames.mp hg).1
    refine ⟨h.cleanable hcarries hundisturbed steps depth g hmem, ?_⟩
    rw [h.state]
    exact Frame.rootedAll_inside h.rooted hmem
  exact runCleanups_present hlive hpresent hrun

/-- A disposal ends if and only if the live finallys do.  It reports their failures and leaves the
instance finished. -/
theorem Built.dispose_iff (h : Built markers origin owner sm plan c b k n) {m : Machine σ} {r : Ref}
    (hcarries : Carries sm m) (hundisturbed : Undisturbed m r) (depth : Nat) {w : World σ} {s : Int}
    (hstate : w.Reads r sm.state (.int s)) (res : Except Failure Value) (w' : World σ) :
    (∃ steps, callWithin m steps (depth + 2) sm.dispose.symbol (some r) [] w = some (res, w')) ↔
      ∃ steps failures v, runCleanups (callWithin m steps (depth + 1)) r
          (liveFrames c.children s) w = some (failures, v) ∧
        res = (verdict failures).map (fun _ => .null) ∧
        w' = v.put r sm.state (.int stateFinished) := by
  have hmem : sm.dispose ∈ sm.methods := List.mem_cons_of_mem _ List.mem_cons_self
  have hexecutable := h.executable _ hmem
  rw [callWithin_iff hexecutable (hcarries.routine hmem hexecutable)]
  refine exists_congr fun steps => ?_
  rw [Lowering.execBody_iff_runs rfl (plain_disposeBody plan c.children) h.dispose
    hexecutable.nodup]
  have hclean := h.cleanable hcarries hundisturbed steps depth
  rw [h.state] at hstate hclean ⊢
  constructor
  · rintro ⟨e, d, hruns, rfl, rfl⟩
    obtain ⟨failures, v, hrun, rfl, rfl⟩ :=
      (runs_disposeBody_iff h.rooted h.states_nodup hclean ⟨rfl, hstate⟩).mp hruns
    exact ⟨failures, v, hrun, endingOf_result failures, rfl⟩
  · rintro ⟨failures, v, hrun, rfl, rfl⟩
    exact ⟨endingOf failures, _, (runs_disposeBody_iff h.rooted h.states_nodup hclean
      ⟨rfl, hstate⟩).mpr ⟨failures, v, hrun, rfl, rfl⟩, endingOf_result failures, rfl⟩

end Machine

end Resumable.StateMachine

namespace Resumable.Session

open Resumable.Machine Resumable.Symbol Resumable.Tree Resumable.Source Resumable.Lowering
open Resumable.StateMachine

variable {σ : Type}

theorem Enumerator.dispose_eq_some {m : Machine σ} {steps : Nat} {e : Enumerator}
    {w w' : World σ} {res : Except Failure Unit} : e.dispose m steps w = some (res, w') ↔
      ∃ z, m.call steps e.machine.dispose.symbol (some e.object) [] w = some (z, w') ∧
        res = z.map fun _ => () := by
  rw [Enumerator.dispose, bind_apply]
  cases m.call steps e.machine.dispose.symbol (some e.object) [] w with
  | none => simp
  | some p =>
    obtain ⟨z, v⟩ := p
    cases z with
    | ok x =>
      constructor
      · intro h
        cases h
        exact ⟨_, rfl, rfl⟩
      · rintro ⟨z, hz, rfl⟩
        cases hz
        rfl
    | error f =>
      constructor
      · intro h
        cases h
        exact ⟨_, rfl, rfl⟩
      · rintro ⟨z, hz, rfl⟩
        cases hz
        rfl

/-- The disposal of an instance whose state has any number runs the finallys of exactly the frames
that are live in the state, each once and from the inside outwards, whichever of them fail.  It ends
if and only if they do; it reports nothing if none of them fails, the failure of one as it is, and
those of several as an aggregate of their reasons in order; and it leaves the instance finished. -/
theorem disposal_runs_live_finallys {file source : String} {program : Program}
    (hread : read file source = .ok program) {m : MethodBody} (hm : m ∈ program.methods)
    {markers : Bool} {sm : StateMachine} (hlower : lowerMethod markers m = .ok (.machine sm))
    {machine : Machine σ} (hcarries : Carries sm machine) {r : Ref}
    (hundisturbed : Undisturbed machine r) {w : World σ} {s : Int}
    (hstate : w.Reads r sm.state (.int s)) :
    let live := liveFrames (framesOf markers m) s
    (∀ f, f ∈ live ↔ f ∈ Frame.preorderAll (framesOf markers m) ∧ s ∈ f.liveStates) ∧
    (live.map fun f => f.cleanup.symbol).Nodup ∧
    List.IsChain (fun inner outer => inner ∈ outer.children) live ∧
    ∀ res w', (∃ steps, Enumerator.dispose machine steps ⟨sm, r⟩ w = some (res, w')) ↔
      ∃ steps failures v,
        runCleanups (callWithin machine steps (maxDepth - 1)) r live w = some (failures, v) ∧
        res = verdict failures ∧ w' = v.put r sm.state (.int stateFinished) ∧
        w'.Reads r sm.state (.int stateFinished) := by
  intro live
  obtain ⟨plan, b, k, n, hbuilt⟩ := built_of_lowered hread hm hlower
  refine ⟨fun f => mem_liveFrames, hbuilt.liveFrames_nodup s, ?_, fun res w' => ?_⟩
  · exact (liveFrames_nested _ (List.Nodup.of_cons hbuilt.states_nodup)).1
  · simp only [Enumerator.dispose_eq_some]
    have hdispose := hbuilt.dispose_iff hcarries hundisturbed (maxDepth - 2) hstate
    constructor
    · rintro ⟨steps, z, hcall, rfl⟩
      obtain ⟨steps, failures, v, hrun, rfl, rfl⟩ := (hdispose z w').mp ⟨steps, hcall⟩
      refine ⟨steps, failures, v, hrun, ?_, rfl, ?_⟩
      · cases verdict failures <;> rfl
      · exact .put_self (hbuilt.present_of_runCleanups hcarries hundisturbed hstate.present hrun)
    · rintro ⟨steps, failures, v, hrun, rfl, rfl, -⟩
      obtain ⟨steps, hcall⟩ := (hdispose ((verdict failures).map fun _ => .null)
        (v.put r sm.state (.int stateFinished))).mpr ⟨steps, failures, v, hrun, rfl, rfl⟩
      refine ⟨steps, _, hcall, ?_⟩
      cases verdict failures <;> rfl

/-- A method that suspends inside two finallys. -/
def nestedSource : String :=
  "class C \x7b extern void F(int n); iterator int M() \x7b try \x7b try \x7b yield return 1; \x7d " ++
    "finally \x7b F(1); \x7d \x7d finally \x7b F(2); \x7d \x7d \x7d"

/-- Every host method throws its argument, and the arguments are kept. -/
def throwing : Hosts (List Value) := fun _ => some fun args kept =>
  (.failure (.single (.thrown (args.headD .null))), kept ++ args)

theorem undisturbed_throwing (bodies : List MethodBody) (r : Ref) :
    Undisturbed (Machine.load { hosts := throwing } bodies) r := by
  intro name host hhost args s method this args' s' hreply
  cases hhost
  cases hreply

/-- A world with one instance, in the given state. -/
def oneInstance (sm : StateMachine) (s : Int) : World (List Value) :=
  World.put { objects := [[]], hosts := [] } ⟨0, sm.members.owner⟩ sm.state (.int s)

theorem disposal_runs_live_finallys_nested : ∃ program m sm w',
    read "" nestedSource = .ok program ∧ m ∈ program.methods ∧
    lowerMethod true m = .ok (.machine sm) ∧
    Enumerator.dispose (Machine.load { hosts := throwing } sm.methods) 100
      ⟨sm, ⟨0, sm.members.owner⟩⟩ (oneInstance sm 1) =
        some (.error (.aggregate [.thrown (.int 1), .thrown (.int 2)]), w') ∧
    w'.hosts = [.int 1, .int 2] ∧
    ∃ steps failures v, runCleanups
        (callWithin (Machine.load { hosts := throwing } sm.methods) steps (maxDepth - 1))
        ⟨0, sm.members.owner⟩ (liveFrames (framesOf true m) 1) (oneInstance sm 1) =
          some (failures, v) ∧
      .error (.aggregate [.thrown (.int 1), .thrown (.int 2)]) = verdict failures ∧
      w' = v.put ⟨0, sm.members.owner⟩ sm.state (.int stateFinished) ∧
      w'.Reads ⟨0, sm.members.owner⟩ sm.state (.int stateFinished) := by
  have hfact : ((sample true nestedSource).bind fun (_, sm) =>
      (Enumerator.dispose (Machine.load { hosts := throwing } sm.methods) 100
        ⟨sm, ⟨0, sm.members.owner⟩⟩ (oneInstance sm 1)).map fun p => (p.1, p.2.hosts)) =
      some (.error (.aggregate [.thrown (.int 1), .thrown (.int 2)]), [.int 1, .int 2]) := by
    rw [sample, show nestedSource = .ofList _ from append_ofList rfl rfl, read_ofList]
    decide +kernel
  obtain ⟨⟨m, sm⟩, hsample, hrest⟩ := Option.bind_eq_some_iff.mp hfact
  obtain ⟨⟨res, w'⟩, hdispose, heq⟩ := Option.map_eq_some_iff.mp hrest
  obtain ⟨program, hread, hm, hlower⟩ := sample_eq_some hsample
  obtain ⟨rfl, hhosts⟩ := Prod.mk.inj heq
  obtain ⟨plan, b, k, n, hbuilt⟩ := built_of_lowered hread hm hlower
  have hclaim := disposal_runs_live_finallys hread hm hlower
    (carries_load hbuilt { hosts := throwing }) (undisturbed_throwing sm.methods _)
    (w := oneInstance sm 1) (.put_self Nat.zero_lt_one)
  exact ⟨program, m, sm, w', hread, hm, hlower, hdispose, hhosts,
    (hclaim.2.2.2 _ _).mp ⟨100, hdispose⟩⟩

end Resumable.Session
