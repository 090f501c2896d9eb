import Resumable.Proofs.StateMachine.Bodies

/-!
# Which resumable methods become state machines

A resumable method of a program that was read becomes a state machine if and only if its body is one
that a state machine can represent (`iterator_lowers_iff`).  The verdict is spread over the passes:
the check before the analysis sees where the body suspends and returns, the conversion sees jumps
into frames, and what leaves or enters a finally is seen when the method of the finally is verified.
-/

set_option autoImplicit false

namespace Resumable.StateMachine

open Resumable.Report Resumable.Symbol Resumable.Tree Resumable.Source Resumable.Lowering
open Resumable.Machine (labelsStmts labelsStmt forM_ok_iff)

variable {owner : TypeDecl}

/-! ## Steps of the construction -/

theorem ofExcept_apply {α : Type} (x : Except Violation α) (n : Nat) :
    Lower.ofExcept x n = (x, n) := by
  cases x <;> rfl

/-- The methods of finallys are lowered one after the other; `good` says of each frame whether its
method is in the lowered form. -/
theorem walkCleanups_ok (markers : Bool) {good : Frame → Prop} : ∀ {fs : List Frame} {n : Nat},
    (∀ f ∈ fs, ∀ k, n ≤ k → ∃ b m, walkBlock markers f.cleanup.body k = (.ok b, m) ∧ k ≤ m ∧
      (verify false (.stmt (.block b)) = .ok () ↔ good f)) →
    ∃ ms m, (fs.mapM fun f => do
        let body ← walkBlock markers f.cleanup.body
        return { symbol := f.cleanup.symbol, body : MethodBody } : Lower (List MethodBody)) n =
          (.ok ms, m) ∧
      ((∀ x ∈ ms, verify false (.stmt (.block x.body)) = .ok ()) ↔ ∀ f ∈ fs, good f)
  | [], n, _ => ⟨[], n, rfl, by simp⟩
  | f :: rest, n, h => by
    obtain ⟨b, k, hwalk, hle, hgood⟩ := h f List.mem_cons_self n (Nat.le_refl n)
    obtain ⟨ms, m, hrest, hgoods⟩ := @walkCleanups_ok markers good rest k fun g hg i hi =>
      h g (List.mem_cons_of_mem _ hg) i (Nat.le_trans hle hi)
    refine ⟨⟨f.cleanup.symbol, b⟩ :: ms, m, ?_, ?_⟩
    · rw [List.mapM_cons]
      simp only [Lower.bind_apply, hwalk, Lower.pure_apply, hrest]
    · simp only [List.forall_mem_cons, hgood, hgoods]

/-- No frame is numbered yet when the analysis begins. -/
theorem stateRunning_outermost : stateOfFrame 0 ≤ stateRunning := by decide

/-- The analysis of a body that is guarded prepares it for the conversion. -/
theorem prepared_of_analysis {params : List Param} {h : Hoisted} (hh : Housed owner params h)
    {b : Block} (hready : ReadyBlock (OfMachine owner) b) (hguarded : GuardedBlock b)
    (hreturn : .return ∉ exitsBlock b) {k : Nat} (hnodup : (landingsBlock b).Nodup)
    (hearlier : ∀ l ∈ landingsBlock b, Earlier k l) (m : Method) (p : Option Provenance) :
    ∃ c a n, analyzeBlock (stateField owner) stateRunning b
        { members := h.members, owners := [(some (.generated "exit" (k + 1 : Nat)), stateRunning)] }
        (k + 1) = (.ok (c, a), n) ∧
      Prepared owner ⟨m, p, stateField owner, currentField owner m,
        .generated "exit" (k + 1 : Nat), a.owners⟩ c b k n ∧
      (∀ f ∈ Frame.preorderAll c.children, ∃ cleanup ∈ cleanupsBlock b,
        Extracted owner (stateField owner) cleanup f) ∧
      ∀ cleanup ∈ cleanupsBlock b, ∃ f ∈ Frame.preorderAll c.children,
        Extracted owner (stateField owner) cleanup f := by
  have hkept : ∀ l ∈ keptBlock b, Earlier k l := fun l hl =>
    hearlier l ((keptBlock_sublist b).subset hl)
  have hexit : Numbered k (k + 1) [some (.generated "exit" (k + 1 : Nat))] :=
    .single (by decide) (by decide)
  have hfresh : (some (.generated "exit" (k + 1 : Nat)) :: keptBlock b).Nodup :=
    List.perm_append_comm.nodup_iff.mp
      (nodup_of_numbered ((keptBlock_sublist b).nodup hnodup) hkept hexit)
  obtain ⟨c, a, n, hanalyze, hanalyzed⟩ := analyzeBlock_ok (fun _ => soundExpr_of_machine)
    (stateField owner) hready hguarded stateRunning
    { members := h.members, owners := [(some (.generated "exit" (k + 1 : Nat)), stateRunning)] }
    hh.within hh.unfrozen stateRunning_outermost hfresh (k + 1)
  obtain ⟨pairs, howners, hfst, hown, -⟩ := hanalyzed.owners
  have hnodup' : (a.owners.map Prod.fst).Nodup := by
    rw [howners, List.map_append, hfst]
    exact hfresh
  have hcontents := hanalyzed.found a.owners ⟨hnodup', by
    simpa using stateRunning_outermost, [], by simp⟩
  refine ⟨c, a, n, hanalyze, ⟨⟨rfl, rfl⟩, hready, hguarded, hreturn, hcontents, fun l => ?_, rfl,
    hnodup, hearlier, hanalyzed.labels⟩, hanalyzed.extracted, hanalyzed.cleanups⟩
  rw [lookup_iff_mem hnodup', howners, List.mem_append, hown, List.mem_singleton, Prod.mk.injEq]
  exact or_congr_left (and_iff_left rfl)

theorem ownerOf_extracted {c : Contents} {cleanups : List Block}
    (h : ∀ f ∈ Frame.preorderAll c.children, ∃ cleanup ∈ cleanups,
      Extracted owner (stateField owner) cleanup f) :
    ∀ f ∈ Frame.preorderAll c.children, f.cleanup.symbol.owner = some owner := by
  intro f hf
  obtain ⟨cleanup, -, name, parent, hmethod⟩ := h f hf
  rw [hmethod]
  rfl

/-- The methods of finallys are lowered, and they are in the lowered form if and only if each
finally is on its own. -/
theorem verify_cleanups (markers : Bool) {plan : Plan} {c : Contents} {b : Block} {k n : Nat}
    (h : Prepared owner plan c b k n)
    (hextracted : ∀ f ∈ Frame.preorderAll c.children, ∃ cleanup ∈ cleanupsBlock b,
      Extracted owner (stateField owner) cleanup f)
    (htargets : ∀ j ∈ leapsBlock b, j.target ∈ landingsBlock b) {n' : Nat} (hle : n ≤ n') :
    ∃ ms m, ((Frame.preorderAll c.children).mapM fun f => do
        let body ← walkBlock markers f.cleanup.body
        return { symbol := f.cleanup.symbol, body : MethodBody } : Lower (List MethodBody)) n' =
          (.ok ms, m) ∧
      ((∀ x ∈ ms, verify false (.stmt (.block x.body)) = .ok ()) ↔
        ∀ f ∈ Frame.preorderAll c.children, Closed f.cleanup.body) := by
  refine walkCleanups_ok markers fun f hf i hi => ?_
  obtain ⟨cleanup, hcleanup, hf⟩ := hextracted f hf
  have hearlier : ∀ l ∈ landingsBlock b, Earlier i l := fun l hl => (h.earlier l hl).mono (by
    have := h.labels.le
    omega)
  rw [closed_extracted hf]
  have hfield : (stateField owner).owner = owner := rfl
  exact verify_extracted markers hfield hf (torn_block h.ready h.guarded hcleanup) h.nodup hearlier
    fun j hj => hearlier _ (htargets j hj)

/-! ## The machine -/

/-- The machine from a body that is hoisted and analyzed. -/
def assemble (markers : Bool) (plan : Plan) (owner : TypeDecl) (h : Hoisted) (members : MemberList)
    (c : Contents) (b : Block) : Lower StateMachine := do
  let moveNextBody ← buildMoveNext plan (.dispose owner) c b
  let moveNextBody ← walkBlock markers moveNextBody
  let disposeBody ← walkBlock markers (disposeBody plan c.children)
  let cleanups ← (Frame.preorderAll c.children).mapM fun f => do
    let body ← walkBlock markers f.cleanup.body
    return { symbol := f.cleanup.symbol, body : MethodBody }
  return {
    iterator := plan.method
    members
    state := plan.state
    current := plan.current
    params := h.params
    moveNext := { symbol := .moveNext owner, body := moveNextBody }
    dispose := { symbol := .dispose owner, body := disposeBody }
    cleanups }

/-- The machine is assembled, with methods in the lowered form, if and only if the jumps of the body
go to labels whose frames are around and each finally is on its own. -/
theorem assemble_iff (markers : Bool) {plan : Plan} {c : Contents} {b : Block} {k n : Nat}
    (h : Prepared owner plan c b k n)
    (hextracted : ∀ f ∈ Frame.preorderAll c.children, ∃ cleanup ∈ cleanupsBlock b,
      Extracted owner (stateField owner) cleanup f)
    (htargets : ∀ j ∈ leapsBlock b, j.target ∈ landingsBlock b) (hoisted : Hoisted)
    (members : MemberList) :
    (∃ machine m, assemble markers plan owner hoisted members c b n = (.ok machine, m) ∧
      ∀ x ∈ machine.methods, verify false (.stmt (.block x.body)) = .ok ()) ↔
    RoutedBlock (fun l => l = some plan.exit ∨ l ∈ ownBlock b) b ∧
      ∀ f ∈ Frame.preorderAll c.children, Closed f.cleanup.body := by
  have hdispose : (Method.dispose owner).owner = some owner := rfl
  obtain ⟨hmove, hmoved⟩ := buildMoveNext_iff h markers hdispose
  rw [← hmove]
  cases hresult : buildMoveNext plan (.dispose owner) c b n with
  | mk result n₁ =>
    cases result with
    | error e =>
      have hfail : assemble markers plan owner hoisted members c b n = (.error e, n₁) := by
        simp only [assemble, Lower.bind_apply, hresult]
      rw [hfail]
      constructor
      · rintro ⟨machine, m, hok, -⟩
        cases hok
      · rintro ⟨⟨body, m, hok⟩, -⟩
        cases hok
    | ok body =>
      obtain ⟨-, b₂, n₂, hwalk, hle, hverify⟩ := hmoved body n₁ hresult
      obtain ⟨b₃, n₃, hwalk', hle', hverify'⟩ := verify_dispose markers h.fitting
        (ownerOf_extracted hextracted) n₂
      obtain ⟨ms, n₄, hmethods, hclosed⟩ := verify_cleanups markers h hextracted htargets
        (Nat.le_trans hle hle')
      have hok : assemble markers plan owner hoisted members c b n = (.ok ⟨plan.method, members,
          plan.state, plan.current, hoisted.params, ⟨.moveNext owner, b₂⟩, ⟨.dispose owner, b₃⟩,
          ms⟩, n₄) := by
        simp only [assemble, Lower.bind_apply, hresult, hwalk, hwalk', hmethods, Lower.pure_apply]
      rw [hok, ← hclosed]
      constructor
      · rintro ⟨machine, m, hmachine, hall⟩
        cases hmachine
        refine ⟨⟨body, n₁, rfl⟩, fun x hx => ?_⟩
        exact hall x (List.mem_cons_of_mem _ (List.mem_cons_of_mem _ hx))
      · rintro ⟨-, hall⟩
        refine ⟨_, n₄, rfl, fun x hx => ?_⟩
        rcases List.mem_cons.mp hx with rfl | hx
        · exact hverify
        · rcases List.mem_cons.mp hx with rfl | hx
          · exact hverify'
          · exact hall x hx

/-- The passes before the conversion: from the lowered body `b`, before which `k` labels have been
made, to the hoisted body `b'` with its contents. -/
def Prepares (owner : TypeDecl) (m : MethodBody) (b : Block) (k : Nat) (plan : Plan) (b' : Block)
    (c : Contents) (n : Nat) : Prop :=
  ∃ h h' a, declareMembers owner m.symbol = .ok h ∧ hoistBlock b h = .ok (b', h') ∧
    analyzeBlock (stateField owner) stateRunning b'
        { members := h'.members, owners := [(some (.generated "exit" (k + 1 : Nat)), stateRunning)] }
        (k + 1) = (.ok (c, a), n) ∧
    plan = ⟨m.symbol, m.body.origin.provenance, stateField owner, currentField owner m.symbol,
      .generated "exit" (k + 1 : Nat), a.owners⟩

/-- The construction of the machine of a body that passes the check hoists and analyzes the body,
and then assembles the machine. -/
theorem build_eq_assemble {m : MethodBody} (hiterator : m.symbol.isIterator = true)
    (hordinals : ∀ (i : Nat) (p : Param), m.symbol.params[i]? = some p → p.ordinal = i)
    {b : Block} (hready : ReadyBlock (BoundIn m.symbol.params) b) {k : Nat}
    (hnodup : (landingsBlock b).Nodup) (hearlier : ∀ l ∈ landingsBlock b, Earlier k l)
    (hrepresentable : checkRepresentable m.symbol b = .ok ()) (markers : Bool)
    (owner : TypeDecl) :
    ∃ plan hoisted members c b' n,
      build markers owner m b k = assemble markers plan owner hoisted members c b' n ∧
      Prepares owner m b k plan b' c n ∧ Prepared owner plan c b' k n ∧
      ReadyBlock (OfUser owner) b' ∧ SameBlock b b' ∧
      (∀ f ∈ Frame.preorderAll c.children, ∃ cleanup ∈ cleanupsBlock b',
        Extracted owner (stateField owner) cleanup f) ∧
      ∀ cleanup ∈ cleanupsBlock b', ∃ f ∈ Frame.preorderAll c.children,
        Extracted owner (stateField owner) cleanup f := by
  have hverified : verifiedBlock true b = true :=
    verifiedBlock_of_ready (fun _ he => soundExpr_of_effect he) hready
  obtain ⟨hreturn, hguarded⟩ := (checkRepresentable_iff hverified).mp hrepresentable
  obtain ⟨h, hdeclare, hhoused, -⟩ := declareMembers_ok owner hordinals
  obtain ⟨b₁, h₁, hhoist, hhoused₁, hready₁, hsame⟩ := hoistBlock_ok hready hhoused
  obtain ⟨c, a, n, hanalyze, hprepared, hextracted, hcleanups⟩ :=
    prepared_of_analysis hhoused₁ (hready₁.mono fun _ he => machineExpr_of_user he)
      (hsame.guarded.mpr hguarded) (by rwa [hsame.exits]) (by rwa [hsame.landings])
      (by rwa [hsame.landings]) m.symbol m.body.origin.provenance
  refine ⟨_, h₁, a.members, c, b₁, n, ?_, ⟨h, h₁, a, hdeclare, hhoist, hanalyze, rfl⟩, hprepared,
    hready₁, hsame, hextracted, hcleanups⟩
  simp only [build, hiterator, Violation.check, Lower.bind_apply, ofExcept_apply,
    Lower.newLabel_apply, hdeclare, hrepresentable, if_true, StateT.run, hhoist, hanalyze, assemble]

/-- The construction of the machine of a body that does not pass the check fails. -/
theorem build_error {m : MethodBody} (hiterator : m.symbol.isIterator = true)
    (hordinals : ∀ (i : Nat) (p : Param), m.symbol.params[i]? = some p → p.ordinal = i)
    {b : Block} {e : Violation} (hrepresentable : checkRepresentable m.symbol b = .error e)
    (markers : Bool) (owner : TypeDecl) (k : Nat) :
    build markers owner m b k = (.error e, k + 1) := by
  obtain ⟨h, hdeclare, -, -⟩ := declareMembers_ok owner hordinals
  simp only [build, hiterator, Violation.check, Lower.bind_apply, ofExcept_apply,
    Lower.newLabel_apply, hdeclare, hrepresentable, if_true]

/-- The construction of the machine of a body goes through, with methods in the lowered form, if and
only if the body does not return, its tries are guarded, and its jumps go to visible labels. -/
theorem build_iff {m : MethodBody} (hiterator : m.symbol.isIterator = true)
    (hordinals : ∀ (i : Nat) (p : Param), m.symbol.params[i]? = some p → p.ordinal = i)
    {b : Block} (hready : ReadyBlock (BoundIn m.symbol.params) b) {k : Nat}
    (hnodup : (landingsBlock b).Nodup) (hearlier : ∀ l ∈ landingsBlock b, Earlier k l)
    (htargets : ∀ j ∈ leapsBlock b, j.target ∈ landingsBlock b) (markers : Bool)
    (owner : TypeDecl) :
    (∃ machine n, build markers owner m b k = (.ok machine, n) ∧
      ∀ x ∈ machine.methods, verify false (.stmt (.block x.body)) = .ok ()) ↔
    .return ∉ exitsBlock b ∧ GuardedBlock b ∧
      FitsBlock (fun l => l = some (.generated "exit" (k + 1 : Nat)) ∨ l ∈ ownBlock b) b := by
  have hverified : verifiedBlock true b = true :=
    verifiedBlock_of_ready (fun _ he => soundExpr_of_effect he) hready
  have hcheck := checkRepresentable_iff (m := m.symbol) hverified
  cases hrepresentable : checkRepresentable m.symbol b with
  | error e =>
    rw [hrepresentable] at hcheck
    rw [build_error hiterator hordinals hrepresentable]
    constructor
    · rintro ⟨machine, n, hok, -⟩
      cases hok
    · rintro ⟨hreturn, hguarded, -⟩
      cases hcheck.mpr ⟨hreturn, hguarded⟩
  | ok u =>
    obtain ⟨hreturn, hguarded⟩ := hcheck.mp hrepresentable
    obtain ⟨plan, h, members, c, b₁, n, hbuild, -, hprepared, -, hsame, hextracted, hcleanups⟩ :=
      build_eq_assemble hiterator hordinals hready hnodup hearlier hrepresentable markers owner
    have hclosed : (∀ f ∈ Frame.preorderAll c.children, Closed f.cleanup.body) ↔
        ∀ cleanup ∈ cleanupsBlock b₁, Closed cleanup := by
      constructor
      · intro hall cleanup hcleanup
        obtain ⟨f, hf, hcleanup⟩ := hcleanups cleanup hcleanup
        exact (closed_extracted hcleanup).mp (hall f hf)
      · intro hall f hf
        obtain ⟨cleanup, hcleanup, hf⟩ := hextracted f hf
        exact (closed_extracted hf).mpr (hall cleanup hcleanup)
    rw [hbuild, assemble_iff markers hprepared hextracted (by rwa [hsame.leaps, hsame.landings]),
      hclosed, ← fitsBlock_iff_routed, hsame.fits, hsame.own, hprepared.exit]
    exact ⟨fun hfits => ⟨hreturn, hguarded, hfits⟩, fun h => h.2.2⟩

/-! ## Methods -/

theorem checkMade_iff (m : MethodBody) :
    checkMade m = .ok () ↔ verify false (.stmt (.block m.body)) = .ok () := by
  unfold checkMade
  cases verify false (.stmt (.block m.body)) with
  | ok => exact ⟨fun _ => rfl, fun _ => rfl⟩
  | error => constructor <;> rintro ⟨⟩

/-- A resumable method is lowered to the machine that is built for it, if the methods of the machine
pass the check. -/
theorem lowerMethod_of_build {m : MethodBody} (hiterator : m.symbol.isIterator = true)
    {markers : Bool} {b : Block} {k : Nat} (hwalk : walkBlock markers m.body 0 = (.ok b, k))
    (hverify : verify true (.stmt (.block b)) = .ok ()) :
    lowerMethod markers m =
      match (build markers (.stateMachine m.symbol.name m.symbol.locations) m b k).1 with
      | .ok machine => (do
        machine.methods.forM checkMade
        return .machine machine.freeze)
      | .error e => .error { violation := e } := by
  have houtcome : (lowerBody markers m).outcome = lowerBody markers m 0 := rfl
  have hbody : lowerBody markers m 0 =
      match build markers (.stateMachine m.symbol.name m.symbol.locations) m b k with
      | (.ok machine, n) => (.ok (.machine machine.freeze), n)
      | (.error e, n) => (.error e, n) := by
    simp only [lowerBody, Lower.bind_apply, hwalk, hiterator, ofExcept_apply, hverify, if_true]
    cases build markers (.stateMachine m.symbol.name m.symbol.locations) m b k with
    | mk result n => cases result <;> rfl
  unfold lowerMethod
  rw [houtcome, hbody]
  cases build markers (.stateMachine m.symbol.name m.symbol.locations) m b k with
  | mk result n => cases result <;> rfl

/-- A resumable method becomes a state machine if and only if one is built for it whose methods are
in the lowered form; otherwise there is a fault. -/
theorem lowerMethod_iff_build {m : MethodBody} (hiterator : m.symbol.isIterator = true)
    {markers : Bool} {b : Block} {k : Nat} (hwalk : walkBlock markers m.body 0 = (.ok b, k))
    (hverify : verify true (.stmt (.block b)) = .ok ()) :
    ((∃ machine, lowerMethod markers m = .ok (.machine machine)) ↔
      ∃ machine n, build markers (.stateMachine m.symbol.name m.symbol.locations) m b k =
        (.ok machine, n) ∧ ∀ x ∈ machine.methods, verify false (.stmt (.block x.body)) = .ok ()) ∧
    ((∃ machine, lowerMethod markers m = .ok (.machine machine)) ∨
      ∃ fault, lowerMethod markers m = .error fault) := by
  rw [lowerMethod_of_build hiterator hwalk hverify]
  cases build markers (.stateMachine m.symbol.name m.symbol.locations) m b k with
  | mk result n =>
    cases result with
    | error e =>
      refine ⟨⟨?_, ?_⟩, .inr ⟨_, rfl⟩⟩
      · rintro ⟨machine, h⟩
        cases h
      · rintro ⟨machine, n, h, -⟩
        cases h
    | ok machine =>
      have hchecks : machine.methods.forM checkMade = .ok () ↔
          ∀ x ∈ machine.methods, verify false (.stmt (.block x.body)) = .ok () := by
        simp only [forM_ok_iff, checkMade_iff]
      dsimp only
      cases hcheck : machine.methods.forM checkMade with
      | error fault =>
        refine ⟨⟨?_, ?_⟩, .inr ⟨fault, rfl⟩⟩
        · rintro ⟨_, h⟩
          cases h
        · rintro ⟨_, _, h, hall⟩
          cases h
          rw [hchecks.mpr hall] at hcheck
          cases hcheck
      | ok u =>
        exact ⟨⟨fun _ => ⟨machine, n, rfl, hchecks.mp hcheck⟩, fun _ => ⟨_, rfl⟩⟩, .inl ⟨_, rfl⟩⟩

/-- What lowering makes of the body of a method has its labels, and labels of branches. -/
theorem walkBody_labels {m : MethodBody} (hm : BoundMethod m) {b : Block} {k : Nat}
    (hlaid : Laid 0 k (landingsBlock m.body) (leapsBlock m.body) [.block b])
    (hverify : verify true (.stmt (.block b)) = .ok ()) :
    (landingsBlock b).Nodup ∧ (∀ l ∈ landingsBlock b, Earlier k l) ∧
      ∀ j ∈ leapsBlock b, j.target ∈ landingsBlock b := by
  obtain ⟨hverified, hnodup, htargets⟩ := verify_block_iff.mp hverify
  obtain ⟨hlandings, hleaps⟩ := landingsBlock_of_verified hverified
  rw [hlandings]
  refine ⟨hnodup, fun l hl => ?_, fun j hj => ?_⟩
  · obtain ⟨made, hperm, hmade⟩ := hlaid.labels
    have hmem : l ∈ landingsBlock m.body ++ made :=
      hperm.mem_iff.mp (by simpa [labelsStmts, labelsStmt] using hl)
    rcases List.mem_append.mp hmem with hl | hl
    · exact .inl (hm.ofProgram l hl)
    · exact .inr (madeLabel_of_branch (hmade.numbered l hl))
  · exact (htargets _ (hleaps ▸ List.mem_map_of_mem hj)).1

/-- Seen from the lowered body, the jumps of a body go to visible labels if and only if they do in
the body, where the label at the end of the machine makes no difference. -/
theorem fits_walked {m : MethodBody} (hm : BoundMethod m) (hguarded : GuardedBlock m.body)
    {markers : Bool} {b : Block} {k : Nat} (hwalk : walkBlock markers m.body 0 = (.ok b, k)) :
    FitsBlock (fun l => l = some (.generated "exit" (k + 1 : Nat)) ∨ l ∈ ownBlock b) b ↔
      FitsBlock (· ∈ ownBlock m.body) m.body := by
  obtain ⟨n, hbound⟩ := hm.bound
  have hprogram : ∀ j ∈ leapsBlock m.body, OfProgram j.target := fun j hj =>
    hm.ofProgram _ (hm.targets j hj)
  have hbranching : ∀ j ∈ leapsBlock m.body, ¬ Branching j.target := by
    rintro j hj ⟨a, c, hbranch⟩
    exact not_branch_of_program (hprogram j hj) a c hbranch
  have hcarried := carried_block (walkableBlock_of_bound hbound) hguarded hbranching hwalk
  have hown : ownStmts [.block b] = ownBlock b := by simp [ownStmts, ownStmt]
  have hfits : FitsAll (fun l => l = some (.generated "exit" (k + 1 : Nat)) ∨ l ∈ ownBlock b)
      [.block b] ↔ FitsBlock (· ∈ ownBlock m.body) m.body := by
    refine (hcarried.fitting _ _ (fun j hj => ?_) fun l hl => .inr (hown ▸ hl)).symm
    have hne : j.target ≠ some (.generated "exit" (k + 1 : Nat)) := fun h => by
      have hin := hprogram j hj
      simp [h, OfProgram] at hin
    constructor
    · exact fun hin => .inr (hown ▸ hcarried.keeps _ hin)
    · rintro (h | hin)
      · exact absurd h hne
      · exact (hcarried.adds _ (hown ▸ hin)).resolve_right (hbranching j hj)
  simpa [FitsAll, Fits] using hfits

/-- A resumable method of a program that was read becomes a state machine if and only if one can
represent its body; in every other case there is a fault with the violation that was found. -/
theorem iterator_lowers_iff {file source : String} {program : Program}
    (hread : read file source = .ok program) {m : MethodBody} (hm : m ∈ program.methods)
    (hiterator : m.symbol.isIterator = true) (markers : Bool) :
    ((∃ machine, lowerMethod markers m = .ok (.machine machine)) ↔ Representable m.body) ∧
    (¬ Representable m.body → ∃ fault, lowerMethod markers m = .error fault) := by
  have hbound := bound_methods hread hm
  obtain ⟨b, k, hwalk, hlaid, hverify⟩ := walkBody_ok hbound markers
  obtain ⟨hnodup, hearlier, htargets⟩ := walkBody_labels hbound hlaid hverify
  obtain ⟨hlowers, hotherwise⟩ := lowerMethod_iff_build hiterator hwalk hverify
  have hwalked := walkedBlock_of_ok hwalk
  obtain ⟨n, hblock⟩ := hbound.bound
  have hiff : (∃ machine, lowerMethod markers m = .ok (.machine machine)) ↔
      Representable m.body := by
    rw [hlowers, build_iff hiterator hbound.ordinals (readyBlock_walked hblock hwalked) hnodup
      hearlier htargets, representable_iff hbound, walkedBlock_exits hwalked,
      guardedBlock_walked hwalked]
    exact and_congr_right fun _ => and_congr_right fun hguarded => fits_walked hbound hguarded hwalk
  exact ⟨hiff, fun hnot => hotherwise.resolve_left fun h => hnot (hiff.mp h)⟩

/-- A method that leaves an extracted try by a jump, from inside a loop and another such try. -/
def leavingSource : String :=
  "class C \x7b extern void F(int n); iterator int M(int n) \x7b try \x7b while (n > 0) \x7b " ++
    "try \x7b yield return n; if (n == 3) goto done; else break; \x7d finally \x7b F(n); \x7d " ++
    "\x7d \x7d finally \x7b F(0); \x7d done: yield break; \x7d \x7d"

/-- A method that enters an extracted try by a jump. -/
def enteringSource : String :=
  "class C \x7b extern void F(int n); iterator int M(int n) \x7b goto inside; try \x7b " ++
    "inside: yield return n; \x7d finally \x7b F(0); \x7d \x7d \x7d"

theorem iterator_lowers_iff_leaving_entering :
    (∃ program m, read "" leavingSource = .ok program ∧ m ∈ program.methods ∧
      m.symbol.isIterator = true ∧ Representable m.body ∧
      ∃ machine, lowerMethod true m = .ok (.machine machine)) ∧
    ∃ program m, read "" enteringSource = .ok program ∧ m ∈ program.methods ∧
      m.symbol.isIterator = true ∧ ¬ Representable m.body ∧
      ∃ fault, lowerMethod true m = .error fault := by
  have hleaving : ((read "" leavingSource).toOption.map fun p => p.methods.map fun m =>
      (m.symbol.isIterator, decide (Representable m.body))) = some [(true, true)] := by
    rw [show leavingSource = .ofList _ from append_ofList (append_ofList rfl rfl) rfl, read_ofList]
    decide +kernel
  have hentering : ((read "" enteringSource).toOption.map fun p => p.methods.map fun m =>
      (m.symbol.isIterator, decide (Representable m.body))) = some [(true, false)] := by
    rw [show enteringSource = .ofList _ from append_ofList rfl rfl, read_ofList]
    decide +kernel
  constructor
  · obtain ⟨program, m, hread, hm, hfact⟩ := read_single hleaving
    simp only [Prod.mk.injEq, decide_eq_true_eq] at hfact
    exact ⟨program, m, hread, hm, hfact.1, hfact.2,
      (iterator_lowers_iff hread hm hfact.1 true).1.mpr hfact.2⟩
  · obtain ⟨program, m, hread, hm, hfact⟩ := read_single hentering
    simp only [Prod.mk.injEq, decide_eq_false_iff_not] at hfact
    exact ⟨program, m, hread, hm, hfact.1, hfact.2,
      (iterator_lowers_iff hread hm hfact.1 true).2 hfact.2⟩

end Resumable.StateMachine
