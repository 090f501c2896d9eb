import Resumable.Proofs.StateMachine.Conversion

/-!
# Methods of a state machine

The methods of a state machine are lowered and verified in their turn.  The one that resumes the
machine and the one that ends it are always in the lowered form; the method of a finally is if and
only if the finally is on its own (`verify_extracted`).
-/

set_option autoImplicit false

namespace Resumable.StateMachine

open Resumable.Report Resumable.Symbol Resumable.Tree Resumable.Source Resumable.Lowering

variable {owner : TypeDecl} {plan : Plan}

/-! ## Labels that are there -/

/-- The label is one of the program, or one that lowering has made with a number up to `n`. -/
def Earlier (n : Nat) (l : Option Label) : Prop := OfProgram l ∨ MadeLabel 0 n l

theorem Earlier.mono {n m : Nat} (hle : n ≤ m) {l : Option Label} (h : Earlier n l) : Earlier m l :=
  h.imp id fun hmade => hmade.mono (Nat.le_refl 0) hle

theorem Earlier.ne_none {n : Nat} {l : Option Label} (h : Earlier n l) : l ≠ none := by
  rcases h with h | ⟨stem, k, rfl, -⟩
  · exact ne_none_of_program h
  · simp

/-- A label that is made later differs from those that are there. -/
theorem Earlier.not_made {n m : Nat} {l : Option Label} (h : Earlier n l) : ¬ MadeLabel n m l := by
  rcases h with h | h
  · rintro ⟨stem, k, rfl, -, -, hbreak, hcontinue⟩
    rcases h with h | h
    · exact hbreak h
    · exact hcontinue h
  · exact h.not_behind (Nat.le_refl n)

theorem madeLabel_of_branch {a b : Nat} {l : Option Label} (h : BranchLabel a b l) :
    MadeLabel a b l := by
  obtain ⟨k, hlow, hhigh, rfl | rfl⟩ := h
  · exact ⟨"endif", k, rfl, hlow, hhigh, by decide, by decide⟩
  · exact ⟨"else", k, rfl, hlow, hhigh, by decide, by decide⟩

/-- Labels of which some are there and the others are made later are distinct. -/
theorem nodup_of_numbered {a b : Nat} {ls made : List (Option Label)} (hnodup : ls.Nodup)
    (hls : ∀ l ∈ ls, Earlier a l) (hmade : Numbered a b made) : (ls ++ made).Nodup := by
  refine List.nodup_append.mpr ⟨hnodup, hmade.nodup, ?_⟩
  rintro l hl _ hl' rfl
  exact (hls l hl).not_made (hmade.numbered l hl')

theorem earlier_of_numbered {a b : Nat} {made : List (Option Label)} (hmade : Numbered a b made)
    {l : Option Label} (hl : l ∈ made) : Earlier b l :=
  .inr ((hmade.numbered l hl).mono (Nat.zero_le a) (Nat.le_refl b))

/-! ## Bodies that are lowered again -/

/-- A body of a machine is lowered.  What this gives is in the lowered form if and only if the jumps
of the body go to its labels and it does not suspend. -/
theorem walkBlock_formed (markers : Bool) {b : Block} (hformed : FormedBlock (OfMachine owner) b)
    {n : Nat} (hnodup : (landingsBlock b).Nodup) (hls : ∀ l ∈ landingsBlock b, Earlier n l)
    (hjs : ∀ j ∈ leapsBlock b, Earlier n j.target) :
    ∃ b' m, walkBlock markers b n = (.ok b', m) ∧ n ≤ m ∧
      (verify false (.stmt (.block b')) = .ok () ↔
        (∀ j ∈ leapsBlock b, j.target ∈ landingsBlock b) ∧ YieldFree (exitsBlock b)) := by
  have hwalkable := walkableBlock_of_formed (fun _ => soundExpr_of_machine) hformed
  obtain ⟨b', m, hwalk, hlaid⟩ := walkBlock_ok markers hwalkable n
  have hbranch : ∀ l, Earlier n l → ¬ BranchLabel n m l := fun l hl h =>
    hl.not_made (madeLabel_of_branch h)
  refine ⟨b', m, hwalk, ?_, ?_⟩
  · obtain ⟨made, -, hmade⟩ := hlaid.labels
    exact hmade.le
  · rw [verify_false_iff, walkedBlock_exits (walkedBlock_of_ok hwalk),
      hlaid.verify_iff hnodup (fun l hl => ⟨(hls l hl).ne_none, hbranch l (hls l hl)⟩)
        fun j hj => hbranch _ (hjs j hj)]

/-! ## Disposal -/

theorem machine_stateIn (hplan : Fitting owner plan) (state : Int) (rest : List Int) :
    OfMachine owner (stateIn plan (state :: rest)) := by
  have hone : ∀ k, OfMachine owner (stateIs plan k) := fun k => by
    have hfield := machine_field plan.provenance hplan.state
    simp only [OfMachine] at hfield
    simp only [OfMachine, stateIs, machineExpr, Plan.stateRef, hfield, Made.int, Bool.and_self]
  have hall : ∀ (ks : List Int) (e : Expr), OfMachine owner e → OfMachine owner (ks.foldl
      (fun condition s => .binary (.made plan.provenance) .or condition (stateIs plan s)) e) := by
    intro ks
    induction ks with
    | nil => exact fun _ he => he
    | cons k rest ih =>
      intro e he
      refine ih _ ?_
      have hk := hone k
      simp only [OfMachine] at he hk
      simp only [OfMachine, machineExpr, he, hk, Bool.and_self]
  exact hall rest _ (hone state)

/-- The statements have neither labels nor jumps nor exits, and they can be lowered. -/
structure Unmarked (owner : TypeDecl) (ss : List Stmt) : Prop where
  formed : FormedAll (OfMachine owner) ss
  landings : landingsStmts ss = []
  leaps : leapsStmts ss = []
  exits : exitsStmts ss = []

theorem Unmarked.cons {s : Stmt} {ss : List Stmt} (h : Unmarked owner [s])
    (h' : Unmarked owner ss) : Unmarked owner (s :: ss) := by
  refine ⟨⟨h.formed.1, h'.formed⟩, ?_, ?_, ?_⟩
  · simpa [landingsStmts, h'.landings] using h.landings
  · simpa [leapsStmts, h'.leaps] using h.leaps
  · simpa [exitsStmts, h'.exits] using h.exits

/-- A try with a finally. -/
theorem Unmarked.guard {ss ts : List Stmt} (h : Unmarked owner ss) (h' : Unmarked owner ts)
    (p : Option Provenance) :
    Unmarked owner [.try (.made p) (Made.block p ss) [] (Made.block p ts)] := by
  refine ⟨⟨⟨⟨.inl rfl, h.formed⟩, trivial, .inr ⟨.inl rfl, h'.formed⟩, .inr (by simp [Made.block])⟩,
    trivial⟩, ?_, ?_, ?_⟩
  · simp [landingsStmts, landingsStmt, landingsBlock, landingsCatches, Made.block, h.landings,
      h'.landings]
  · simp [leapsStmts, leapsStmt, leapsBlock, leapsCatches, Made.block, h.leaps, h'.leaps]
  · simp [exitsStmts, exitsStmt, exitsBlock, exitsCatches, Made.block, h.exits, h'.exits]

/-- A branch without else. -/
theorem Unmarked.when {ss : List Stmt} (h : Unmarked owner ss) (p : Option Provenance) {c : Expr}
    (hc : OfMachine owner c) :
    Unmarked owner [.if (.made p) c (.block (Made.block p ss)) .absent] := by
  refine ⟨⟨⟨hc, ⟨.inl rfl, h.formed⟩, .inl rfl⟩, trivial⟩, ?_, ?_, ?_⟩
  · simp [landingsStmts, landingsStmt, landingsBlock, Made.block, h.landings]
  · simp [leapsStmts, leapsStmt, leapsBlock, Made.block, h.leaps]
  · simp [exitsStmts, exitsStmt, exitsBlock, Made.block, h.exits]

theorem unmarked_call (p : Option Provenance) {f : Frame}
    (hf : f.cleanup.symbol.owner = some owner) : Unmarked owner [callCleanup p f] :=
  ⟨⟨formed_callCleanup p hf, trivial⟩, rfl, rfl, rfl⟩

mutual

theorem unmarked_disposeFrame (hplan : Fitting owner plan) : ∀ (f : Frame),
    (∀ g ∈ f.preorder, g.cleanup.symbol.owner = some owner) →
    Unmarked owner [disposeFrame plan f]
  | .mk state entry cleanup suspensions children, h => by
    have hcall := unmarked_call (f := .mk state entry cleanup suspensions children)
      plan.provenance (h _ (by simp [Frame.preorder]))
    have hlive := machine_stateIn hplan state (suspensions.map Suspension.state ++
      Frame.liveStatesAll children)
    cases children with
    | nil => exact hcall.when _ hlive
    | cons c cs =>
      have hinner : Unmarked owner (disposeFrames plan (c :: cs)) :=
        unmarked_disposeFrames hplan (c :: cs) fun g hg => h g (List.mem_cons_of_mem _ hg)
      exact (hinner.guard hcall _).when _ hlive

theorem unmarked_disposeFrames (hplan : Fitting owner plan) : ∀ (fs : List Frame),
    (∀ g ∈ Frame.preorderAll fs, g.cleanup.symbol.owner = some owner) →
    Unmarked owner (disposeFrames plan fs)
  | [], _ => ⟨trivial, rfl, rfl, rfl⟩
  | f :: rest, h => by
    refine Unmarked.cons ?_ ?_
    · exact unmarked_disposeFrame hplan f fun g hg => h g (List.mem_append_left _ hg)
    · exact unmarked_disposeFrames hplan rest fun g hg => h g (List.mem_append_right _ hg)

end

theorem unmarked_disposeBody (hplan : Fitting owner plan) {fs : List Frame}
    (h : ∀ g ∈ Frame.preorderAll fs, g.cleanup.symbol.owner = some owner) :
    Unmarked owner (disposeBody plan fs).statements := by
  have hfinish : Unmarked owner [plan.setState stateFinished] :=
    ⟨⟨hplan.setState _, trivial⟩, rfl, rfl, rfl⟩
  exact (unmarked_disposeFrames hplan fs h).guard hfinish _

/-- The method that ends the machine is in the lowered form. -/
theorem verify_dispose (markers : Bool) (hplan : Fitting owner plan) {fs : List Frame}
    (h : ∀ g ∈ Frame.preorderAll fs, g.cleanup.symbol.owner = some owner) (n : Nat) :
    ∃ b m, walkBlock markers (disposeBody plan fs) n = (.ok b, m) ∧ n ≤ m ∧
      verify false (.stmt (.block b)) = .ok () := by
  have hunmarked := unmarked_disposeBody hplan h
  have hlandings : landingsBlock (disposeBody plan fs) = [] := hunmarked.landings
  have hleaps : leapsBlock (disposeBody plan fs) = [] := hunmarked.leaps
  have hexits : exitsBlock (disposeBody plan fs) = [] := hunmarked.exits
  have hformed : FormedBlock (OfMachine owner) (disposeBody plan fs) :=
    ⟨.inl rfl, hunmarked.formed⟩
  obtain ⟨b, m, hwalk, hle, hverify⟩ := @walkBlock_formed owner markers _ hformed n
    (by simp [hlandings]) (by simp [hlandings]) (by simp [hleaps])
  exact ⟨b, m, hwalk, hle, hverify.mpr (by simp [hleaps, hexits, YieldFree])⟩

/-! ## Finallys -/

mutual

/-- The labels that stay are some of the labels, in their order. -/
theorem kept_sublist : ∀ s : Stmt, (keptStmt s).Sublist (landingsStmt s)
  | .block b => keptBlock_sublist b
  | .list _ ss => keptStmts_sublist ss
  | .try _ body catches cleanup => by
    rw [keptStmt, landingsStmt]
    split
    · rw [List.append_assoc]
      exact (keptBlock_sublist body).trans (List.sublist_append_left _ _)
    · exact ((keptBlock_sublist body).append (keptCatches_sublist catches)).append
        (keptBlock_sublist cleanup)
  | .label .. => .refl _
  | .absent | .sequencePoint .. | .noOp .. | .localDeclaration .. | .expression .. | .return ..
  | .yieldReturn .. | .yieldBreak .. | .throw .. | .if .. | .while .. | .break .. | .continue ..
  | .goto .. | .conditionalGoto .. | .dispatch .. | .foreign .. => List.nil_sublist _

theorem keptStmts_sublist : ∀ ss : List Stmt, (keptStmts ss).Sublist (landingsStmts ss)
  | [] => .refl _
  | s :: rest => (kept_sublist s).append (keptStmts_sublist rest)

theorem keptBlock_sublist : ∀ b : Block, (keptBlock b).Sublist (landingsBlock b)
  | .absent => .refl _
  | .mk _ _ ss => keptStmts_sublist ss

theorem keptCatches_sublist : ∀ cs : List Catch, (keptCatches cs).Sublist (landingsCatches cs)
  | [] => .refl _
  | .mk _ _ body :: rest => (keptBlock_sublist body).append (keptCatches_sublist rest)

end

/-- A finally that is extracted from a body with the labels and jumps: it can be lowered, it does
not suspend, and its labels and jumps are among them. -/
structure Torn (P : Expr → Prop) (landings : List (Option Label)) (leaps : List Leap)
    (cleanup : Block) : Prop where
  ready : ReadyBlock P cleanup
  quiet : .yieldReturn ∉ exitsBlock cleanup
  landings : (landingsBlock cleanup).Sublist landings
  leaps : ∀ j ∈ leapsBlock cleanup, j ∈ leaps

theorem Torn.mono {P : Expr → Prop} {ls ls' : List (Option Label)} {js js' : List Leap} {c : Block}
    (h : Torn P ls js c) (hls : ls.Sublist ls') (hjs : ∀ j ∈ js, j ∈ js') : Torn P ls' js' c :=
  ⟨h.ready, h.quiet, h.landings.trans hls, fun j hj => hjs j (h.leaps j hj)⟩

mutual

theorem torn_stmt {P : Expr → Prop} {c : Block} : ∀ {s : Stmt}, Ready P s → Guarded s →
    c ∈ cleanupsStmt s → Torn P (landingsStmt s) (leapsStmt s) c
  | .block b, hs, hguarded, hc => torn_block (b := b) hs hguarded hc
  | .list _ ss, hs, hguarded, hc => @torn_stmts P c ss hs hguarded hc
  | .try _ body catches cleanup, hs, hguarded, hc => by
    have hleft : ∀ d, Torn P (landingsBlock body) (leapsBlock body) d →
        Torn P (landingsStmt (.try default body catches cleanup))
          (leapsStmt (.try default body catches cleanup)) d := fun d h => by
      refine h.mono ?_ fun j hj => ?_
      · rw [landingsStmt, List.append_assoc]
        exact List.sublist_append_left _ _
      · rw [leapsStmt, List.append_assoc]
        exact List.mem_append_left _ hj
    have hright : ∀ d, Torn P (landingsBlock cleanup) (leapsBlock cleanup) d →
        Torn P (landingsStmt (.try default body catches cleanup))
          (leapsStmt (.try default body catches cleanup)) d := fun d h =>
      h.mono (List.sublist_append_right _ _) fun j hj => List.mem_append_right _ hj
    rw [cleanupsStmt] at hc
    split at hc
    · rename_i hframed
      have hpresent := (framed_iff.mp hframed).1
      rcases List.mem_cons.mp hc with rfl | hc
      · exact hright _ ⟨hs.2.2.1.resolve_left hpresent, hguarded.1.2.1, .refl _, fun j hj => hj⟩
      · exact hleft _ (torn_block hs.1 hguarded.2.1 hc)
    · rw [List.mem_append, List.mem_append] at hc
      rcases hc with (hc | hc) | hc
      · exact hleft _ (torn_block hs.1 hguarded.2.1 hc)
      · refine (torn_catches hs.2.1 hguarded.2.2.1 hc).mono ?_ fun j hj => ?_
        · exact (List.sublist_append_right _ _).trans (List.sublist_append_left _ _)
        · exact List.mem_append_left _ (List.mem_append_right _ hj)
      · rcases hs.2.2.1 with rfl | hready
        · cases hc
        · exact hright _ (torn_block hready hguarded.2.2.2 hc)
  | .sequencePoint .., _, _, hc | .yieldBreak _, _, _, hc | .label .., _, _, hc
  | .goto .., _, _, hc | .expression .., _, _, hc | .yieldReturn .., _, _, hc
  | .conditionalGoto .., _, _, hc | .return .., _, _, hc | .throw .., _, _, hc => nomatch hc
  | .absent, hs, _, _ | .noOp .., hs, _, _ | .localDeclaration .., hs, _, _ | .if .., hs, _, _
  | .while .., hs, _, _ | .break .., hs, _, _ | .continue .., hs, _, _ | .dispatch .., hs, _, _
  | .foreign .., hs, _, _ => hs.elim

theorem torn_stmts {P : Expr → Prop} {c : Block} : ∀ {ss : List Stmt}, ReadyAll P ss →
    GuardedAll ss → c ∈ cleanupsStmts ss → Torn P (landingsStmts ss) (leapsStmts ss) c
  | [], _, _, hc => nomatch hc
  | s :: rest, hss, hguarded, hc => by
    rcases List.mem_append.mp hc with hc | hc
    · exact (torn_stmt hss.1 hguarded.1 hc).mono (List.sublist_append_left _ _)
        fun j hj => List.mem_append_left _ hj
    · exact (torn_stmts hss.2 hguarded.2 hc).mono (List.sublist_append_right _ _)
        fun j hj => List.mem_append_right _ hj

theorem torn_block {P : Expr → Prop} {c : Block} : ∀ {b : Block}, ReadyBlock P b →
    GuardedBlock b → c ∈ cleanupsBlock b → Torn P (landingsBlock b) (leapsBlock b) c
  | .absent, hb, _, _ => hb.elim
  | .mk _ _ ss, hb, hguarded, hc => @torn_stmts P c ss hb.2 hguarded hc

theorem torn_catches {P : Expr → Prop} {c : Block} : ∀ {cs : List Catch}, ReadyCatches P cs →
    GuardedCatches cs → c ∈ cleanupsCatches cs → Torn P (landingsCatches cs) (leapsCatches cs) c
  | [], _, _, hc => nomatch hc
  | .mk _ _ body :: rest, hcs, hguarded, hc => by
    rcases List.mem_append.mp hc with hc | hc
    · exact (torn_block hcs.1 hguarded.1 hc).mono (List.sublist_append_left _ _)
        fun j hj => List.mem_append_left _ hj
    · exact (torn_catches hcs.2 hguarded.2 hc).mono (List.sublist_append_right _ _)
        fun j hj => List.mem_append_right _ hj

end

/-- What the method of a finally does first has no part in where its jumps go. -/
theorem closed_extracted {field : Field} {cleanup : Block} {f : Frame}
    (hf : Extracted owner field cleanup f) : Closed f.cleanup.body ↔ Closed cleanup := by
  obtain ⟨name, parent, hmethod⟩ := hf
  rw [hmethod]
  cases cleanup <;> rfl

/-- The method of a finally is made of the code of the finally. -/
theorem formed_extracted {field : Field} (hfield : field.owner = owner) {cleanup : Block}
    {f : Frame} (hf : Extracted owner field cleanup f)
    (hready : ReadyBlock (OfMachine owner) cleanup) :
    FormedBlock (OfMachine owner) f.cleanup.body := by
  obtain ⟨name, parent, hmethod⟩ := hf
  cases cleanup with
  | absent => exact hready.elim
  | mk o locals ss =>
    rw [hmethod]
    exact ⟨hready.1, formed_assign _ hfield (machine_int _ _), formedAll_of_ready hready.2⟩

/-- The method of a finally is in the lowered form if and only if the finally is on its own. -/
theorem verify_extracted (markers : Bool) {field : Field} (hfield : field.owner = owner)
    {cleanup : Block} {f : Frame} (hf : Extracted owner field cleanup f)
    {ls : List (Option Label)} {js : List Leap} (htorn : Torn (OfMachine owner) ls js cleanup)
    {n : Nat} (hnodup : ls.Nodup) (hls : ∀ l ∈ ls, Earlier n l)
    (hjs : ∀ j ∈ js, Earlier n j.target) :
    ∃ b m, walkBlock markers f.cleanup.body n = (.ok b, m) ∧ n ≤ m ∧
      (verify false (.stmt (.block b)) = .ok () ↔ Closed cleanup) := by
  have hformed := formed_extracted hfield hf htorn.ready
  obtain ⟨name, parent, hmethod⟩ := hf
  cases cleanup with
  | absent => exact htorn.ready.elim
  | mk o locals ss =>
    rw [hmethod] at hformed ⊢
    obtain ⟨b, m, hwalk, hle, hverify⟩ := @walkBlock_formed owner markers _ hformed n
      (htorn.landings.nodup hnodup) (fun l hl => hls l (htorn.landings.subset hl))
      fun j hj => hjs j (htorn.leaps j hj)
    refine ⟨b, m, hwalk, hle, hverify.trans (and_congr_right fun _ => ?_)⟩
    constructor
    · intro hfree hbreak
      exact absurd (hfree _ hbreak) (by decide)
    · intro hbreak k hk
      cases k <;> first | rfl | exact absurd hk hbreak | exact absurd hk htorn.quiet

/-! ## Resumption -/

theorem formed_moveNextBody (hplan : Fitting owner plan) {dispose : Method}
    (hdispose : dispose.owner = some owner) (c : Contents) (invalid start : Label) {b : Block}
    (hb : FormedBlock (OfMachine owner) b) :
    FormedBlock (OfMachine owner) (moveNextBody plan dispose c invalid start b) := by
  have hcall : Formed (OfMachine owner)
      (Made.callThis plan.provenance plan.state.owner dispose) := by
    simp [Made.callThis, Formed, OfMachine, Made.this, machineExpr, machineExprs, hdispose]
  have hhost : Formed (OfMachine owner) (Made.callHost plan.provenance .invalidResumption) := rfl
  have hhandler : FormedCatches (OfMachine owner)
      [faultHandler plan.provenance plan.state.owner dispose] := by
    have hblock : FormedBlock (OfMachine owner) (Made.block plan.provenance
        [.throw (.made plan.provenance) .absent]) := ⟨.inl rfl, .inl rfl, trivial⟩
    exact ⟨⟨.inl rfl, ⟨⟨.inl rfl, hcall, trivial⟩, trivial, .inr hblock,
      .inr (by simp [Made.block])⟩, trivial⟩, trivial⟩
  refine ⟨.inl rfl, ⟨⟨.inl rfl, machine_field _ hplan.state, trivial, hhost,
    .inr (machine_bool _ _), trivial, hplan.setState _, hb, trivial, hplan.setState _,
    .inr (machine_bool _ _), trivial⟩, hhandler, .inl rfl, .inl (by simp)⟩, trivial⟩

theorem landingsBlock_moveNextBody (plan : Plan) (dispose : Method) (c : Contents)
    (invalid start : Label) (b : Block) :
    landingsBlock (moveNextBody plan dispose c invalid start b) =
      some invalid :: some start :: (landingsBlock b ++ [some plan.exit]) := by
  simp [moveNextBody, faultHandler, Made.block, Made.label, Made.callHost, Made.callThis,
    Plan.returnBool, Plan.setState, assignState, Made.assign, landingsBlock, landingsStmts,
    landingsStmt, landingsCatches]

theorem leapsBlock_moveNextBody (plan : Plan) (dispose : Method) (c : Contents)
    (invalid start : Label) (b : Block) :
    leapsBlock (moveNextBody plan dispose c invalid start b) =
      ⟨some start, false⟩ :: (c.resumeCases.map DispatchCase.label ++ [some invalid]).map
        (fun target => ⟨target, false⟩) ++ leapsBlock b := by
  simp [moveNextBody, faultHandler, Made.block, Made.label, Made.callHost, Made.callThis,
    Plan.returnBool, Plan.setState, assignState, Made.assign, leapsBlock, leapsStmts, leapsStmt,
    leapsCatches]

theorem exitsBlock_moveNextBody (plan : Plan) (dispose : Method) (c : Contents)
    (invalid start : Label) (b : Block) :
    exitsBlock (moveNextBody plan dispose c invalid start b) =
      .return :: (exitsBlock b ++ [.return]) := by
  simp [moveNextBody, faultHandler, Made.block, Made.label, Made.callHost, Made.callThis,
    Plan.returnBool, Plan.setState, assignState, Made.assign, exitsBlock, exitsStmts, exitsStmt,
    exitsCatches]

/-- What the analysis and the check of a body have shown, as the conversion needs it; `k` labels
have been made before the one at the end, and `n` by the end of the analysis. -/
structure Prepared (owner : TypeDecl) (plan : Plan) (c : Contents) (b : Block) (k n : Nat) :
    Prop where
  fitting : Fitting owner plan
  ready : ReadyBlock (OfMachine owner) b
  guarded : GuardedBlock b
  unreturned : .return ∉ exitsBlock b
  contents : MatchesBlock owner plan.owners 0 b c
  owners : ∀ l, plan.owners.lookup l = some stateRunning ↔ l = some plan.exit ∨ l ∈ ownBlock b
  exit : plan.exit = .generated "exit" (k + 1 : Nat)
  nodup : (landingsBlock b).Nodup
  earlier : ∀ l ∈ landingsBlock b, Earlier k l
  labels : Numbered (k + 1) n c.labels

/-- Outside of every frame nothing is left to be placed, and each jump goes to a label that is. -/
theorem Converted.root {owners : List (Option Label × Int)} {kept : List (Option Label)}
    {c : Contents} {landings : List (Option Label)} {leaps : List Leap} {scopes' : List Scope}
    {n m : Nat} {exit : Option Label}
    (h : Converted owners kept c landings leaps [⟨stateRunning, {}, []⟩] n scopes' m)
    (howners : ∀ l, owners.lookup l = some stateRunning → l = exit ∨ l ∈ kept) :
    (∃ made, landings.Perm (kept ++ c.labels ++ made) ∧ Numbered n m made) ∧
      ∀ j ∈ leaps, j.target ∈ landings ∨ j.target = exit := by
  obtain ⟨routes, outer, rfl, houter, h⟩ := h.retop {}
  obtain rfl : outer = [] := by simpa using houter
  obtain rfl : routes = [] := by
    refine List.eq_nil_iff_forall_not_mem.mpr fun r hr => ?_
    obtain ⟨s, hs, -⟩ := h.linked.1 r hr
    cases hs
  refine ⟨?_, fun j hj => ?_⟩
  · obtain ⟨made, hperm, hmade⟩ := h.labels
    exact ⟨made, by simpa [pending, Scope.proxies] using hperm, hmade⟩
  · rcases h.jumps j hj with hmem | ⟨_, _, hs, ⟨-, hown⟩ | ⟨r, hr, -⟩⟩
    · exact .inl hmem
    · cases hs
      rcases howners _ hown with hexit | hkept
      · exact .inr hexit
      · exact .inl (h.keeps _ (List.mem_append_left _ hkept))
    · cases hs
      cases hr

/-- The method that resumes the machine is in the lowered form. -/
theorem verify_moveNext {c : Contents} {b b' : Block} {k n m : Nat}
    (h : Prepared owner plan c b k n) (markers : Bool) {dispose : Method}
    (hdispose : dispose.owner = some owner) {ls : List (Option Label)} {js : List Leap}
    (hshape : ShapedBlock owner b' ls js) {scopes' : List Scope}
    (hconverted : Converted plan.owners (keptBlock b) c ls js [⟨stateRunning, {}, []⟩] (n + 2)
      scopes' m) :
    ∃ b'' m', walkBlock markers (moveNextBody plan dispose c (.generated "invalid" (n + 1 : Nat))
        (.generated "start" (n + 2 : Nat)) b') m = (.ok b'', m') ∧ n ≤ m' ∧
      verify false (.stmt (.block b'')) = .ok () := by
  obtain ⟨⟨made, hperm, hmade⟩, hjumps⟩ := hconverted.root fun l hl =>
    ((h.owners l).mp hl).imp id (ownBlock_kept h.ready)
  have hformed := formed_moveNextBody h.fitting hdispose c (.generated "invalid" (n + 1 : Nat))
    (.generated "start" (n + 2 : Nat)) hshape.formed
  have hlandings := landingsBlock_moveNextBody plan dispose c (.generated "invalid" (n + 1 : Nat))
    (.generated "start" (n + 2 : Nat)) b'
  have hleaps := leapsBlock_moveNextBody plan dispose c (.generated "invalid" (n + 1 : Nat))
    (.generated "start" (n + 2 : Nat)) b'
  have hexits := exitsBlock_moveNextBody plan dispose c (.generated "invalid" (n + 1 : Nat))
    (.generated "start" (n + 2 : Nat)) b'
  generalize moveNextBody plan dispose c (.generated "invalid" (n + 1 : Nat))
    (.generated "start" (n + 2 : Nat)) b' = body at hformed hlandings hleaps hexits ⊢
  rw [hshape.landings] at hlandings
  rw [hshape.leaps] at hleaps
  -- In the order in which they are made, the labels of the method are numbered in a row.
  have hnumbered : Numbered k m ([some plan.exit] ++ c.labels ++
      ([some (.generated "invalid" (n + 1 : Nat))] ++ [some (.generated "start" (n + 2 : Nat))]) ++
      made) := by
    have hexit : Numbered k (k + 1) [some plan.exit] := by
      rw [h.exit]
      exact .single (by decide) (by decide)
    exact ((hexit.append h.labels).append ((Numbered.single (by decide) (by decide)).append
      (.single (by decide) (by decide)))).append hmade
  have hlabels : (landingsBlock body).Perm (keptBlock b ++ ([some plan.exit] ++ c.labels ++
      ([some (.generated "invalid" (n + 1 : Nat))] ++ [some (.generated "start" (n + 2 : Nat))]) ++
      made)) := by
    rw [hlandings]
    refine List.perm_iff_count.mpr fun l => ?_
    have hcount := hperm.count_eq l
    simp only [List.count_append, List.count_cons, List.count_nil] at hcount ⊢
    omega
  have hkept : ∀ l ∈ keptBlock b, Earlier k l := fun l hl =>
    h.earlier l ((keptBlock_sublist b).subset hl)
  have hearlier : ∀ l ∈ landingsBlock body, Earlier m l := by
    intro l hl
    rcases List.mem_append.mp (hlabels.mem_iff.mp hl) with hl | hl
    · exact (hkept l hl).mono hnumbered.le
    · exact earlier_of_numbered hnumbered hl
  have hresume : ∀ l ∈ c.labels, l ∈ ls := fun l hl =>
    hperm.mem_iff.mpr (List.mem_append_left _ (List.mem_append_right _ hl))
  have htargets : ∀ j ∈ leapsBlock body, j.target ∈ landingsBlock body := by
    intro j hj
    rw [hleaps] at hj
    rw [hlandings, List.mem_cons, List.mem_cons, List.mem_append, List.mem_singleton]
    rcases List.mem_append.mp hj with hj | hj
    · rcases List.mem_cons.mp hj with rfl | hj
      · exact .inr (.inl rfl)
      · obtain ⟨target, htarget, rfl⟩ := List.mem_map.mp hj
        rcases List.mem_append.mp htarget with htarget | htarget
        · exact .inr (.inr (.inl (hresume _ (mem_resumeCases htarget))))
        · exact .inl (List.mem_singleton.mp htarget)
    · exact .inr (.inr (hjumps j hj))
  have hnodup : (landingsBlock body).Nodup := hlabels.nodup_iff.mpr
    (nodup_of_numbered ((keptBlock_sublist b).nodup h.nodup) hkept hnumbered)
  obtain ⟨b'', m', hwalk, hle, hverify⟩ := walkBlock_formed markers hformed hnodup hearlier
    fun j hj => hearlier _ (htargets j hj)
  have hfree : YieldFree (exitsBlock body) := by
    rw [hexits]
    intro e he
    rcases List.mem_cons.mp he with rfl | he
    · rfl
    · rcases List.mem_append.mp he with he | he
      · exact hshape.free e he
      · rw [List.mem_singleton.mp he]
        rfl
  have hgrow := hmade.le
  exact ⟨b'', m', hwalk, by omega, hverify.mpr ⟨htargets, hfree⟩⟩

/-- The method that resumes the machine can be made if and only if the jumps of the body go to
labels whose frames are around, and then it is lowered to one in the lowered form. -/
theorem buildMoveNext_iff {c : Contents} {b : Block} {k n : Nat} (h : Prepared owner plan c b k n)
    (markers : Bool) {dispose : Method} (hdispose : dispose.owner = some owner) :
    ((∃ body m, buildMoveNext plan dispose c b n = (.ok body, m)) ↔
      RoutedBlock (fun l => l = some plan.exit ∨ l ∈ ownBlock b) b) ∧
    ∀ body m, buildMoveNext plan dispose c b n = (.ok body, m) →
      FormedBlock (OfMachine owner) body ∧ ∃ b' m', walkBlock markers body m = (.ok b', m') ∧ n ≤ m' ∧
        verify false (.stmt (.block b')) = .ok () := by
  have hsees : Sees plan.owners [stateRunning] = fun l => l = some plan.exit ∨ l ∈ ownBlock b := by
    funext l
    simp only [Sees, List.mem_singleton, exists_eq_left, h.owners]
  have hexit : Sees plan.owners [stateRunning] (some plan.exit) := by
    rw [hsees]
    exact .inl rfl
  have hconverts := convertBlock_ok h.fitting h.ready h.guarded h.unreturned h.contents hexit
    stateRunning {} [] [] (n + 2) rfl ⟨fun r hr => (nomatch hr), trivial⟩
  rw [Contents.append_nil, hsees] at hconverts
  have hbuild : buildMoveNext plan dispose c b n =
      match convertBlock plan b [⟨stateRunning, c, []⟩] (n + 2) with
      | (.ok (b', _), m) => (.ok (moveNextBody plan dispose c (.generated "invalid" (n + 1 : Nat))
          (.generated "start" (n + 2 : Nat)) b'), m)
      | (.error e, m) => (.error e, m) := by
    simp only [buildMoveNext, Lower.bind_apply, Lower.newLabel_apply, StateT.run]
    cases convertBlock plan b [⟨stateRunning, c, []⟩] (n + 2) with
    | mk result m => cases result <;> rfl
  constructor
  · rw [hbuild]
    constructor
    · rintro ⟨body, m, hok⟩
      cases hconvert : convertBlock plan b [⟨stateRunning, c, []⟩] (n + 2) with
      | mk result m =>
        rw [hconvert] at hok
        cases result with
        | error e => cases hok
        | ok p => exact (hconverts.forward p.1 p.2 m hconvert).1
    · intro hrouted
      obtain ⟨b', scopes', m, hconvert⟩ := hconverts.backward hrouted
      exact ⟨_, m, by rw [hconvert]⟩
  · intro body m hok
    rw [hbuild] at hok
    cases hconvert : convertBlock plan b [⟨stateRunning, c, []⟩] (n + 2) with
    | mk result m' =>
      rw [hconvert] at hok
      cases result with
      | error e => cases hok
      | ok p =>
        obtain ⟨b', scopes'⟩ := p
        obtain ⟨rfl, rfl⟩ : moveNextBody plan dispose c (.generated "invalid" (n + 1 : Nat))
            (.generated "start" (n + 2 : Nat)) b' = body ∧ m' = m := by
          cases hok
          exact ⟨rfl, rfl⟩
        obtain ⟨-, ls, js, hshape, hconverted⟩ := hconverts.forward b' scopes' m' hconvert
        exact ⟨formed_moveNextBody h.fitting hdispose c _ _ hshape.formed,
          verify_moveNext h markers hdispose hshape hconverted⟩

end Resumable.StateMachine
