import Resumable.Proofs.Machine.Course
import Resumable.Proofs.Session.Dispatched

/-!
# Suspension points in the order of the code

In the code that the conversion makes of a body, the suspension points stand in the order of the
elements of the body, and their states are the numbers in this order (`convertBlock_inTurn`).  So the
instructions of the method that resumes which return a true value are those of the elements, one after
the other (`Built.gives`).
-/

set_option autoImplicit false

namespace Resumable.Machine

open Resumable.Symbol Resumable.Tree

/-! ## Returns -/

/-- The value that an instruction returns. -/
def Instr.returned? {τ : Type} : Instr τ → Option Expr
  | .return e => some e
  | _ => none

/-- The expression is the true value. -/
def isTrue : Expr → Bool
  | .literal _ (.bool value) _ => value
  | _ => false

/-- The position, if the expression at it is the true value. -/
def trueAt? (x : Nat × Expr) : Option Nat := if isTrue x.2 then some x.1 else none

/-- The positions of the instructions that return a true value, in order. -/
def Routine.gives (r : Routine) : List Nat :=
  r.instrs.toList.zipIdx.filterMap fun x => (x.1.returned?.map (x.2, ·)).bind trueAt?

/-- The position of a statement that returns, and the value that it returns. -/
def Site.returned? (x : Site) : Option (Nat × Expr) :=
  match x.item with
  | .stmt (.return _ e) => some (x.pc, e)
  | _ => none

theorem Site.returned?_eq (x : Site) :
    (x.code?.bind fun y => y.1.returned?.map (y.2, ·)) = x.returned? := by
  obtain ⟨pc, item, parts⟩ := x
  cases item with
  | stmt s =>
    cases s with
    | throw o e => cases e <;> rfl
    | _ => rfl
  | _ => rfl

/-- The instructions that return a true value are those of such statements. -/
theorem gives_routineOf (method : Method) (b : Block) : (routineOf method b).gives =
    ((sitesBlock [] 0 b).filterMap Site.returned?).filterMap trueAt? := by
  have hresolve : ∀ (x : Instr Target × Nat),
      (((bodyFragment b).resolveInstr x.1).returned?.map (x.2, ·)).bind trueAt? =
        (x.1.returned?.map (x.2, ·)).bind trueAt? := by
    rintro ⟨i, p⟩
    cases i <;> rfl
  have hinstrs : (routineOf method b).instrs.toList.zipIdx =
      ((flattenBlock 0 b ++ .one (.return .absent)).instrs.zipIdx 0).map
        (Prod.map (bodyFragment b).resolveInstr id) := by
    rw [routineOf, List.toList_toArray, List.zipIdx_map]
    rfl
  have hsites : (sitesBlock [] 0 b).filterMap Site.code? ++ [(.return .absent, sizeBlock b)] =
      (flattenBlock 0 b ++ .one (.return .absent)).instrs.zipIdx 0 := by
    rw [code_block, Fragment.append_instrs, List.zipIdx_append, (fits_block 0 b).length, Nat.zero_add]
    rfl
  rw [Routine.gives, hinstrs, List.filterMap_map, ← hsites, List.filterMap_append,
    List.filterMap_filterMap, List.filterMap_filterMap]
  refine (List.append_nil _).trans (List.filterMap_congr fun x _ => ?_)
  rw [← x.returned?_eq]
  cases x.code? with
  | none => rfl
  | some y => exact hresolve y

end Resumable.Machine

namespace Resumable.StateMachine

open Resumable.Symbol Resumable.Tree Resumable.Source Resumable.Lowering
open Resumable.Machine hiding Region Outcome Handler

/-! ## Suspension points in turn -/

/-- The code of the suspension points of the elements, which are numbered from behind `k` on, stands
among the sites in the order of the elements, and nothing else returns there. -/
structure InTurn (plan : Plan) (around : List Part) (k : Nat) (es : List Expr)
    (xs : List Machine.Site) : Prop where
  length : (xs.filterMap Machine.Site.returned?).length = es.length
  suspends : ∀ i e, es[i]? = some e → ∃ q o resume frame,
    (xs.filterMap Machine.Site.returned?)[i]? = some (q + 2, Made.bool plan.provenance true) ∧
    sitesStmt around q (suspend plan o e ⟨(k + i + 1 : Nat), resume⟩ frame) <:+: xs

namespace InTurn

variable {plan : Plan} {around : List Part} {k : Nat} {es fs : List Expr}
  {xs ys : List Machine.Site}

theorem none_iff : InTurn plan around k [] xs ↔ xs.filterMap Machine.Site.returned? = [] :=
  ⟨fun h => List.eq_nil_of_length_eq_zero h.length, fun h => ⟨congrArg List.length h, nofun⟩⟩

theorem none (h : xs.filterMap Machine.Site.returned? = []) : InTurn plan around k [] xs := none_iff.mpr h

theorem append (h : InTurn plan around k es xs) (h' : InTurn plan around (k + es.length) fs ys) :
    InTurn plan around k (es ++ fs) (xs ++ ys) := by
  refine ⟨?_, fun i e hi => ?_⟩
  · rw [List.filterMap_append, List.length_append, List.length_append, h.length, h'.length]
  · rw [List.filterMap_append]
    by_cases hlt : i < es.length
    · rw [List.getElem?_append_left hlt] at hi
      obtain ⟨q, o, resume, frame, hq, hcode⟩ := h.suspends i e hi
      refine ⟨q, o, resume, frame, ?_, hcode.trans (List.prefix_append xs ys).isInfix⟩
      rwa [List.getElem?_append_left (by rw [h.length]; exact hlt)]
    · rw [List.getElem?_append_right (Nat.le_of_not_lt hlt)] at hi
      obtain ⟨q, o, resume, frame, hq, hcode⟩ := h'.suspends _ e hi
      have hnumber : k + es.length + (i - es.length) + 1 = k + i + 1 := by omega
      rw [hnumber] at hcode
      refine ⟨q, o, resume, frame, ?_, hcode.trans (List.suffix_append xs ys).isInfix⟩
      rwa [List.getElem?_append_right (by rw [h.length]; exact Nat.le_of_not_lt hlt), h.length]

/-- Sites around the others that return nothing. -/
theorem inside {before behind : List Machine.Site} (h : InTurn plan around k es xs)
    (hbefore : before.filterMap Machine.Site.returned? = [])
    (hbehind : behind.filterMap Machine.Site.returned? = []) :
    InTurn plan around k es (before ++ (xs ++ behind)) := by
  have hempty : InTurn plan around (k + es.length) [] behind := none hbehind
  have h' := (none hbefore).append (h.append hempty)
  rwa [List.append_nil, List.nil_append] at h'

end InTurn

/-- The code of the finally of a frame and of its proxies returns nothing. -/
theorem returned_ways {T : Table} {frame : Int} {p : Option Provenance} {f : Frame} {ways : List Stmt}
    (h : Ways T frame p f ways) (around : List Part) (pc : Nat) :
    (sitesStmts around pc (callCleanup p f :: ways)).filterMap Machine.Site.returned? = [] := by
  have hproxies : ∀ (routes : List Route) (pc : Nat) (after : Label), (sitesStmts around pc
      ((routes.flatMap fun r => [Made.label p r.proxy, callCleanup p f, .goto (.made p) r.next]) ++
        [Made.label p after])).filterMap Machine.Site.returned? = [] := by
    intro routes
    induction routes with
    | nil => exact fun _ _ => rfl
    | cons r rest ih => exact fun pc after => ih _ after
  rcases h with rfl | ⟨routes, after, rfl, -⟩
  · rfl
  · exact hproxies routes _ after

/-! ## The conversion -/

variable {plan : Plan} {owner : TypeDecl}

/-- Nothing in a finally returns, if none of its elements does. -/
theorem Images.still_cleanup {cleanup : Block} {st : Int} {k : Nat}
    (hquiet : elementsBlock cleanup = [])
    (h : cleanup = .absent ∨ Images plan st {} (ownBlock cleanup) (convertBlock plan cleanup)
      landingsBlock fun _ b => ∀ around pc,
        InTurn plan around k (elementsBlock cleanup) (sitesBlock around pc b)) :
    Images plan st {} (ownBlock cleanup) (convertBlock plan cleanup) landingsBlock fun _ b =>
      ∀ around pc, (sitesCleanup around pc b).filterMap Machine.Site.returned? = [] := by
  rcases h with rfl | h
  · exact .still [] (.refl _) (fun l hl => absurd hl List.not_mem_nil) fun _ _ _ _ => rfl
  · refine h.weaken (fun l hl => hl) fun _ b h around pc => ?_
    rw [hquiet] at h
    cases b with
    | absent => rfl
    | mk o ls ss =>
      rw [sitesCleanup, List.filterMap_append]
      exact congrArg (· ++ []) (InTurn.none_iff.mp (h _ pc))

/-- A try that stays has no suspension points. -/
theorem Images.still_try {o : Origin} {body cleanup : Block} {catches : List Catch} {st : Int}
    {k : Nat} (hframe : isFrame body cleanup = false) (hframed : framed body cleanup = false)
    (hquiet : elementsBlock body = []) (hcatches : elementsCatches catches = [])
    (hcleanup : elementsBlock cleanup = [])
    (hbody : Images plan st {} (ownBlock body) (convertBlock plan body) landingsBlock fun _ b =>
      ∀ around pc, InTurn plan around k (elementsBlock body) (sitesBlock around pc b))
    (hhandlers : Images plan st {} (ownCatches catches) (convertCatches plan catches) landingsCatches
      fun _ ds => ∀ around behind pc,
        (sitesCatches around behind pc ds).filterMap Machine.Site.returned? = [])
    (hfinally : Images plan st {} (ownBlock cleanup) (convertBlock plan cleanup) landingsBlock fun _ b =>
      ∀ around pc, (sitesCleanup around pc b).filterMap Machine.Site.returned? = []) :
    Images plan st {} (ownStmt (.try o body catches cleanup))
      (convertStmt plan (.try o body catches cleanup)) landingsStmt fun _ t => ∀ around pc,
        InTurn plan around k (elementsStmt (.try o body catches cleanup)) (sitesStmt around pc t) := by
  have hbehind : Images plan st {} (ownCatches catches ++ ownBlock cleanup) (do
      let catches' ← convertCatches plan catches
      let cleanup' ← convertBlock plan cleanup
      return (catches', cleanup')) (fun p => landingsCatches p.1 ++ landingsBlock p.2)
      fun _ p => (∀ around behind pc,
          (sitesCatches around behind pc p.1).filterMap Machine.Site.returned? = []) ∧
        ∀ around pc, (sitesCleanup around pc p.2).filterMap Machine.Site.returned? = [] :=
    hhandlers.append hfinally (fun _ _ => .refl _) fun _ _ _ h h' => ⟨h, h'⟩
  have hparts : Images plan st {} ((ownCatches catches ++ ownBlock cleanup) ++ ownBlock body) _
      landingsStmt fun _ t => ∀ around pc,
        InTurn plan around k (elementsStmt (.try o body catches cleanup)) (sitesStmt around pc t) :=
    hbehind.append hbody (g := fun p body' => .try o body' p.1 p.2)
      (fun p body' => by
        rw [landingsStmt, List.append_assoc (landingsBlock body')]
        exact List.perm_append_comm)
      fun T p body' h h' around pc => by
        rw [hquiet] at h'
        rw [elementsStmt, hquiet, hcatches, hcleanup]
        refine .none ?_
        simp only [sitesStmt, List.filterMap_append, h.1, h.2, InTurn.none_iff.mp (h' _ pc)]
        rfl
  rw [convertStmt, hframe]
  simp only [bind_assoc, pure_bind] at hparts
  refine hparts.weaken (fun l hl => ?_) fun _ _ h => h
  simp only [ownStmt, hframed, Bool.false_eq_true, if_false, List.mem_append] at hl ⊢
  exact or_comm.mp (or_assoc.mp hl)

mutual

theorem convertStmt_inTurn : ∀ {k : Nat} {s : Stmt} {c : Contents} {st : Int},
    Ready (OfMachine owner) s → Guarded s → Matches owner plan.owners k s c →
    Images plan st c (ownStmt s) (convertStmt plan s) landingsStmt
      fun _ t => ∀ around pc, InTurn plan around k (elementsStmt s) (sitesStmt around pc t)
  | _, .block b, c, st, hs, hguarded, hmatches =>
    (convertBlock_inTurn (b := b) hs hguarded hmatches).map (fun _ => .refl _) fun _ _ h => h
  | k, .list o ss, c, st, hs, hguarded, hmatches =>
    (@convertStmts_inTurn k ss c st hs hguarded hmatches).map (fun _ => .refl _) fun _ _ h => h
  | k, .yieldReturn o e, c, st, hs, _, hmatches => by
    obtain ⟨resume, rfl⟩ := hmatches
    intro rest routes outer n t scopes' m hlinked hstep
    cases hstep
    refine ⟨routes, outer, [(some resume, .inner [(k + 1 : Nat)])], rfl, .refl _, hlinked, .refl _,
      fun l hl => (nomatch hl), fun T _ _ _ around pc => ⟨rfl, fun i e' hi => ?_⟩⟩
    obtain ⟨rfl, rfl⟩ : i = 0 ∧ e = e' := by
      cases i with
      | zero => exact ⟨rfl, Option.some.inj hi⟩
      | succ i => cases hi
    exact ⟨pc, o, resume, st, rfl, List.infix_refl _⟩
  | _, .yieldBreak o, c, st, _, _, hmatches => by
    obtain rfl : c = {} := hmatches
    exact Images.jump o (some plan.exit) (fun _ => rfl) fun _ _ _ _ _ => .none rfl
  | _, .goto o l, c, st, _, _, hmatches => by
    obtain rfl : c = {} := hmatches
    exact Images.jump o l (fun _ => rfl) fun _ _ _ _ _ => .none rfl
  | _, .conditionalGoto o e whenTrue l, c, st, _, _, hmatches => by
    obtain rfl : c = {} := hmatches
    exact Images.jump o l (fun _ => rfl) fun _ _ _ _ _ => .none rfl
  | _, .label o l, c, st, _, _, hmatches => by
    obtain rfl : c = {} := hmatches
    refine Images.still [(l, .leading st l)] (.refl _) (fun l' hl' => ?_) fun _ _ _ _ => .none rfl
    rw [List.mem_singleton.mp hl']
    exact List.mem_cons_self
  | _, .sequencePoint .., c, st, _, _, hmatches | _, .expression .., c, st, _, _, hmatches
  | _, .throw .., c, st, _, _, hmatches => by
    obtain rfl : c = {} := hmatches
    exact Images.still [] (.refl _) (fun l hl => (nomatch hl)) fun _ _ _ _ => .none rfl
  | k, .try o body catches cleanup, c, st, hs, hguarded, hmatches => by
    have hframe : isFrame body cleanup = framed body cleanup :=
      isFrame_eq (verifiedBlock_of_ready (fun _ => soundExpr_of_machine) hs.1)
    obtain ⟨⟨hquietCatches, hquietCleanup, hquietBody⟩, hguardedBody, hguardedCatches,
      hguardedCleanup⟩ := hguarded
    have hcatches : elementsCatches catches = [] := elementsCatches_quiet hquietCatches
    have hcleanup : elementsBlock cleanup = [] := elementsBlock_quiet hquietCleanup
    cases hframed : framed body cleanup with
    | true =>
      simp only [Matches, hframed, if_true] at hmatches
      obtain ⟨state, entry, method, inner, rfl, -, howners, hinner⟩ := hmatches
      simp only [ownStmt, hframed, if_true]
      refine Images.region o catches (hframe.trans hframed) howners
        (convertBlock_inTurn hs.1 hguardedBody hinner) ?_
      intro T start b' ways _ _ hbody hways around pc
      rw [elementsStmt, hcatches, hcleanup, List.append_nil, List.append_nil, sites_region]
      exact (hbody around (pc + 2)).inside rfl (returned_ways hways around _)
    | false =>
      have hquiet : elementsBlock body = [] := by
        refine elementsBlock_quiet fun hyield => ?_
        have habsent : cleanup = .absent := by
          refine Classical.byContradiction fun hne => ?_
          exact Bool.false_ne_true (hframed.symm.trans (framed_iff.mpr ⟨hne, hyield⟩))
        exact hquietBody (fun hnil => hs.2.2.2.mp hnil habsent) hyield
      simp only [Matches, hframed, Bool.false_eq_true, if_false] at hmatches
      obtain ⟨rfl, hmatches, hmatches', hmatches''⟩ := hmatches
      exact .still_try (hframe.trans hframed) hframed hquiet hcatches hcleanup
        (convertBlock_inTurn hs.1 hguardedBody hmatches)
        (convertCatches_inTurn hs.2.1 hguardedCatches hmatches' hcatches)
        (.still_cleanup hcleanup (hs.2.2.1.imp_right fun hready =>
          convertBlock_inTurn hready hguardedCleanup hmatches''))
  | _, .return .., _, _, _, _, _ => .of_fail
  | _, .absent, _, _, hs, _, _ | _, .noOp .., _, _, hs, _, _
  | _, .localDeclaration .., _, _, hs, _, _ | _, .if .., _, _, hs, _, _
  | _, .while .., _, _, hs, _, _ | _, .break .., _, _, hs, _, _
  | _, .continue .., _, _, hs, _, _ | _, .dispatch .., _, _, hs, _, _
  | _, .foreign .., _, _, hs, _, _ => hs.elim

theorem convertStmts_inTurn : ∀ {k : Nat} {ss : List Stmt} {c : Contents} {st : Int},
    ReadyAll (OfMachine owner) ss → GuardedAll ss → MatchesAll owner plan.owners k ss c →
    Images plan st c (ownStmts ss) (convertStmts plan ss) landingsStmts
      fun _ ts => ∀ around pc, InTurn plan around k (elementsStmts ss) (sitesStmts around pc ts)
  | _, [], _, _, _, _, rfl =>
    Images.still [] (.refl _) (fun _ hl => (nomatch hl)) fun _ _ _ _ => .none rfl
  | _, _ :: _, _, _, hss, hguarded, ⟨a, b, ha, hb, rfl⟩ =>
    (convertStmt_inTurn hss.1 hguarded.1 ha).append
      (convertStmts_inTurn hss.2 hguarded.2 hb) (fun _ _ => .refl _)
      fun _ t _ h h' around pc => (h around pc).append (h' around (pc + sizeStmt t))

/-- The suspension points in what the conversion makes of a block stand in the order of its
elements. -/
theorem convertBlock_inTurn : ∀ {k : Nat} {b : Block} {c : Contents} {st : Int},
    ReadyBlock (OfMachine owner) b → GuardedBlock b → MatchesBlock owner plan.owners k b c →
    Images plan st c (ownBlock b) (convertBlock plan b) landingsBlock
      fun _ b' => ∀ around pc, InTurn plan around k (elementsBlock b) (sitesBlock around pc b')
  | _, .absent, _, _, hb, _, _ => hb.elim
  | k, .mk _ _ ss, c, st, hb, hguarded, hmatches =>
    (@convertStmts_inTurn k ss c st hb.2 hguarded hmatches).map (fun _ => .refl _) fun _ _ h => h

/-- What the conversion makes of handlers returns nothing. -/
theorem convertCatches_inTurn : ∀ {k : Nat} {cs : List Catch} {c : Contents} {st : Int},
    ReadyCatches (OfMachine owner) cs → GuardedCatches cs → MatchesCatches owner plan.owners k cs c →
    elementsCatches cs = [] →
    Images plan st c (ownCatches cs) (convertCatches plan cs) landingsCatches
      fun _ ds => ∀ around behind pc,
        (sitesCatches around behind pc ds).filterMap Machine.Site.returned? = []
  | _, [], _, _, _, _, rfl, _ =>
    Images.still [] (.refl _) (fun l hl => (nomatch hl)) fun _ _ _ _ _ => rfl
  | _, .mk _ _ body :: _, _, _, hcs, hguarded, ⟨a, b, ha, hb, rfl⟩, hquiet => by
    obtain ⟨hbody, hrest⟩ := List.append_eq_nil_iff.mp hquiet
    refine (convertBlock_inTurn hcs.1 hguarded.1 ha).append
      (convertCatches_inTurn hcs.2 hguarded.2 hb hrest) (fun _ _ => .refl _)
      fun _ body' _ h h' around behind pc => ?_
    rw [hbody] at h
    rw [sitesCatches, List.filterMap_append, h', List.append_nil, List.filterMap_cons,
      List.filterMap_append, InTurn.none_iff.mp (h _ _)]
    rfl

end

/-! ## The method that resumes -/

section Machine

variable {markers : Bool} {origin : MethodBody} {sm : StateMachine} {c : Contents} {b : Block}
  {k n : Nat} {T : Table} {invalid start : Label} {b' : Block}

/-- The suspension points of the method stand in the order of the elements. -/
theorem Built.inTurn (h : Built markers origin owner sm plan c b k n)
    (hresumes : Resumes plan (.dispose owner) c b sm.moveNext.body T invalid start b')
    (around : List Part) (pc : Nat) :
    InTurn plan around 0 (elementsBlock b) (sitesBlock around pc b') := by
  obtain ⟨invalid', start', b'', scopes', i, j, hconvert, hbody⟩ := h.converts
  obtain rfl : b'' = b' := by
    cases hbody.symm.trans hresumes.body
    rfl
  obtain ⟨_, _, _, _, _, _, _, _, hinTurn⟩ :=
    convertBlock_inTurn h.prepared.ready h.prepared.guarded h.prepared.contents {} [] [] i b''
      scopes' j ⟨fun r hr => (nomatch hr), trivial⟩ (by rw [Contents.append_nil]; exact hconvert)
  exact hinTurn (fun _ _ => True) (fun _ _ => trivial) (fun _ _ => trivial) (fun _ _ => trivial) around
    pc

/-- What the method returns: that there is no element before and behind its body, and that there is
one at each suspension point of the body. -/
theorem Built.returned (h : Built markers origin owner sm plan c b k n)
    (hresumes : Resumes plan (.dispose owner) c b sm.moveNext.body T invalid start b') :
    ∃ xs q, InTurn plan [.guarded (wholeTry plan (.dispose owner) c invalid start b')] 0
        (elementsBlock b) xs ∧ xs <:+: sitesBlock [] 0 sm.moveNext.body ∧
      (sitesBlock [] 0 sm.moveNext.body).filterMap Machine.Site.returned? =
        (2, Made.bool plan.provenance false) :: (xs.filterMap Machine.Site.returned? ++
          [(q, Made.bool plan.provenance false)]) := by
  refine ⟨_, 4 + sizeBlock b' + 1, h.inTurn hresumes _ 4, ?_, ?_⟩
  · rw [hresumes.body]
    exact (bodySites_inside plan (.dispose owner) c invalid start b').trans
      (guardedSites_inside plan (.dispose owner) c invalid start b')
  · rw [hresumes.body, sites_moveNextBody, guardedSites_eq, List.filterMap_append,
      List.filterMap_append, List.filterMap_append]
    exact List.append_nil _

/-- Where the method returns a true value, its suspension points stand, in the order of the
elements. -/
theorem Built.gives (h : Built markers origin owner sm plan c b k n)
    (hresumes : Resumes plan (.dispose owner) c b sm.moveNext.body T invalid start b') :
    (routineOf sm.moveNext.symbol sm.moveNext.body).gives.length = (elementsBlock b).length ∧
    (∀ i e, (elementsBlock b)[i]? = some e → ∃ q o resume frame,
      (routineOf sm.moveNext.symbol sm.moveNext.body).gives[i]? = some (q + 2) ∧
      sitesStmt [.guarded (wholeTry plan (.dispose owner) c invalid start b')] q
        (suspend plan o e ⟨(i + 1 : Nat), resume⟩ frame) <:+: sitesBlock [] 0 sm.moveNext.body) ∧
    ∀ x ∈ (sitesBlock [] 0 sm.moveNext.body).filterMap Machine.Site.returned?,
      x.2 = Made.bool plan.provenance false ∨
        x.2 = Made.bool plan.provenance true ∧
          x.1 ∈ (routineOf sm.moveNext.symbol sm.moveNext.body).gives := by
  obtain ⟨xs, q, ⟨hlength, hsuspends⟩, hinside, hreturned⟩ := h.returned hresumes
  have htrue : ∀ x ∈ xs.filterMap Machine.Site.returned?, x.2 = Made.bool plan.provenance true := by
    intro x hx
    obtain ⟨i, hi, rfl⟩ := List.mem_iff_getElem.mp hx
    obtain ⟨q, o, resume, frame, hq, -⟩ := hsuspends i _ (List.getElem?_eq_getElem (hlength ▸ hi))
    rw [List.getElem?_eq_getElem hi] at hq
    rw [Option.some.inj hq]
  have hgives : (routineOf sm.moveNext.symbol sm.moveNext.body).gives =
      (xs.filterMap Machine.Site.returned?).map Prod.fst := by
    have hall : (xs.filterMap Machine.Site.returned?).filterMap trueAt? =
        (xs.filterMap Machine.Site.returned?).map Prod.fst := by
      rw [← List.filterMap_eq_map]
      refine List.filterMap_congr fun x hx => ?_
      rw [trueAt?, htrue x hx]
      rfl
    rw [gives_routineOf, hreturned, ← hall]
    exact (List.filterMap_append ..).trans (List.append_nil _)
  rw [hgives, List.length_map, hreturned]
  refine ⟨hlength, fun i e he => ?_, fun x hx => ?_⟩
  · obtain ⟨q, o, resume, frame, hq, hcode⟩ := hsuspends i e he
    rw [Nat.zero_add] at hcode
    exact ⟨q, o, resume, frame, by rw [List.getElem?_map, hq]; rfl, hcode.trans hinside⟩
  · rw [List.mem_cons, List.mem_append, List.mem_singleton] at hx
    rcases hx with rfl | hx | rfl
    · exact .inl rfl
    · exact .inr ⟨htrue x hx, List.mem_map_of_mem hx⟩
    · exact .inl rfl

end Machine

end Resumable.StateMachine
