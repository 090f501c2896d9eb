import Resumable.Proofs.Lowering.Suspensions
import Resumable.Proofs.StateMachine.Regions

/-!
# Lowering keeps what can be represented

Lowering puts labels of its own where branches meet, and jumps to them from beside them.  So each
label is visible in the lowered tree where it was before, and a lowered tree is guarded and its
jumps go to visible labels if and only if that holds of the tree (`Carried`).
-/

set_option autoImplicit false

namespace Resumable.StateMachine

open Resumable.Symbol Resumable.Tree Resumable.Source Resumable.Lowering
open Resumable.Machine (labelsStmt labelsStmts labelsBlock labelsCatches targetsStmt targetsStmts
  targetsBlock targetsCatches)

/-! ## Labels and jumps of the lowered form -/

mutual

theorem landings_of_verified {allowYield : Bool} : ∀ {s : Stmt},
    verifiedStmt allowYield s = true →
    landingsStmt s = labelsStmt s ∧ (leapsStmt s).map Leap.target = targetsStmt s
  | .block b, h => landingsBlock_of_verified (b := b) h
  | .list _ ss, h => @landingsStmts_of_verified _ ss h
  | .try _ body catches cleanup, h => by
    simp only [verifiedStmt, Bool.and_eq_true] at h
    obtain ⟨-, ⟨hbody, hcatches⟩, hcleanup⟩ := h
    obtain ⟨hlabels, htargets⟩ := landingsBlock_of_verified hbody
    obtain ⟨hlabels', htargets'⟩ := landingsCatches_of_verified hcatches
    obtain ⟨hlabels'', htargets''⟩ := landingsBlock_of_verified hcleanup
    simp only [landingsStmt, labelsStmt, leapsStmt, targetsStmt, List.map_append, hlabels, hlabels',
      hlabels'', htargets, htargets', htargets'', and_self]
  | .dispatch .., _ => by
    simp [landingsStmt, labelsStmt, leapsStmt, targetsStmt]
  | .absent, _ | .sequencePoint .., _ | .label .., _ | .goto .., _ | .expression .., _
  | .return .., _ | .throw .., _ | .conditionalGoto .., _ | .yieldReturn .., _
  | .yieldBreak .., _ => by
    simp [landingsStmt, labelsStmt, leapsStmt, targetsStmt]
  | .noOp .., h | .localDeclaration .., h | .if .., h | .while .., h | .break .., h
  | .continue .., h | .foreign .., h => nomatch h

theorem landingsStmts_of_verified {allowYield : Bool} : ∀ {ss : List Stmt},
    verifiedStmts allowYield ss = true →
    landingsStmts ss = labelsStmts ss ∧ (leapsStmts ss).map Leap.target = targetsStmts ss
  | [], _ => ⟨rfl, rfl⟩
  | s :: rest, h => by
    simp only [verifiedStmts, Bool.and_eq_true] at h
    obtain ⟨hlabels, htargets⟩ := landings_of_verified h.1
    obtain ⟨hlabels', htargets'⟩ := landingsStmts_of_verified h.2
    simp only [landingsStmts, labelsStmts, leapsStmts, targetsStmts, List.map_append, hlabels,
      hlabels', htargets, htargets', and_self]

theorem landingsBlock_of_verified {allowYield : Bool} : ∀ {b : Block},
    verifiedBlock allowYield b = true →
    landingsBlock b = labelsBlock b ∧ (leapsBlock b).map Leap.target = targetsBlock b
  | .absent, _ => ⟨rfl, rfl⟩
  | .mk _ _ ss, h => @landingsStmts_of_verified _ ss h

theorem landingsCatches_of_verified {allowYield : Bool} : ∀ {cs : List Catch},
    verifiedCatches allowYield cs = true →
    landingsCatches cs = labelsCatches cs ∧ (leapsCatches cs).map Leap.target = targetsCatches cs
  | [], _ => ⟨rfl, rfl⟩
  | .mk _ _ body :: rest, h => by
    simp only [verifiedCatches, Bool.and_eq_true] at h
    obtain ⟨hlabels, htargets⟩ := landingsBlock_of_verified h.1
    obtain ⟨hlabels', htargets'⟩ := landingsCatches_of_verified h.2
    simp only [landingsCatches, labelsCatches, leapsCatches, targetsCatches, List.map_append,
      hlabels, hlabels', htargets, htargets', and_self]

end

/-! ## Labels that lowering makes -/

/-- The label is one that lowering makes where branches meet. -/
def Branching (l : Option Label) : Prop := ∃ a b, BranchLabel a b l

/-- The finally of an extracted try is on its own if and only if the lowered one is. -/
theorem closed_iff {a b : Nat} {cleanup cleanup' : Block}
    (hlaid : Laid a b (landingsBlock cleanup) (leapsBlock cleanup) [.block cleanup'])
    (hexits : exitsBlock cleanup' = exitsBlock cleanup)
    (hleaps : ∀ j ∈ leapsBlock cleanup, ¬ Branching j.target) :
    Closed cleanup ↔ Closed cleanup' := by
  obtain ⟨made, hperm, hmade⟩ := hlaid.labels
  have hverified : verifiedBlock true cleanup' = true := by
    simpa [verifiedStmts, verifiedStmt] using hlaid.verified
  obtain ⟨hlandings, htargets⟩ := landingsBlock_of_verified hverified
  have hperm : (landingsBlock cleanup').Perm (landingsBlock cleanup ++ made) := by
    simpa [labelsStmts, labelsStmt, hlandings] using hperm
  unfold Closed
  rw [hexits]
  refine and_congr_left fun _ => ⟨fun h j hj => ?_, fun h j hj => ?_⟩
  · have hmem : j.target ∈ targetsStmts [.block cleanup'] := by
      simp only [targetsStmts, targetsStmt, List.append_nil, ← htargets]
      exact List.mem_map_of_mem hj
    rcases hlaid.targets _ hmem with hin | ⟨k, hk, hkj⟩
    · simpa [labelsStmts, labelsStmt, hlandings] using hin
    · rw [← hkj]
      exact hperm.mem_iff.mpr (List.mem_append_left _ (h k hk))
  · have hmem := hlaid.leaps j hj
    simp only [targetsStmts, targetsStmt, List.append_nil, ← htargets] at hmem
    obtain ⟨k, hk, hkj⟩ := List.mem_map.mp hmem
    have hin := h k hk
    rw [hkj] at hin
    refine (List.mem_append.mp (hperm.mem_iff.mp hin)).resolve_right fun hbranch => ?_
    exact hleaps j hj ⟨a, b, hmade.numbered _ hbranch⟩

/-! ## Lowered parts -/

/-- Lowered statements in the place of a part of a tree: labels of branches are all that is added to
its own labels, and their jumps go to visible labels if its jumps do, where the labels on the same
level are visible. -/
structure Carried (own : List (Option Label)) (leaps : List Leap)
    (fits : (Option Label → Prop) → Prop) (ss : List Stmt) : Prop where
  adds : ∀ l ∈ ownStmts ss, l ∈ own ∨ Branching l
  keeps : ∀ l ∈ own, l ∈ ownStmts ss
  fitting : ∀ V V' : Option Label → Prop, (∀ j ∈ leaps, V j.target ↔ V' j.target) →
    (∀ l ∈ ownStmts ss, V' l) → (fits V ↔ FitsAll V' ss)

theorem fitsAll_append (V : Option Label → Prop) (a b : List Stmt) :
    FitsAll V (a ++ b) ↔ FitsAll V a ∧ FitsAll V b := by
  induction a with
  | nil => simp [FitsAll]
  | cons s rest ih => simp only [List.cons_append, FitsAll, ih, and_assoc]

theorem ownStmts_catches (cs : List Catch) :
    ownStmts (cs.map fun c => .block c.body) = ownCatches cs := by
  induction cs with
  | nil => rfl
  | cons c rest ih =>
    obtain ⟨o, l, body⟩ := c
    rw [List.map_cons, ownStmts, ih, ownCatches]
    rfl

theorem fitsAll_catches (V : Option Label → Prop) (cs : List Catch) :
    FitsAll V (cs.map fun c => .block c.body) ↔ FitsCatches V cs := by
  induction cs with
  | nil => rfl
  | cons c rest ih =>
    obtain ⟨o, l, body⟩ := c
    rw [List.map_cons, FitsAll, ih, FitsCatches]
    rfl

theorem framed_absent (body : Block) : framed body .absent = false := rfl

/-- A try whose handlers and finally are split is extracted if the try is. -/
theorem framed_split {body cleanup : Block} {catches : List Catch} (o : Origin)
    (p : Option Provenance) (hframed : framed body cleanup = false)
    (hcatches : cleanup ≠ .absent → .yieldReturn ∉ exitsCatches catches) :
    framed (Made.block p [.try o body catches .absent]) cleanup = false := by
  refine Bool.eq_false_iff.mpr fun h => ?_
  obtain ⟨hcleanup, hyields⟩ := framed_iff.mp h
  simp only [Made.block, exitsBlock, exitsStmts, exitsStmt, List.append_nil, List.mem_append]
    at hyields
  rcases hyields with hyields | hyields
  · rw [framed_iff.mpr ⟨hcleanup, hyields⟩] at hframed
    cases hframed
  · exact hcatches hcleanup hyields

theorem own_splitTry {body cleanup : Block} {catches : List Catch} (o : Origin)
    (hframed : framed body cleanup = false)
    (hcatches : cleanup ≠ .absent → .yieldReturn ∉ exitsCatches catches) :
    ownStmt (splitTry o body catches cleanup) =
      ownBlock body ++ ownCatches catches ++ ownBlock cleanup := by
  unfold splitTry
  split
  · simp only [ownStmt, framed_split _ _ hframed hcatches]
    simp [Made.block, ownBlock, ownStmts, ownStmt, ownCatches, framed_absent]
  · simp [ownStmt, hframed]

theorem fits_splitTry {V : Option Label → Prop} {body cleanup : Block} {catches : List Catch}
    (o : Origin) (hframed : framed body cleanup = false)
    (hcatches : cleanup ≠ .absent → .yieldReturn ∉ exitsCatches catches) :
    Fits V (splitTry o body catches cleanup) ↔
      (FitsBlock V body ∧ FitsCatches V catches) ∧ FitsBlock V cleanup := by
  unfold splitTry
  split
  · simp only [Fits, framed_split _ _ hframed hcatches]
    simp [Made.block, FitsBlock, FitsAll, Fits, FitsCatches, framed_absent]
  · simp [Fits, hframed]

theorem branching_endif (n : Nat) : Branching (some (.generated "endif" (n + 1 : Nat))) :=
  ⟨n, n + 1, n + 1, by omega, by omega, .inl rfl⟩

theorem branching_else (n : Nat) : Branching (some (.generated "else" (n + 1 : Nat))) :=
  ⟨n, n + 1, n + 1, by omega, by omega, .inr rfl⟩

namespace Carried

variable {own own' : List (Option Label)} {leaps leaps' : List Leap}
  {fits fits' : (Option Label → Prop) → Prop} {ss ss' : List Stmt}

theorem nil (h : ∀ V, fits V) : Carried [] [] fits [] where
  adds l hl := nomatch hl
  keeps l hl := nomatch hl
  fitting V V' _ _ := by simp [h, FitsAll]

theorem append (h : Carried own leaps fits ss) (h' : Carried own' leaps' fits' ss') :
    Carried (own ++ own') (leaps ++ leaps') (fun V => fits V ∧ fits' V) (ss ++ ss') where
  adds l hl := by
    rw [ownStmts_append] at hl
    rw [List.mem_append]
    rcases List.mem_append.mp hl with hl | hl
    · exact (h.adds l hl).imp .inl id
    · exact (h'.adds l hl).imp .inr id
  keeps l hl := by
    rw [ownStmts_append, List.mem_append]
    exact (List.mem_append.mp hl).imp (h.keeps l) (h'.keeps l)
  fitting V V' hleaps hvisible := by
    rw [ownStmts_append] at hvisible
    rw [fitsAll_append]
    exact and_congr
      (h.fitting V V' (fun j hj => hleaps j (by simp [hj])) fun l hl => hvisible l (by simp [hl]))
      (h'.fitting V V' (fun j hj => hleaps j (by simp [hj])) fun l hl => hvisible l (by simp [hl]))

/-- A statement that keeps its label and its jump. -/
theorem leaf {s : Stmt} (hown : ownStmt s = own)
    (hfits : ∀ V V' : Option Label → Prop, (∀ j ∈ leaps, V j.target ↔ V' j.target) →
      (fits V ↔ Fits V' s)) : Carried own leaps fits [s] where
  adds l hl := .inl (by simpa [ownStmts, hown] using hl)
  keeps l hl := by simpa [ownStmts, hown] using hl
  fitting V V' hleaps _ := by
    rw [hfits V V' hleaps]
    simp [FitsAll]

/-- A statement without labels and jumps. -/
theorem still {s : Stmt} (hown : ownStmt s = []) (hfits : ∀ V, fits V) (hfits' : ∀ V, Fits V s) :
    Carried [] [] fits [s] :=
  leaf hown fun V V' _ => by simp [hfits, hfits']

/-- A jump. -/
theorem goto (o : Origin) (l : Option Label) (ofLoop : Bool) :
    Carried [] [⟨l, ofLoop⟩] (fun V => V l) [.goto o l] :=
  leaf rfl fun V V' h => by simpa [Fits] using h

theorem block (h : Carried own leaps fits ss) (o : Origin) (locals : List Local) :
    Carried own leaps fits [.block (.mk o locals ss)] where
  adds l hl := h.adds l (by simpa [ownStmts, ownStmt, ownBlock] using hl)
  keeps l hl := by simpa [ownStmts, ownStmt, ownBlock] using h.keeps l hl
  fitting V V' hleaps hvisible := by
    rw [h.fitting V V' hleaps fun l hl => hvisible l (by
      simpa [ownStmts, ownStmt, ownBlock] using hl)]
    simp [FitsAll, Fits, FitsBlock]

theorem list (h : Carried own leaps fits ss) (o : Origin) : Carried own leaps fits [.list o ss] where
  adds l hl := h.adds l (by simpa [ownStmts, ownStmt] using hl)
  keeps l hl := by simpa [ownStmts, ownStmt] using h.keeps l hl
  fitting V V' hleaps hvisible := by
    rw [h.fitting V V' hleaps fun l hl => hvisible l (by simpa [ownStmts, ownStmt] using hl)]
    simp [FitsAll, Fits]

/-- The markers of a block. -/
theorem marked (h : Carried own leaps fits ss) (p : Provenance) :
    Carried own leaps fits (markBlock p ss) := by
  have hmarker : ∀ place, Carried [] [] (fun _ => True) [Made.sequencePoint p place] := fun _ =>
    still rfl (fun _ => trivial) fun _ => trivial
  have hopened := (hmarker p.openBrace).append h
  have hclosed := hopened.append (hmarker p.closeBrace)
  unfold markBlock
  split
  · simpa using hopened
  · simpa using hclosed

/-- Statements with labels of branches or of a loop between them, and jumps to these. -/
theorem joined (h : Carried own leaps fits ss) (o : Origin) (own' : List (Option Label))
    (ts : List Stmt) (made : List (Option Label)) (hmade : ∀ l ∈ made, l ∈ own' ∨ Branching l)
    (hmade' : ∀ l ∈ own', l ∈ made)
    (hown : ∀ l, l ∈ ownStmts ts ↔ l ∈ ownStmts ss ∨ l ∈ made)
    (hfits : ∀ V, FitsAll V ts ↔ FitsAll V ss ∧ ∀ l ∈ made, V l) :
    Carried (own ++ own') leaps fits [.list o ts] where
  adds l hl := by
    rw [List.mem_append]
    have hl : l ∈ ownStmts ts := by simpa [ownStmts, ownStmt] using hl
    rcases (hown l).mp hl with hl | hl
    · exact (h.adds l hl).imp .inl id
    · exact (hmade l hl).imp .inr id
  keeps l hl := by
    suffices l ∈ ownStmts ts by simpa [ownStmts, ownStmt] using this
    rw [hown]
    exact (List.mem_append.mp hl).imp (h.keeps l) (hmade' l)
  fitting V V' hleaps hvisible := by
    have hvisible : ∀ l ∈ ownStmts ts, V' l := by simpa [ownStmts, ownStmt] using hvisible
    rw [h.fitting V V' hleaps fun l hl => hvisible l ((hown l).mpr (.inl hl))]
    simp only [FitsAll, Fits, and_true, hfits]
    exact (and_iff_left fun l hl => hvisible l ((hown l).mpr (.inr hl))).symm

/-- A branch without else. -/
theorem branch {t : Option Stmt} (h : Carried own leaps fits t.toList) (o : Origin) (x : Expr)
    (n : Nat) :
    Carried own leaps fits [Lowering.branch o x t (.generated "endif" (n + 1 : Nat))] := by
  have hjoined := h.joined o []
    (Made.gotoUnless o.provenance x (some (.generated "endif" (n + 1 : Nat))) :: t.toList ++
      [Made.label o.provenance (.generated "endif" (n + 1 : Nat))])
    [some (.generated "endif" (n + 1 : Nat))]
    (fun l hl => .inr (List.mem_singleton.mp hl ▸ branching_endif n)) (fun l hl => nomatch hl)
    (fun l => by simp [ownStmts, ownStmts_append, ownStmt, Made.gotoUnless, Made.label])
    (fun V => by simp [FitsAll, fitsAll_append, Fits, Made.gotoUnless, Made.label, and_comm])
  rwa [List.append_nil] at hjoined

/-- A branch with two sides. -/
theorem branches {t f : Option Stmt} (h : Carried own leaps fits t.toList)
    (h' : Carried own' leaps' fits' f.toList) (o : Origin) (x : Expr) (n : Nat) :
    Carried (own ++ own') (leaps ++ leaps') (fun V => fits V ∧ fits' V)
      [Lowering.branches o x t f (.generated "else" (n + 2 : Nat))
        (.generated "endif" (n + 1 : Nat))] := by
  have hjoined := (h.append h').joined o []
    (Made.gotoUnless o.provenance x (some (.generated "else" (n + 2 : Nat))) :: t.toList ++
      [Made.goto o.provenance (.generated "endif" (n + 1 : Nat)),
        Made.label o.provenance (.generated "else" (n + 2 : Nat))] ++ f.toList ++
      [Made.label o.provenance (.generated "endif" (n + 1 : Nat))])
    [some (.generated "else" (n + 2 : Nat)), some (.generated "endif" (n + 1 : Nat))]
    (fun l hl => by
      simp only [List.mem_cons, List.not_mem_nil, or_false] at hl
      rcases hl with rfl | rfl
      · exact .inr (branching_else (n + 1))
      · exact .inr (branching_endif n)) (fun l hl => nomatch hl)
    (fun l => by
      simp only [ownStmts, ownStmts_append, ownStmt, Made.gotoUnless, Made.label, Made.goto,
        List.mem_append, List.mem_cons, List.not_mem_nil]
      grind)
    (fun V => by
      simp only [FitsAll, fitsAll_append, Fits, Made.gotoUnless, Made.label, Made.goto,
        List.cons_append, List.forall_mem_cons, List.not_mem_nil]
      grind)
  rwa [List.append_nil] at hjoined

/-- A loop. -/
theorem looped {body : Option Stmt} (h : Carried own leaps fits body.toList) (o : Origin)
    (x : Expr) (exit again : Label) :
    Carried (some again :: own ++ [some exit]) leaps fits
      [Lowering.loop o x body exit again] := by
  have hjoined := h.joined o [some again, some exit]
    (Made.label o.provenance again :: Made.gotoUnless o.provenance x (some exit) ::
      body.toList ++ [Made.goto o.provenance again, Made.label o.provenance exit])
    [some again, some exit] (fun l hl => .inl hl) (fun l hl => hl)
    (fun l => by
      simp only [ownStmts, ownStmts_append, ownStmt, Made.gotoUnless, Made.label, Made.goto,
        List.mem_append, List.mem_cons, List.not_mem_nil, List.cons_append]
      grind)
    (fun V => by
      simp only [FitsAll, fitsAll_append, Fits, Made.gotoUnless, Made.label, Made.goto,
        List.cons_append, List.forall_mem_cons, List.not_mem_nil]
      grind)
  have hmem : ∀ l, l ∈ some again :: own ++ [some exit] ↔ l ∈ own ++ [some again, some exit] := by
    intro l
    simp only [List.mem_append, List.mem_cons]
    grind
  exact ⟨fun l hl => (hjoined.adds l hl).imp (hmem l).mpr id,
    fun l hl => hjoined.keeps l ((hmem l).mp hl), hjoined.fitting⟩

/-- A try that is not extracted. -/
theorem unframed {body cleanup : Block} {catches : List Catch} (o : Origin)
    (h : Carried own leaps fits ([.block body] ++ catches.map (fun c => .block c.body) ++
      [.block cleanup]))
    (hframed : framed body cleanup = false)
    (hcatches : cleanup ≠ .absent → .yieldReturn ∉ exitsCatches catches) :
    Carried own leaps fits [splitTry o body catches cleanup] := by
  have hown : ownStmts ([.block body] ++ catches.map (fun c => .block c.body) ++ [.block cleanup]) =
      ownStmts [splitTry o body catches cleanup] := by
    simp only [ownStmts_append, ownStmts_catches, ownStmts, ownStmt, List.append_nil,
      own_splitTry o hframed hcatches]
  have hfits : ∀ V, FitsAll V ([.block body] ++ catches.map (fun c => .block c.body) ++
      [.block cleanup]) ↔ FitsAll V [splitTry o body catches cleanup] := by
    intro V
    simp only [fitsAll_append, fitsAll_catches, FitsAll, Fits, and_true,
      fits_splitTry o hframed hcatches]
  refine ⟨hown ▸ h.adds, hown ▸ h.keeps, fun V V' hleaps hvisible => ?_⟩
  rw [← hfits]
  exact h.fitting V V' hleaps (hown ▸ hvisible)

/-- An extracted try. -/
theorem extracted {body body' cleanup cleanup' : Block} (o : Origin)
    (h : Carried (ownBlock body) (leapsBlock body) (fun V => FitsBlock V body) [.block body'])
    (hframed : framed body' cleanup' = true) (hclosed : Closed cleanup ↔ Closed cleanup')
    (hleaps : ∀ j ∈ leapsBlock body, ¬ Branching j.target) :
    Carried [] (leapsBlock body ++ leapsBlock cleanup)
      (fun V => FitsBlock (fun l => V l ∨ l ∈ ownBlock body) body ∧ Closed cleanup)
      [.try o body' [] cleanup'] where
  adds l hl := by simp [ownStmts, ownStmt, hframed] at hl
  keeps l hl := nomatch hl
  fitting V V' hsame _ := by
    have hown : ∀ l, l ∈ ownStmts [.block body'] ↔ l ∈ ownBlock body' := by
      simp [ownStmts, ownStmt]
    have hbody : FitsBlock (fun l => V l ∨ l ∈ ownBlock body) body ↔
        FitsBlock (fun l => V' l ∨ l ∈ ownBlock body') body' := by
      rw [h.fitting _ (fun l => V' l ∨ l ∈ ownBlock body') (fun j hj => ?_) fun l hl =>
        .inr ((hown l).mp hl)]
      · simp [FitsAll, Fits]
      · refine or_congr (hsame j (List.mem_append_left _ hj)) ⟨fun hin => ?_, fun hin => ?_⟩
        · exact (hown _).mp (h.keeps _ hin)
        · exact (h.adds _ ((hown _).mpr hin)).resolve_right (hleaps j hj)
    simp [FitsAll, Fits, hframed, hbody, hclosed]

end Carried

theorem framed_congr {body body' cleanup cleanup' : Block}
    (hexits : exitsBlock body' = exitsBlock body)
    (hcleanup : cleanup' = .absent ↔ cleanup = .absent) :
    framed body' cleanup' = framed body cleanup := by
  rw [Bool.eq_iff_iff, framed_iff, framed_iff, hexits, Ne, hcleanup]

mutual

theorem carried_stmt {markers : Bool} : ∀ {s : Stmt} {s' : Option Stmt} {a b : Nat}, Walkable s →
    Guarded s → (∀ j ∈ leapsStmt s, ¬ Branching j.target) → walkStmt markers s a = (.ok s', b) →
    Carried (ownStmt s) (leapsStmt s) (fun V => Fits V s) s'.toList
  | .block b, s', a, c, hs, hguarded, hleaps, h => by
    simp only [walkStmt, Lower.bind_ok, Lower.pure_ok] at h
    obtain ⟨b', k, hb, rfl, -⟩ := h
    exact carried_block (b := b) hs hguarded hleaps hb
  | .list o ss, s', a, b, hs, hguarded, hleaps, h => by
    simp only [walkStmt, Lower.bind_ok, Lower.pure_ok] at h
    obtain ⟨ss', k, hss, rfl, -⟩ := h
    exact (carried_stmts hs hguarded hleaps hss).list o
  | .noOp o, s', a, b, _, _, _, h => by
    cases h
    unfold emptyBlock
    split
    · exact (Carried.nil fun _ => trivial).block _ _
    · exact (Carried.still (s := Made.sequencePoint o.provenance o.span) rfl (fun _ => trivial)
        fun _ => trivial).block _ _
  | .localDeclaration o l init, s', a, b, _, _, _, h => by
    rcases walkedStmt_of_ok h with ⟨-, rfl⟩ | ⟨-, rfl⟩
    · exact .nil fun _ => trivial
    · exact .still rfl (fun _ => trivial) fun _ => trivial
  | .expression .., s', a, b, _, _, _, h | .return .., s', a, b, _, _, _, h
  | .throw .., s', a, b, _, _, _, h | .yieldReturn .., s', a, b, _, _, _, h => by
    obtain ⟨-, rfl⟩ := walkedStmt_of_ok h
    exact .still rfl (fun _ => trivial) fun _ => trivial
  | .sequencePoint .., s', a, b, _, _, _, h | .yieldBreak _, s', a, b, _, _, _, h => by
    cases h
    exact .still rfl (fun _ => trivial) fun _ => trivial
  | .label .., s', a, b, _, _, _, h => by
    cases h
    exact .leaf rfl fun V V' _ => by simp [Fits]
  | .break o l, s', a, b, _, _, _, h | .continue o l, s', a, b, _, _, _, h => by
    cases h
    exact .goto o l true
  | .goto o l, s', a, b, _, _, _, h => by
    cases h
    exact .goto o l false
  | .conditionalGoto .., s', a, b, _, _, _, h => by
    obtain ⟨-, rfl⟩ := walkedStmt_of_ok h
    exact .leaf rfl fun V V' hsame => by simpa [Fits, leapsStmt] using hsame
  | .dispatch o e cases l, s', a, b, _, _, _, h => by
    obtain ⟨-, rfl⟩ := walkedStmt_of_ok h
    refine .leaf rfl fun V V' hsame => forall₂_congr fun k hk => ?_
    exact hsame ⟨k, false⟩ (List.mem_map_of_mem hk)
  | .if o x t f, s', a, b, ⟨_, ht, hf⟩, hguarded, hleaps, h => by
    have hleft : ∀ j ∈ leapsStmt t, ¬ Branching j.target := fun j hj =>
      hleaps j (List.mem_append_left _ hj)
    have hright : ∀ j ∈ leapsStmt f, ¬ Branching j.target := fun j hj =>
      hleaps j (List.mem_append_right _ hj)
    by_cases habsent : f = .absent
    · subst habsent
      simp only [walkStmt, Lower.bind_ok, Lower.pure_ok, walkExpr_ok] at h
      obtain ⟨x', k, ⟨-, rfl, rfl⟩, t', c, hwalk, done, d, hlabel, rfl, -⟩ := h
      cases hlabel
      have hcarried := (carried_stmt ht hguarded.1 hleft hwalk).branch o x' c
      simpa [ownStmt, leapsStmt, Fits] using hcarried
    · rw [walkStmt] at h
      · simp only [Lower.bind_ok, Lower.pure_ok, walkExpr_ok] at h
        obtain ⟨x', k, ⟨-, rfl, rfl⟩, t', c, hwalk, done, d, hlabel, otherwise, e, hlabel', f', k',
          hwalk', rfl, -⟩ := h
        cases hlabel
        cases hlabel'
        exact (carried_stmt ht hguarded.1 hleft hwalk).branches
          (carried_stmt (hf.resolve_left habsent) hguarded.2 hright hwalk') o x' c
      · exact habsent
  | .while o x body exit again, s', a, b, ⟨_, hbody, exit', again', hexit, hagain⟩, hguarded, hleaps,
      h => by
    subst hexit hagain
    simp only [walkStmt, Lower.bind_ok, Lower.pure_ok, walkExpr_ok] at h
    obtain ⟨x', k, ⟨-, rfl, rfl⟩, body', c, hwalk, rfl, -⟩ := h
    exact (carried_stmt (s := body) hbody hguarded hleaps hwalk).looped o x' exit' again'
  | .try o body catches cleanup, s', a, b, ⟨hbody, hcatches, hcleanup, _⟩,
      ⟨⟨hhandlers, _, hguard⟩, hguarded⟩, hleaps, h => by
    have hone : ∀ j ∈ leapsBlock body, ¬ Branching j.target := fun j hj =>
      hleaps j (by simp [leapsStmt, hj])
    have htwo : ∀ j ∈ leapsCatches catches, ¬ Branching j.target := fun j hj =>
      hleaps j (by simp [leapsStmt, hj])
    have hthree : ∀ j ∈ leapsBlock cleanup, ¬ Branching j.target := fun j hj =>
      hleaps j (by simp [leapsStmt, hj])
    -- The parts, whether there is a finally or not.
    obtain ⟨body', catches', cleanup', c, d, hwalk, hwalk', hwalk'', rfl⟩ :
        ∃ body' catches' cleanup' c d, walkBlock markers body a = (.ok body', c) ∧
          walkCatches markers catches c = (.ok catches', d) ∧
          ((cleanup = .absent ∧ cleanup' = .absent) ∨
            ∃ e, cleanup ≠ .absent ∧ walkBlock markers cleanup d = (.ok cleanup', e)) ∧
          s' = some (splitTry o body' catches' cleanup') := by
      cases cleanup with
      | absent =>
        simp only [walkStmt, Lower.bind_ok, Lower.pure_ok] at h
        obtain ⟨body', c, hwalk, catches', d, hwalk', rfl, -⟩ := h
        exact ⟨body', catches', .absent, c, d, hwalk, hwalk', .inl ⟨rfl, rfl⟩, rfl⟩
      | mk =>
        simp only [walkStmt, Lower.bind_ok, Lower.pure_ok] at h
        obtain ⟨body', c, hwalk, catches', d, hwalk', cleanup', e, hwalk'', rfl, -⟩ := h
        exact ⟨body', catches', cleanup', c, d, hwalk, hwalk', .inr ⟨e, by simp, hwalk''⟩, rfl⟩
    have hexits := walkedBlock_exits (walkedBlock_of_ok hwalk)
    have habsent : cleanup' = .absent ↔ cleanup = .absent := by
      rcases hwalk'' with ⟨rfl, rfl⟩ | ⟨e, hne, hwalk''⟩
      · exact .rfl
      · simp only [hne, (walkedBlock_of_ok hwalk'').present]
    have hframed := framed_congr hexits habsent
    cases hextracted : framed body cleanup with
    | true =>
      rw [hextracted] at hframed
      obtain ⟨hpresent, hyields⟩ := framed_iff.mp hextracted
      have hempty : catches = [] := Classical.byContradiction fun hne => hguard hne hyields
      subst hempty
      cases hwalk'
      obtain ⟨e, -, hwalk''⟩ := hwalk''.resolve_left fun h => hpresent h.1
      obtain ⟨cleanup'', e', hok, hlaid⟩ := walkBlock_ok markers (hcleanup.resolve_left hpresent) c
      rw [hok] at hwalk''
      cases hwalk''
      have hclosed := closed_iff hlaid (walkedBlock_exits (walkedBlock_of_ok hok)) hthree
      have hcarried := (carried_block hbody hguarded.1 hone hwalk).extracted o hframed hclosed hone
      simpa [splitTry, ownStmt, leapsStmt, Fits, hextracted, leapsCatches] using hcarried
    | false =>
      rw [hextracted] at hframed
      have hlast : Carried (ownBlock cleanup) (leapsBlock cleanup) (fun V => FitsBlock V cleanup)
          [.block cleanup'] := by
        rcases hwalk'' with ⟨rfl, rfl⟩ | ⟨e, hne, hwalk''⟩
        · exact .still rfl (fun _ => trivial) fun _ => trivial
        · exact carried_block (hcleanup.resolve_left hne) hguarded.2.2 hthree hwalk''
      have hcarried := (((carried_block hbody hguarded.1 hone hwalk).append
        (carried_catches hcatches hguarded.2.1 htwo hwalk')).append hlast).unframed o hframed
          fun _ => by rwa [walkedCatches_exits (walkedCatches_of_ok hwalk')]
      simpa only [Option.toList_some, ownStmt, leapsStmt, Fits, hextracted, Bool.false_eq_true,
        if_false] using hcarried
  | .absent, _, _, _, hs, _, _, _ | .foreign .., _, _, _, hs, _, _, _ => hs.elim

theorem carried_stmts {markers : Bool} : ∀ {ss ss' : List Stmt} {a b : Nat}, WalkableAll ss →
    GuardedAll ss → (∀ j ∈ leapsStmts ss, ¬ Branching j.target) →
    walkStmts markers ss a = (.ok ss', b) →
    Carried (ownStmts ss) (leapsStmts ss) (fun V => FitsAll V ss) ss'
  | [], ss', a, b, _, _, _, h => by
    cases h
    exact .nil fun _ => trivial
  | s :: rest, ss', a, b, hss, hguarded, hleaps, h => by
    simp only [walkStmts, Lower.bind_ok, Lower.pure_ok] at h
    obtain ⟨s', k, hs, rest', k', hrest, rfl, -⟩ := h
    exact (carried_stmt hss.1 hguarded.1 (fun j hj => hleaps j (List.mem_append_left _ hj))
      hs).append (carried_stmts hss.2 hguarded.2 (fun j hj => hleaps j (List.mem_append_right _ hj))
      hrest)

theorem carried_block {markers : Bool} : ∀ {b b' : Block} {a c : Nat}, WalkableBlock b →
    GuardedBlock b → (∀ j ∈ leapsBlock b, ¬ Branching j.target) →
    walkBlock markers b a = (.ok b', c) →
    Carried (ownBlock b) (leapsBlock b) (fun V => FitsBlock V b) [.block b']
  | .absent, _, _, _, hb, _, _, _ => hb.elim
  | .mk o locals ss, b', a, c, hb, hguarded, hleaps, h => by
    rw [walkBlock] at h
    split at h
    · simp only [Lower.bind_ok, Lower.pure_ok] at h
      obtain ⟨ss', k, hss, rfl, -⟩ := h
      exact (carried_stmts hb.2 hguarded hleaps hss).block _ _
    · cases hp : o.provenance with
      | none => simp only [hp, Lower.fail_ok] at h
      | some p =>
        simp only [hp] at h
        split at h
        · simp only [Lower.bind_ok, Lower.pure_ok] at h
          obtain ⟨ss', k, hss, rfl, -⟩ := h
          exact ((carried_stmts hb.2 hguarded hleaps hss).marked p).block _ _
        · simp only [Lower.fail_ok] at h

theorem carried_catches {markers : Bool} : ∀ {cs cs' : List Catch} {a b : Nat},
    WalkableCatches cs → GuardedCatches cs → (∀ j ∈ leapsCatches cs, ¬ Branching j.target) →
    walkCatches markers cs a = (.ok cs', b) →
    Carried (ownCatches cs) (leapsCatches cs) (fun V => FitsCatches V cs)
      (cs'.map fun c => .block c.body)
  | [], cs', a, b, _, _, _, h => by
    cases h
    exact .nil fun _ => trivial
  | .mk o l body :: rest, cs', a, b, hcs, hguarded, hleaps, h => by
    simp only [walkCatches, Lower.bind_ok, Lower.pure_ok] at h
    obtain ⟨body', k, hbody, rest', k', hrest, rfl, -⟩ := h
    exact (carried_block hcs.1 hguarded.1 (fun j hj => hleaps j (List.mem_append_left _ hj))
      hbody).append (carried_catches hcs.2 hguarded.2
      (fun j hj => hleaps j (List.mem_append_right _ hj)) hrest)

end

/-! ## Guards of the lowered tree -/

theorem walkedCatches_empty {markers : Bool} {cs cs' : List Catch}
    (h : WalkedCatches markers cs cs') : cs' = [] ↔ cs = [] := by
  cases cs with
  | nil => exact iff_of_true h rfl
  | cons c rest =>
    obtain ⟨o, l, body⟩ := c
    obtain ⟨_, _, -, -, rfl⟩ := h
    simp

theorem guardedAll_append (a b : List Stmt) :
    GuardedAll (a ++ b) ↔ GuardedAll a ∧ GuardedAll b := by
  induction a with
  | nil => simp [GuardedAll]
  | cons s rest ih => simp only [List.cons_append, GuardedAll, ih, and_assoc]

theorem guarded_splitTry (o : Origin) (body cleanup : Block) (catches : List Catch) :
    Guarded (splitTry o body catches cleanup) ↔ Guarded (.try o body catches cleanup) := by
  unfold splitTry
  split
  · simp only [Guarded, Made.block, GuardedBlock, GuardedAll, exitsBlock, exitsCatches,
      GuardedCatches, List.not_mem_nil, not_false_eq_true, true_and, and_true, ne_eq,
      not_true_eq_false, false_imp_iff]
    grind
  · exact .rfl

mutual

/-- A lowered statement is guarded if and only if the statement is. -/
theorem guarded_walked {markers : Bool} : ∀ {s : Stmt} {s' : Option Stmt},
    WalkedStmt markers s s' → (GuardedAll s'.toList ↔ Guarded s)
  | .block b, _, ⟨b', hb, rfl⟩ => by
    simpa [GuardedAll, Guarded] using guardedBlock_walked hb
  | .list o ss, _, ⟨ss', hss, rfl⟩ => by
    simpa [GuardedAll, Guarded] using guardedAll_walked hss
  | .noOp o, _, rfl => by
    simp only [Option.toList_some, GuardedAll, Guarded, emptyBlock, GuardedBlock]
    split <;> simp [GuardedAll, Guarded, Made.sequencePoint]
  | .localDeclaration .., _, .inl ⟨_, rfl⟩ | .localDeclaration .., _, .inr ⟨_, rfl⟩ => by
    simp [GuardedAll, Guarded]
  | .sequencePoint .., _, rfl | .yieldBreak _, _, rfl | .break .., _, rfl | .continue .., _, rfl
  | .label .., _, rfl | .goto .., _, rfl => by
    simp [GuardedAll, Guarded]
  | .expression .., _, ⟨_, rfl⟩ | .return .., _, ⟨_, rfl⟩ | .throw .., _, ⟨_, rfl⟩
  | .yieldReturn .., _, ⟨_, rfl⟩ | .conditionalGoto .., _, ⟨_, rfl⟩
  | .dispatch .., _, ⟨_, rfl⟩ => by
    simp [GuardedAll, Guarded]
  | .if o x t f, _, ⟨_, t', done, ht, .inl ⟨hf, rfl⟩⟩ => by
    subst hf
    simp [GuardedAll, guardedAll_append, Guarded, branch, Made.gotoUnless, Made.label,
      guarded_walked ht]
  | .if o x t f, _, ⟨_, t', done, ht, .inr ⟨f', otherwise, hf, rfl⟩⟩ => by
    simp [GuardedAll, guardedAll_append, Guarded, branches, Made.gotoUnless, Made.label, Made.goto,
      guarded_walked ht, guarded_walked hf]
  | .while o x body exit again, _, ⟨_, body', _, _, hbody, _, _, rfl⟩ => by
    simp [GuardedAll, guardedAll_append, Guarded, loop, Made.gotoUnless, Made.label, Made.goto,
      guarded_walked hbody]
  | .try o body catches cleanup, _, ⟨body', catches', cleanup', hbody, hcatches, hcleanup, rfl⟩ => by
    have hlast : exitsBlock cleanup' = exitsBlock cleanup ∧
        (GuardedBlock cleanup' ↔ GuardedBlock cleanup) := by
      rcases hcleanup with ⟨rfl, rfl⟩ | hcleanup
      · exact ⟨rfl, .rfl⟩
      · exact ⟨walkedBlock_exits hcleanup, guardedBlock_walked hcleanup⟩
    simp only [Option.toList_some, GuardedAll, and_true, guarded_splitTry, Guarded,
      walkedBlock_exits hbody, walkedCatches_exits hcatches, hlast, guardedBlock_walked hbody,
      guardedCatches_walked hcatches, ne_eq, walkedCatches_empty hcatches]
  | .absent, _, h | .foreign .., _, h => h.elim

theorem guardedAll_walked {markers : Bool} : ∀ {ss ss' : List Stmt},
    WalkedStmts markers ss ss' → (GuardedAll ss' ↔ GuardedAll ss)
  | [], _, rfl => .rfl
  | s :: rest, _, ⟨s', rest', hs, hrest, rfl⟩ => by
    rw [guardedAll_append, guarded_walked hs, guardedAll_walked hrest, GuardedAll]

theorem guardedBlock_walked {markers : Bool} : ∀ {b b' : Block},
    WalkedBlock markers b b' → (GuardedBlock b' ↔ GuardedBlock b)
  | .absent, _, h => h.elim
  | .mk o locals ss, _, ⟨ss', hss, .inl ⟨_, rfl⟩⟩ => guardedAll_walked hss
  | .mk o locals ss, _, ⟨ss', hss, .inr ⟨_, p, _, _, rfl⟩⟩ => by
    rw [GuardedBlock, GuardedBlock, ← guardedAll_walked hss]
    unfold markBlock
    split <;> simp [GuardedAll, guardedAll_append, Guarded, Made.sequencePoint]

theorem guardedCatches_walked {markers : Bool} : ∀ {cs cs' : List Catch},
    WalkedCatches markers cs cs' → (GuardedCatches cs' ↔ GuardedCatches cs)
  | [], _, rfl => .rfl
  | .mk o l body :: rest, _, ⟨body', rest', hbody, hrest, rfl⟩ => by
    rw [GuardedCatches, guardedBlock_walked hbody, guardedCatches_walked hrest, GuardedCatches]

end

end Resumable.StateMachine
