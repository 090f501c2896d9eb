import Resumable.Proofs.Source.Loops

/-!
# Bodies that can become state machines

Which bodies a state machine can represent, said on the body as the program has it: where it may
suspend, where it may end, and which regions jumps may not cross (`Representable`).

Said along the tree instead: the labels inside a try that is extracted are visible only inside its
try block, and a jump goes to a label that is visible where it stands (`Fits`).  On the bodies that
resolution makes the two are the same (`representable_iff`).
-/

set_option autoImplicit false

namespace Resumable.StateMachine

open Resumable.Symbol Resumable.Tree Resumable.Source

/-! ## Tries and the jumps around them -/

/-- A try of a body, with the jumps of the body that stand outside of it. -/
structure Region where
  body : Block
  catches : List Catch
  cleanup : Block
  outside : List Leap

mutual

/-- The tries of a statement; `outside` are the jumps outside of the statement. -/
def regionsStmt (outside : List Leap) : Stmt → List Region
  | .block b => regionsBlock outside b
  | .list _ ss => regionsStmts outside ss
  | .if _ _ t f =>
    regionsStmt (outside ++ leapsStmt f) t ++ regionsStmt (outside ++ leapsStmt t) f
  | .while _ _ body _ _ => regionsStmt outside body
  | .try _ body catches cleanup =>
    ⟨body, catches, cleanup, outside⟩ ::
      (regionsBlock (outside ++ leapsBlock cleanup ++ leapsCatches catches) body ++
        regionsCatches (outside ++ leapsBlock cleanup ++ leapsBlock body) catches ++
        regionsBlock (outside ++ (leapsBlock body ++ leapsCatches catches)) cleanup)
  | _ => []

/-- The tries of statements. -/
def regionsStmts (outside : List Leap) : List Stmt → List Region
  | [] => []
  | s :: rest =>
    regionsStmt (outside ++ leapsStmts rest) s ++ regionsStmts (outside ++ leapsStmt s) rest

/-- The tries of a block. -/
def regionsBlock (outside : List Leap) : Block → List Region
  | .absent => []
  | .mk _ _ ss => regionsStmts outside ss

/-- The tries of handlers. -/
def regionsCatches (outside : List Leap) : List Catch → List Region
  | [] => []
  | .mk _ _ body :: rest =>
    regionsBlock (outside ++ leapsCatches rest) body ++
      regionsCatches (outside ++ leapsBlock body) rest

end

/-- The finally of the try has to become a method of its own: there is one, and the try block can
suspend. -/
def Region.extracted (r : Region) : Prop :=
  r.cleanup ≠ .absent ∧ r.body.has .yieldReturn = true

/-- What a state machine requires of a try.  Neither handlers nor the finally suspend, nor the try
block if there are handlers.  If the try is extracted, its finally does not end the method, no jump
goes into its finally or out of it, and no goto goes into its try block. -/
structure Region.Representable (r : Region) : Prop where
  handlers : ∀ c ∈ r.catches, c.body.has .yieldReturn = false
  cleanup : r.cleanup.has .yieldReturn = false
  guarded : r.catches ≠ [] → r.body.has .yieldReturn = false
  ending : r.extracted → r.cleanup.has .yieldBreak = false
  leaves : r.extracted → ∀ j ∈ leapsBlock r.cleanup, j.target ∈ landingsBlock r.cleanup
  enters : r.extracted → ∀ j ∈ r.outside ++ leapsBlock r.body ++ leapsCatches r.catches,
    j.target ∉ landingsBlock r.cleanup
  resumes : r.extracted → ∀ j ∈ r.outside ++ leapsCatches r.catches ++ leapsBlock r.cleanup,
    j.ofLoop = false → j.target ∉ landingsBlock r.body

/-- A state machine can represent the body: it has no return, and its tries allow it. -/
def Representable (b : Block) : Prop :=
  b.has .return = false ∧ ∀ r ∈ regionsBlock [] b, r.Representable

instance (r : Region) : Decidable r.extracted :=
  decidable_of_iff (r.cleanup.isAbsent = false ∧ r.body.has .yieldReturn = true)
    (and_congr_left fun _ => by cases r.cleanup <;> simp [Block.isAbsent])

instance (r : Region) : Decidable r.Representable :=
  decidable_of_iff
    ((∀ c ∈ r.catches, c.body.has .yieldReturn = false) ∧ r.cleanup.has .yieldReturn = false ∧
      (r.catches ≠ [] → r.body.has .yieldReturn = false) ∧
      (r.extracted → r.cleanup.has .yieldBreak = false) ∧
      (r.extracted → ∀ j ∈ leapsBlock r.cleanup, j.target ∈ landingsBlock r.cleanup) ∧
      (r.extracted → ∀ j ∈ r.outside ++ leapsBlock r.body ++ leapsCatches r.catches,
        j.target ∉ landingsBlock r.cleanup) ∧
      (r.extracted → ∀ j ∈ r.outside ++ leapsCatches r.catches ++ leapsBlock r.cleanup,
        j.ofLoop = false → j.target ∉ landingsBlock r.body))
    ⟨fun ⟨hhandlers, hcleanup, hguarded, hending, hleaves, henters, hresumes⟩ =>
      ⟨hhandlers, hcleanup, hguarded, hending, hleaves, henters, hresumes⟩,
    fun h => ⟨h.handlers, h.cleanup, h.guarded, h.ending, h.leaves, h.enters, h.resumes⟩⟩

instance (b : Block) : Decidable (Representable b) := inferInstanceAs (Decidable (_ ∧ _))

/-! ## Visible labels -/

/-- The try is extracted. -/
def framed (body cleanup : Block) : Bool :=
  !cleanup.isAbsent && decide (Kind.yieldReturn ∈ exitsBlock body)

theorem framed_iff {body cleanup : Block} :
    framed body cleanup = true ↔ cleanup ≠ .absent ∧ .yieldReturn ∈ exitsBlock body := by
  unfold framed
  cases cleanup <;> simp [Block.isAbsent]

theorem Region.extracted_iff {r : Region} : r.extracted ↔ framed r.body r.cleanup = true := by
  rw [Region.extracted, framed_iff, has_iff_exits rfl]

mutual

/-- The labels of a statement that stand outside of its extracted tries. -/
def ownStmt : Stmt → List (Option Label)
  | .block b => ownBlock b
  | .list _ ss => ownStmts ss
  | .label _ l => [l]
  | .if _ _ t f => ownStmt t ++ ownStmt f
  | .while _ _ body exit again => again :: ownStmt body ++ [exit]
  | .try _ body catches cleanup =>
    if framed body cleanup then [] else ownBlock body ++ ownCatches catches ++ ownBlock cleanup
  | _ => []

/-- The labels of statements that stand outside of extracted tries. -/
def ownStmts : List Stmt → List (Option Label)
  | [] => []
  | s :: rest => ownStmt s ++ ownStmts rest

/-- The labels of a block that stand outside of extracted tries. -/
def ownBlock : Block → List (Option Label)
  | .absent => []
  | .mk _ _ ss => ownStmts ss

/-- The labels of handlers that stand outside of extracted tries. -/
def ownCatches : List Catch → List (Option Label)
  | [] => []
  | .mk _ _ body :: rest => ownBlock body ++ ownCatches rest

end

mutual

/-- The labels of a statement that stand inside of its extracted tries. -/
def hiddenStmt : Stmt → List (Option Label)
  | .block b => hiddenBlock b
  | .list _ ss => hiddenStmts ss
  | .if _ _ t f => hiddenStmt t ++ hiddenStmt f
  | .while _ _ body _ _ => hiddenStmt body
  | .try _ body catches cleanup =>
    if framed body cleanup then
      landingsBlock body ++ landingsCatches catches ++ landingsBlock cleanup
    else hiddenBlock body ++ hiddenCatches catches ++ hiddenBlock cleanup
  | _ => []

/-- The labels of statements that stand inside of extracted tries. -/
def hiddenStmts : List Stmt → List (Option Label)
  | [] => []
  | s :: rest => hiddenStmt s ++ hiddenStmts rest

/-- The labels of a block that stand inside of extracted tries. -/
def hiddenBlock : Block → List (Option Label)
  | .absent => []
  | .mk _ _ ss => hiddenStmts ss

/-- The labels of handlers that stand inside of extracted tries. -/
def hiddenCatches : List Catch → List (Option Label)
  | [] => []
  | .mk _ _ body :: rest => hiddenBlock body ++ hiddenCatches rest

end

theorem ownStmts_append (a b : List Stmt) : ownStmts (a ++ b) = ownStmts a ++ ownStmts b := by
  induction a with
  | nil => rfl
  | cons s rest ih => simp only [List.cons_append, ownStmts, ih, List.append_assoc]

mutual

/-- Each label stands outside or inside of the extracted tries. -/
theorem landings_perm : ∀ s : Stmt, (landingsStmt s).Perm (ownStmt s ++ hiddenStmt s)
  | .block b => landingsBlock_perm b
  | .list _ ss => landingsStmts_perm ss
  | .if _ _ t f => by
    refine List.perm_iff_count.mpr fun l => ?_
    have ht := (landings_perm t).count_eq l
    have hf := (landings_perm f).count_eq l
    simp only [landingsStmt, ownStmt, hiddenStmt, List.count_append] at ht hf ⊢
    omega
  | .while _ _ body _ _ => by
    refine List.perm_iff_count.mpr fun l => ?_
    have hbody := (landings_perm body).count_eq l
    simp only [landingsStmt, ownStmt, hiddenStmt, List.count_append, List.count_cons,
      List.count_nil] at hbody ⊢
    omega
  | .try _ body catches cleanup => by
    refine List.perm_iff_count.mpr fun l => ?_
    have hbody := (landingsBlock_perm body).count_eq l
    have hcatches := (landingsCatches_perm catches).count_eq l
    have hcleanup := (landingsBlock_perm cleanup).count_eq l
    simp only [landingsStmt, ownStmt, hiddenStmt]
    split <;> simp only [List.count_append, List.count_nil] at hbody hcatches hcleanup ⊢ <;> omega
  | .absent | .sequencePoint .. | .noOp .. | .localDeclaration .. | .expression .. | .return ..
  | .yieldReturn .. | .yieldBreak .. | .throw .. | .break .. | .continue .. | .label .. | .goto ..
  | .conditionalGoto .. | .dispatch .. | .foreign .. => by
    simp [landingsStmt, ownStmt, hiddenStmt]

theorem landingsStmts_perm :
    ∀ ss : List Stmt, (landingsStmts ss).Perm (ownStmts ss ++ hiddenStmts ss)
  | [] => .nil
  | s :: rest => by
    refine List.perm_iff_count.mpr fun l => ?_
    have hs := (landings_perm s).count_eq l
    have hrest := (landingsStmts_perm rest).count_eq l
    simp only [landingsStmts, ownStmts, hiddenStmts, List.count_append] at hs hrest ⊢
    omega

theorem landingsBlock_perm : ∀ b : Block, (landingsBlock b).Perm (ownBlock b ++ hiddenBlock b)
  | .absent => .nil
  | .mk _ _ ss => landingsStmts_perm ss

theorem landingsCatches_perm :
    ∀ cs : List Catch, (landingsCatches cs).Perm (ownCatches cs ++ hiddenCatches cs)
  | [] => .nil
  | .mk _ _ body :: rest => by
    refine List.perm_iff_count.mpr fun l => ?_
    have hbody := (landingsBlock_perm body).count_eq l
    have hrest := (landingsCatches_perm rest).count_eq l
    simp only [landingsCatches, ownCatches, hiddenCatches, List.count_append] at hbody hrest ⊢
    omega

end

/-- The finally of an extracted try is on its own: its jumps stay inside, and it does not end the
method. -/
def Closed (cleanup : Block) : Prop :=
  (∀ j ∈ leapsBlock cleanup, j.target ∈ landingsBlock cleanup) ∧
    .yieldBreak ∉ exitsBlock cleanup

mutual

/-- The jumps of the statement go to labels that are visible where they stand, if those that
`visible` says are visible around it. -/
def Fits (visible : Option Label → Prop) : Stmt → Prop
  | .block b => FitsBlock visible b
  | .list _ ss => FitsAll visible ss
  | .goto _ l | .conditionalGoto _ _ _ l | .break _ l | .continue _ l => visible l
  | .dispatch _ _ cases l => ∀ k ∈ cases.map DispatchCase.label ++ [l], visible k
  | .if _ _ t f => Fits visible t ∧ Fits visible f
  | .while _ _ body _ _ => Fits visible body
  | .try _ body catches cleanup =>
    if framed body cleanup then
      FitsBlock (fun l => visible l ∨ l ∈ ownBlock body) body ∧ Closed cleanup
    else (FitsBlock visible body ∧ FitsCatches visible catches) ∧ FitsBlock visible cleanup
  | _ => True

/-- The jumps of the statements go to visible labels. -/
def FitsAll (visible : Option Label → Prop) : List Stmt → Prop
  | [] => True
  | s :: rest => Fits visible s ∧ FitsAll visible rest

/-- The jumps of the block go to visible labels. -/
def FitsBlock (visible : Option Label → Prop) : Block → Prop
  | .absent => True
  | .mk _ _ ss => FitsAll visible ss

/-- The jumps of the handlers go to visible labels. -/
def FitsCatches (visible : Option Label → Prop) : List Catch → Prop
  | [] => True
  | .mk _ _ body :: rest => FitsBlock visible body ∧ FitsCatches visible rest

end

mutual

/-- Neither handlers nor finallys suspend, nor try blocks with handlers. -/
def Guarded : Stmt → Prop
  | .block b => GuardedBlock b
  | .list _ ss => GuardedAll ss
  | .if _ _ t f => Guarded t ∧ Guarded f
  | .while _ _ body _ _ => Guarded body
  | .try _ body catches cleanup =>
    (.yieldReturn ∉ exitsCatches catches ∧ .yieldReturn ∉ exitsBlock cleanup ∧
      (catches ≠ [] → .yieldReturn ∉ exitsBlock body)) ∧
      GuardedBlock body ∧ GuardedCatches catches ∧ GuardedBlock cleanup
  | _ => True

/-- The tries of the statements are guarded. -/
def GuardedAll : List Stmt → Prop
  | [] => True
  | s :: rest => Guarded s ∧ GuardedAll rest

/-- The tries of the block are guarded. -/
def GuardedBlock : Block → Prop
  | .absent => True
  | .mk _ _ ss => GuardedAll ss

/-- The tries of the handlers are guarded. -/
def GuardedCatches : List Catch → Prop
  | [] => True
  | .mk _ _ body :: rest => GuardedBlock body ∧ GuardedCatches rest

end

/-! ## Tries without suspensions -/

mutual

/-- A statement that does not suspend has no extracted try. -/
theorem not_framed {A : List Leap} : ∀ {s : Stmt}, .yieldReturn ∉ exitsStmt s →
    ∀ r ∈ regionsStmt A s, framed r.body r.cleanup = false
  | .block b, hs, r, hr => not_framed_block (b := b) hs r hr
  | .list _ ss, hs, r, hr => @not_framed_all _ ss hs r hr
  | .if _ _ t f, hs, r, hr => by
    simp only [exitsStmt, List.mem_append, not_or] at hs
    rcases List.mem_append.mp hr with hr | hr
    · exact not_framed hs.1 r hr
    · exact not_framed hs.2 r hr
  | .while _ _ body _ _, hs, r, hr => not_framed (s := body) hs r hr
  | .try _ body catches cleanup, hs, r, hr => by
    simp only [exitsStmt, List.mem_append, not_or] at hs
    obtain ⟨⟨hbody, hcatches⟩, hcleanup⟩ := hs
    rcases List.mem_cons.mp hr with rfl | hr
    · exact Bool.eq_false_iff.mpr fun h => hbody (framed_iff.mp h).2
    · rcases List.mem_append.mp hr with hr | hr
      · rcases List.mem_append.mp hr with hr | hr
        · exact not_framed_block hbody r hr
        · exact not_framed_catches hcatches r hr
      · exact not_framed_block hcleanup r hr
  | .absent, _, _, hr | .sequencePoint .., _, _, hr | .noOp .., _, _, hr
  | .localDeclaration .., _, _, hr | .expression .., _, _, hr | .return .., _, _, hr
  | .yieldReturn .., _, _, hr | .yieldBreak .., _, _, hr | .throw .., _, _, hr
  | .break .., _, _, hr | .continue .., _, _, hr | .label .., _, _, hr | .goto .., _, _, hr
  | .conditionalGoto .., _, _, hr | .dispatch .., _, _, hr | .foreign .., _, _, hr => nomatch hr

theorem not_framed_all {A : List Leap} : ∀ {ss : List Stmt}, .yieldReturn ∉ exitsStmts ss →
    ∀ r ∈ regionsStmts A ss, framed r.body r.cleanup = false
  | [], _, _, hr => nomatch hr
  | s :: rest, hss, r, hr => by
    simp only [exitsStmts, List.mem_append, not_or] at hss
    rcases List.mem_append.mp hr with hr | hr
    · exact not_framed hss.1 r hr
    · exact not_framed_all hss.2 r hr

theorem not_framed_block {A : List Leap} : ∀ {b : Block}, .yieldReturn ∉ exitsBlock b →
    ∀ r ∈ regionsBlock A b, framed r.body r.cleanup = false
  | .absent, _, _, hr => nomatch hr
  | .mk _ _ ss, hb, r, hr => @not_framed_all _ ss hb r hr

theorem not_framed_catches {A : List Leap} : ∀ {cs : List Catch}, .yieldReturn ∉ exitsCatches cs →
    ∀ r ∈ regionsCatches A cs, framed r.body r.cleanup = false
  | [], _, _, hr => nomatch hr
  | .mk _ _ body :: rest, hcs, r, hr => by
    simp only [exitsCatches, List.mem_append, not_or] at hcs
    rcases List.mem_append.mp hr with hr | hr
    · exact not_framed_block hcs.1 r hr
    · exact not_framed_catches hcs.2 r hr

end

/-! ## Regions and visible labels -/

/-- If the try is extracted, its finally does not end the method, and no jump goes into its finally
or out of it, or into its try block. -/
def Region.Sealed (r : Region) : Prop := framed r.body r.cleanup = true →
  Closed r.cleanup ∧
  (∀ j ∈ r.outside ++ leapsBlock r.body ++ leapsCatches r.catches,
    j.target ∉ landingsBlock r.cleanup) ∧
  ∀ j ∈ r.outside ++ leapsCatches r.catches ++ leapsBlock r.cleanup,
    j.target ∉ landingsBlock r.body

/-- For a part of a body: that its tries are sealed, and that its jumps go to visible labels, is the
same.  `hidden` are the labels inside its extracted tries, `leaps` its jumps. -/
structure Agrees (hidden : List (Option Label)) (leaps : List Leap)
    (fits : (Option Label → Prop) → Prop) (regions : List Leap → List Region) : Prop where
  reach : ∀ V, fits V → ∀ j ∈ leaps, V j.target ∨ j.target ∈ hidden
  apart : ∀ A, (∀ r ∈ regions A, r.Sealed) → ∀ j ∈ A, j.target ∉ hidden
  fits_of_sealed : ∀ A V, (∀ r ∈ regions A, r.Sealed) →
    (∀ j ∈ leaps, V j.target ∨ j.target ∈ hidden) → fits V
  sealed_of_fits : ∀ A V, fits V → (∀ l ∈ hidden, ¬ V l) → (∀ j ∈ A, j.target ∉ hidden) →
    ∀ r ∈ regions A, r.Sealed

namespace Agrees

variable {hidden hidden' : List (Option Label)} {leaps leaps' : List Leap}
  {fits fits' : (Option Label → Prop) → Prop} {regions regions' : List Leap → List Region}

/-- A part without tries. -/
theorem plain (h : ∀ V, fits V ↔ ∀ j ∈ leaps, V j.target) :
    Agrees [] leaps fits fun _ => [] where
  reach V hV j hj := .inl ((h V).mp hV j hj)
  apart _ _ _ _ := List.not_mem_nil
  fits_of_sealed A V _ hleaps := by
    rw [h]
    intro j hj
    exact (hleaps j hj).resolve_right List.not_mem_nil
  sealed_of_fits _ _ _ _ _ _ hr := nomatch hr

/-- One part after another: the jumps of each are outside of the other. -/
theorem append (h : Agrees hidden leaps fits regions) (h' : Agrees hidden' leaps' fits' regions')
    (hdisjoint : ∀ l ∈ hidden, l ∉ hidden') :
    Agrees (hidden ++ hidden') (leaps ++ leaps') (fun V => fits V ∧ fits' V)
      fun A => regions (A ++ leaps') ++ regions' (A ++ leaps) where
  reach V hV j hj := by
    rw [List.mem_append]
    rcases List.mem_append.mp hj with hj | hj
    · exact (h.reach V hV.1 j hj).imp id .inl
    · exact (h'.reach V hV.2 j hj).imp id .inr
  apart A hsealed j hj := by
    rw [List.mem_append, not_or]
    constructor
    · exact h.apart (A ++ leaps') (fun r hr => hsealed r (by simp [hr])) j (by simp [hj])
    · exact h'.apart (A ++ leaps) (fun r hr => hsealed r (by simp [hr])) j (by simp [hj])
  fits_of_sealed A V hsealed hleaps := by
    have hone : ∀ r ∈ regions (A ++ leaps'), r.Sealed := fun r hr => hsealed r (by simp [hr])
    have htwo : ∀ r ∈ regions' (A ++ leaps), r.Sealed := fun r hr => hsealed r (by simp [hr])
    refine ⟨h.fits_of_sealed _ V hone fun j hj => ?_, h'.fits_of_sealed _ V htwo fun j hj => ?_⟩
    · have hother := h'.apart _ htwo j (by simp [hj])
      have := hleaps j (by simp [hj])
      simpa [hother] using this
    · have hother := h.apart _ hone j (by simp [hj])
      have := hleaps j (by simp [hj])
      simpa [hother] using this
  sealed_of_fits A V hV hhidden hA r hr := by
    -- The jumps of one part reach what is visible and its own hidden labels, so not the other's.
    rcases List.mem_append.mp hr with hr | hr
    · refine h.sealed_of_fits _ V hV.1 (fun l hl => hhidden l (by simp [hl])) (fun j hj => ?_) r hr
      rcases List.mem_append.mp hj with hj | hj
      · exact fun hin => hA j hj (by simp [hin])
      · intro hin
        rcases h'.reach V hV.2 j hj with hvisible | hother
        · exact hhidden _ (by simp [hin]) hvisible
        · exact hdisjoint _ hin hother
    · refine h'.sealed_of_fits _ V hV.2 (fun l hl => hhidden l (by simp [hl])) (fun j hj => ?_) r hr
      rcases List.mem_append.mp hj with hj | hj
      · exact fun hin => hA j hj (by simp [hin])
      · intro hin
        rcases h.reach V hV.1 j hj with hvisible | hother
        · exact hhidden _ (by simp [hin]) hvisible
        · exact hdisjoint _ hother hin

/-- A try that is not extracted adds nothing to its parts. -/
theorem cons (h : Agrees hidden leaps fits regions) (region : List Leap → Region)
    (hregion : ∀ A, framed (region A).body (region A).cleanup = false) :
    Agrees hidden leaps fits fun A => region A :: regions A where
  reach := h.reach
  apart A hsealed := h.apart A fun r hr => hsealed r (List.mem_cons_of_mem _ hr)
  fits_of_sealed A V hsealed :=
    h.fits_of_sealed A V fun r hr => hsealed r (List.mem_cons_of_mem _ hr)
  sealed_of_fits A V hV hhidden hA r hr := by
    rcases List.mem_cons.mp hr with rfl | hr
    · intro hframed
      rw [hregion A] at hframed
      cases hframed
    · exact h.sealed_of_fits A V hV hhidden hA r hr

/-- An extracted try: its finally is closed, and the labels of its try block that are not hidden
inside it become visible there. -/
theorem frame {body cleanup : Block}
    (h : Agrees (hiddenBlock body) (leapsBlock body) (fun V => FitsBlock V body)
      (regionsBlock · body))
    (hframed : framed body cleanup = true) (hcleanup : .yieldReturn ∉ exitsBlock cleanup)
    (hnodup : (landingsBlock body ++ landingsBlock cleanup).Nodup) :
    Agrees (landingsBlock body ++ landingsBlock cleanup) (leapsBlock body ++ leapsBlock cleanup)
      (fun V => FitsBlock (fun l => V l ∨ l ∈ ownBlock body) body ∧ Closed cleanup)
      fun A => ⟨body, [], cleanup, A⟩ :: (regionsBlock (A ++ leapsBlock cleanup) body ++
        regionsBlock (A ++ leapsBlock body) cleanup) := by
  have hlandings : ∀ l, l ∈ landingsBlock body ↔ l ∈ ownBlock body ∨ l ∈ hiddenBlock body := by
    intro l
    rw [(landingsBlock_perm body).mem_iff, List.mem_append]
  obtain ⟨hbodyNodup, -, hdisjoint⟩ := List.nodup_append.mp hnodup
  obtain ⟨-, -, hown⟩ := List.nodup_append.mp ((landingsBlock_perm body).nodup_iff.mp hbodyNodup)
  -- Where the jumps of the try block go, if they go to visible labels.
  have hbodyReach : ∀ V : Option Label → Prop, FitsBlock (fun l => V l ∨ l ∈ ownBlock body) body →
      ∀ j ∈ leapsBlock body, V j.target ∨ j.target ∈ landingsBlock body := by
    intro V hV j hj
    rw [hlandings]
    rcases h.reach _ hV j hj with (hvisible | hmem) | hmem
    · exact .inl hvisible
    · exact .inr (.inl hmem)
    · exact .inr (.inr hmem)
  refine ⟨fun V hV j hj => ?_, fun A hsealed j hj => ?_, fun A V hsealed hleaps => ?_,
    fun A V hV hhidden hA r hr => ?_⟩
  · rw [List.mem_append]
    rcases List.mem_append.mp hj with hj | hj
    · exact (hbodyReach V hV.1 j hj).imp id .inl
    · exact .inr (.inr (hV.2.1 j hj))
  · obtain ⟨-, henters, hresumes⟩ := hsealed _ List.mem_cons_self hframed
    rw [List.mem_append, not_or]
    exact ⟨hresumes j (by simp [hj]), henters j (by simp [hj])⟩
  · obtain ⟨hclosed, henters, -⟩ := hsealed _ List.mem_cons_self hframed
    refine ⟨h.fits_of_sealed (A ++ leapsBlock cleanup) _ (fun r hr => hsealed r (by simp [hr])) ?_,
      hclosed⟩
    intro j hj
    have hnot : j.target ∉ landingsBlock cleanup := henters j (by simp [hj])
    have hmem := hleaps j (by simp [hj])
    rw [List.mem_append, hlandings] at hmem
    rcases hmem with hvisible | (hmem | hmem) | hmem
    · exact .inl (.inl hvisible)
    · exact .inl (.inr hmem)
    · exact .inr hmem
    · exact absurd hmem hnot
  · have houtside : ∀ j ∈ A, j.target ∉ landingsBlock body ∧ j.target ∉ landingsBlock cleanup := by
      intro j hj
      simpa using hA j hj
    rcases List.mem_cons.mp hr with rfl | hr
    · intro _
      refine ⟨hV.2, fun j hj hin => ?_, fun j hj hin => ?_⟩
      · simp only [leapsCatches, List.append_nil, List.mem_append] at hj
        rcases hj with hj | hj
        · exact (houtside j hj).2 hin
        · rcases hbodyReach V hV.1 j hj with hvisible | hmem
          · exact hhidden _ (by simp [hin]) hvisible
          · exact hdisjoint _ hmem _ hin rfl
      · simp only [leapsCatches, List.append_nil, List.mem_append] at hj
        rcases hj with hj | hj
        · exact (houtside j hj).1 hin
        · exact hdisjoint _ hin _ (hV.2.1 j hj) rfl
    · rcases List.mem_append.mp hr with hr | hr
      · refine h.sealed_of_fits _ _ hV.1 (fun l hl => ?_) (fun j hj hin => ?_) r hr
        · rintro (hvisible | hmem)
          · exact hhidden l (by simp [(hlandings l).mpr (.inr hl)]) hvisible
          · exact hown _ hmem _ hl rfl
        · have hin := (hlandings _).mpr (.inr hin)
          rcases List.mem_append.mp hj with hj | hj
          · exact (houtside j hj).1 hin
          · exact hdisjoint _ hin _ (hV.2.1 j hj) rfl
      · intro hinner
        rw [not_framed_block hcleanup r hr] at hinner
        cases hinner

end Agrees

theorem disjoint_hidden {a b : List (Option Label)} {hidden hidden' own own' : List (Option Label)}
    (hnodup : (a ++ b).Nodup) (ha : a.Perm (own ++ hidden)) (hb : b.Perm (own' ++ hidden')) :
    ∀ l ∈ hidden, l ∉ hidden' := by
  obtain ⟨-, -, hdisjoint⟩ := List.nodup_append.mp hnodup
  intro l hl hl'
  exact hdisjoint l (ha.mem_iff.mpr (by simp [hl])) l (hb.mem_iff.mpr (by simp [hl'])) rfl

mutual

theorem agrees_stmt : ∀ {s : Stmt}, Guarded s → (landingsStmt s).Nodup →
    Agrees (hiddenStmt s) (leapsStmt s) (fun V => Fits V s) (regionsStmt · s)
  | .block b, hs, hnodup => agrees_block (b := b) hs hnodup
  | .list _ ss, hs, hnodup => @agrees_stmts ss hs hnodup
  | .if _ _ t f, hs, hnodup => by
    obtain ⟨ht, hf, -⟩ := List.nodup_append.mp hnodup
    exact (agrees_stmt hs.1 ht).append (agrees_stmt hs.2 hf)
      (disjoint_hidden hnodup (landings_perm t) (landings_perm f))
  | .while _ _ body _ _, hs, hnodup => by
    have hbody : (landingsStmt body).Nodup := by
      simp only [landingsStmt] at hnodup
      exact (List.nodup_append.mp (List.nodup_cons.mp hnodup).2).1
    exact agrees_stmt (s := body) hs hbody
  | .try _ body catches cleanup, ⟨⟨_, hcleanup, hguard⟩, hbodies⟩, hnodup => by
    obtain ⟨hinner, hcleanupNodup, -⟩ := List.nodup_append.mp hnodup
    obtain ⟨hbodyNodup, hcatchesNodup, -⟩ := List.nodup_append.mp hinner
    have hbody := agrees_block hbodies.1 hbodyNodup
    by_cases hframed : framed body cleanup = true
    · have hcatches : catches = [] :=
        Classical.byContradiction fun h => hguard h (framed_iff.mp hframed).2
      subst hcatches
      simp only [landingsStmt, landingsCatches, List.append_nil] at hnodup
      simpa [hiddenStmt, leapsStmt, Fits, regionsStmt, hframed, landingsCatches, leapsCatches,
        regionsCatches] using hbody.frame hframed hcleanup hnodup
    · have hcatches := agrees_catches hbodies.2.1 hcatchesNodup
      have hlast := agrees_block hbodies.2.2 hcleanupNodup
      have hfirst := hbody.append hcatches
        (disjoint_hidden hinner (landingsBlock_perm body) (landingsCatches_perm catches))
      have hperm : (landingsBlock body ++ landingsCatches catches).Perm
          ((ownBlock body ++ ownCatches catches) ++
            (hiddenBlock body ++ hiddenCatches catches)) := by
        refine List.perm_iff_count.mpr fun l => ?_
        have hone := (landingsBlock_perm body).count_eq l
        have htwo := (landingsCatches_perm catches).count_eq l
        simp only [List.count_append] at hone htwo ⊢
        omega
      have hparts := (hfirst.append hlast
        (disjoint_hidden hnodup hperm (landingsBlock_perm cleanup))).cons
        (fun A => ⟨body, catches, cleanup, A⟩) fun A => Bool.eq_false_iff.mpr hframed
      simpa only [hiddenStmt, leapsStmt, Fits, regionsStmt, hframed, Bool.false_eq_true, if_false]
        using hparts
  | .goto .., _, _ | .conditionalGoto .., _, _ | .break .., _, _ | .continue .., _, _ =>
    .plain fun V => by simp [Fits, leapsStmt]
  | .dispatch .., _, _ => .plain fun V => by simp [Fits, leapsStmt, or_imp, forall_and]
  | .absent, _, _ | .sequencePoint .., _, _ | .noOp .., _, _ | .localDeclaration .., _, _
  | .expression .., _, _ | .return .., _, _ | .yieldReturn .., _, _ | .yieldBreak .., _, _
  | .throw .., _, _ | .label .., _, _ | .foreign .., _, _ =>
    .plain fun V => by simp [Fits, leapsStmt]

theorem agrees_stmts : ∀ {ss : List Stmt}, GuardedAll ss → (landingsStmts ss).Nodup →
    Agrees (hiddenStmts ss) (leapsStmts ss) (fun V => FitsAll V ss) (regionsStmts · ss)
  | [], _, _ => .plain fun V => by simp [FitsAll, leapsStmts]
  | s :: rest, hss, hnodup => by
    obtain ⟨hs, hrest, -⟩ := List.nodup_append.mp hnodup
    exact (agrees_stmt hss.1 hs).append (agrees_stmts hss.2 hrest)
      (disjoint_hidden hnodup (landings_perm s) (landingsStmts_perm rest))

theorem agrees_block : ∀ {b : Block}, GuardedBlock b → (landingsBlock b).Nodup →
    Agrees (hiddenBlock b) (leapsBlock b) (fun V => FitsBlock V b) (regionsBlock · b)
  | .absent, _, _ => .plain fun V => by simp [FitsBlock, leapsBlock]
  | .mk _ _ ss, hb, hnodup => @agrees_stmts ss hb hnodup

theorem agrees_catches : ∀ {cs : List Catch}, GuardedCatches cs → (landingsCatches cs).Nodup →
    Agrees (hiddenCatches cs) (leapsCatches cs) (fun V => FitsCatches V cs) (regionsCatches · cs)
  | [], _, _ => .plain fun V => by simp [FitsCatches, leapsCatches]
  | .mk _ _ body :: rest, hcs, hnodup => by
    obtain ⟨hbody, hrest, -⟩ := List.nodup_append.mp hnodup
    exact (agrees_block hcs.1 hbody).append (agrees_catches hcs.2 hrest)
      (disjoint_hidden hnodup (landingsBlock_perm body) (landingsCatches_perm rest))

end

/-! ## Guards -/

/-- Neither the handlers of the try suspend nor its finally, nor its try block if it has handlers. -/
def Region.Guards (r : Region) : Prop :=
  .yieldReturn ∉ exitsCatches r.catches ∧ .yieldReturn ∉ exitsBlock r.cleanup ∧
    (r.catches ≠ [] → .yieldReturn ∉ exitsBlock r.body)

theorem forall_mem_append {α : Type} {P : α → Prop} {a b : List α} :
    (∀ x ∈ a ++ b, P x) ↔ (∀ x ∈ a, P x) ∧ ∀ x ∈ b, P x := by
  simp only [List.mem_append, or_imp, forall_and]

mutual

theorem guarded_iff : ∀ (s : Stmt) (A : List Leap),
    Guarded s ↔ ∀ r ∈ regionsStmt A s, r.Guards
  | .block b, A => guardedBlock_iff b A
  | .list _ ss, A => guardedAll_iff ss A
  | .if _ _ t f, A => by
    rw [Guarded, regionsStmt, forall_mem_append, guarded_iff t, guarded_iff f]
  | .while _ _ body _ _, A => guarded_iff body A
  | .try _ body catches cleanup, A => by
    rw [Guarded, regionsStmt, List.forall_mem_cons, forall_mem_append, forall_mem_append,
      guardedBlock_iff body, guardedCatches_iff catches, guardedBlock_iff cleanup]
    exact and_congr_right fun _ => and_assoc.symm
  | .absent, A | .sequencePoint .., A | .noOp .., A | .localDeclaration .., A
  | .expression .., A | .return .., A | .yieldReturn .., A | .yieldBreak .., A | .throw .., A
  | .break .., A | .continue .., A | .label .., A | .goto .., A | .conditionalGoto .., A
  | .dispatch .., A | .foreign .., A => by
    simp [Guarded, regionsStmt]

theorem guardedAll_iff : ∀ (ss : List Stmt) (A : List Leap),
    GuardedAll ss ↔ ∀ r ∈ regionsStmts A ss, r.Guards
  | [], A => by simp [GuardedAll, regionsStmts]
  | s :: rest, A => by
    rw [GuardedAll, regionsStmts, forall_mem_append, guarded_iff s, guardedAll_iff rest]

theorem guardedBlock_iff : ∀ (b : Block) (A : List Leap),
    GuardedBlock b ↔ ∀ r ∈ regionsBlock A b, r.Guards
  | .absent, A => by simp [GuardedBlock, regionsBlock]
  | .mk _ _ ss, A => guardedAll_iff ss A

theorem guardedCatches_iff : ∀ (cs : List Catch) (A : List Leap),
    GuardedCatches cs ↔ ∀ r ∈ regionsCatches A cs, r.Guards
  | [], A => by simp [GuardedCatches, regionsCatches]
  | .mk _ _ body :: rest, A => by
    rw [GuardedCatches, regionsCatches, forall_mem_append, guardedBlock_iff body,
      guardedCatches_iff rest]

end

/-! ## Jumps of loops -/

/-- No jump of a loop goes into the try block from outside. -/
def Region.Unlooped (r : Region) : Prop :=
  ∀ j ∈ r.outside ++ leapsCatches r.catches ++ leapsBlock r.cleanup, j.ofLoop = true →
    j.target ∉ landingsBlock r.body

mutual

/-- A loop that is left or continued is around the jump, so no such jump goes into a try. -/
theorem unlooped_stmt {params : List Param} : ∀ {s : Stmt} {loop : Option (Label × Label)}
    {n m : Nat} {A : List Leap}, BoundStmt params loop n s m → Around loop n → Elsewhere n m A →
    ∀ r ∈ regionsStmt A s, r.Unlooped
  | .block b, _, _, _, _, h, haround, hA => unlooped_block (b := b) h haround hA
  | .if _ _ t f, _, n, m, A, ⟨_, k, ht, hf⟩, haround, hA => by
    have hfirst := looped_stmt ht
    rw [regionsStmt, forall_mem_append]
    rcases hf with ⟨rfl, rfl⟩ | hf
    · refine ⟨unlooped_stmt ht haround ?_, fun r hr => nomatch hr⟩
      simpa [leapsStmt] using hA
    · have hsecond := looped_stmt hf
      constructor
      · exact unlooped_stmt ht haround ((hA.mono (Nat.le_refl n) hsecond.le).append
          (.of_looped hsecond haround (.inr (Nat.le_refl k))))
      · exact unlooped_stmt hf (haround.mono hfirst.le) ((hA.mono hfirst.le (Nat.le_refl m)).append
          (.of_looped hfirst (haround.mono hfirst.le) (.inl (Nat.le_refl k))))
  | .while _ _ body _ _, _, n, m, A, ⟨_, _, _, hbody⟩, _, hA =>
    unlooped_stmt (s := body) hbody .new (hA.mono (Nat.le_succ n) (Nat.le_refl m))
  | .try _ body catches cleanup, loop, n, m, A, ⟨k, j, hbody, hcatches, hcleanup, _⟩, haround,
      hA => by
    have hlooped : Looped loop j m (landingsBlock cleanup) (leapsBlock cleanup) := by
      rcases hcleanup with ⟨rfl, rfl⟩ | hcleanup
      · exact .still
      · exact looped_block hcleanup
    have hone := looped_block hbody
    have htwo := looped_catches hcatches
    have hk := haround.mono hone.le
    have hj := hk.mono htwo.le
    have hle := hlooped.le
    have hle' := hone.le
    have hle'' := htwo.le
    rw [regionsStmt, List.forall_mem_cons, forall_mem_append, forall_mem_append]
    refine ⟨fun leap hleap hof => ?_, ⟨?_, ?_⟩, ?_⟩
    · refine Elsewhere.not_mem (n := n) (m := k) ?_ hone hleap hof
      exact ((hA.mono (Nat.le_refl n) (by omega)).append (.of_looped htwo haround
        (.inr (Nat.le_refl k)))).append (.of_looped hlooped haround (.inr (by omega)))
    · exact unlooped_block hbody haround (((hA.mono (Nat.le_refl n) (by omega)).append
        (.of_looped hlooped haround (.inr (by omega)))).append
        (.of_looped htwo haround (.inr (Nat.le_refl k))))
    · exact unlooped_catches hcatches hk (((hA.mono (by omega) (by omega)).append
        (.of_looped hlooped hk (.inr (Nat.le_refl j)))).append
        (.of_looped hone hk (.inl (Nat.le_refl k))))
    · rcases hcleanup with ⟨rfl, rfl⟩ | hcleanup
      · exact fun r hr => nomatch hr
      · exact unlooped_block hcleanup hj ((hA.mono (by omega) (Nat.le_refl m)).append
          ((Elsewhere.of_looped hone hj (.inl (by omega))).append
            (.of_looped htwo hj (.inl (Nat.le_refl j)))))
  | .noOp _, _, _, _, _, _, _, _ | .yieldBreak _, _, _, _, _, _, _, _
  | .localDeclaration .., _, _, _, _, _, _, _ | .expression .., _, _, _, _, _, _, _
  | .return .., _, _, _, _, _, _, _ | .throw .., _, _, _, _, _, _, _
  | .yieldReturn .., _, _, _, _, _, _, _ | .goto .., _, _, _, _, _, _, _
  | .label .., _, _, _, _, _, _, _ | .break .., _, _, _, _, _, _, _
  | .continue .., _, _, _, _, _, _, _ => fun r hr => nomatch hr
  | .absent, _, _, _, _, h, _, _ | .list .., _, _, _, _, h, _, _
  | .sequencePoint .., _, _, _, _, h, _, _ | .conditionalGoto .., _, _, _, _, h, _, _
  | .dispatch .., _, _, _, _, h, _, _ | .foreign .., _, _, _, _, h, _, _ => h.elim

theorem unlooped_stmts {params : List Param} : ∀ {ss : List Stmt} {loop : Option (Label × Label)}
    {n m : Nat} {A : List Leap}, BoundStmts params loop n ss m → Around loop n → Elsewhere n m A →
    ∀ r ∈ regionsStmts A ss, r.Unlooped
  | [], _, _, _, _, _, _, _ => fun r hr => nomatch hr
  | s :: rest, _, n, m, A, ⟨k, hs, hrest⟩, haround, hA => by
    have hfirst := looped_stmt hs
    have hothers := looped_stmts hrest
    rw [regionsStmts, forall_mem_append]
    constructor
    · exact unlooped_stmt hs haround ((hA.mono (Nat.le_refl n) hothers.le).append
        (.of_looped hothers haround (.inr (Nat.le_refl k))))
    · exact unlooped_stmts hrest (haround.mono hfirst.le)
        ((hA.mono hfirst.le (Nat.le_refl m)).append
          (.of_looped hfirst (haround.mono hfirst.le) (.inl (Nat.le_refl k))))

theorem unlooped_block {params : List Param} : ∀ {b : Block} {loop : Option (Label × Label)}
    {n m : Nat} {A : List Leap}, BoundBlock params loop n b m → Around loop n → Elsewhere n m A →
    ∀ r ∈ regionsBlock A b, r.Unlooped
  | .absent, _, _, _, _, h, _, _ => h.elim
  | .mk .., _, _, _, _, ⟨_, hss⟩, haround, hA => unlooped_stmts hss haround hA

theorem unlooped_catches {params : List Param} : ∀ {cs : List Catch}
    {loop : Option (Label × Label)} {n m : Nat} {A : List Leap}, BoundCatches params loop n cs m →
    Around loop n → Elsewhere n m A → ∀ r ∈ regionsCatches A cs, r.Unlooped
  | [], _, _, _, _, _, _, _ => fun r hr => nomatch hr
  | .mk _ _ body :: rest, _, n, m, A, ⟨k, hbody, hrest⟩, haround, hA => by
    have hfirst := looped_block hbody
    have hothers := looped_catches hrest
    rw [regionsCatches, forall_mem_append]
    constructor
    · exact unlooped_block hbody haround ((hA.mono (Nat.le_refl n) hothers.le).append
        (.of_looped hothers haround (.inr (Nat.le_refl k))))
    · exact unlooped_catches hrest (haround.mono hfirst.le)
        ((hA.mono hfirst.le (Nat.le_refl m)).append
          (.of_looped hfirst (haround.mono hfirst.le) (.inl (Nat.le_refl k))))

end

/-! ## Both ways to say it -/

theorem has_eq_false {k : Kind} (hk : k.isExit = true) (b : Block) :
    b.has k = false ↔ k ∉ exitsBlock b := by
  rw [← has_iff_exits hk, Bool.not_eq_true]

theorem handlers_iff (cs : List Catch) :
    (∀ c ∈ cs, c.body.has .yieldReturn = false) ↔ .yieldReturn ∉ exitsCatches cs := by
  induction cs with
  | nil => simp [exitsCatches]
  | cons c rest ih =>
    obtain ⟨o, l, body⟩ := c
    rw [List.forall_mem_cons, ih, exitsCatches, List.mem_append, not_or, Catch.body,
      has_eq_false rfl]

theorem Region.representable_iff {r : Region} (hloops : r.Unlooped) :
    r.Representable ↔ r.Guards ∧ r.Sealed := by
  constructor
  · intro h
    refine ⟨⟨(handlers_iff _).mp h.handlers, (has_eq_false rfl _).mp h.cleanup, fun hcatches =>
      (has_eq_false rfl _).mp (h.guarded hcatches)⟩, fun hframed => ?_⟩
    have hextracted := Region.extracted_iff.mpr hframed
    refine ⟨⟨h.leaves hextracted, (has_eq_false rfl _).mp (h.ending hextracted)⟩,
      h.enters hextracted, fun j hj => ?_⟩
    cases hof : j.ofLoop with
    | true => exact hloops j hj hof
    | false => exact h.resumes hextracted j hj hof
  · rintro ⟨⟨hhandlers, hcleanup, hguarded⟩, hsealed⟩
    refine ⟨(handlers_iff _).mpr hhandlers, (has_eq_false rfl _).mpr hcleanup, fun hcatches =>
      (has_eq_false rfl _).mpr (hguarded hcatches), fun hextracted => ?_, fun hextracted => ?_,
      fun hextracted => ?_, fun hextracted j hj _ => ?_⟩
    all_goals obtain ⟨hclosed, henters, hresumes⟩ := hsealed (Region.extracted_iff.mp hextracted)
    · exact (has_eq_false rfl _).mpr hclosed.2
    · exact hclosed.1
    · exact henters
    · exact hresumes j hj

/-- The bodies that resolution makes can become state machines if and only if they have no return,
their tries are guarded, and each jump goes to a label that is visible where it stands. -/
theorem representable_iff {m : MethodBody} (hm : BoundMethod m) :
    Representable m.body ↔ .return ∉ exitsBlock m.body ∧ GuardedBlock m.body ∧
      FitsBlock (· ∈ ownBlock m.body) m.body := by
  obtain ⟨n, hbound⟩ := hm.bound
  have haround : Around none 0 := fun l ⟨x, hx, _⟩ => nomatch hx
  have hloops := @unlooped_block _ _ _ _ _ [] hbound haround fun j hj => nomatch hj
  have hregions : (∀ r ∈ regionsBlock [] m.body, r.Representable) ↔
      GuardedBlock m.body ∧ ∀ r ∈ regionsBlock [] m.body, r.Sealed := by
    rw [guardedBlock_iff m.body []]
    constructor
    · intro h
      exact ⟨fun r hr => ((Region.representable_iff (hloops r hr)).mp (h r hr)).1,
        fun r hr => ((Region.representable_iff (hloops r hr)).mp (h r hr)).2⟩
    · intro h r hr
      exact (Region.representable_iff (hloops r hr)).mpr ⟨h.1 r hr, h.2 r hr⟩
  rw [Representable, has_eq_false rfl, hregions]
  refine and_congr_right fun _ => and_congr_right fun hguarded => ?_
  have hagrees := agrees_block hguarded hm.nodup
  have hperm := landingsBlock_perm m.body
  constructor
  · intro hsealed
    refine hagrees.fits_of_sealed [] _ hsealed fun j hj => ?_
    exact List.mem_append.mp (hperm.mem_iff.mp (hm.targets j hj))
  · intro hfits
    obtain ⟨-, -, hown⟩ := List.nodup_append.mp (hperm.nodup_iff.mp hm.nodup)
    exact hagrees.sealed_of_fits [] _ hfits (fun l hl hin => hown l hin l hl rfl)
      fun j hj => nomatch hj

end Resumable.StateMachine
