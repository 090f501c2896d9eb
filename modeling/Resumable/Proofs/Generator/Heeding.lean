import Resumable.Proofs.StateMachine.Carried
import Resumable.Proofs.StateMachine.Finallys

/-!
# Jumps that heed tries

A jump goes into a handler or a finally only from inside of it, and out of no finally
(`Region.Disciplined`).  Said along the tree: the labels of a handler or a finally, and those inside
an extracted try, are visible only there (`looseStmt` are the others), and a jump goes to a label that
is visible where it stands (`Heeds`).  Lowering keeps this (`heeds_walked`).
-/

set_option autoImplicit false

namespace Resumable.StateMachine

open Resumable.Symbol Resumable.Tree Resumable.Source Resumable.Lowering

/-! ## Labels that jumps from outside can go to -/

mutual

/-- The labels of a statement that stand neither in extracted tries nor in handlers and finallys. -/
def looseStmt : Stmt → List (Option Label)
  | .block b => looseBlock b
  | .list _ ss => looseStmts ss
  | .label _ l => [l]
  | .if _ _ t f => looseStmt t ++ looseStmt f
  | .while _ _ body exit again => again :: looseStmt body ++ [exit]
  | .try _ body _ cleanup => if framed body cleanup then [] else looseBlock body
  | _ => []

/-- Those of statements. -/
def looseStmts : List Stmt → List (Option Label)
  | [] => []
  | s :: rest => looseStmt s ++ looseStmts rest

/-- Those of a block. -/
def looseBlock : Block → List (Option Label)
  | .absent => []
  | .mk _ _ ss => looseStmts ss

end

mutual

theorem loose_ownStmt : ∀ {s : Stmt} {l : Option Label}, l ∈ looseStmt s → l ∈ ownStmt s
  | .block b, _, h => loose_ownBlock (b := b) h
  | .list _ ss, l, h => @loose_ownStmts ss l h
  | .label .., _, h => h
  | .if _ _ _ _, _, h => List.mem_append.mpr <| (List.mem_append.mp h).imp loose_ownStmt loose_ownStmt
  | .while _ _ body exit again, l, h => by
    have hbody := @loose_ownStmt body l
    simp only [looseStmt, ownStmt, List.mem_append, List.mem_cons] at h ⊢
    exact h.imp_left fun h => h.imp_right hbody
  | .try _ body catches cleanup, l, h => by
    rw [looseStmt] at h
    rw [ownStmt]
    split at h
    · cases h
    · rename_i hframed
      rw [if_neg hframed]
      exact List.mem_append_left _ (List.mem_append_left _ (loose_ownBlock h))
  | .absent, _, h | .noOp .., _, h | .localDeclaration .., _, h | .yieldReturn .., _, h
  | .yieldBreak _, _, h | .break .., _, h | .continue .., _, h | .foreign .., _, h
  | .sequencePoint .., _, h | .expression .., _, h | .return .., _, h | .throw .., _, h
  | .goto .., _, h | .conditionalGoto .., _, h | .dispatch .., _, h => nomatch h

theorem loose_ownStmts : ∀ {ss : List Stmt} {l : Option Label}, l ∈ looseStmts ss → l ∈ ownStmts ss
  | [], _, h => nomatch h
  | _ :: rest, l, h => List.mem_append.mpr <|
    (List.mem_append.mp h).imp loose_ownStmt (@loose_ownStmts rest l)

/-- The loose labels of a block stand outside of its extracted tries. -/
theorem loose_ownBlock : ∀ {b : Block} {l : Option Label}, l ∈ looseBlock b → l ∈ ownBlock b
  | .absent, _, h => nomatch h
  | .mk _ _ ss, l, h => @loose_ownStmts ss l h

end

/-! ## Jumps to visible labels -/

mutual

/-- The jumps of the statement go to labels that are visible where they stand, if those that
`visible` says are visible around it: a try block and a handler see what is around them, and a finally
does not. -/
def Heeds (visible : Option Label → Prop) : Stmt → Prop
  | .block b => HeedsBlock visible b
  | .list _ ss => HeedsAll visible ss
  | .goto _ l | .conditionalGoto _ _ _ l | .break _ l | .continue _ l => visible l
  | .if _ _ t f => Heeds visible t ∧ Heeds visible f
  | .while _ _ body _ _ => Heeds visible body
  | .try _ body catches cleanup =>
    (if framed body cleanup then HeedsBlock (fun l => visible l ∨ l ∈ looseBlock body) body
      else HeedsBlock visible body) ∧ HeedsCatches visible catches ∧
      HeedsBlock (· ∈ looseBlock cleanup) cleanup ∧ .yieldBreak ∉ exitsBlock cleanup
  | _ => True

/-- The jumps of the statements go to visible labels. -/
def HeedsAll (visible : Option Label → Prop) : List Stmt → Prop
  | [] => True
  | s :: rest => Heeds visible s ∧ HeedsAll visible rest

/-- The jumps of the block go to visible labels. -/
def HeedsBlock (visible : Option Label → Prop) : Block → Prop
  | .absent => True
  | .mk _ _ ss => HeedsAll visible ss

/-- The jumps of the handlers go to visible labels. -/
def HeedsCatches (visible : Option Label → Prop) : List Catch → Prop
  | [] => True
  | .mk _ _ body :: rest =>
    HeedsBlock (fun l => visible l ∨ l ∈ looseBlock body) body ∧ HeedsCatches visible rest

end

mutual

/-- More labels may be visible. -/
theorem Heeds.mono : ∀ {s : Stmt} {V V' : Option Label → Prop}, (∀ l, V l → V' l) → Heeds V s →
    Heeds V' s
  | .block b, _, _, hV, h => HeedsBlock.mono (b := b) hV h
  | .list _ ss, _, _, hV, h => @HeedsAll.mono ss _ _ hV h
  | .goto .., _, _, hV, h | .conditionalGoto .., _, _, hV, h | .break .., _, _, hV, h
  | .continue .., _, _, hV, h => hV _ h
  | .if .., _, _, hV, h => ⟨h.1.mono hV, h.2.mono hV⟩
  | .while _ _ body _ _, _, _, hV, h => Heeds.mono (s := body) hV h
  | .try _ body catches cleanup, V, V', hV, ⟨hbody, hcatches, hcleanup⟩ => by
    refine ⟨?_, hcatches.mono hV, hcleanup⟩
    split at hbody <;> rename_i hframed
    · rw [if_pos hframed]
      exact hbody.mono fun l hl => hl.imp_left (hV l)
    · rw [if_neg hframed]
      exact hbody.mono hV
  | .absent, _, _, _, _ | .noOp .., _, _, _, _ | .localDeclaration .., _, _, _, _
  | .yieldReturn .., _, _, _, _ | .yieldBreak _, _, _, _, _ | .foreign .., _, _, _, _
  | .sequencePoint .., _, _, _, _ | .expression .., _, _, _, _ | .return .., _, _, _, _
  | .throw .., _, _, _, _ | .label .., _, _, _, _ | .dispatch .., _, _, _, _ => trivial

theorem HeedsAll.mono : ∀ {ss : List Stmt} {V V' : Option Label → Prop}, (∀ l, V l → V' l) →
    HeedsAll V ss → HeedsAll V' ss
  | [], _, _, _, _ => trivial
  | _ :: _, _, _, hV, h => ⟨h.1.mono hV, h.2.mono hV⟩

theorem HeedsBlock.mono : ∀ {b : Block} {V V' : Option Label → Prop}, (∀ l, V l → V' l) →
    HeedsBlock V b → HeedsBlock V' b
  | .absent, _, _, _, _ => trivial
  | .mk _ _ ss, _, _, hV, h => @HeedsAll.mono ss _ _ hV h

theorem HeedsCatches.mono : ∀ {cs : List Catch} {V V' : Option Label → Prop}, (∀ l, V l → V' l) →
    HeedsCatches V cs → HeedsCatches V' cs
  | [], _, _, _, _ => trivial
  | .mk .. :: _, _, _, hV, h => ⟨h.1.mono fun l hl => hl.imp_left (hV l), h.2.mono hV⟩

end

/-! ## Disciplined tries -/

/-- No jump goes into one of the handlers from outside of it; `outside` are the jumps outside of all of
them. -/
def Secluded (outside : List Leap) : List Catch → Prop
  | [] => True
  | .mk _ _ body :: rest => (∀ j ∈ outside ++ leapsCatches rest, j.target ∉ landingsBlock body) ∧
    Secluded (outside ++ leapsBlock body) rest

/-- No jump goes into a handler of the try or into its finally from outside of it, and none out of the
finally. -/
structure Region.Disciplined (r : Region) : Prop where
  handlers : Secluded (r.outside ++ leapsBlock r.cleanup ++ leapsBlock r.body) r.catches
  enters : r.Unentered
  leaves : ∀ j ∈ leapsBlock r.cleanup, j.target ∈ landingsBlock r.cleanup
  ends : .yieldBreak ∉ exitsBlock r.cleanup

/-- Whether no jump goes into one of the handlers can be computed. -/
instance decidableSecluded : ∀ (outside : List Leap) (cs : List Catch),
    Decidable (Secluded outside cs)
  | _, [] => .isTrue trivial
  | outside, .mk _ _ body :: rest =>
    have := decidableSecluded (outside ++ leapsBlock body) rest
    inferInstanceAs (Decidable ((∀ j ∈ outside ++ leapsCatches rest,
      j.target ∉ landingsBlock body) ∧ Secluded (outside ++ leapsBlock body) rest))

instance (r : Region) : Decidable r.Disciplined :=
  decidable_of_iff (Secluded (r.outside ++ leapsBlock r.cleanup ++ leapsBlock r.body) r.catches ∧
      r.Unentered ∧ (∀ j ∈ leapsBlock r.cleanup, j.target ∈ landingsBlock r.cleanup) ∧
      .yieldBreak ∉ exitsBlock r.cleanup)
    ⟨fun h => ⟨h.1, h.2.1, h.2.2.1, h.2.2.2⟩, fun h => ⟨h.handlers, h.enters, h.leaves, h.ends⟩⟩

theorem Secluded.apart {A : List Leap} {cs : List Catch} (h : Secluded A cs) :
    ∀ j ∈ A, j.target ∉ landingsCatches cs := by
  induction cs generalizing A with
  | nil => exact fun _ _ => List.not_mem_nil
  | cons c rest ih =>
    obtain ⟨o, v, body⟩ := c
    intro j hj
    rw [landingsCatches, List.mem_append, not_or]
    exact ⟨h.1 j (List.mem_append_left _ hj), ih h.2 j (List.mem_append_left _ hj)⟩

/-- For a part of a body with the labels and jumps: if its tries are disciplined and sealed, jumps
from outside go to its loose labels at most, and its own heed its tries, as soon as those that leave
it go to visible labels. -/
structure Heeding (loose landings : List (Option Label)) (leaps : List Leap)
    (heeds : (Option Label → Prop) → Prop) (regions : List Leap → List Region) : Prop where
  apart : ∀ A, (∀ r ∈ regions A, r.Sealed ∧ r.Disciplined) → ∀ j ∈ A, j.target ∈ landings →
    j.target ∈ loose
  heeds : ∀ A V, (∀ r ∈ regions A, r.Sealed ∧ r.Disciplined) →
    (∀ j ∈ leaps, V j.target ∨ j.target ∈ landings ∧ j.target ∉ loose) → heeds V

namespace Heeding

variable {loose loose' landings landings' : List (Option Label)} {leaps leaps' : List Leap}
  {heeds heeds' : (Option Label → Prop) → Prop} {regions regions' : List Leap → List Region}

/-- A part without tries. -/
theorem plain (h : ∀ V, (∀ j ∈ leaps, V j.target) → heeds V) :
    Heeding loose loose leaps heeds fun _ => [] where
  apart _ _ _ _ hl := hl
  heeds _ V _ hleaps := h V fun j hj => (hleaps j hj).resolve_right fun h => h.2 h.1

/-- One part after another: the jumps of each are outside of the other. -/
theorem append (h : Heeding loose landings leaps heeds regions)
    (h' : Heeding loose' landings' leaps' heeds' regions') :
    Heeding (loose ++ loose') (landings ++ landings') (leaps ++ leaps')
      (fun V => heeds V ∧ heeds' V)
      fun A => regions (A ++ leaps') ++ regions' (A ++ leaps) where
  apart A hall j hj hl := by
    rw [forall_mem_append] at hall
    rw [List.mem_append] at hl ⊢
    exact hl.imp (h.apart _ hall.1 j (by simp [hj])) (h'.apart _ hall.2 j (by simp [hj]))
  heeds A V hall hleaps := by
    rw [forall_mem_append] at hall
    have hfirst := fun j hj => h.apart _ hall.1 j (List.mem_append_right A hj)
    have hsecond := fun j hj => h'.apart _ hall.2 j (List.mem_append_right A hj)
    simp only [List.mem_append] at hleaps
    refine ⟨h.heeds _ V hall.1 fun j hj => ?_, h'.heeds _ V hall.2 fun j hj => ?_⟩
    · refine (hleaps j (.inl hj)).imp_right fun ⟨hl, hnot⟩ => ⟨hl.resolve_right fun hl => ?_, ?_⟩
      · exact hnot (.inr (hsecond j hj hl))
      · exact fun hl => hnot (.inl hl)
    · refine (hleaps j (.inr hj)).imp_right fun ⟨hl, hnot⟩ => ⟨hl.resolve_left fun hl => ?_, ?_⟩
      · exact hnot (.inl (hfirst j hj hl))
      · exact fun hl => hnot (.inr hl)

end Heeding

mutual

theorem heeding_stmt : ∀ s : Stmt, Heeding (looseStmt s) (landingsStmt s) (leapsStmt s)
    (fun V => Heeds V s) (regionsStmt · s)
  | .block b => heeding_block b
  | .list _ ss => heeding_stmts ss
  | .if _ _ t f => (heeding_stmt t).append (heeding_stmt f)
  | .while _ _ body exit again => by
    have hbody := heeding_stmt body
    refine ⟨fun A hall j hj hl => ?_, fun A V hall hleaps => hbody.heeds A V hall fun j hj => ?_⟩
    · have hin := hbody.apart A hall j hj
      simp only [landingsStmt, looseStmt, List.mem_append, List.mem_cons] at hl ⊢
      exact hl.imp_left fun hl => hl.imp_right hin
    · have hj := hleaps j hj
      simp only [landingsStmt, looseStmt, List.mem_append, List.mem_cons] at hj
      grind
  | .try _ body catches cleanup => by
    have hbody := heeding_block body
    have hcleanup := heeding_block cleanup
    refine ⟨fun A hall j hj hl => ?_, fun A V hall hleaps => ?_⟩
    all_goals
      rw [regionsStmt, List.forall_mem_cons, forall_mem_append, forall_mem_append] at hall
      obtain ⟨⟨hsealed, hself⟩, ⟨hfirst, hmiddle⟩, hlast⟩ := hall
      have henters := hself.enters
      have hhandlers := hself.handlers
    · rw [landingsStmt, List.mem_append, List.mem_append] at hl
      rcases hl with (hl | hl) | hl
      · rw [looseStmt]
        split
        · rename_i hframed
          exact absurd hl ((hsealed hframed).2.2 j (by simp [hj]))
        · exact hbody.apart _ hfirst j (by simp [hj]) hl
      · exact absurd hl (hhandlers.apart j (by simp [hj]))
      · exact absurd hl (henters j (by simp [hj]))
    · simp only [leapsStmt, landingsStmt, looseStmt, List.mem_append] at hleaps
      refine ⟨?_, heeding_catches catches _ V hmiddle hhandlers fun j hj => ?_,
        hcleanup.heeds _ _ hlast fun j hj => ?_, hself.ends⟩
      · have hnot : ∀ j ∈ leapsBlock body, j.target ∉ landingsCatches catches ∧
            j.target ∉ landingsBlock cleanup := fun j hj =>
          ⟨hhandlers.apart j (by simp [hj]), henters j (by simp [hj])⟩
        split <;> rename_i hframed <;> simp only [hframed] at hleaps
        all_goals
          refine hbody.heeds _ _ hfirst fun j hj => ?_
          have hj' := hleaps j (.inl (.inl hj))
          have hnot := hnot j hj
          grind
      · have hj' := hleaps j (.inl (.inr hj))
        refine hj'.imp_right fun ⟨hl, hnot⟩ => ?_
        rcases hl with (hl | hl) | hl
        · split at hnot
          · rename_i hframed
            exact absurd hl ((hsealed hframed).2.2 j (by simp [hj]))
          · exact absurd (hbody.apart _ hfirst j (by simp [hj]) hl) hnot
        · exact hl
        · exact absurd hl (henters j (by simp [hj]))
      · by_cases hl : j.target ∈ looseBlock cleanup
        · exact .inl hl
        · exact .inr ⟨hself.leaves j hj, hl⟩
  | .goto .. | .conditionalGoto .. | .break .. | .continue .. =>
    .plain fun V h => h _ List.mem_cons_self
  | .label .. | .dispatch .. | .absent | .sequencePoint .. | .noOp .. | .localDeclaration ..
  | .expression .. | .return .. | .yieldReturn .. | .yieldBreak .. | .throw .. | .foreign .. =>
    .plain fun _ _ => trivial

theorem heeding_stmts : ∀ ss : List Stmt, Heeding (looseStmts ss) (landingsStmts ss) (leapsStmts ss)
    (fun V => HeedsAll V ss) (regionsStmts · ss)
  | [] => .plain fun _ _ => trivial
  | s :: rest => (heeding_stmt s).append (heeding_stmts rest)

/-- If the tries of a block are disciplined and sealed, its jumps heed them. -/
theorem heeding_block : ∀ b : Block, Heeding (looseBlock b) (landingsBlock b) (leapsBlock b)
    (fun V => HeedsBlock V b) (regionsBlock · b)
  | .absent => .plain fun _ _ => trivial
  | .mk _ _ ss => heeding_stmts ss

theorem heeding_catches : ∀ (cs : List Catch) (A : List Leap) (V : Option Label → Prop),
    (∀ r ∈ regionsCatches A cs, r.Sealed ∧ r.Disciplined) → Secluded A cs →
    (∀ j ∈ leapsCatches cs, V j.target ∨ j.target ∈ landingsCatches cs) → HeedsCatches V cs
  | [], _, _, _, _, _ => trivial
  | .mk _ _ body :: rest, A, V, hall, ⟨hout, hrest⟩, hleaps => by
    rw [regionsCatches, forall_mem_append] at hall
    simp only [leapsCatches, landingsCatches, List.mem_append] at hleaps
    refine ⟨(heeding_block body).heeds _ _ hall.1 fun j hj => ?_,
      heeding_catches rest _ V hall.2 hrest fun j hj => ?_⟩
    · have hj' := hleaps j (.inl hj)
      have hnot := hrest.apart j (List.mem_append_right _ hj)
      grind
    · have hj' := hleaps j (.inr hj)
      have hnot := hout j (List.mem_append_right _ hj)
      grind

end

/-! ## Lowered parts -/

theorem looseStmts_append (a b : List Stmt) : looseStmts (a ++ b) = looseStmts a ++ looseStmts b := by
  induction a with
  | nil => rfl
  | cons s rest ih => simp only [List.cons_append, looseStmts, ih, List.append_assoc]

theorem heedsAll_append (V : Option Label → Prop) (a b : List Stmt) :
    HeedsAll V (a ++ b) ↔ HeedsAll V a ∧ HeedsAll V b := by
  induction a with
  | nil => simp [HeedsAll]
  | cons s rest ih => simp only [List.cons_append, HeedsAll, ih, and_assoc]

theorem loose_splitTry {body cleanup : Block} {catches : List Catch} (o : Origin)
    (hframed : framed body cleanup = false)
    (hcatches : cleanup ≠ .absent → .yieldReturn ∉ exitsCatches catches) :
    looseStmt (splitTry o body catches cleanup) = looseBlock body := by
  unfold splitTry
  split
  · simp only [looseStmt, framed_split _ _ hframed hcatches]
    simp [Made.block, looseBlock, looseStmts, looseStmt, framed_absent]
  · simp [looseStmt, hframed]

theorem heeds_splitTry {V : Option Label → Prop} {body cleanup : Block} {catches : List Catch}
    (o : Origin) (hframed : framed body cleanup = false)
    (hcatches : cleanup ≠ .absent → .yieldReturn ∉ exitsCatches catches)
    (h : Heeds V (.try o body catches cleanup)) : Heeds V (splitTry o body catches cleanup) := by
  obtain ⟨hbody, hhandlers, hcleanup, hends⟩ := h
  rw [if_neg (by simp [hframed])] at hbody
  unfold splitTry
  split
  · simp only [Heeds, framed_split _ _ hframed hcatches]
    simp [Made.block, HeedsBlock, HeedsAll, Heeds, HeedsCatches, framed_absent,
      exitsBlock, hbody, hhandlers, hcleanup, hends]
  · exact ⟨by rwa [if_neg (by simp [hframed])], hhandlers, hcleanup, hends⟩

/-- Lowered statements in the place of a part of a tree: its loose labels are loose, and they heed
their tries if the part does and the loose labels are visible. -/
structure Heedful (loose : List (Option Label)) (heeds : (Option Label → Prop) → Prop)
    (ts : List Stmt) : Prop where
  loose : ∀ l ∈ loose, l ∈ looseStmts ts
  heeds : ∀ V, heeds V → (∀ l ∈ looseStmts ts, V l) → HeedsAll V ts

namespace Heedful

variable {loose loose' : List (Option Label)} {heeds heeds' : (Option Label → Prop) → Prop}
  {ts ts' : List Stmt}

theorem nil : Heedful [] heeds [] := ⟨fun _ hl => hl, fun _ _ _ => trivial⟩

theorem append (h : Heedful loose heeds ts) (h' : Heedful loose' heeds' ts') :
    Heedful (loose ++ loose') (fun V => heeds V ∧ heeds' V) (ts ++ ts') where
  loose l hl := by
    rw [looseStmts_append, List.mem_append]
    exact (List.mem_append.mp hl).imp (h.loose l) (h'.loose l)
  heeds V hheeds hloose := by
    rw [looseStmts_append, forall_mem_append] at hloose
    rw [heedsAll_append]
    exact ⟨h.heeds V hheeds.1 hloose.1, h'.heeds V hheeds.2 hloose.2⟩

/-- A statement that keeps its label and its jump. -/
theorem leaf {s : Stmt} (hloose : looseStmt s = loose) (hheeds : ∀ V, heeds V → Heeds V s) :
    Heedful loose heeds [s] where
  loose l hl := by simpa [looseStmts, hloose] using hl
  heeds V h _ := ⟨hheeds V h, trivial⟩

/-- Statements that are put into one with the same labels and jumps. -/
theorem into (h : Heedful loose heeds ts) {s : Stmt} (hloose : looseStmt s = looseStmts ts)
    (hheeds : ∀ V, HeedsAll V ts → Heeds V s) : Heedful loose heeds [s] where
  loose l hl := by simpa [looseStmts, hloose] using h.loose l hl
  heeds V hV hvisible := by
    refine ⟨hheeds V (h.heeds V hV ?_), trivial⟩
    simpa [looseStmts, hloose] using hvisible

/-- The markers of a block. -/
theorem marked (h : Heedful loose heeds ts) (p : Provenance) :
    Heedful loose heeds (markBlock p ts) := by
  have hmarker : ∀ place, Heedful [] (fun _ => True) [Made.sequencePoint p place] := fun _ =>
    .leaf rfl fun _ _ => trivial
  have hopened := (hmarker p.openBrace).append h
  have hclosed := hopened.append (hmarker p.closeBrace)
  unfold markBlock
  split
  · simpa using hopened
  · simpa using hclosed

/-- Statements with labels between them, and jumps to these. -/
theorem joined (h : Heedful loose heeds ts) (o : Origin) (made : List (Option Label))
    (us : List Stmt) (hloose : ∀ l, l ∈ looseStmts us ↔ l ∈ looseStmts ts ∨ l ∈ made)
    (hheeds : ∀ V, HeedsAll V ts → (∀ l ∈ made, V l) → HeedsAll V us)
    (hfewer : ∀ l ∈ loose', l ∈ loose ∨ l ∈ made) : Heedful loose' heeds [.list o us] := by
  have hus : Heedful loose' heeds us := by
    refine ⟨fun l hl => (hloose l).mpr ((hfewer l hl).imp_left (h.loose l)), fun V hV hvisible => ?_⟩
    exact hheeds V (h.heeds V hV fun l hl => hvisible l ((hloose l).mpr (.inl hl)))
      fun l hl => hvisible l ((hloose l).mpr (.inr hl))
  exact hus.into rfl fun _ hall => hall

theorem branch {t : Option Stmt} (h : Heedful loose heeds t.toList) (o : Origin) (x : Expr)
    (done : Label) : Heedful loose heeds [Lowering.branch o x t done] := by
  refine h.joined o [some done] _ (fun l => ?_) (fun V hV hmade => ?_) fun l hl => .inl hl
  · simp [looseStmts, looseStmts_append, looseStmt, Made.gotoUnless, Made.label]
  · simpa [HeedsAll, heedsAll_append, Heeds, Made.gotoUnless, Made.label, hV] using hmade

theorem branches {t f : Option Stmt} (h : Heedful loose heeds t.toList)
    (h' : Heedful loose' heeds' f.toList) (o : Origin) (x : Expr) (otherwise done : Label) :
    Heedful (loose ++ loose') (fun V => heeds V ∧ heeds' V)
      [Lowering.branches o x t f otherwise done] := by
  refine (h.append h').joined o [some otherwise, some done] _ (fun l => ?_) (fun V hV hmade => ?_)
    fun l hl => .inl hl
  · simp only [looseStmts, looseStmts_append, looseStmt, Made.gotoUnless, Made.label, Made.goto,
      List.mem_append, List.mem_cons, List.not_mem_nil]
    grind
  · rw [heedsAll_append] at hV
    simpa [HeedsAll, heedsAll_append, Heeds, Made.gotoUnless, Made.label, Made.goto, hV] using hmade

theorem looped {body : Option Stmt} (h : Heedful loose heeds body.toList) (o : Origin) (x : Expr)
    (exit again : Label) : Heedful (some again :: loose ++ [some exit]) heeds
      [Lowering.loop o x body exit again] := by
  refine h.joined o [some again, some exit] _ (fun l => ?_) (fun V hV hmade => ?_) fun l hl => ?_
  · simp only [looseStmts, looseStmts_append, looseStmt, Made.gotoUnless, Made.label, Made.goto,
      List.mem_append, List.mem_cons, List.not_mem_nil, List.cons_append]
    grind
  · simpa [HeedsAll, heedsAll_append, Heeds, Made.gotoUnless, Made.label, Made.goto, hV,
      and_comm] using hmade
  · simp only [List.mem_append, List.mem_cons] at hl ⊢
    grind

/-- The part is a block. -/
theorem heedsBlock {b : Block} (h : Heedful loose heeds [.block b]) {V : Option Label → Prop}
    (hV : heeds V) (hvisible : ∀ l ∈ looseBlock b, V l) : HeedsBlock V b :=
  (h.heeds V hV (by simpa [looseStmts, looseStmt] using hvisible)).1

/-- The block sees its own loose labels. -/
theorem own {b b' : Block} (h : Heedful (looseBlock b) (HeedsBlock · b) [.block b'])
    {V : Option Label → Prop} (hV : HeedsBlock (fun l => V l ∨ l ∈ looseBlock b) b) :
    HeedsBlock (fun l => V l ∨ l ∈ looseBlock b') b' := by
  refine h.heedsBlock (hV.mono fun l hl => hl.imp_right fun hl => ?_) fun l hl => .inr hl
  simpa [looseStmts, looseStmt] using h.loose l hl

end Heedful

mutual

theorem heedful_stmt {markers : Bool} : ∀ {s : Stmt} {s' : Option Stmt}, Guarded s →
    WalkedStmt markers s s' → Heedful (looseStmt s) (fun V => Heeds V s) s'.toList
  | .block b, _, hg, ⟨b', hb, rfl⟩ => heedful_block (b := b) hg hb
  | .list o ss, _, hg, ⟨ss', hss, rfl⟩ => (@heedful_stmts markers ss _ hg hss).into rfl fun _ h => h
  | .noOp o, _, _, rfl => by
    unfold emptyBlock
    split
    · exact Heedful.nil.into rfl fun _ h => h
    · exact (Heedful.leaf (s := Made.sequencePoint o.provenance o.span) rfl fun _ _ => trivial).into
        rfl fun _ h => h
  | .localDeclaration .., _, _, .inl ⟨_, rfl⟩ => .nil
  | .localDeclaration .., _, _, .inr ⟨_, rfl⟩ | .sequencePoint .., _, _, rfl | .yieldBreak _, _, _, rfl
  | .label .., _, _, rfl | .expression .., _, _, ⟨_, rfl⟩ | .return .., _, _, ⟨_, rfl⟩
  | .throw .., _, _, ⟨_, rfl⟩ | .yieldReturn .., _, _, ⟨_, rfl⟩ | .dispatch .., _, _, ⟨_, rfl⟩ =>
    .leaf rfl fun _ _ => trivial
  | .break .., _, _, rfl | .continue .., _, _, rfl | .goto .., _, _, rfl
  | .conditionalGoto .., _, _, ⟨_, rfl⟩ => .leaf rfl fun _ h => h
  | .if o x t f, _, hg, ⟨_, t', done, ht, .inl ⟨hf, rfl⟩⟩ => by
    subst hf
    simpa [looseStmt, Heeds] using (heedful_stmt hg.1 ht).branch o x done
  | .if o x t f, _, hg, ⟨_, t', done, ht, .inr ⟨f', otherwise, hf, rfl⟩⟩ =>
    (heedful_stmt hg.1 ht).branches (heedful_stmt hg.2 hf) o x otherwise done
  | .while o x body exit again, _, hg, ⟨_, body', _, _, hbody, hexit, hagain, rfl⟩ => by
    subst hexit hagain
    exact (heedful_stmt (s := body) hg hbody).looped o x _ _
  | .try o body catches cleanup, _, ⟨⟨hhandlers, _, hguard⟩, hg⟩,
      ⟨body', catches', cleanup', hbody, hcatches, hcleanup, rfl⟩ => by
    have hone := heedful_block hg.1 hbody
    have htwo := @heedful_catches markers catches catches' hg.2.1 hcatches
    have hexits := walkedBlock_exits hbody
    have habsent : cleanup' = .absent ↔ cleanup = .absent := by
      rcases hcleanup with ⟨rfl, rfl⟩ | hcleanup
      · exact .rfl
      · refine iff_of_false hcleanup.present ?_
        rintro rfl
        exact hcleanup
    have hframed := framed_congr hexits habsent
    -- The finally sees its own labels only.
    have hlast : HeedsBlock (· ∈ looseBlock cleanup) cleanup ∧ .yieldBreak ∉ exitsBlock cleanup →
        HeedsBlock (· ∈ looseBlock cleanup') cleanup' ∧ .yieldBreak ∉ exitsBlock cleanup' := by
      rintro ⟨h, hends⟩
      rcases hcleanup with ⟨rfl, rfl⟩ | hcleanup
      · exact ⟨h, hends⟩
      · rw [walkedBlock_exits hcleanup]
        have hown := (heedful_block hg.2.2 hcleanup).own (V := fun _ => False) (by simpa using h)
        exact ⟨by simpa using hown, hends⟩
    cases hextracted : framed body cleanup with
    | true =>
      rw [hextracted] at hframed
      obtain rfl : catches = [] :=
        Classical.byContradiction fun hne => hguard hne (framed_iff.mp hextracted).2
      obtain rfl : catches' = [] := hcatches
      refine ⟨by simp [looseStmt, hextracted], fun V hV _ => ⟨?_, trivial⟩⟩
      simp only [Heeds, hextracted, if_true] at hV
      rw [show splitTry o body' [] cleanup' = .try o body' [] cleanup' from rfl, Heeds, if_pos hframed]
      exact ⟨hone.own hV.1, trivial, hlast hV.2.2⟩
    | false =>
      rw [hextracted] at hframed
      have hquiet : cleanup' ≠ .absent → .yieldReturn ∉ exitsCatches catches' := fun _ => by
        rwa [walkedCatches_exits hcatches]
      have hloose := loose_splitTry o hframed hquiet
      refine ⟨fun l hl => ?_, fun V hV hvisible => ⟨?_, trivial⟩⟩
      · rw [looseStmt, hextracted] at hl
        simpa [looseStmts, hloose, looseStmt] using hone.loose l hl
      · simp only [Heeds, hextracted, Bool.false_eq_true, if_false] at hV
        refine heeds_splitTry o hframed hquiet ⟨?_, htwo V hV.2.1, hlast hV.2.2⟩
        rw [if_neg (by simp [hframed])]
        exact hone.heedsBlock hV.1 (by simpa [looseStmts, hloose] using hvisible)
  | .absent, _, _, h | .foreign .., _, _, h => h.elim

theorem heedful_stmts {markers : Bool} : ∀ {ss ss' : List Stmt}, GuardedAll ss →
    WalkedStmts markers ss ss' → Heedful (looseStmts ss) (fun V => HeedsAll V ss) ss'
  | [], _, _, rfl => .nil
  | _ :: _, _, hg, ⟨_, _, hs, hrest, rfl⟩ => (heedful_stmt hg.1 hs).append (heedful_stmts hg.2 hrest)

/-- Lowering keeps what is loose in a block, and that its jumps heed their tries. -/
theorem heedful_block {markers : Bool} : ∀ {b b' : Block}, GuardedBlock b → WalkedBlock markers b b' →
    Heedful (looseBlock b) (fun V => HeedsBlock V b) [.block b']
  | .absent, _, _, h => h.elim
  | .mk _ _ ss, _, hg, ⟨_, hss, .inl ⟨_, rfl⟩⟩ =>
    (@heedful_stmts markers ss _ hg hss).into rfl fun _ h => h
  | .mk _ _ ss, _, hg, ⟨_, hss, .inr ⟨_, p, _, _, rfl⟩⟩ =>
    ((@heedful_stmts markers ss _ hg hss).marked p).into rfl fun _ h => h

theorem heedful_catches {markers : Bool} : ∀ {cs cs' : List Catch}, GuardedCatches cs →
    WalkedCatches markers cs cs' → ∀ V : Option Label → Prop, HeedsCatches V cs → HeedsCatches V cs'
  | [], _, _, rfl, _, _ => trivial
  | .mk .. :: _, _, hg, ⟨_, _, hbody, hrest, rfl⟩, V, ⟨h, h'⟩ =>
    ⟨(heedful_block hg.1 hbody).own h, heedful_catches hg.2 hrest V h'⟩

end

/-- If the tries of a method are disciplined and a state machine can represent it, the jumps of its
lowered body heed their tries. -/
theorem heeds_walked {m : MethodBody} (hm : BoundMethod m) (hrepresentable : Representable m.body)
    (hdisciplined : ∀ r ∈ regionsBlock [] m.body, r.Disciplined) {markers : Bool} {b : Block}
    (hwalked : WalkedBlock markers m.body b) : HeedsBlock (· ∈ looseBlock b) b := by
  obtain ⟨n, hbound⟩ := hm.bound
  have haround : Around none 0 := fun l ⟨x, hx, _⟩ => nomatch hx
  have hloops := @unlooped_block _ _ _ _ _ [] hbound haround fun j hj => nomatch hj
  have hregions : ∀ r ∈ regionsBlock [] m.body, r.Sealed ∧ r.Disciplined := fun r hr =>
    ⟨((Region.representable_iff (hloops r hr)).mp (hrepresentable.2 r hr)).2, hdisciplined r hr⟩
  have hheeds : HeedsBlock (· ∈ looseBlock m.body) m.body := by
    refine (heeding_block m.body).heeds [] _ hregions fun j hj => ?_
    by_cases hl : j.target ∈ looseBlock m.body
    · exact .inl hl
    · exact .inr ⟨hm.targets j hj, hl⟩
  have hguarded := ((representable_iff hm).mp hrepresentable).2.1
  have hown := (heedful_block hguarded hwalked).own (V := fun _ => False) (by simpa using hheeds)
  simpa using hown

end Resumable.StateMachine
