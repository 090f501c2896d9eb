import Resumable.Proofs.Lowering.Follows
import Resumable.Proofs.Tree.Unmarked

/-!
# Executions without markers

A tree does the same with its markers and without them (`echoes_block`), as far as nothing is thrown
again, no jump leaves a finally, and no jump from inside a try goes to a label that only markers
separate from the try (`unmarkableBlock`).  Such a label has the position of the try without the
markers, so that the jump does not leave the try, and another one with them.
-/

set_option autoImplicit false

namespace Resumable.Lowering

open Resumable.Symbol Resumable.Tree Resumable.Machine

variable {σ : Type}

/-! ## Trees to which markers do not matter -/

mutual

/-- Markers do not matter to the statement.  The labels in `near` stand directly before it, those in
`far` if markers do not count. -/
def unmarkableStmt (near far : List (Option Label)) : Stmt → Bool
  | .block b => unmarkableBlock near far b
  | .list _ ss => unmarkableStmts near far ss
  | .try _ body catches cleanup =>
    decide (∀ l ∈ targetsBlock body, l ∈ labelsBlock body ∨ (l ∈ near ↔ l ∈ far)) &&
      decide (∀ l ∈ targetsBlock cleanup, l ∈ labelsBlock cleanup) &&
      unmarkableBlock near far body && unmarkableCatches catches && unmarkableBlock [] [] cleanup
  | _ => true

/-- Nor do they to the statements. -/
def unmarkableStmts (near far : List (Option Label)) : List Stmt → Bool
  | [] => true
  | s :: rest => unmarkableStmt near far s &&
    unmarkableStmts (follow near s) (followAll far (unmarkStmt s)) rest

/-- Nor to the block. -/
def unmarkableBlock (near far : List (Option Label)) : Block → Bool
  | .absent => true
  | .mk _ _ ss => unmarkableStmts near far ss

/-- Nor to the handlers. -/
def unmarkableCatches : List Catch → Bool
  | [] => true
  | .mk _ _ body :: rest => unmarkableBlock [] [] body && unmarkableCatches rest

end

/-! ## Labels -/

mutual

theorem labelsStmts_unmark_stmt : ∀ s : Stmt, labelsStmts (unmarkStmt s) = labelsStmt s
  | .block b => by
    simp only [unmarkStmt, labelsStmts, labelsStmt, labelsBlock_unmark b, List.append_nil]
  | .list _ ss => by
    simp only [unmarkStmt, labelsStmts, labelsStmt, labelsStmts_unmark ss, List.append_nil]
  | .try _ body catches cleanup => by
    simp only [unmarkStmt, labelsStmts, labelsStmt, labelsBlock_unmark body,
      labelsCatches_unmark catches, labelsBlock_unmark cleanup, List.append_nil]
  | .sequencePoint .. => rfl
  | .absent | .noOp .. | .localDeclaration .. | .expression .. | .return .. | .yieldReturn ..
  | .yieldBreak .. | .throw .. | .if .. | .while .. | .break .. | .continue .. | .label ..
  | .goto .. | .conditionalGoto .. | .dispatch .. | .foreign .. => List.append_nil _

theorem labelsStmts_unmark : ∀ ss : List Stmt, labelsStmts (unmarkStmts ss) = labelsStmts ss
  | [] => rfl
  | s :: rest => by
    rw [unmarkStmts, labelsStmts_append, labelsStmts_unmark_stmt s, labelsStmts_unmark rest,
      labelsStmts]

/-- The labels of a block are there without its markers. -/
theorem labelsBlock_unmark : ∀ b : Block, labelsBlock (unmarkBlock b) = labelsBlock b
  | .absent => rfl
  | .mk _ _ ss => labelsStmts_unmark ss

theorem labelsCatches_unmark : ∀ cs : List Catch,
    labelsCatches (unmarkCatches cs) = labelsCatches cs
  | [] => rfl
  | .mk _ _ body :: rest => by
    rw [unmarkCatches, labelsCatches, labelsBlock_unmark body, labelsCatches_unmark rest,
      labelsCatches]

end

theorem handlersAt_unmark (pc pc' : Nat) (cs : List Catch) :
    (handlersAt pc cs).map Handler.target =
      (handlersAt pc' (unmarkCatches cs)).map Handler.target := by
  induction cs generalizing pc pc' with
  | nil => rfl
  | cons c rest ih =>
    obtain ⟨o, l, body⟩ := c
    rw [unmarkCatches, handlersAt, handlersAt, List.map_cons, List.map_cons]
    exact congrArg _ (ih _ _)

/-- Statements in a row that are entered in the first ones. -/
theorem pass_append_enters {S : Setting σ} {scope : Range} {pc : Nat}
    {near : List (Option Label)} {a : List Stmt} (b : List Stmt) {e : Entry}
    (he : e.enters (labelsStmts a) = true) :
    S.pass scope pc near (a ++ b) e = (S.pass scope pc near a e).onNormal
      (S.pass scope (pc + sizeStmts a) (followAll near a) b .start) := by
  cases e with
  | start => exact Setting.pass_append a b
  | seek l => exact Setting.pass_seek_append_left b (by simpa [Entry.enters] using he)

/-! ## Executions -/

section Echoes

variable {S S' : Nat → Setting σ} (hS : Serves S S') (hS' : Serves S' S)

include hS hS'

/-- Rounds of a part that is left by no other jump to a label before it with markers than without. -/
theorem echoes_rounds (scope scope' : Range) {near far own targets targets' : List (Option Label)}
    (hnear : ∀ l ∈ targets, l ∈ own ∨ (l ∈ near ↔ l ∈ far)) {part part' : Entry → Nat → Flow σ}
    (h : ∀ e, Echoes (· ∈ targets) (part e) (part' e)) (htargets : targets ⊆ targets')
    (e : Entry) : Echoes (· ∈ targets')
      (fun k => (S k).rounds scope near own (fun e => part e k) e)
      fun k => (S' k).rounds scope' far own (fun e => part' e k) e := by
  refine (Echoes.rounds hS hS' (fun l hl => ?_) scope scope' h e).mono fun l hl => htargets hl.1
  unfold Entry.staying?
  rcases hnear l hl with hown | hiff
  · rw [if_pos hown, if_pos hown]
  · simp only [hiff]

/-- Rounds of a part that no jump leaves. -/
theorem echoes_closed (scope scope' : Range) {own targets : List (Option Label)}
    {part part' : Entry → Nat → Flow σ}
    (h : ∀ e, Echoes (· ∈ targets) (part e) (part' e)) (hclosed : ∀ l ∈ targets, l ∈ own) :
    Echoes (fun _ => False)
      (fun k => (S k).rounds scope [] own (fun e => part e k) .start)
      fun k => (S' k).rounds scope' [] own (fun e => part' e k) .start :=
  (Echoes.rounds hS hS' (fun _ _ => rfl) scope scope' h .start).mono fun l hl =>
    hl.2 (hclosed l hl.1)

end Echoes

mutual

theorem echoes_stmt {S S' : Nat → Setting σ} (hS : Serves S S') (hS' : Serves S' S)
    (scope scope' : Range) : ∀ (s : Stmt) (pc pc' : Nat) (near far : List (Option Label))
    (e : Entry), rethrowsStmt s = false → unmarkableStmt near far s = true →
    e.enters (labelsStmt s) = true →
    Echoes (· ∈ targetsStmt s) (fun k => (S k).exec scope pc near s e)
      fun k => (S' k).pass scope' pc' far (unmarkStmt s) e
  | .block b, pc, pc', near, far, e, hs, hu, he => by
    have henters : e.enters (labelsStmt (.block (unmarkBlock b))) = true := by
      rwa [labelsStmt, labelsBlock_unmark]
    simp only [unmarkStmt, Setting.pass_singleton henters, Setting.exec, labelsBlock_unmark]
    exact echoes_rounds hS hS' scope scope' (fun _ _ => .inr .rfl)
      (fun e => echoes_block hS hS' scope scope' b pc pc' near far e hs hu)
      (List.Subset.refl _) e
  | .list o ss, pc, pc', near, far, e, hs, hu, he => by
    have henters : e.enters (labelsStmt (.list o (unmarkStmts ss))) = true := by
      rwa [labelsStmt, labelsStmts_unmark]
    simp only [unmarkStmt, Setting.pass_singleton henters, Setting.exec, labelsStmts_unmark]
    exact echoes_rounds hS hS' scope scope' (fun _ _ => .inr .rfl)
      (fun e => echoes_stmts hS hS' scope scope' ss pc pc' near far e hs hu)
      (List.Subset.refl _) e
  | .sequencePoint .., pc, pc', near, far, e, hs, hu, he => by
    simp only [unmarkStmt, Setting.exec, Setting.pass, noting_silent (hS.silent _)]
    exact .done .normal
  | .label .., pc, pc', near, far, e, hs, hu, he => by
    simp only [unmarkStmt, Setting.pass_singleton he, Setting.exec]
    exact .done .normal
  | .try o body catches cleanup, pc, pc', near, far, e, hs, hu, he => by
    simp only [rethrowsStmt, Bool.or_eq_false_iff] at hs
    obtain ⟨⟨hbody, hcatches⟩, hcleanup⟩ := hs
    simp only [unmarkableStmt, Bool.and_eq_true, decide_eq_true_eq] at hu
    obtain ⟨⟨⟨⟨hnear, hclosed⟩, hubody⟩, hucatches⟩, hucleanup⟩ := hu
    have inBody : targetsBlock body ⊆ targetsStmt (.try o body catches cleanup) := fun l hl => by
      simp [targetsStmt, hl]
    have inCatches : ∀ l ∈ targetsCatches catches, l ∈ targetsStmt (.try o body catches cleanup) :=
      fun l hl => by simp [targetsStmt, hl]
    have inCleanup : targetsBlock cleanup ⊆ targetsStmt (.try o body catches cleanup) :=
      fun l hl => by simp [targetsStmt, hl]
    have henters : e.enters (labelsStmt (.try o (unmarkBlock body) (unmarkCatches catches)
        (unmarkBlock cleanup))) = true := by
      rwa [labelsStmt, labelsBlock_unmark, labelsCatches_unmark, labelsBlock_unmark]
    simp only [unmarkStmt, Setting.pass_singleton henters, Setting.exec, labelsBlock_unmark,
      labelsCatches_unmark]
    split
    · refine (echoes_rounds hS hS' scope scope' hnear
        (fun e => echoes_block hS hS' scope scope' body pc pc' near far e hbody hubody)
        inBody e).andThen fun o o' ho => ?_
      have handler := (echoes_catches hS hS' scope scope' catches (behindBody pc body)
        (behindBody pc' (unmarkBlock body)) (behindTry pc body catches cleanup)
        (behindTry pc' (unmarkBlock body) (unmarkCatches catches) (unmarkBlock cleanup)) .start
        hcatches hucatches).mono inCatches
      have htargets := handlersAt_unmark (behindBody pc body) (behindBody pc' (unmarkBlock body))
        catches
      cases cleanup with
      | absent =>
        exact ⟨exitTry_follows hS scope scope' htargets handler.forth .none _ _ _ _ ho,
          exitTry_follows hS' scope' scope htargets.symm handler.back .none _ _ _ _ ho.symm⟩
      | mk o' l ss =>
        -- No jump leaves the finally, so it does not matter which positions labels have.
        have hrounds := fun range range' => echoes_closed hS hS' range range'
          (fun e => echoes_block hS hS' range range' (.mk o' l ss) (behindCatches pc body catches)
            (behindCatches pc' (unmarkBlock body) (unmarkCatches catches)) [] [] e hcleanup
            hucleanup) hclosed
        exact ⟨exitTry_follows hS scope scope' htargets handler.forth
            (.some (settle_follows hS (hrounds _ _).forth (fun _ h => h.elim) _ _)) _ _ _ _ ho,
          exitTry_follows hS' scope' scope htargets.symm handler.back
            (.some (settle_follows hS' (hrounds _ _).back (fun _ h => h.elim) _ _)) _ _ _ _ ho.symm⟩
    · split
      · exact (echoes_catches hS hS' scope scope' catches _ _ _ _ e hcatches hucatches).mono
          inCatches
      · exact (echoes_rounds hS hS' scope scope' (fun _ _ => .inr .rfl)
          (fun e => echoes_block hS hS' scope scope' cleanup _ _ [] [] e hcleanup hucleanup)
          inCleanup e).andThen fun o o' ho =>
            ⟨exitCleanup_follows hS _ _ ho, exitCleanup_follows hS' _ _ ho.symm⟩
  | .absent, pc, pc', _, _, _, hs, _, he | .noOp .., pc, pc', _, _, _, hs, _, he
  | .localDeclaration .., pc, pc', _, _, _, hs, _, he
  | .expression .., pc, pc', _, _, _, hs, _, he | .return .., pc, pc', _, _, _, hs, _, he
  | .yieldReturn .., pc, pc', _, _, _, hs, _, he | .yieldBreak .., pc, pc', _, _, _, hs, _, he
  | .throw .., pc, pc', _, _, _, hs, _, he | .if .., pc, pc', _, _, _, hs, _, he
  | .while .., pc, pc', _, _, _, hs, _, he | .break .., pc, pc', _, _, _, hs, _, he
  | .continue .., pc, pc', _, _, _, hs, _, he | .goto .., pc, pc', _, _, _, hs, _, he
  | .conditionalGoto .., pc, pc', _, _, _, hs, _, he
  | .dispatch .., pc, pc', _, _, _, hs, _, he | .foreign .., pc, pc', _, _, _, hs, _, he => by
    simp only [unmarkStmt, Setting.pass_singleton he, Setting.exec]
    exact ⟨leaf_follows hS pc pc' hs, leaf_follows hS' pc' pc hs⟩

theorem echoes_stmts {S S' : Nat → Setting σ} (hS : Serves S S') (hS' : Serves S' S)
    (scope scope' : Range) : ∀ (ss : List Stmt) (pc pc' : Nat) (near far : List (Option Label))
    (e : Entry), rethrowsStmts ss = false → unmarkableStmts near far ss = true →
    Echoes (· ∈ targetsStmts ss) (fun k => (S k).pass scope pc near ss e)
      fun k => (S' k).pass scope' pc' far (unmarkStmts ss) e
  | [], _, _, _, _, _, _, _ => by
    simp only [unmarkStmts, Setting.pass]
    exact .done .normal
  | s :: rest, pc, pc', near, far, e, hss, hu => by
    simp only [rethrowsStmts, Bool.or_eq_false_iff] at hss
    simp only [unmarkableStmts, Bool.and_eq_true] at hu
    have inRest : ∀ l ∈ targetsStmts rest, l ∈ targetsStmts (s :: rest) :=
      fun l hl => List.mem_append_right _ hl
    have hrest := fun pc pc' e =>
      (echoes_stmts hS hS' scope scope' rest pc pc' _ _ e hss.2 hu.2).mono inRest
    simp only [unmarkStmts]
    by_cases he : e.enters (labelsStmt s) = true
    · have henters : e.enters (labelsStmts (unmarkStmt s)) = true := by
        rwa [labelsStmts_unmark_stmt]
      simp only [pass_append_enters (unmarkStmts rest) henters, Setting.pass, he, if_true]
      exact ((echoes_stmt hS hS' scope scope' s pc pc' near far e hss.1 hu.1 he).mono
        fun l hl => List.mem_append_left _ hl).onNormal (hrest _ _ .start)
    · cases e with
      | start => exact absurd rfl he
      | seek l =>
        have hl : l ∉ labelsStmts (unmarkStmt s) := by
          rw [labelsStmts_unmark_stmt]
          simpa [Entry.enters] using he
        simp only [Setting.pass_seek_append (unmarkStmts rest) hl, Setting.pass, he,
          Bool.false_eq_true, if_false]
        exact hrest _ _ (.seek l)

/-- A block does the same with its markers and without them, if they do not matter to it. -/
theorem echoes_block {S S' : Nat → Setting σ} (hS : Serves S S') (hS' : Serves S' S)
    (scope scope' : Range) : ∀ (b : Block) (pc pc' : Nat) (near far : List (Option Label))
    (e : Entry), rethrowsBlock b = false → unmarkableBlock near far b = true →
    Echoes (· ∈ targetsBlock b) (fun k => (S k).passBlock scope pc near b e)
      fun k => (S' k).passBlock scope' pc' far (unmarkBlock b) e
  | .absent, _, _, _, _, _, _, _ => by
    simp only [unmarkBlock, Setting.passBlock]
    exact .done .normal
  | .mk _ _ ss, pc, pc', near, far, e, hb, hu => by
    simp only [unmarkBlock, Setting.passBlock]
    exact echoes_stmts hS hS' scope scope' ss pc pc' near far e hb hu

theorem echoes_catches {S S' : Nat → Setting σ} (hS : Serves S S') (hS' : Serves S' S)
    (scope scope' : Range) : ∀ (cs : List Catch) (pc pc' behind behind' : Nat) (e : Entry),
    rethrowsCatches cs = false → unmarkableCatches cs = true →
    Echoes (· ∈ targetsCatches cs) (fun k => (S k).execCatches scope pc behind cs e)
      fun k => (S' k).execCatches scope' pc' behind' (unmarkCatches cs) e
  | [], _, _, _, _, _, _, _ => by
    simp only [unmarkCatches, Setting.execCatches]
    exact .done .normal
  | .mk _ _ body :: rest, pc, pc', behind, behind', e, hcs, hu => by
    simp only [rethrowsCatches, Bool.or_eq_false_iff] at hcs
    simp only [unmarkableCatches, Bool.and_eq_true] at hu
    simp only [unmarkCatches, Setting.execCatches, labelsBlock_unmark]
    split
    · exact (echoes_rounds hS hS' scope scope' (fun _ _ => .inr .rfl)
        (fun e => echoes_block hS hS' scope scope' body _ _ [] [] e hcs.1 hu.1)
        (List.subset_append_left _ _) e).andThen fun o o' ho =>
          ⟨exitCatch_follows hS scope scope' _ _ behind behind' ho,
            exitCatch_follows hS' scope' scope _ _ behind' behind ho.symm⟩
    · exact (echoes_catches hS hS' scope scope' rest _ _ behind behind' e hcs.2 hu.2).mono
        fun l hl => List.mem_append_right _ hl

end

/-- A body that no jump leaves does the same with its markers and without them. -/
theorem echoes_body {S S' : Nat → Setting σ} (hS : Serves S S') (hS' : Serves S' S)
    (scope scope' : Range) {b : Block} (hrethrow : rethrowsBlock b = false)
    (hunmarkable : unmarkableBlock [] [] b = true)
    (htargets : ∀ l ∈ targetsBlock b, l ∈ labelsBlock b) : Echoes (fun _ => False)
      (fun k => (S k).rounds scope [] (labelsBlock b) ((S k).passBlock scope 0 [] b) .start)
      fun k => (S' k).rounds scope' [] (labelsBlock (unmarkBlock b))
        ((S' k).passBlock scope' 0 [] (unmarkBlock b)) .start := by
  rw [labelsBlock_unmark]
  exact echoes_closed hS hS' scope scope'
    (fun e => echoes_block hS hS' scope scope' b 0 0 [] [] e hrethrow hunmarkable) htargets

end Resumable.Lowering
