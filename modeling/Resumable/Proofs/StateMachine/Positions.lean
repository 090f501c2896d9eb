import Resumable.Proofs.Machine.FlowLaws
import Resumable.Proofs.StateMachine.Image

/-!
# Where the labels of images stand

What the table of an image says of the labels in it: those that resuming goes to are reached in the
states that they stand for, and those of a part without suspensions are the user's.  The label of a
frame stands inside the code of the frame, behind its first instruction.
-/

set_option autoImplicit false

namespace Resumable.StateMachine

open Resumable.Symbol Resumable.Tree Resumable.Source Resumable.Lowering
open Resumable.Machine hiding Region Outcome Handler

variable {σ : Type} {plan : Plan} {T : Table} {element : Int → Expr → Prop}

/-! ## Labels that resuming goes to -/

/-- The labels that resuming goes to are reached in the states of the contents. -/
structure Reached (T : Table) (c : Contents) : Prop where
  resume : ∀ s ∈ c.suspensions, T (some s.resume) (.inner [s.state])
  entry : ∀ f ∈ c.children, T (some f.entry) (.inner (f.state :: f.resumeStates))

theorem Reached.empty : Reached T {} := ⟨fun _ hs => (nomatch hs), fun _ hf => (nomatch hf)⟩

theorem Reached.append {a b : Contents} (ha : Reached T a) (hb : Reached T b) :
    Reached T (a.append b) where
  resume s hs := (List.mem_append.mp hs).elim (ha.resume s) (hb.resume s)
  entry f hf := (List.mem_append.mp hf).elim (ha.entry f) (hb.entry f)

mutual

theorem image_reached : ∀ {s : Stmt} {frame : Int} {c : Contents} {t : Stmt},
    Image plan T element frame s c t → Reached T c
  | .block b, _, _, _, ⟨_, h, _⟩ => imageBlock_reached (b := b) h
  | .list _ ss, frame, c, _, ⟨ts, h, _⟩ => @imageAll_reached ss frame c ts h
  | .yieldReturn .., _, _, _, ⟨s, rfl, _, hresume, _⟩ =>
    ⟨fun s' hs' => by rw [List.mem_singleton.mp hs']; exact hresume, fun f hf => (nomatch hf)⟩
  | .yieldBreak _, _, _, _, ⟨rfl, _⟩ | .goto .., _, _, _, ⟨rfl, _⟩
  | .conditionalGoto .., _, _, _, ⟨rfl, _⟩ | .label .., _, _, _, ⟨rfl, _⟩
  | .sequencePoint .., _, _, _, ⟨rfl, _⟩ | .expression .., _, _, _, ⟨rfl, _⟩
  | .throw .., _, _, _, ⟨rfl, _⟩ => .empty
  | .try .., _, _, _, h => by
    rw [Image] at h
    split at h
    · obtain ⟨f, start, b', ways, rfl, hentry, -⟩ := h
      exact ⟨fun s hs => (nomatch hs), fun g hg => by rw [List.mem_singleton.mp hg]; exact hentry⟩
    · obtain ⟨rfl, -⟩ := h
      exact .empty
  | .absent, _, _, _, h | .noOp .., _, _, _, h | .localDeclaration .., _, _, _, h
  | .return .., _, _, _, h | .if .., _, _, _, h | .while .., _, _, _, h | .break .., _, _, _, h
  | .continue .., _, _, _, h | .dispatch .., _, _, _, h | .foreign .., _, _, _, h => h.elim

theorem imageAll_reached : ∀ {ss : List Stmt} {frame : Int} {c : Contents} {ts : List Stmt},
    ImageAll plan T element frame ss c ts → Reached T c
  | [], _, _, _, ⟨rfl, _⟩ => .empty
  | _ :: _, _, _, _, ⟨_, _, _, _, h, h', rfl, _⟩ => (image_reached h).append (imageAll_reached h')

/-- Resuming into the image of a block goes to the right labels. -/
theorem imageBlock_reached : ∀ {b : Block} {frame : Int} {c : Contents} {b' : Block},
    ImageBlock plan T element frame b c b' → Reached T c
  | .absent, _, _, _, h => h.elim
  | .mk _ _ ss, frame, c, _, ⟨ts, h, _⟩ => @imageAll_reached ss frame c ts h

end

/-! ## Dispatches -/

theorem Frame.mem_resumeStatesAll {fs : List Frame} {s : Int} :
    s ∈ Frame.resumeStatesAll fs ↔ ∃ f ∈ fs, s ∈ f.resumeStates := by
  induction fs with
  | nil => simp [Frame.resumeStatesAll]
  | cons f rest ih => simp [Frame.resumeStatesAll, ih]

/-- The dispatch has a case for each suspension inside. -/
theorem exists_resumeCase {c : Contents} {s : Int} (hs : s ∈ c.resumeStates) :
    ∃ x ∈ c.resumeCases, x.value = s := by
  rw [Contents.resumeStates, List.mem_append, Frame.mem_resumeStatesAll] at hs
  simp only [Contents.resumeCases, List.mem_append, List.mem_map, List.mem_flatMap]
  rcases hs with hs | ⟨f, hf, hs⟩
  · obtain ⟨x, hx, rfl⟩ := List.mem_map.mp hs
    exact ⟨⟨x.state, some x.resume⟩, .inl ⟨x, hx, rfl⟩, rfl⟩
  · exact ⟨⟨s, some f.entry⟩, .inr ⟨f, hf, s, hs, rfl⟩, rfl⟩

/-- A case of the dispatch goes to a label that is reached in its state. -/
theorem Reached.resumeCase {c : Contents} (h : Reached T c) {x : DispatchCase}
    (hx : x ∈ c.resumeCases) : ∃ states, T x.label (.inner states) ∧ x.value ∈ states := by
  simp only [Contents.resumeCases, List.mem_append, List.mem_map, List.mem_flatMap] at hx
  rcases hx with ⟨s, hs, rfl⟩ | ⟨f, hf, s, hs, rfl⟩
  · exact ⟨_, h.resume s hs, List.mem_singleton_self _⟩
  · exact ⟨_, h.entry f hf, List.mem_cons_of_mem _ hs⟩

/-- A dispatch takes a case for the number, or none is there. -/
theorem caseLabel_cases (cases : List DispatchCase) (otherwise : Option Label) (n : Int) :
    (∃ x ∈ cases, x.value = n ∧ Setting.caseLabel cases otherwise n = x.label) ∨
      (∀ x ∈ cases, x.value ≠ n) ∧ Setting.caseLabel cases otherwise n = otherwise := by
  unfold Setting.caseLabel
  induction cases with
  | nil => exact .inr ⟨fun x hx => (nomatch hx), rfl⟩
  | cons x rest ih =>
    by_cases hx : x.value = n
    · refine .inl ⟨x, List.mem_cons_self, hx, ?_⟩
      rw [List.map_cons, List.lookup_cons, hx]
      simp
    · rw [List.map_cons, List.lookup_cons, beq_eq_false_iff_ne.mpr (Ne.symm hx)]
      rcases ih with ⟨y, hy, hvalue, hlabel⟩ | ⟨hnone, hlabel⟩
      · exact .inl ⟨y, List.mem_cons_of_mem _ hy, hvalue, hlabel⟩
      · exact .inr ⟨List.forall_mem_cons.mpr ⟨hx, hnone⟩, hlabel⟩

/-- Where the dispatch of a frame goes in a state that the frame is entered in. -/
theorem Reached.caseLabel {c : Contents} (h : Reached T c) {start : Option Label} {st s : Int}
    (hstart : T start (.inner [st])) (hs : s ∈ st :: c.resumeStates) :
    ∃ states, T (Setting.caseLabel c.resumeCases start s) (.inner states) ∧ s ∈ states := by
  rcases caseLabel_cases c.resumeCases start s with ⟨x, hx, rfl, hlabel⟩ | ⟨hnone, hlabel⟩
  · rw [hlabel]
    exact h.resumeCase hx
  · rw [hlabel]
    rcases List.mem_cons.mp hs with rfl | hs
    · exact ⟨_, hstart, List.mem_singleton_self _⟩
    · obtain ⟨x, hx, rfl⟩ := exists_resumeCase hs
      exact absurd rfl (hnone x hx)

/-! ## Labels of the user -/

theorem Contents.append_eq_empty {a b : Contents} (h : ({} : Contents) = a.append b) :
    a = {} ∧ b = {} := by
  obtain ⟨ss, fs⟩ := a
  obtain ⟨ss', fs'⟩ := b
  obtain ⟨hss, hfs⟩ := Contents.mk.inj h
  obtain ⟨rfl, rfl⟩ := List.append_eq_nil_iff.mp hss.symm
  obtain ⟨rfl, rfl⟩ := List.append_eq_nil_iff.mp hfs.symm
  exact ⟨rfl, rfl⟩

mutual

theorem image_labels : ∀ {s : Stmt} {frame : Int} {t : Stmt}, Image plan T element frame s {} t →
    ∀ l ∈ labelsStmt t, l ∈ landingsStmt s ∧ T l (.leading frame l)
  | .block b, _, _, ⟨_, h, rfl⟩ => imageBlock_labels (b := b) h
  | .list _ ss, frame, _, ⟨ts, h, rfl⟩ => @imageAll_labels ss frame ts h
  | .label .., _, _, ⟨_, hl, rfl⟩ => fun l hmem => by
    rw [List.mem_singleton.mp hmem]
    exact ⟨List.mem_singleton_self _, hl⟩
  | .yieldReturn .., _, _, ⟨_, hc, _⟩ => by cases hc
  | .yieldBreak _, _, _, ⟨_, _, _, rfl⟩ | .goto .., _, _, ⟨_, _, _, rfl⟩
  | .conditionalGoto .., _, _, ⟨_, _, _, rfl⟩ | .sequencePoint .., _, _, ⟨_, rfl⟩
  | .expression .., _, _, ⟨_, rfl⟩ | .throw .., _, _, ⟨_, rfl⟩ => fun l hl => nomatch hl
  | .try _ body catches cleanup, _, _, h => by
    rw [Image] at h
    split at h
    · obtain ⟨f, start, b', ways, hc, -⟩ := h
      cases hc
    · obtain ⟨-, body', catches', cleanup', hbody, hcatches, hcleanup, rfl⟩ := h
      intro l hl
      rw [landingsStmt, List.mem_append, List.mem_append]
      rw [labelsStmt, List.mem_append, List.mem_append] at hl
      rcases hl with (hl | hl) | hl
      · exact (imageBlock_labels hbody l hl).imp_left fun h => .inl (.inl h)
      · exact (imageCatches_labels hcatches l hl).imp_left fun h => .inl (.inr h)
      · rcases hcleanup with ⟨-, rfl⟩ | hcleanup
        · cases hl
        · exact (imageBlock_labels hcleanup l hl).imp_left .inr
  | .absent, _, _, h | .noOp .., _, _, h | .localDeclaration .., _, _, h | .return .., _, _, h
  | .if .., _, _, h | .while .., _, _, h | .break .., _, _, h | .continue .., _, _, h
  | .dispatch .., _, _, h | .foreign .., _, _, h => h.elim
termination_by structural s => s

theorem imageAll_labels : ∀ {ss : List Stmt} {frame : Int} {ts : List Stmt},
    ImageAll plan T element frame ss {} ts →
    ∀ l ∈ labelsStmts ts, l ∈ landingsStmts ss ∧ T l (.leading frame l)
  | [], _, _, ⟨_, rfl⟩ => fun l hl => nomatch hl
  | _ :: _, _, _, ⟨_, _, _, _, h, h', hc, rfl⟩ => by
    obtain ⟨rfl, rfl⟩ := Contents.append_eq_empty hc
    intro l hl
    rw [landingsStmts, List.mem_append]
    rcases List.mem_append.mp hl with hl | hl
    · exact (image_labels h l hl).imp_left .inl
    · exact (imageAll_labels h' l hl).imp_left .inr
termination_by structural ss => ss

/-- The labels of a part without suspensions are those of the user. -/
theorem imageBlock_labels : ∀ {b : Block} {frame : Int} {b' : Block},
    ImageBlock plan T element frame b {} b' →
    ∀ l ∈ labelsBlock b', l ∈ landingsBlock b ∧ T l (.leading frame l)
  | .absent, _, _, h => h.elim
  | .mk _ _ ss, frame, _, ⟨ts, h, rfl⟩ => @imageAll_labels ss frame ts h
termination_by structural b => b

theorem imageCatches_labels : ∀ {cs : List Catch} {frame : Int} {ds : List Catch},
    ImageCatches plan T element frame cs {} ds →
    ∀ l ∈ labelsCatches ds, l ∈ landingsCatches cs ∧ T l (.leading frame l)
  | [], _, _, ⟨_, rfl⟩ => fun l hl => nomatch hl
  | .mk .. :: _, _, _, ⟨_, _, _, _, h, h', hc, rfl⟩ => by
    obtain ⟨rfl, rfl⟩ := Contents.append_eq_empty hc
    intro l hl
    rw [landingsCatches, List.mem_append]
    rcases List.mem_append.mp hl with hl | hl
    · exact (imageBlock_labels h l hl).imp_left .inl
    · exact (imageCatches_labels h' l hl).imp_left .inr
termination_by structural cs => cs

end

/-! ## Labels of frames -/

/-- The labels have their positions. -/
def Labelled (S : Setting σ) (labels : List (Option Label × Nat)) : Prop :=
  ∀ x ∈ labels, S.label x.1 = x.2

theorem Labelled.append {S : Setting σ} {a b : List (Option Label × Nat)} :
    Labelled S (a ++ b) ↔ Labelled S a ∧ Labelled S b := by
  simp only [Labelled, List.mem_append, or_imp, forall_and]

theorem sizeStmts_append (a b : List Stmt) : sizeStmts (a ++ b) = sizeStmts a + sizeStmts b := by
  induction a with
  | nil => simp [sizeStmts]
  | cons s rest ih => simp only [List.cons_append, sizeStmts, ih, Nat.add_assoc]

theorem Block.sizeBlock_statements (b : Block) : sizeStmts b.statements = sizeBlock b := by
  cases b <;> rfl

theorem Block.labels_statements (pc : Nat) (b : Block) :
    (flattenStmts pc b.statements).labels = (flattenBlock pc b).labels := by
  cases b <;> rfl

/-- The code of a frame: its size, and the labels that stand in it before the ways out. -/
theorem sizeStmt_region (plan : Plan) (o body : Origin) (f : Frame) (start : Label)
    (b' : Block) (ways : List Stmt) :
    sizeStmt (region plan o body f start b'.statements ways) =
      sizeBlock b' + 3 + sizeStmts ways := by
  simp only [region, sizeStmt, List.cons_append, List.nil_append, sizeStmts, sizeBlock,
    Plan.setState, assignState, Made.assign, Made.label, callCleanup, Made.callThis,
    Block.sizeBlock_statements]
  omega

theorem labelled_region {S : Setting σ} {pc : Nat} {plan : Plan} {o body : Origin} {f : Frame}
    {start : Label} {b' : Block} {ways : List Stmt}
    (h : Labelled S (flattenStmt pc (region plan o body f start b'.statements ways)).labels) :
    S.label (some f.entry) = pc + 1 ∧ Labelled S (flattenBlock (pc + 2) b').labels ∧
      Labelled S (flattenStmts (pc + (sizeBlock b' + 3)) ways).labels := by
  have hlabels : (flattenStmt pc (region plan o body f start b'.statements ways)).labels =
      (some f.entry, pc + 1) :: (some start, pc + 2) :: ((flattenBlock (pc + 2) b').labels ++
        (flattenStmts (pc + (sizeBlock b' + 3)) ways).labels) := by
    rw [← Block.labels_statements, ← Block.sizeBlock_statements,
      show pc + (sizeStmts b'.statements + 3) = pc + 1 + (1 + sizeStmts b'.statements) + 1 by omega]
    simp [region, flattenStmt, flattenStmts, flattenBlock, Plan.setState, assignState,
      Made.assign, Made.label, callCleanup, Made.callThis, sizeStmt, sizeBlock, sizeStmts]
  rw [hlabels] at h
  obtain ⟨hbody, hways⟩ := Labelled.append.mp fun x hx =>
    h x (List.mem_cons_of_mem _ (List.mem_cons_of_mem _ hx))
  exact ⟨h _ List.mem_cons_self, hbody, hways⟩

mutual

theorem image_entries {S : Setting σ} : ∀ {s : Stmt} {frame : Int} {c : Contents} {t : Stmt},
    Image plan T element frame s c t → ∀ pc, Labelled S (flattenStmt pc t).labels →
    ∀ f ∈ Frame.preorderAll c.children,
      pc < S.label (some f.entry) ∧ S.label (some f.entry) ≤ pc + sizeStmt t
  | .block b, _, _, _, ⟨_, h, rfl⟩ => imageBlock_entries (b := b) h
  | .list _ ss, frame, c, _, ⟨ts, h, rfl⟩ => @imageAll_entries S ss frame c ts h
  | .yieldReturn .., _, _, _, ⟨_, rfl, _⟩ | .yieldBreak _, _, _, _, ⟨rfl, _⟩
  | .goto .., _, _, _, ⟨rfl, _⟩ | .conditionalGoto .., _, _, _, ⟨rfl, _⟩
  | .label .., _, _, _, ⟨rfl, _⟩ | .sequencePoint .., _, _, _, ⟨rfl, _⟩
  | .expression .., _, _, _, ⟨rfl, _⟩ | .throw .., _, _, _, ⟨rfl, _⟩ =>
    fun _ _ f hf => nomatch hf
  | .try .., _, _, _, h => by
    rw [Image] at h
    split at h
    · obtain ⟨f, start, b', ways, rfl, -, -, himage, -, rfl⟩ := h
      intro pc hlabelled g hg
      rw [sizeStmt_region]
      obtain ⟨hentry, hbody, -⟩ := labelled_region hlabelled
      rw [Frame.preorderAll, Frame.preorderAll, List.append_nil, Frame.preorder_eq,
        List.mem_cons] at hg
      rcases hg with rfl | hg
      · omega
      · have hinner := imageBlock_entries himage (pc + 2) hbody g hg
        omega
    · obtain ⟨rfl, -⟩ := h
      exact fun _ _ f hf => nomatch hf
  | .absent, _, _, _, h | .noOp .., _, _, _, h | .localDeclaration .., _, _, _, h
  | .return .., _, _, _, h | .if .., _, _, _, h | .while .., _, _, _, h | .break .., _, _, _, h
  | .continue .., _, _, _, h | .dispatch .., _, _, _, h | .foreign .., _, _, _, h => h.elim

theorem imageAll_entries {S : Setting σ} : ∀ {ss : List Stmt} {frame : Int} {c : Contents}
    {ts : List Stmt}, ImageAll plan T element frame ss c ts →
    ∀ pc, Labelled S (flattenStmts pc ts).labels → ∀ f ∈ Frame.preorderAll c.children,
      pc < S.label (some f.entry) ∧ S.label (some f.entry) ≤ pc + sizeStmts ts
  | [], _, _, _, ⟨rfl, _⟩ => fun _ _ f hf => nomatch hf
  | _ :: _, _, _, _, ⟨_, _, t, ts, h, h', rfl, rfl⟩ => by
    intro pc hlabelled f hf
    obtain ⟨hfirst, hrest⟩ := Labelled.append.mp hlabelled
    rw [Contents.append, Frame.preorderAll_append, List.mem_append] at hf
    rw [sizeStmts]
    rcases hf with hf | hf
    · have := image_entries h pc hfirst f hf
      omega
    · have := imageAll_entries h' (pc + sizeStmt t) hrest f hf
      omega

/-- The labels of the frames in the image of a block stand in it. -/
theorem imageBlock_entries {S : Setting σ} : ∀ {b : Block} {frame : Int} {c : Contents}
    {b' : Block}, ImageBlock plan T element frame b c b' →
    ∀ pc, Labelled S (flattenBlock pc b').labels → ∀ f ∈ Frame.preorderAll c.children,
      pc < S.label (some f.entry) ∧ S.label (some f.entry) ≤ pc + sizeBlock b'
  | .absent, _, _, _, h => h.elim
  | .mk _ _ ss, frame, c, _, ⟨ts, h, rfl⟩ => @imageAll_entries S ss frame c ts h

end

end Resumable.StateMachine
