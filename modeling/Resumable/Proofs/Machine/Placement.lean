import Resumable.Proofs.Machine.Flow

/-!
# Where the parts of a body stand

Flattening gives each statement as many instructions as its size says, puts its labels between
the first of them and the place behind the last, and keeps the regions of its tries inside.
`Fits` says this of a fragment, and `Follows` which of its labels have the position behind it.
-/

set_option autoImplicit false

namespace Resumable.Machine

open Resumable.Symbol Resumable.Tree

/-! ## Fragments by themselves -/

namespace Fragment

@[simp] theorem append_instrs (a b : Fragment) : (a ++ b).instrs = a.instrs ++ b.instrs := rfl

@[simp] theorem append_labels (a b : Fragment) : (a ++ b).labels = a.labels ++ b.labels := rfl

@[simp] theorem append_regions (a b : Fragment) : (a ++ b).regions = a.regions ++ b.regions := rfl

@[simp] theorem one_instrs (i : Instr Target) : (one i).instrs = [i] := rfl

@[simp] theorem one_labels (i : Instr Target) : (one i).labels = [] := rfl

@[simp] theorem one_regions (i : Instr Target) : (one i).regions = [] := rfl

/-- A fragment that begins at `pc` has the size and the labels, and nothing of it lies outside. -/
structure Fits (f : Fragment) (pc size : Nat) (labels : List (Option Label)) : Prop where
  length : f.instrs.length = size
  labels_eq : f.labels.map Prod.fst = labels
  label_mem : ∀ x ∈ f.labels, pc ≤ x.2 ∧ x.2 ≤ pc + size
  region_mem : ∀ g ∈ f.regions, pc ≤ g.guarded.start ∧ g.guarded.stop ≤ pc + size

theorem Fits.empty (pc : Nat) : Fits {} pc 0 [] where
  length := rfl
  labels_eq := rfl
  label_mem := by simp
  region_mem := by simp

theorem Fits.one (pc : Nat) (i : Instr Target) : Fits (.one i) pc 1 [] where
  length := rfl
  labels_eq := rfl
  label_mem := by simp
  region_mem := by simp

theorem Fits.append {a b : Fragment} {pc pc' m n : Nat} {ls ks : List (Option Label)}
    (ha : Fits a pc m ls) (hb : Fits b pc' n ks) (hpc : pc' = pc + m) :
    Fits (a ++ b) pc (m + n) (ls ++ ks) where
  length := by simp [ha.length, hb.length]
  labels_eq := by simp [ha.labels_eq, hb.labels_eq]
  label_mem := by
    intro x hx
    rcases List.mem_append.mp hx with h | h
    · have := ha.label_mem x h
      omega
    · have := hb.label_mem x h
      omega
  region_mem := by
    intro g hg
    rcases List.mem_append.mp hg with h | h
    · have := ha.region_mem g h
      omega
    · have := hb.region_mem g h
      omega

/-- A region around a fragment, or around a part of it. -/
theorem Fits.region {f : Fragment} {pc size : Nat} {ls : List (Option Label)} {g : Region}
    (h : Fits f pc size ls) (hstart : pc ≤ g.guarded.start) (hstop : g.guarded.stop ≤ pc + size) :
    Fits ({ regions := [g] } ++ f) pc size ls where
  length := by simpa using h.length
  labels_eq := by simpa using h.labels_eq
  label_mem := by
    intro x hx
    exact h.label_mem x (by simpa using hx)
  region_mem := by
    intro g' hg'
    rcases List.mem_append.mp hg' with h' | h'
    · rw [List.mem_singleton.mp h']
      exact ⟨hstart, hstop⟩
    · exact h.region_mem g' h'

theorem append_assoc (a b c : Fragment) : a ++ b ++ c = a ++ (b ++ c) := by
  show Fragment.mk _ _ _ = Fragment.mk _ _ _
  simp only [append_instrs, append_labels, append_regions, List.append_assoc]

end Fragment

open Fragment (Fits append_assoc)

mutual

theorem fits_stmt (pc : Nat) : ∀ s : Stmt, Fits (flattenStmt pc s) pc (sizeStmt s) (labelsStmt s)
  | .block b => by
    simp only [flattenStmt, sizeStmt, labelsStmt]
    exact fits_block pc b
  | .list _ ss => by
    simp only [flattenStmt, sizeStmt, labelsStmt]
    exact fits_stmts pc ss
  | .label _ l => by
    simp only [flattenStmt, sizeStmt, labelsStmt]
    exact ⟨rfl, rfl, by simp, by simp⟩
  | .try _ body catches cleanup => by
    simp only [flattenStmt, sizeStmt, labelsStmt, append_assoc]
    have hb := fits_block pc body
    have hc := fits_catches (pc + sizeBlock body + 1)
      (pc + sizeBlock body + 1 + sizeCatches catches + sizeCleanup cleanup) catches
    have hf := fits_cleanup (pc + sizeBlock body + 1 + sizeCatches catches) cleanup
    have h := ((hb.append (.one _ (.jump (.position
      (pc + sizeBlock body + 1 + sizeCatches catches + sizeCleanup cleanup)))) rfl).append hc
        (Nat.add_assoc ..)).append hf (by omega)
    simp only [append_assoc, List.append_nil] at h
    exact h.region (Nat.le_refl _) (by simp only [regionAt]; omega)
  | .absent | .sequencePoint .. | .noOp .. | .localDeclaration .. | .expression .. | .return ..
  | .yieldReturn .. | .yieldBreak .. | .throw .. | .if .. | .while .. | .break .. | .continue ..
  | .goto .. | .conditionalGoto .. | .dispatch .. | .foreign .. => by
    simp only [flattenStmt, sizeStmt, labelsStmt]
    exact .one pc _

theorem fits_stmts (pc : Nat) :
    ∀ ss : List Stmt, Fits (flattenStmts pc ss) pc (sizeStmts ss) (labelsStmts ss)
  | [] => by
    simp only [flattenStmts, sizeStmts, labelsStmts]
    exact .empty pc
  | s :: rest => by
    simp only [flattenStmts, sizeStmts, labelsStmts]
    exact (fits_stmt pc s).append (fits_stmts (pc + sizeStmt s) rest) rfl

theorem fits_block (pc : Nat) :
    ∀ b : Block, Fits (flattenBlock pc b) pc (sizeBlock b) (labelsBlock b)
  | .absent => by
    simp only [flattenBlock, sizeBlock, labelsBlock]
    exact .empty pc
  | .mk _ _ ss => by
    simp only [flattenBlock, sizeBlock, labelsBlock]
    exact fits_stmts pc ss

theorem fits_cleanup (pc : Nat) :
    ∀ b : Block, Fits (flattenCleanup pc b) pc (sizeCleanup b) (labelsBlock b)
  | .absent => by
    simp only [flattenCleanup, sizeCleanup, labelsBlock]
    exact .empty pc
  | .mk _ _ ss => by
    simp only [flattenCleanup, sizeCleanup, labelsBlock]
    simpa using (fits_stmts pc ss).append (.one _ .endFinally) rfl

theorem fits_catches (pc behind : Nat) :
    ∀ cs : List Catch, Fits (flattenCatches pc behind cs) pc (sizeCatches cs) (labelsCatches cs)
  | [] => by
    simp only [flattenCatches, sizeCatches, labelsCatches]
    exact .empty pc
  | .mk _ _ body :: rest => by
    simp only [flattenCatches, sizeCatches, labelsCatches]
    have hrest := fits_catches (pc + sizeBlock body + 3) behind rest
    have h := ((((Fits.one pc .enterCatch).append (fits_block (pc + 1) body) rfl).append
      (.one _ .endCatch) rfl).append (.one _ (.jump (.position behind))) rfl).append hrest
      (by omega)
    rw [show 1 + sizeBlock body + 1 + 1 = sizeBlock body + 3 by omega] at h
    simpa using h

end

/-! ## Labels directly behind -/

/-- With the labels in `near` directly before a fragment, those in `behind` are directly
behind it. -/
structure Fragment.Follows (f : Fragment) (pc size : Nat) (near behind : List (Option Label)) :
    Prop where
  at_end : ∀ x ∈ f.labels, x.2 = pc + size → x.1 ∈ behind
  through : size = 0 → ∀ l ∈ near, l ∈ behind
  source : ∀ l ∈ behind, (l ∈ near ∧ size = 0) ∨ ∃ x ∈ f.labels, x.1 = l ∧ x.2 = pc + size

open Fragment (Follows)

theorem Fragment.Follows.empty (pc : Nat) (near : List (Option Label)) :
    Follows {} pc 0 near near where
  at_end := by simp
  through := fun _ _ h => h
  source := fun l h => .inl ⟨h, rfl⟩

theorem Fragment.Follows.one (pc : Nat) (i : Instr Target) (near : List (Option Label)) :
    Follows (.one i) pc 1 near [] where
  at_end := by simp
  through := by simp
  source := by simp

theorem Fragment.Follows.append {a b : Fragment} {pc pc' m n : Nat}
    {ls near middle behind : List (Option Label)} (ha : Follows a pc m near middle)
    (fits : a.Fits pc m ls) (hb : Follows b pc' n middle behind) (hpc : pc' = pc + m) :
    Follows (a ++ b) pc (m + n) near behind where
  at_end := by
    subst hpc
    intro x hx hend
    rcases List.mem_append.mp hx with h | h
    · have hle := (fits.label_mem x h).2
      exact hb.through (by omega) _ (ha.at_end x h (by omega))
    · exact hb.at_end x h (by omega)
  through := fun h l hl => hb.through (by omega) l (ha.through (by omega) l hl)
  source := by
    subst hpc
    intro l hl
    rcases hb.source l hl with ⟨hmiddle, hn⟩ | ⟨x, hx, hxl, hend⟩
    · rcases ha.source l hmiddle with ⟨hnear, hm⟩ | ⟨x, hx, hxl, hend⟩
      · exact .inl ⟨hnear, by omega⟩
      · exact .inr ⟨x, List.mem_append_left _ hx, hxl, by omega⟩
    · exact .inr ⟨x, List.mem_append_right _ hx, hxl, by omega⟩

/-- Regions do not move labels. -/
theorem Fragment.Follows.region {f : Fragment} {pc size : Nat} {near behind : List (Option Label)}
    (h : Follows f pc size near behind) (g : Region) :
    Follows ({ regions := [g] } ++ f) pc size near behind where
  at_end := fun x hx => h.at_end x (by simpa using hx)
  through := h.through
  source := by simpa using h.source

mutual

theorem follows_stmt (pc : Nat) (near : List (Option Label)) :
    ∀ s : Stmt, Follows (flattenStmt pc s) pc (sizeStmt s) near (follow near s)
  | .block b => by
    simp only [flattenStmt, sizeStmt, follow]
    exact follows_block pc near b
  | .list _ ss => by
    simp only [flattenStmt, sizeStmt, follow]
    exact follows_stmts pc near ss
  | .label _ l => by
    simp only [flattenStmt, sizeStmt, follow]
    refine ⟨by simp, ?_, ?_⟩
    · intro _ k hk
      exact List.mem_append_left _ hk
    · intro k hk
      rcases List.mem_append.mp hk with h | h
      · exact .inl ⟨h, rfl⟩
      · exact .inr ⟨(l, pc), by simp, (List.mem_singleton.mp h).symm, rfl⟩
  | .try _ body catches cleanup => by
    simp only [flattenStmt, sizeStmt, follow, append_assoc]
    have hb := follows_block pc near body
    have hj := Follows.one (pc + sizeBlock body) (.jump (.position
      (pc + sizeBlock body + 1 + sizeCatches catches + sizeCleanup cleanup)))
      (followBlock near body)
    have hc := follows_catches (pc + sizeBlock body + 1)
      (pc + sizeBlock body + 1 + sizeCatches catches + sizeCleanup cleanup) catches
    have hf := follows_cleanup (pc + sizeBlock body + 1 + sizeCatches catches) cleanup
    have fb := fits_block pc body
    have fj := fb.append (.one _ (.jump (.position
      (pc + sizeBlock body + 1 + sizeCatches catches + sizeCleanup cleanup)))) rfl
    have fc := fj.append (fits_catches (pc + sizeBlock body + 1)
      (pc + sizeBlock body + 1 + sizeCatches catches + sizeCleanup cleanup) catches)
      (Nat.add_assoc ..)
    have h := ((hb.append fb hj rfl).append fj hc (Nat.add_assoc ..)).append fc hf (by omega)
    simp only [append_assoc] at h
    exact h.region _
  | .absent | .sequencePoint .. | .noOp .. | .localDeclaration .. | .expression .. | .return ..
  | .yieldReturn .. | .yieldBreak .. | .throw .. | .if .. | .while .. | .break .. | .continue ..
  | .goto .. | .conditionalGoto .. | .dispatch .. | .foreign .. => by
    simp only [flattenStmt, sizeStmt, follow]
    exact .one pc _ near

theorem follows_stmts (pc : Nat) (near : List (Option Label)) :
    ∀ ss : List Stmt, Follows (flattenStmts pc ss) pc (sizeStmts ss) near (followAll near ss)
  | [] => by
    simp only [flattenStmts, sizeStmts, followAll]
    exact .empty pc near
  | s :: rest => by
    simp only [flattenStmts, sizeStmts, followAll]
    exact (follows_stmt pc near s).append (fits_stmt pc s)
      (follows_stmts (pc + sizeStmt s) (follow near s) rest) rfl

theorem follows_block (pc : Nat) (near : List (Option Label)) :
    ∀ b : Block, Follows (flattenBlock pc b) pc (sizeBlock b) near (followBlock near b)
  | .absent => by
    simp only [flattenBlock, sizeBlock, followBlock]
    exact .empty pc near
  | .mk _ _ ss => by
    simp only [flattenBlock, sizeBlock, followBlock]
    exact follows_stmts pc near ss

theorem follows_cleanup (pc : Nat) :
    ∀ b : Block, Follows (flattenCleanup pc b) pc (sizeCleanup b) [] []
  | .absent => by
    simp only [flattenCleanup, sizeCleanup]
    exact .empty pc []
  | .mk _ _ ss => by
    simp only [flattenCleanup, sizeCleanup]
    exact (follows_stmts pc [] ss).append (fits_stmts pc ss) (.one _ _ _) rfl

theorem follows_catches (pc behind : Nat) :
    ∀ cs : List Catch, Follows (flattenCatches pc behind cs) pc (sizeCatches cs) [] []
  | [] => by
    simp only [flattenCatches, sizeCatches]
    exact .empty pc []
  | .mk _ _ body :: rest => by
    simp only [flattenCatches, sizeCatches]
    have f1 := (Fits.one pc .enterCatch).append (fits_block (pc + 1) body) rfl
    have f2 := f1.append (.one _ .endCatch) rfl
    have f3 := f2.append (.one _ (.jump (.position behind))) rfl
    have h := ((((Follows.one pc .enterCatch []).append (.one pc _)
      (follows_block (pc + 1) [] body) rfl).append f1 (.one _ .endCatch _) rfl).append f2
      (.one _ (.jump (.position behind)) _) rfl).append f3
      (follows_catches (pc + sizeBlock body + 3) behind rest) (by omega)
    rw [show 1 + sizeBlock body + 1 + 1 = sizeBlock body + 3 by omega] at h
    exact h

end

end Resumable.Machine
