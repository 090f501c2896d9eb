import Resumable.Proofs.Machine.Simulation
import Resumable.Tree.Made

/-!
# Laws of structured execution

How flows are taken apart: statements that were put in a row are executed in a row, an entry by a
label passes over the statements before it, and rounds that no jump stays in are one round.
-/

set_option autoImplicit false

namespace Resumable.Machine

open Resumable.Symbol Resumable.Tree

variable {σ : Type}

namespace Flow

theorem onNormal_eq_some {x y : Flow σ} {c : Config σ} {z : Outcome × Config σ} :
    x.onNormal y c = some z ↔
      (∃ d, x c = some (.normal, d) ∧ y d = some z) ∨ (x c = some z ∧ z.1 ≠ .normal) := by
  unfold onNormal
  rw [andThen_eq_some]
  constructor
  · rintro ⟨o, d, hx, hk⟩
    cases o with
    | normal => exact .inl ⟨d, hx, hk⟩
    | _ =>
      cases hk
      exact .inr ⟨hx, by simp⟩
  · rintro (⟨d, hx, hy⟩ | ⟨hx, hne⟩)
    · exact ⟨.normal, d, hx, hy⟩
    · obtain ⟨o, d⟩ := z
      refine ⟨o, d, hx, ?_⟩
      cases o with
      | normal => exact absurd rfl hne
      | _ => rfl

theorem onNormal_done (x : Flow σ) : x.onNormal (done .normal) = x := by
  funext c
  unfold onNormal andThen
  cases x c with
  | none => rfl
  | some p =>
    obtain ⟨o, d⟩ := p
    cases o <;> rfl

theorem done_onNormal (y : Flow σ) : (done .normal : Flow σ).onNormal y = y := rfl

theorem jump_onNormal (pc : Nat) (l : Option Label) (y : Flow σ) :
    (done (.jump pc l)).onNormal y = done (.jump pc l) := rfl

theorem onNormal_assoc (x y z : Flow σ) :
    (x.onNormal y).onNormal z = x.onNormal (y.onNormal z) := by
  funext c
  unfold onNormal andThen
  cases x c with
  | none => rfl
  | some p =>
    obtain ⟨o, d⟩ := p
    cases o <;> rfl

end Flow

theorem labelsStmts_append (a b : List Stmt) :
    labelsStmts (a ++ b) = labelsStmts a ++ labelsStmts b := by
  induction a with
  | nil => simp [labelsStmts]
  | cons s rest ih => simp [labelsStmts, ih]

theorem targetsStmts_append (a b : List Stmt) :
    targetsStmts (a ++ b) = targetsStmts a ++ targetsStmts b := by
  induction a with
  | nil => simp [targetsStmts]
  | cons s rest ih => simp [targetsStmts, ih]

namespace Setting

variable {S : Setting σ} {scope : Range} {pc : Nat} {near labels : List (Option Label)}

theorem pass_cons (s : Stmt) (rest : List Stmt) :
    S.pass scope pc near (s :: rest) .start =
      (S.exec scope pc near s .start).onNormal
        (S.pass scope (pc + sizeStmt s) (follow near s) rest .start) := by
  rw [pass]
  rfl

theorem pass_append (a b : List Stmt) :
    S.pass scope pc near (a ++ b) .start =
      (S.pass scope pc near a .start).onNormal
        (S.pass scope (pc + sizeStmts a) (followAll near a) b .start) := by
  induction a generalizing pc near with
  | nil =>
    simp only [List.nil_append, pass, sizeStmts, followAll, Nat.add_zero]
    exact (Flow.done_onNormal _).symm
  | cons s rest ih =>
    simp only [List.cons_append, pass, Entry.enters, if_true, sizeStmts, followAll,
      ← Nat.add_assoc]
    rw [ih, Flow.onNormal_assoc]

theorem pass_seek_append {a : List Stmt} (b : List Stmt) {l : Option Label}
    (h : l ∉ labelsStmts a) :
    S.pass scope pc near (a ++ b) (.seek l) =
      S.pass scope (pc + sizeStmts a) (followAll near a) b (.seek l) := by
  induction a generalizing pc near with
  | nil => simp only [List.nil_append, sizeStmts, followAll, Nat.add_zero]
  | cons s rest ih =>
    simp only [labelsStmts, List.mem_append, not_or] at h
    simp only [List.cons_append, pass, Entry.enters, h.1, decide_false, Bool.false_eq_true,
      if_false, sizeStmts, followAll, ← Nat.add_assoc]
    exact ih h.2

theorem pass_seek_append_left {a : List Stmt} (b : List Stmt) {l : Option Label}
    (h : l ∈ labelsStmts a) :
    S.pass scope pc near (a ++ b) (.seek l) =
      (S.pass scope pc near a (.seek l)).onNormal
        (S.pass scope (pc + sizeStmts a) (followAll near a) b .start) := by
  induction a generalizing pc near with
  | nil => simp [labelsStmts] at h
  | cons s rest ih =>
    simp only [List.cons_append, pass, sizeStmts, followAll, ← Nat.add_assoc]
    by_cases hs : l ∈ labelsStmt s
    · simp only [Entry.enters, hs, decide_true, if_true]
      rw [pass_append, Flow.onNormal_assoc]
    · simp only [Entry.enters, hs, decide_false, Bool.false_eq_true, if_false]
      refine ih ?_
      rw [labelsStmts, List.mem_append] at h
      exact h.resolve_left hs

theorem pass_singleton {s : Stmt} {e : Entry} (he : e.enters (labelsStmt s) = true) :
    S.pass scope pc near [s] e = S.exec scope pc near s e := by
  simp only [pass, he, if_true, Flow.onNormal_done]

/-- A try that is entered at its start. -/
theorem exec_try_start (o : Origin) (body : Block) (catches : List Catch) (cleanup : Block) :
    S.exec scope pc near (.try o body catches cleanup) .start =
      (S.rounds scope near (labelsBlock body) (S.passBlock scope pc near body) .start).andThen
        (S.exitTry scope (handlersAt (behindBody pc body) catches)
          (S.execCatches scope (behindBody pc body) (behindTry pc body catches cleanup) catches
            .start)
          ((cleanupRange (behindCatches pc body catches) cleanup).map fun range =>
            S.settle range (S.rounds range [] (labelsBlock cleanup)
              (S.passBlock range (behindCatches pc body catches) [] cleanup) .start))
          (pc + sizeBlock body) (behindTry pc body catches cleanup)) := by
  rw [exec]
  rfl

/-- The first handler. -/
theorem execCatches_start (behind : Nat) (o : Origin) (l : Option Local) (body : Block)
    (rest : List Catch) : S.execCatches scope pc behind (.mk o l body :: rest) .start =
      (S.rounds scope [] (labelsBlock body) (S.passBlock scope (pc + 1) [] body) .start).andThen
        (S.exitCatch scope (pc + 1 + sizeBlock body) behind) := by
  rw [execCatches]
  rfl

/-- Behind a label statements begin. -/
theorem pass_label {o : Origin} {l : Option Label} {rest : List Stmt} {e : Entry}
    (he : e = .start ∨ e = .seek l) :
    S.pass scope pc near (.label o l :: rest) e =
      S.pass scope pc (near ++ [l]) rest .start := by
  have henters : e.enters (labelsStmt (.label o l)) = true := by
    rcases he with rfl | rfl <;> simp [Entry.enters, labelsStmt]
  simp only [pass, henters, if_true, exec, sizeStmt, follow, Nat.add_zero, Flow.done_onNormal]

theorem pass_madeLabel {p : Option Provenance} {l : Label} {rest : List Stmt} {e : Entry}
    (he : e = .start ∨ e = .seek (some l)) :
    S.pass scope pc near (Made.label p l :: rest) e =
      S.pass scope pc (near ++ [some l]) rest .start :=
  pass_label he

/-- Outcomes that do not stay are left as they are. -/
theorem andThen_again {x : Flow σ} {next : Entry → Flow σ}
    (h : ∀ c d p l, x c = some (.jump p l, d) → l ∉ labels ∧ l ∉ near) :
    x.andThen (S.again scope near labels next) = x := by
  funext c
  unfold Flow.andThen
  cases hx : x c with
  | none => rfl
  | some p =>
    obtain ⟨o, d⟩ := p
    cases o with
    | jump p l =>
      have hstay := Entry.staying?_eq_none.mpr (h c d p l hx)
      simp only [Option.bind_some, again, hstay]
      rfl
    | _ => rfl

theorem onNormal_again {x y : Flow σ} {next : Entry → Flow σ}
    (h : ∀ c d p l, x c = some (.jump p l, d) → l ∉ labels ∧ l ∉ near) :
    (x.onNormal y).andThen (S.again scope near labels next) =
      x.onNormal (y.andThen (S.again scope near labels next)) := by
  funext c
  unfold Flow.onNormal Flow.andThen
  cases hx : x c with
  | none => rfl
  | some p =>
    obtain ⟨o, d⟩ := p
    cases o with
    | jump p l =>
      have hstay := Entry.staying?_eq_none.mpr (h c d p l hx)
      simp only [Option.bind_some, Flow.done, again, hstay]
    | _ => rfl

/-- A jump that stays goes on with the next round. -/
theorem jump_again {next : Entry → Flow σ} {e : Entry} {p : Nat} {l : Option Label}
    (h : Entry.staying? near labels l = some e) :
    (Flow.done (.jump p l)).andThen (S.again scope near labels next) =
      fun c => next e (c.leave scope p (some (S.label l))) := by
  funext c
  simp only [Flow.andThen, Flow.done, Option.bind_some, again, h]

/-- Rounds that no jump stays in are one round. -/
theorem rounds_of_leaves {part : Entry → Flow σ} {e : Entry}
    (h : ∀ c d p l, part e c = some (.jump p l, d) → l ∉ labels ∧ l ∉ near) :
    S.rounds scope near labels part e = part e := by
  rw [rounds_eq]
  exact andThen_again h

/-- A jump that stays makes another round. -/
theorem rounds_jump_stay {part : Entry → Flow σ} {e e' : Entry} {c d : Config σ} {p : Nat}
    {l : Option Label} (hpart : part e c = some (.jump p l, d))
    (hl : Entry.staying? near labels l = some e') :
    S.rounds scope near labels part e c =
      S.rounds scope near labels part e' (d.leave scope p (some (S.label l))) := by
  rw [rounds_eq]
  simp only [Flow.andThen, hpart, Option.bind_some, again, hl]

/-- An outcome that is no jump ends the rounds. -/
theorem rounds_end {part : Entry → Flow σ} {e : Entry} {c d : Config σ} {o : Outcome}
    (hpart : part e c = some (o, d)) (ho : ∀ p l, o ≠ .jump p l) :
    S.rounds scope near labels part e c = some (o, d) := by
  rw [rounds_eq]
  simp only [Flow.andThen, hpart, Option.bind_some]
  cases o with
  | jump p l => exact absurd rfl (ho p l)
  | _ => rfl

/-- Rounds of a block that is one statement without labels. -/
theorem rounds_singleton {o : Origin} {locals : List Local} {s : Stmt} (hs : labelsStmt s = []) :
    S.rounds scope [] (labelsBlock (.mk o locals [s]))
        (S.passBlock scope pc [] (.mk o locals [s])) .start = S.exec scope pc [] s .start := by
  rw [rounds_of_leaves, passBlock, pass_singleton rfl]
  simp [labelsBlock, labelsStmts, hs]

theorem followAll_mem {ss : List Stmt} {l : Option Label} (h : l ∈ followAll near ss) :
    l ∈ near ∨ l ∈ labelsStmts ss := by
  rcases (follows_stmts 0 near ss).source l h with ⟨hnear, -⟩ | ⟨x, hx, rfl, -⟩
  · exact .inl hnear
  · right
    rw [← (fits_stmts 0 ss).labels_eq]
    exact List.mem_map.mpr ⟨x, hx, rfl⟩

end Setting

end Resumable.Machine
