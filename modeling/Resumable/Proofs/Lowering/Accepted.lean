import Resumable.Proofs.Lowering.Preservation
import Resumable.Proofs.Lowering.Verified
import Resumable.Proofs.Source.Resolution

/-!
# Lowering goes through

Lowering goes through for every tree whose parts are there (`walkBlock_ok`), in particular for the
bodies that resolution makes.  What it gives is in the lowered form apart from suspensions, with the
labels and jumps of the tree and labels of its own where branches meet.  These carry the numbers
that lowering counts, so no label is placed twice that is not placed twice in the tree.
-/

set_option autoImplicit false

namespace Resumable.Lowering

open Resumable.Report Resumable.Symbol Resumable.Tree Resumable.Source
open Resumable.Machine (labelsStmt labelsStmts labelsBlock labelsCatches targetsStmt targetsStmts
  targetsBlock targetsCatches labelsStmts_append targetsStmts_append)

/-! ## Expressions -/

mutual

theorem soundExpr_of_bound {params : List Param} :
    ∀ {e : Expr}, boundExpr params e = true → soundExpr e = true
  | .literal .., _ | .localRef .., _ | .parameterRef .., _ => rfl
  | .unary _ _ e, h => soundExpr_of_bound (e := e) h
  | .binary _ _ a b, h => by
    simp only [boundExpr, Bool.and_eq_true] at h
    simp only [soundExpr, soundExpr_of_bound h.1, soundExpr_of_bound h.2, Bool.and_self]
  | .call _ r _ args, h => by
    simp only [boundExpr, Bool.and_eq_true] at h
    simp only [soundExpr, h.1.1, soundExprs_of_bound h.2, Bool.true_or, Bool.and_self]
  | .absent, h | .fieldRef .., h | .this .., h | .assignment .., h | .foreign .., h => nomatch h

theorem soundExprs_of_bound {params : List Param} :
    ∀ {es : List Expr}, boundExprs params es = true → soundExprs es = true
  | [], _ => rfl
  | e :: rest, h => by
    simp only [boundExprs, Bool.and_eq_true] at h
    simp only [soundExprs, soundExpr_of_bound h.1, soundExprs_of_bound h.2, Bool.and_self]

end

theorem soundExpr_of_effect {params : List Param} {e : Expr} (h : boundEffect params e = true) :
    soundExpr e = true := by
  cases e with
  | assignment o target value =>
    simp only [boundEffect, Bool.and_eq_true] at h
    simp only [soundExpr, soundExpr_of_bound h.1.2, soundExpr_of_bound h.2, Bool.and_self]
  | _ => exact @soundExpr_of_bound params _ h

mutual

theorem verifiedExpr_of_sound : ∀ {e : Expr}, soundExpr e = true → verifiedExpr e = true
  | .literal .., _ | .localRef .., _ | .parameterRef .., _ | .this .., _ => rfl
  | .unary _ _ e, h => verifiedExpr_of_sound (e := e) h
  | .fieldRef _ r _, h => verifiedExpr_of_sound (e := r) h
  | .assignment _ a b, h | .binary _ _ a b, h => by
    simp only [soundExpr, Bool.and_eq_true] at h
    simp only [verifiedExpr, verifiedExpr_of_sound h.1, verifiedExpr_of_sound h.2, Bool.and_self]
  | .call _ r _ args, h => by
    simp only [soundExpr, Bool.and_eq_true, Bool.or_eq_true] at h
    have hr : verifiedExpr r = true := by
      rcases h.1 with hr | hr
      · cases r <;> first | rfl | cases hr
      · exact verifiedExpr_of_sound hr
    simp only [verifiedExpr, hr, verifiedExprs_of_sound h.2, Bool.and_self]
  | .absent, h | .foreign .., h => nomatch h

theorem verifiedExprs_of_sound : ∀ {es : List Expr},
    soundExprs es = true → verifiedExprs es = true
  | [], _ => rfl
  | e :: rest, h => by
    simp only [soundExprs, Bool.and_eq_true] at h
    simp only [verifiedExprs, verifiedExpr_of_sound h.1, verifiedExprs_of_sound h.2, Bool.and_self]

end

theorem sound_of_optional {params : List Param} {e : Expr}
    (h : (e.isAbsent || boundExpr params e) = true) : (e.isAbsent || soundExpr e) = true := by
  rcases Bool.or_eq_true_iff.mp h with h | h
  · rw [h, Bool.true_or]
  · rw [soundExpr_of_bound h, Bool.or_true]

theorem verifiedExpr_of_optional {e : Expr} (h : (e.isAbsent || soundExpr e) = true) :
    verifiedExpr e = true := by
  by_cases habsent : e = .absent
  · rw [habsent]
    rfl
  · rw [isAbsent_eq_false habsent] at h
    exact verifiedExpr_of_sound h

/-! ## Handlers as blocks -/

theorem labelsStmts_catches (cs : List Catch) :
    labelsStmts (cs.map fun c => .block c.body) = labelsCatches cs := by
  induction cs with
  | nil => rfl
  | cons c rest ih =>
    obtain ⟨o, l, body⟩ := c
    simp only [List.map_cons, labelsStmts, labelsStmt, labelsCatches, Catch.body]
    rw [← ih]
    rfl

theorem targetsStmts_catches (cs : List Catch) :
    targetsStmts (cs.map fun c => .block c.body) = targetsCatches cs := by
  induction cs with
  | nil => rfl
  | cons c rest ih =>
    obtain ⟨o, l, body⟩ := c
    simp only [List.map_cons, targetsStmts, targetsStmt, targetsCatches, Catch.body]
    rw [← ih]
    rfl

theorem verifiedStmts_catches (allowYield : Bool) (cs : List Catch) :
    verifiedStmts allowYield (cs.map fun c => .block c.body) = verifiedCatches allowYield cs := by
  induction cs with
  | nil => rfl
  | cons c rest ih =>
    obtain ⟨o, l, body⟩ := c
    simp only [List.map_cons, verifiedStmts, verifiedStmt, verifiedCatches, Catch.body]
    rw [← ih]
    rfl

/-! ## Labels of branches -/

/-- The label is one of a branch with a number behind `a` up to `b`. -/
def BranchLabel (a b : Nat) (l : Option Label) : Prop :=
  ∃ k : Nat, a < k ∧ k ≤ b ∧ (l = some (.generated "endif" k) ∨ l = some (.generated "else" k))

/-- Labels of branches of certain numbers, none of them twice. -/
structure Branches (a b : Nat) (labels : List (Option Label)) : Prop where
  le : a ≤ b
  nodup : labels.Nodup
  numbered : ∀ l ∈ labels, BranchLabel a b l

namespace Branches

variable {a b c : Nat} {ls ls' : List (Option Label)}

theorem nil : Branches a a [] where
  le := Nat.le_refl a
  nodup := .nil
  numbered _ h := nomatch h

theorem single {stem : String} (hstem : stem = "endif" ∨ stem = "else") :
    Branches a (a + 1) [some (.generated stem (a + 1 : Nat))] where
  le := Nat.le_succ a
  nodup := by simp
  numbered l hl := by
    rw [List.mem_singleton.mp hl]
    refine ⟨a + 1, by omega, by omega, ?_⟩
    rcases hstem with rfl | rfl
    · exact .inl rfl
    · exact .inr rfl

theorem append (h : Branches a c ls) (h' : Branches c b ls') : Branches a b (ls ++ ls') where
  le := Nat.le_trans h.le h'.le
  nodup := by
    refine List.nodup_append.mpr ⟨h.nodup, h'.nodup, ?_⟩
    rintro l hl _ hl' rfl
    obtain ⟨k, -, hhigh, hk⟩ := h.numbered l hl
    obtain ⟨k', hlow, -, hk'⟩ := h'.numbered l hl'
    rcases hk with rfl | rfl <;> simp at hk' <;> omega
  numbered l hl := by
    rcases List.mem_append.mp hl with hl | hl
    · obtain ⟨k, hlow, hhigh, hk⟩ := h.numbered l hl
      exact ⟨k, hlow, Nat.le_trans hhigh h'.le, hk⟩
    · obtain ⟨k, hlow, hhigh, hk⟩ := h'.numbered l hl
      exact ⟨k, Nat.lt_of_le_of_lt h.le hlow, hhigh, hk⟩

end Branches

/-! ## Lowered statements with their labels -/

/-- Statements in the lowered form apart from suspensions, with the labels and jumps of a tree and
labels of branches in addition, to which further jumps may go. -/
structure Laid (a b : Nat) (landings : List (Option Label)) (leaps : List Leap)
    (ss : List Stmt) : Prop where
  verified : verifiedStmts true ss = true
  labels : ∃ made, (labelsStmts ss).Perm (landings ++ made) ∧ Branches a b made
  targets : ∀ l ∈ targetsStmts ss, l ∈ labelsStmts ss ∨ ∃ j ∈ leaps, j.target = l
  leaps : ∀ j ∈ leaps, j.target ∈ targetsStmts ss

namespace Laid

variable {a b c : Nat} {ls ls' : List (Option Label)} {js js' : List Leap} {ss ts : List Stmt}

theorem nil : Laid a a [] [] [] where
  verified := rfl
  labels := ⟨[], .nil, .nil⟩
  targets _ h := nomatch h
  leaps _ h := nomatch h

theorem append (h : Laid a c ls js ss) (h' : Laid c b ls' js' ts) :
    Laid a b (ls ++ ls') (js ++ js') (ss ++ ts) where
  verified := by rw [verifiedStmts_append, h.verified, h'.verified]; rfl
  labels := by
    obtain ⟨made, hperm, hmade⟩ := h.labels
    obtain ⟨made', hperm', hmade'⟩ := h'.labels
    refine ⟨made ++ made', ?_, hmade.append hmade'⟩
    rw [labelsStmts_append]
    refine (hperm.append hperm').trans (List.perm_iff_count.mpr fun l => ?_)
    simp only [List.count_append]
    omega
  targets l hl := by
    rw [labelsStmts_append, List.mem_append]
    rw [targetsStmts_append] at hl
    rcases List.mem_append.mp hl with hl | hl
    · exact (h.targets l hl).imp .inl fun ⟨j, hj, htarget⟩ =>
        ⟨j, List.mem_append_left _ hj, htarget⟩
    · exact (h'.targets l hl).imp .inr fun ⟨j, hj, htarget⟩ =>
        ⟨j, List.mem_append_right _ hj, htarget⟩
  leaps j hj := by
    rw [targetsStmts_append, List.mem_append]
    rcases List.mem_append.mp hj with hj | hj
    · exact .inl (h.leaps j hj)
    · exact .inr (h'.leaps j hj)

/-- A statement that keeps its labels and jumps. -/
theorem leaf {s : Stmt} (hverified : verifiedStmt true s = true) (hlabels : labelsStmt s = ls)
    (htargets : ∀ l, l ∈ targetsStmt s ↔ ∃ j ∈ js, j.target = l) : Laid a a ls js [s] where
  verified := by rw [verifiedStmts, hverified]; rfl
  labels := by
    refine ⟨[], ?_, .nil⟩
    rw [labelsStmts, hlabels]
    rfl
  targets l hl := by
    rw [targetsStmts, targetsStmts, List.append_nil] at hl
    exact .inr ((htargets l).mp hl)
  leaps j hj := by
    rw [targetsStmts, targetsStmts, List.append_nil]
    exact (htargets _).mpr ⟨j, hj, rfl⟩

/-- A statement without labels and jumps. -/
theorem still {s : Stmt} (hverified : verifiedStmt true s = true) (hlabels : labelsStmt s = [])
    (htargets : targetsStmt s = []) : Laid a a [] [] [s] :=
  leaf hverified hlabels fun l => by simp [htargets]

/-- A jump. -/
theorem goto (o : Origin) (l : Option Label) (ofLoop : Bool) :
    Laid a a [] [⟨l, ofLoop⟩] [.goto o l] :=
  leaf rfl rfl fun k => by simp [targetsStmt, eq_comm]

theorem block (h : Laid a b ls js ss) (o : Origin) (locals : List Local) :
    Laid a b ls js [.block (.mk o locals ss)] where
  verified := by simpa [verifiedStmts, verifiedStmt, verifiedBlock] using h.verified
  labels := by simpa [labelsStmts, labelsStmt, labelsBlock] using h.labels
  targets l hl := by
    have := h.targets l (by simpa [targetsStmts, targetsStmt, targetsBlock] using hl)
    simpa [labelsStmts, labelsStmt, labelsBlock] using this
  leaps j hj := by simpa [targetsStmts, targetsStmt, targetsBlock] using h.leaps j hj

theorem list (h : Laid a b ls js ss) (o : Origin) : Laid a b ls js [.list o ss] where
  verified := by simpa [verifiedStmts, verifiedStmt] using h.verified
  labels := by simpa [labelsStmts, labelsStmt] using h.labels
  targets l hl := by
    have := h.targets l (by simpa [targetsStmts, targetsStmt] using hl)
    simpa [labelsStmts, labelsStmt] using this
  leaps j hj := by simpa [targetsStmts, targetsStmt] using h.leaps j hj

/-- A place where a debugger may stop. -/
theorem sequencePoint (p : Option Provenance) (place : Text.Span) :
    Laid a a [] [] [Made.sequencePoint p place] :=
  still rfl rfl rfl

/-- The markers of a block. -/
theorem marked (h : Laid a b ls js ss) (p : Provenance) : Laid a b ls js (markBlock p ss) := by
  have hopened := (sequencePoint (a := a) (some p) p.openBrace).append h
  unfold markBlock
  split
  · simpa using hopened
  · simpa using hopened.append (sequencePoint (some p) p.closeBrace)

/-- A branch without else. -/
theorem branch {t : Option Stmt} (h : Laid a b ls js t.toList) (o : Origin) {x : Expr}
    (hx : verifiedExpr x = true) :
    Laid a (b + 1) ls js [Lowering.branch o x t (.generated "endif" (b + 1 : Nat))] where
  verified := by
    simp [verifiedStmts, verifiedStmts_append, verifiedStmt, Lowering.branch, Made.gotoUnless,
      Made.label, hx, h.verified]
  labels := by
    obtain ⟨made, hperm, hmade⟩ := h.labels
    refine ⟨made ++ [some (.generated "endif" (b + 1 : Nat))], ?_, hmade.append (.single (.inl rfl))⟩
    rw [labelsStmts, labelsStmt_branch, labelsStmts, List.append_nil, ← List.append_assoc]
    exact hperm.append_right _
  targets l hl := by
    have hl : l = some (.generated "endif" (b + 1 : Nat)) ∨ l ∈ targetsStmts t.toList := by
      simpa [targetsStmts, targetsStmts_append, targetsStmt, Lowering.branch, Made.gotoUnless,
        Made.label] using hl
    rw [labelsStmts, labelsStmt_branch, labelsStmts, List.append_nil, List.mem_append]
    rcases hl with rfl | hl
    · exact .inl (.inr (by simp))
    · exact (h.targets l hl).imp .inl id
  leaps j hj := by
    have hmem := h.leaps j hj
    simp [targetsStmts, targetsStmts_append, targetsStmt, Lowering.branch, Made.gotoUnless,
      Made.label, hmem]

/-- A branch with two sides. -/
theorem branches {t f : Option Stmt} (h : Laid a c ls js t.toList)
    (h' : Laid (c + 2) b ls' js' f.toList) (o : Origin) {x : Expr} (hx : verifiedExpr x = true) :
    Laid a b (ls ++ ls') (js ++ js') [Lowering.branches o x t f (.generated "else" (c + 2 : Nat))
      (.generated "endif" (c + 1 : Nat))] where
  verified := by
    simp [verifiedStmts, verifiedStmts_append, verifiedStmt, Lowering.branches, Made.gotoUnless,
      Made.label, Made.goto, hx, h.verified, h'.verified]
  labels := by
    obtain ⟨made, hperm, hmade⟩ := h.labels
    obtain ⟨made', hperm', hmade'⟩ := h'.labels
    -- In the order in which lowering has made the labels, they are numbered in a row.
    refine ⟨made ++ ([some (.generated "endif" (c + 1 : Nat))] ++
      ([some (.generated "else" (c + 2 : Nat))] ++ made')), ?_, hmade.append
        ((Branches.single (.inl rfl)).append ((Branches.single (.inr rfl)).append hmade'))⟩
    rw [labelsStmts, labelsStmt_branches, labelsStmts, List.append_nil]
    refine List.perm_iff_count.mpr fun l => ?_
    have hcount := hperm.count_eq l
    have hcount' := hperm'.count_eq l
    simp only [List.count_append, List.count_cons, List.count_nil] at hcount hcount' ⊢
    omega
  targets l hl := by
    have hl : l = some (.generated "else" (c + 2 : Nat)) ∨ l ∈ targetsStmts t.toList ∨
        l = some (.generated "endif" (c + 1 : Nat)) ∨ l ∈ targetsStmts f.toList := by
      simpa [targetsStmts, targetsStmts_append, targetsStmt, Lowering.branches, Made.gotoUnless,
        Made.label, Made.goto] using hl
    rw [labelsStmts, labelsStmt_branches, labelsStmts, List.append_nil]
    rcases hl with rfl | hl | rfl | hl
    · exact .inl (by simp)
    · exact (h.targets l hl).imp (fun h => by simp [h])
        (Exists.imp fun _ hj => hj.imp_left (List.mem_append_left _))
    · exact .inl (by simp)
    · exact (h'.targets l hl).imp (fun h => by simp [h])
        (Exists.imp fun _ hj => hj.imp_left (List.mem_append_right _))
  leaps j hj := by
    have hmem : j.target ∈ targetsStmts t.toList ∨ j.target ∈ targetsStmts f.toList := by
      rcases List.mem_append.mp hj with hj | hj
      · exact .inl (h.leaps j hj)
      · exact .inr (h'.leaps j hj)
    rcases hmem with hmem | hmem <;>
      simp [targetsStmts, targetsStmts_append, targetsStmt, Lowering.branches, Made.gotoUnless,
        Made.label, Made.goto, hmem]

/-- A loop. -/
theorem looped {body : Option Stmt} (h : Laid a b ls js body.toList) (o : Origin) {x : Expr}
    (hx : verifiedExpr x = true) (exit again : Label) :
    Laid a b (some again :: ls ++ [some exit]) js [Lowering.loop o x body exit again] where
  verified := by
    simp [verifiedStmts, verifiedStmts_append, verifiedStmt, Lowering.loop, Made.gotoUnless,
      Made.label, Made.goto, hx, h.verified]
  labels := by
    obtain ⟨made, hperm, hmade⟩ := h.labels
    refine ⟨made, ?_, hmade⟩
    rw [labelsStmts, labelsStmt_loop, labelsStmts, List.append_nil]
    refine List.perm_iff_count.mpr fun l => ?_
    have hcount := hperm.count_eq l
    simp only [List.count_append, List.count_cons, List.count_nil] at hcount ⊢
    omega
  targets l hl := by
    have hl : l = some exit ∨ l ∈ targetsStmts body.toList ∨ l = some again := by
      simpa [targetsStmts, targetsStmts_append, targetsStmt, Lowering.loop, Made.gotoUnless,
        Made.label, Made.goto] using hl
    rw [labelsStmts, labelsStmt_loop, labelsStmts, List.append_nil]
    rcases hl with rfl | hl | rfl
    · exact .inl (by simp)
    · exact (h.targets l hl).imp (fun h => by simp [h]) id
    · exact .inl (by simp)
  leaps j hj := by
    have hmem := h.leaps j hj
    simp [targetsStmts, targetsStmts_append, targetsStmt, Lowering.loop, Made.gotoUnless,
      Made.label, Made.goto, hmem]

/-- A try with handlers, with a finally, or with both. -/
theorem split {body cleanup : Block} {catches : List Catch} (o : Origin)
    (h : Laid a b ls js ([.block body] ++ catches.map (fun c => .block c.body) ++
      [.block cleanup])) (hform : catches ≠ [] ∨ cleanup ≠ .absent) :
    Laid a b ls js [splitTry o body catches cleanup] := by
  have hlabels : labelsStmts [splitTry o body catches cleanup] = labelsStmts ([.block body] ++
      catches.map (fun c => .block c.body) ++ [.block cleanup]) := by
    simp [labelsStmts, labelsStmts_append, labelsStmt_splitTry, labelsStmt, labelsStmts_catches]
  have htargets : targetsStmts [splitTry o body catches cleanup] = targetsStmts ([.block body] ++
      catches.map (fun c => .block c.body) ++ [.block cleanup]) := by
    unfold splitTry
    split <;> simp [targetsStmts, targetsStmts_append, targetsStmt, targetsStmts_catches,
      targetsBlock, Made.block, targetsCatches]
  refine ⟨?_, hlabels ▸ h.labels, fun l hl => ?_, htargets ▸ h.leaps⟩
  · have hverified := h.verified
    simp only [verifiedStmts_append, verifiedStmts, verifiedStmt, verifiedStmts_catches,
      Bool.and_true, Bool.and_eq_true] at hverified
    obtain ⟨⟨hbody, hcatches⟩, hcleanup⟩ := hverified
    cases catches with
    | nil =>
      cases cleanup with
      | absent => simp at hform
      | mk => simp [splitTry, verifiedStmts, verifiedStmt, Block.isAbsent, hbody, hcatches, hcleanup]
    | cons c rest =>
      cases cleanup with
      | absent =>
        simp [splitTry, verifiedStmts, verifiedStmt, Block.isAbsent, hbody, hcatches, hcleanup]
      | mk =>
        simp [splitTry, verifiedStmts, verifiedStmt, Block.isAbsent, Made.block, verifiedBlock,
          verifiedCatches, hbody, hcatches] at hcleanup ⊢
        exact hcleanup
  · rw [hlabels]
    exact h.targets l (htargets ▸ hl)

end Laid

/-! ## Trees that can be lowered -/

mutual

/-- The parts of the statement are there: its expressions, the labels of its loops, the braces of
blocks that are the user's, and handlers or a finally of each try. -/
def Walkable : Stmt → Prop
  | .block b => WalkableBlock b
  | .list _ ss => WalkableAll ss
  | .sequencePoint .. | .noOp _ | .yieldBreak _ | .break .. | .continue .. | .label .. => True
  | .goto .. => True
  | .localDeclaration _ _ init => (init.isAbsent || soundExpr init) = true
  | .return _ e | .throw _ e => (e.isAbsent || soundExpr e) = true
  | .expression _ e | .yieldReturn _ e => soundExpr e = true
  | .conditionalGoto _ e _ _ | .dispatch _ e _ _ => soundExpr e = true
  | .if _ c t f => soundExpr c = true ∧ Walkable t ∧ (f = .absent ∨ Walkable f)
  | .while _ c body exit again => soundExpr c = true ∧ Walkable body ∧
    ∃ x a, exit = some x ∧ again = some a
  | .try _ body catches cleanup => WalkableBlock body ∧ WalkableCatches catches ∧
    (cleanup = .absent ∨ WalkableBlock cleanup) ∧ (catches ≠ [] ∨ cleanup ≠ .absent)
  | .absent | .foreign .. => False

/-- The parts of the statements are there. -/
def WalkableAll : List Stmt → Prop
  | [] => True
  | s :: rest => Walkable s ∧ WalkableAll rest

/-- The block is there, with its braces if it is the user's. -/
def WalkableBlock : Block → Prop
  | .absent => False
  | .mk o _ ss => (o.generated = true ∨ ∃ p, o.provenance = some p ∧ p.isBlock = true) ∧
    WalkableAll ss

/-- The parts of the handlers are there. -/
def WalkableCatches : List Catch → Prop
  | [] => True
  | .mk _ _ body :: rest => WalkableBlock body ∧ WalkableCatches rest

end

mutual

theorem walkStmt_ok (markers : Bool) : ∀ {s : Stmt}, Walkable s → ∀ a, ∃ s' b,
    walkStmt markers s a = (.ok s', b) ∧ Laid a b (landingsStmt s) (leapsStmt s) s'.toList
  | .block b, hs, a => by
    obtain ⟨b', c, hb, hlaid⟩ := walkBlock_ok markers (b := b) hs a
    refine ⟨some (.block b'), c, ?_, hlaid⟩
    simp only [walkStmt, Lower.bind_apply, hb, Lower.pure_apply]
  | .list o ss, hs, a => by
    obtain ⟨ss', c, hss, hlaid⟩ := @walkStmts_ok markers ss hs a
    refine ⟨some (.list o ss'), c, ?_, hlaid.list o⟩
    simp only [walkStmt, Lower.bind_apply, hss, Lower.pure_apply]
  | .sequencePoint o place, _, a => ⟨some (.sequencePoint o place), a, rfl, .still rfl rfl rfl⟩
  | .noOp o, _, a => by
    refine ⟨some (.block (emptyBlock markers o)), a, rfl, ?_⟩
    unfold emptyBlock
    split
    · exact Laid.nil.block _ _
    · exact (Laid.sequencePoint _ _).block _ _
  | .localDeclaration o l init, hinit, a => by
    by_cases habsent : init = .absent
    · subst habsent
      exact ⟨none, a, rfl, .nil⟩
    · have hsound : soundExpr init = true := by
        simpa only [Walkable, isAbsent_eq_false habsent, Bool.false_or] using hinit
      refine ⟨some (.expression o (.assignment o (.localRef o l) init)), a, ?_, .still ?_ rfl rfl⟩
      · rw [walkStmt]
        · simp only [Lower.bind_apply, walkExpr_ok.mpr ⟨hsound, rfl, rfl⟩, Lower.pure_apply]
        · exact habsent
      · simp only [verifiedStmt, verifiedExpr, verifiedExpr_of_sound hsound, Bool.and_self]
  | .expression o e, hsound, a => by
    refine ⟨some (.expression o e), a, ?_, .still (verifiedExpr_of_sound hsound) rfl rfl⟩
    simp only [walkStmt, Lower.bind_apply, walkExpr_ok.mpr ⟨hsound, rfl, rfl⟩, Lower.pure_apply]
  | .yieldReturn o e, hsound, a => by
    refine ⟨some (.yieldReturn o e), a, ?_, .still (verifiedExpr_of_sound hsound) rfl rfl⟩
    simp only [walkStmt, Lower.bind_apply, walkExpr_ok.mpr ⟨hsound, rfl, rfl⟩, Lower.pure_apply]
  | .yieldBreak o, _, a => ⟨some (.yieldBreak o), a, rfl, .still rfl rfl rfl⟩
  | .return o e, he, a => by
    refine ⟨some (.return o e), a, ?_, .still (verifiedExpr_of_optional he) rfl rfl⟩
    simp only [walkStmt, Lower.bind_apply, walkOptional_ok.mpr ⟨he, rfl, rfl⟩, Lower.pure_apply]
  | .throw o e, he, a => by
    refine ⟨some (.throw o e), a, ?_, .still (verifiedExpr_of_optional he) rfl rfl⟩
    simp only [walkStmt, Lower.bind_apply, walkOptional_ok.mpr ⟨he, rfl, rfl⟩, Lower.pure_apply]
  | .break o l, _, a => ⟨some (.goto o l), a, rfl, .goto o l true⟩
  | .continue o l, _, a => ⟨some (.goto o l), a, rfl, .goto o l true⟩
  | .goto o l, _, a => ⟨some (.goto o l), a, rfl, .goto o l false⟩
  | .label o l, _, a =>
    ⟨some (.label o l), a, rfl, .leaf rfl rfl fun k => by simp [targetsStmt, leapsStmt]⟩
  | .conditionalGoto o c whenTrue l, hsound, a => by
    refine ⟨some (.conditionalGoto o c whenTrue l), a, ?_,
      .leaf (verifiedExpr_of_sound hsound) rfl fun k => by simp [targetsStmt, leapsStmt, eq_comm]⟩
    simp only [walkStmt, Lower.bind_apply, walkExpr_ok.mpr ⟨hsound, rfl, rfl⟩, Lower.pure_apply]
  | .dispatch o e cases l, hsound, a => by
    have htargets : (leapsStmt (.dispatch o e cases l)).map Leap.target =
        targetsStmt (.dispatch o e cases l) := by
      simp [leapsStmt, targetsStmt]
    refine ⟨some (.dispatch o e cases l), a, ?_,
      .leaf (verifiedExpr_of_sound hsound) rfl fun k => by rw [← htargets, List.mem_map]⟩
    simp only [walkStmt, Lower.bind_apply, walkExpr_ok.mpr ⟨hsound, rfl, rfl⟩, Lower.pure_apply]
  | .if o x t f, ⟨hsound, ht, hf⟩, a => by
    have hverified := verifiedExpr_of_sound hsound
    obtain ⟨t', c, hwalk, hlaid⟩ := walkStmt_ok markers ht a
    by_cases habsent : f = .absent
    · subst habsent
      refine ⟨some (branch o x t' (.generated "endif" (c + 1 : Nat))), c + 1, ?_, ?_⟩
      · simp only [walkStmt, Lower.bind_apply, walkExpr_ok.mpr ⟨hsound, rfl, rfl⟩, hwalk,
          Lower.newLabel_apply, Lower.pure_apply]
      · simpa [landingsStmt, leapsStmt] using hlaid.branch o hverified
    · obtain ⟨f', b, hwalk', hlaid'⟩ := walkStmt_ok markers (hf.resolve_left habsent) (c + 2)
      refine ⟨some (branches o x t' f' (.generated "else" (c + 2 : Nat))
        (.generated "endif" (c + 1 : Nat))), b, ?_, hlaid.branches hlaid' o hverified⟩
      rw [walkStmt]
      · simp only [Lower.bind_apply, walkExpr_ok.mpr ⟨hsound, rfl, rfl⟩, hwalk, hwalk',
          Lower.newLabel_apply, Lower.pure_apply]
      · exact habsent
  | .while o x body exit again, ⟨hsound, hbody, exit', again', hexit, hagain⟩, a => by
    subst hexit hagain
    obtain ⟨body', b, hwalk, hlaid⟩ := walkStmt_ok markers hbody a
    refine ⟨some (Lowering.loop o x body' exit' again'), b, ?_,
      hlaid.looped o (verifiedExpr_of_sound hsound) exit' again'⟩
    simp only [walkStmt, Lower.bind_apply, walkExpr_ok.mpr ⟨hsound, rfl, rfl⟩, hwalk,
      Lower.pure_apply]
  | .try o body catches cleanup, ⟨hbody, hcatches, hcleanup, hform⟩, a => by
    obtain ⟨body', c, hwalk, hlaid⟩ := walkBlock_ok markers hbody a
    obtain ⟨catches', d, hwalk', hlaid', hempty⟩ := walkCatches_ok markers hcatches c
    cases cleanup with
    | absent =>
      refine ⟨some (splitTry o body' catches' .absent), d, ?_,
        Laid.split o ((hlaid.append hlaid').append (.still rfl rfl rfl)) (.inl ?_)⟩
      · simp only [walkStmt, Lower.bind_apply, hwalk, hwalk', Lower.pure_apply]
      · exact fun h => (hform.resolve_right fun h => h rfl) (hempty.mp h)
    | mk fo locals ss =>
      obtain ⟨cleanup', b, hwalk'', hlaid''⟩ := walkBlock_ok markers
        (hcleanup.resolve_left fun h => nomatch h) d
      refine ⟨some (splitTry o body' catches' cleanup'), b, ?_,
        Laid.split o ((hlaid.append hlaid').append hlaid'') (.inr ?_)⟩
      · simp only [walkStmt, Lower.bind_apply, hwalk, hwalk', hwalk'', Lower.pure_apply]
      · exact (walkedBlock_of_ok hwalk'').present
  | .absent, hs, a | .foreign .., hs, a => hs.elim

theorem walkStmts_ok (markers : Bool) : ∀ {ss : List Stmt}, WalkableAll ss → ∀ a, ∃ ss' b,
    walkStmts markers ss a = (.ok ss', b) ∧ Laid a b (landingsStmts ss) (leapsStmts ss) ss'
  | [], _, a => ⟨[], a, rfl, .nil⟩
  | s :: rest, ⟨hs, hrest⟩, a => by
    obtain ⟨s', c, hwalk, hlaid⟩ := walkStmt_ok markers hs a
    obtain ⟨rest', b, hwalk', hlaid'⟩ := walkStmts_ok markers hrest c
    refine ⟨s'.toList ++ rest', b, ?_, hlaid.append hlaid'⟩
    simp only [walkStmts, Lower.bind_apply, hwalk, hwalk', Lower.pure_apply]

theorem walkBlock_ok (markers : Bool) : ∀ {b : Block}, WalkableBlock b → ∀ a, ∃ b' c,
    walkBlock markers b a = (.ok b', c) ∧ Laid a c (landingsBlock b) (leapsBlock b) [.block b']
  | .absent, hb, a => hb.elim
  | .mk o locals ss, ⟨hbraces, hss⟩, a => by
    obtain ⟨ss', c, hwalk, hlaid⟩ := walkStmts_ok markers hss a
    by_cases hplain : (o.generated || !markers) = true
    · refine ⟨.mk o locals ss', c, ?_, hlaid.block _ _⟩
      simp only [walkBlock, hplain, if_true, Lower.bind_apply, hwalk, Lower.pure_apply]
    · have hgenerated : ¬ o.generated = true := fun h => hplain (by simp [h])
      obtain ⟨p, hp, hblock⟩ := hbraces.resolve_left hgenerated
      refine ⟨.mk o.asGenerated locals (markBlock p ss'), c, ?_, (hlaid.marked p).block _ _⟩
      simp only [walkBlock, hplain, Bool.false_eq_true, if_false, hp, hblock, if_true,
        Lower.bind_apply, hwalk, Lower.pure_apply]

theorem walkCatches_ok (markers : Bool) : ∀ {cs : List Catch}, WalkableCatches cs → ∀ a, ∃ cs' b,
    walkCatches markers cs a = (.ok cs', b) ∧
      Laid a b (landingsCatches cs) (leapsCatches cs) (cs'.map fun c => .block c.body) ∧
      (cs' = [] ↔ cs = [])
  | [], _, a => ⟨[], a, rfl, .nil, .rfl⟩
  | .mk o l body :: rest, ⟨hbody, hrest⟩, a => by
    obtain ⟨body', c, hwalk, hlaid⟩ := walkBlock_ok markers hbody a
    obtain ⟨rest', b, hwalk', hlaid', -⟩ := walkCatches_ok markers hrest c
    refine ⟨.mk o l body' :: rest', b, ?_, hlaid.append hlaid', by simp⟩
    simp only [walkCatches, Lower.bind_apply, hwalk, hwalk', Lower.pure_apply]

end

/-! ## Bodies that resolution makes -/

mutual

theorem walkable_of_bound {params : List Param} : ∀ {s : Stmt} {loop : Option (Label × Label)}
    {n m : Nat}, BoundStmt params loop n s m → Walkable s
  | .block b, _, _, _, h => walkableBlock_of_bound (b := b) h
  | .noOp _, _, _, _, _ | .yieldBreak _, _, _, _, _ | .goto .., _, _, _, _
  | .label .., _, _, _, _ | .break .., _, _, _, _ | .continue .., _, _, _, _ => trivial
  | .localDeclaration .., _, _, _, h | .return .., _, _, _, h | .throw .., _, _, _, h =>
    sound_of_optional h.1
  | .expression .., _, _, _, h => soundExpr_of_effect h.1
  | .yieldReturn .., _, _, _, h => soundExpr_of_bound h.1
  | .if .., _, _, _, ⟨hc, _, ht, hf⟩ =>
    ⟨soundExpr_of_bound hc, walkable_of_bound ht, hf.imp (fun h => h.1) fun h => walkable_of_bound h⟩
  | .while .., _, _, _, ⟨hc, hexit, hagain, hbody⟩ =>
    ⟨soundExpr_of_bound hc, walkable_of_bound hbody, _, _, hexit, hagain⟩
  | .try .., _, _, _, ⟨_, _, hbody, hcatches, hcleanup, hform⟩ =>
    ⟨walkableBlock_of_bound hbody, walkableCatches_of_bound hcatches,
      hcleanup.imp (fun h => h.1) fun h => walkableBlock_of_bound h, hform⟩
  | .absent, _, _, _, h | .list .., _, _, _, h | .sequencePoint .., _, _, _, h
  | .conditionalGoto .., _, _, _, h | .dispatch .., _, _, _, h | .foreign .., _, _, _, h => h.elim

theorem walkableAll_of_bound {params : List Param} : ∀ {ss : List Stmt}
    {loop : Option (Label × Label)} {n m : Nat}, BoundStmts params loop n ss m → WalkableAll ss
  | [], _, _, _, _ => trivial
  | _ :: _, _, _, _, ⟨_, hs, hrest⟩ => ⟨walkable_of_bound hs, walkableAll_of_bound hrest⟩

theorem walkableBlock_of_bound {params : List Param} : ∀ {b : Block}
    {loop : Option (Label × Label)} {n m : Nat}, BoundBlock params loop n b m → WalkableBlock b
  | .absent, _, _, _, h => h.elim
  | .mk .., _, _, _, ⟨hbraces, hss⟩ => ⟨hbraces, walkableAll_of_bound hss⟩

theorem walkableCatches_of_bound {params : List Param} : ∀ {cs : List Catch}
    {loop : Option (Label × Label)} {n m : Nat}, BoundCatches params loop n cs m →
    WalkableCatches cs
  | [], _, _, _, _ => trivial
  | .mk .. :: _, _, _, _, ⟨_, hbody, hrest⟩ =>
    ⟨walkableBlock_of_bound hbody, walkableCatches_of_bound hrest⟩

end

end Resumable.Lowering
