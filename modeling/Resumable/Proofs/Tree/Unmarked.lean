import Resumable.Lowering.Verify
import Resumable.StateMachine.Frame
import Resumable.StateMachine.Representable

/-!
# Trees without markers

A lowered tree without its markers, in which all blocks count as made (`unmarkBlock`).  A visit of it
stops where a visit of the tree stops, the markers apart (`visits_unmarkBlock`), so questions about
the tree have the same answers.
-/

set_option autoImplicit false

namespace Resumable.Tree

open Resumable.Report Resumable.Symbol

/-! ## Markers left out -/

mutual

/-- A lowered statement without markers; of a marker nothing is left. -/
def unmarkStmt : Stmt → List Stmt
  | .sequencePoint .. => []
  | .block b => [.block (unmarkBlock b)]
  | .list o ss => [.list o (unmarkStmts ss)]
  | .try o body catches cleanup =>
    [.try o (unmarkBlock body) (unmarkCatches catches) (unmarkBlock cleanup)]
  | s => [s]

/-- Lowered statements without markers. -/
def unmarkStmts : List Stmt → List Stmt
  | [] => []
  | s :: rest => unmarkStmt s ++ unmarkStmts rest

/-- A block without markers, which counts as made. -/
def unmarkBlock : Block → Block
  | .absent => .absent
  | .mk o locals ss => .mk o.asGenerated locals (unmarkStmts ss)

/-- Handlers without markers. -/
def unmarkCatches : List Catch → List Catch
  | [] => []
  | .mk o l body :: rest => .mk o l (unmarkBlock body) :: unmarkCatches rest

end

/-- A method without markers. -/
def MethodBody.unmark (m : MethodBody) : MethodBody := { m with body := unmarkBlock m.body }

theorem unmarkStmts_append (ss ts : List Stmt) :
    unmarkStmts (ss ++ ts) = unmarkStmts ss ++ unmarkStmts ts := by
  induction ss with
  | nil => rfl
  | cons s rest ih => rw [List.cons_append, unmarkStmts, unmarkStmts, ih, List.append_assoc]

@[simp] theorem isAbsent_unmark (b : Block) : (unmarkBlock b).isAbsent = b.isAbsent := by
  cases b <;> rfl

@[simp] theorem span_unmark (b : Block) : (unmarkBlock b).origin.span = b.origin.span := by
  cases b <;> rfl

@[simp] theorem provenance_unmark (b : Block) :
    (unmarkBlock b).origin.provenance = b.origin.provenance := by
  cases b <;> rfl

@[simp] theorem statements_unmark (b : Block) :
    (unmarkBlock b).statements = unmarkStmts b.statements := by
  cases b <;> rfl

@[simp] theorem isEmpty_unmark (cs : List Catch) : (unmarkCatches cs).isEmpty = cs.isEmpty := by
  cases cs with
  | nil => rfl
  | cons c rest => cases c; rfl

/-! ## Visits -/

/-- A statement that is no marker, and what it is without those inside it. -/
structure Unmarks (s t : Stmt) : Prop where
  eq : unmarkStmt s = [t]
  kind : t.kind? = s.kind?

/-- The stops of two visits are the same, but for markers in the first one. -/
inductive SameStops : List Visit → List Visit → Prop where
  | nil : SameStops [] []
  | same (v : Visit) {vs ws : List Visit} (h : SameStops vs ws) : SameStops (v :: vs) (v :: ws)
  | stmt {s t : Stmt} (depth : Nat) (hs : Unmarks s t) {vs ws : List Visit} (h : SameStops vs ws) :
      SameStops (.node depth (.stmt s) :: vs) (.node depth (.stmt t) :: ws)
  | marker (depth : Nat) (o : Origin) (place : Text.Span) {vs ws : List Visit}
      (h : SameStops vs ws) : SameStops (.node depth (.stmt (.sequencePoint o place)) :: vs) ws

namespace SameStops

variable {vs ws vs' ws' : List Visit}

theorem refl : ∀ vs : List Visit, SameStops vs vs
  | [] => .nil
  | v :: rest => .same v (refl rest)

theorem append (h : SameStops vs ws) (h' : SameStops vs' ws') :
    SameStops (vs ++ vs') (ws ++ ws') := by
  induction h with
  | nil => exact h'
  | same v _ ih => exact .same v ih
  | stmt depth hs _ ih => exact .stmt depth hs ih
  | marker depth o place _ ih => exact .marker depth o place ih

/-- A node that is no marker, with what is below it. -/
theorem enter {descend : Kind → Bool} {depth : Nat} {s t : Stmt} (hs : Unmarks s t)
    (h : SameStops vs ws) : SameStops (Visit.enter descend depth (.stmt s) vs)
      (Visit.enter descend depth (.stmt t) ws) := by
  have hkind : (Node.stmt t).kind? = (Node.stmt s).kind? := hs.kind
  rw [Visit.enter, Visit.enter, hkind]
  split
  · exact .stmt depth hs h
  · exact .stmt depth hs .nil

end SameStops

theorem visitsAll_append (descend : Kind → Bool) (depth : Nat) (ss ts : List Stmt) :
    Stmt.visitsAll descend depth (ss ++ ts) =
      Stmt.visitsAll descend depth ss ++ Stmt.visitsAll descend depth ts := by
  induction ss with
  | nil => rfl
  | cons s rest ih => rw [List.cons_append, Stmt.visitsAll, Stmt.visitsAll, ih, List.append_assoc]

theorem visitsAll_single (descend : Kind → Bool) (depth : Nat) (s : Stmt) :
    Stmt.visitsAll descend depth [s] = s.visits descend depth :=
  List.append_nil _

mutual

theorem visits_unmarkStmt (descend : Kind → Bool) : ∀ (depth : Nat) (s : Stmt),
    SameStops (s.visits descend depth) (Stmt.visitsAll descend depth (unmarkStmt s))
  | depth, .sequencePoint o place => by
    simp only [Stmt.visits, Visit.enter, unmarkStmt, Stmt.visitsAll, ite_self]
    exact .marker depth o place .nil
  | depth, .block b => by
    rw [unmarkStmt, visitsAll_single]
    exact visits_unmarkBlock descend depth b
  | depth, .list o ss => by
    rw [unmarkStmt, visitsAll_single]
    exact .enter ⟨rfl, rfl⟩ (visits_unmarkStmts descend (depth + 1) ss)
  | depth, .try o body catches cleanup => by
    rw [unmarkStmt, visitsAll_single]
    exact .enter ⟨rfl, rfl⟩ (((visits_unmarkBlock descend (depth + 1) body).append
      (visits_unmarkCatches descend (depth + 1) catches)).append
        (visits_unmarkBlock descend (depth + 1) cleanup))
  | depth, .absent | depth, .noOp .. | depth, .localDeclaration .. | depth, .expression ..
  | depth, .return .. | depth, .yieldReturn .. | depth, .yieldBreak .. | depth, .throw ..
  | depth, .if .. | depth, .while .. | depth, .break .. | depth, .continue .. | depth, .label ..
  | depth, .goto .. | depth, .conditionalGoto .. | depth, .dispatch .. | depth, .foreign .. => by
    simp only [unmarkStmt, visitsAll_single]
    exact .refl _

theorem visits_unmarkStmts (descend : Kind → Bool) : ∀ (depth : Nat) (ss : List Stmt),
    SameStops (Stmt.visitsAll descend depth ss) (Stmt.visitsAll descend depth (unmarkStmts ss))
  | _, [] => .nil
  | depth, s :: rest => by
    rw [unmarkStmts, visitsAll_append]
    exact (visits_unmarkStmt descend depth s).append (visits_unmarkStmts descend depth rest)

theorem visits_unmarkBlock (descend : Kind → Bool) : ∀ (depth : Nat) (b : Block),
    SameStops (b.visits descend depth) ((unmarkBlock b).visits descend depth)
  | _, .absent => .nil
  | depth, .mk _ _ ss => .enter ⟨rfl, rfl⟩ (visits_unmarkStmts descend (depth + 1) ss)

theorem visits_unmarkCatches (descend : Kind → Bool) : ∀ (depth : Nat) (cs : List Catch),
    SameStops (Catch.visitsAll descend depth cs) (Catch.visitsAll descend depth (unmarkCatches cs))
  | _, [] => .nil
  | depth, .mk _ _ body :: rest =>
    (visits_unmarkBlock descend depth body).append (visits_unmarkCatches descend depth rest)

end

/-! ## Questions about trees -/

/-- The same nodes are found in both visits. -/
theorem SameStops.any {p : Node → Bool} (hmarker : ∀ o place, p (.stmt (.sequencePoint o place)) = false)
    (hp : ∀ s t, Unmarks s t → p (.stmt t) = p (.stmt s)) {vs ws : List Visit}
    (h : SameStops vs ws) : Visit.any p ws = Visit.any p vs := by
  induction h with
  | nil => rfl
  | same v _ ih => cases v <;> simp only [Visit.any, ih]
  | stmt depth hs _ ih => simp only [Visit.any, hp _ _ hs, ih]
  | marker depth o place _ ih => simp only [Visit.any, hmarker, ih, Bool.false_eq_true, if_false]

theorem containsYield_unmark (b : Block) : (unmarkBlock b).containsYield = b.containsYield := by
  refine (visits_unmarkBlock (fun _ => true) 0 b).any (fun _ _ => rfl) fun s t h => ?_
  simp only [Node.isYieldReturn, Node.kind?, h.kind]

/-- The two nodes stand for the same text. -/
theorem Unmarks.span {s t : Stmt} (h : Unmarks s t) : t.origin.span = s.origin.span := by
  have heq := h.eq
  cases s with
  | sequencePoint => cases heq
  | block b =>
    cases heq
    exact span_unmark b
  | _ =>
    cases heq
    rfl

end Resumable.Tree

namespace Resumable.Lowering

open Resumable.Report Resumable.Symbol Resumable.Tree

/-- A survey takes the same notes of both nodes. -/
theorem note_unmark (survey : Survey) {s t : Stmt} (h : Unmarks s t) :
    survey.note (.stmt t) = survey.note (.stmt s) := by
  have heq := h.eq
  cases s with
  | sequencePoint => cases heq
  | «try» o body catches cleanup =>
    cases heq
    simp only [Survey.note, isEmpty_unmark, isAbsent_unmark]
  | _ =>
    cases heq
    rfl

theorem foldlM_unmark (allowYield : Bool) {vs ws : List Visit} (h : SameStops vs ws) :
    ∀ survey, ws.foldlM (Survey.step allowYield) survey =
      vs.foldlM (Survey.step allowYield) survey := by
  induction h with
  | nil => exact fun _ => rfl
  | same v _ ih => simp only [List.foldlM_cons, ih, implies_true]
  | stmt depth hs _ ih =>
    intro survey
    simp only [List.foldlM_cons, ih, Survey.step, Node.kind?, Node.origin, hs.kind, hs.span,
      note_unmark survey hs]
  | marker depth o place _ ih =>
    intro survey
    rw [List.foldlM_cons, ih]
    rfl

/-- Markers do not matter to the lowered form. -/
theorem verify_unmark (allowYield : Bool) (b : Block) :
    verify allowYield (.stmt (.block (unmarkBlock b))) = verify allowYield (.stmt (.block b)) := by
  have hfold := foldlM_unmark allowYield (visits_unmarkBlock (fun _ => true) 0 b) {}
  simp only [verify, Node.visits, Stmt.visits, hfold]

end Resumable.Lowering

namespace Resumable.StateMachine

open Resumable.Report Resumable.Symbol Resumable.Tree

theorem isFrame_unmark (body cleanup : Block) :
    isFrame (unmarkBlock body) (unmarkBlock cleanup) = isFrame body cleanup := by
  simp only [isFrame, isAbsent_unmark, containsYield_unmark]

theorem checkCatches_unmark (cs : List Catch) :
    ((unmarkCatches cs).forM fun c => checkNoYield c.body .yieldInCatch c.origin.span) =
      cs.forM fun c => checkNoYield c.body .yieldInCatch c.origin.span := by
  induction cs with
  | nil => rfl
  | cons c rest ih =>
    obtain ⟨o, l, body⟩ := c
    have hfirst : checkNoYield (unmarkBlock body) .yieldInCatch o.span =
        checkNoYield body .yieldInCatch o.span := by
      simp only [checkNoYield, containsYield_unmark]
    show (checkNoYield (unmarkBlock body) .yieldInCatch o.span >>= fun _ =>
      (unmarkCatches rest).forM fun c => checkNoYield c.body .yieldInCatch c.origin.span) = _
    rw [hfirst, ih]
    rfl

/-- A node can be part of a state machine with its markers or without. -/
theorem checkNode_unmark (m : Method) {s t : Stmt} (h : Unmarks s t) :
    checkNode m (.stmt t) = checkNode m (.stmt s) := by
  have heq := h.eq
  cases s with
  | sequencePoint => cases heq
  | «try» o body catches cleanup =>
    cases heq
    rw [checkNode, checkCatches_unmark]
    simp only [checkNoYield, containsYield_unmark, isEmpty_unmark, span_unmark]
    rfl
  | _ =>
    cases heq
    rfl

theorem checkRepresentable_unmark (m : Method) (b : Block) :
    checkRepresentable m (unmarkBlock b) = checkRepresentable m b := by
  have hcons : ∀ (v : Visit) (vs : List Visit), (v :: vs).forM (checkVisit m) =
      checkVisit m v >>= fun _ => vs.forM (checkVisit m) := fun _ _ => rfl
  have hforM : ∀ {vs ws : List Visit}, SameStops vs ws →
      ws.forM (checkVisit m) = vs.forM (checkVisit m) := by
    intro vs ws h
    induction h with
    | nil => rfl
    | same v _ ih => rw [hcons, hcons, ih]
    | stmt depth hs _ ih => rw [hcons, hcons, ih, checkVisit, checkVisit, checkNode_unmark m hs]
    | marker depth o place _ ih =>
      rw [hcons, ih]
      rfl
  exact hforM (visits_unmarkBlock (fun _ => true) 0 b)

end Resumable.StateMachine
