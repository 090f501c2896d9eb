import Resumable.Proofs.StateMachine.Conserved
import Resumable.Proofs.StateMachine.Moved

/-!
# Markers

With markers on, the bodies that lowering makes have one marker for each brace and each empty
statement of the user's: at the opening brace of each block of the user's, at the closing brace
unless the block is the body of a method or an anonymous function, and at each empty statement
(`markers_conserved`).
-/

set_option autoImplicit false

namespace Resumable.Lowering

open Resumable.Report Resumable.Symbol Resumable.Tree Resumable.Source Resumable.StateMachine

/-! ## Markers and where they belong -/

/-- The place of a marker. -/
def markerAt : Visit → List Text.Span
  | .node _ (.stmt (.sequencePoint _ place)) => [place]
  | _ => []

/-- The places of the markers of a body. -/
def markersIn (b : Block) : List Text.Span := (b.visits (fun _ => true) 0).flatMap markerAt

/-- The places where a block of the user's is marked. -/
def bracesOf (o : Origin) : List Text.Span :=
  if o.generated then [] else o.provenance.toList.flatMap fun p =>
    p.openBrace :: if (p.parent.map fun site => site.construct.isFunctionLike).getD false then []
      else [p.closeBrace]

/-- The places where a block or an empty statement of the user's is marked. -/
def marksOf : Visit → List Text.Span
  | .node _ (.stmt (.block b)) => bracesOf b.origin
  | .node _ (.stmt (.noOp o)) => if o.generated then [] else [o.span]
  | _ => []

/-- The places that are marked in a body. -/
def markedPlaces (b : Block) : List Text.Span := (b.visits (fun _ => true) 0).flatMap marksOf

/-- Markers count as their places. -/
def places : Tally Text.Span := { marker := fun place => [place] }

theorem places_fair : places.Fair true where
  marked := .inl rfl
  unscoped _ := rfl
  locals _ _ _ h := h
  handler _ _ _ h := h

theorem places_silent (plan : Plan) : Silent places plan where
  locals _ _ := rfl
  handler _ := rfl
  state _ _ := rfl
  current _ _ := rfl

theorem places_expr (e : Expr) : places.expr e = [] := Tally.expr_eq_nil (fun _ => rfl) e

mutual

/-- No marker stands in an expression, nor a place for one. -/
theorem expr_unmarked {g : Visit → List Text.Span} (hexpr : ∀ d e, g (.node d (.expr e)) = [])
    (hrest : ∀ text, g (.unhandled text) = []) : ∀ (e : Expr) (d : Nat),
    (e.visits (fun _ => true) d).flatMap g = []
  | .absent, _ => rfl
  | .literal .., _ | .localRef .., _ | .parameterRef .., _ | .this .., _ => by
    simp [Expr.visits, enter_all, hexpr]
  | .fieldRef _ r _, d => by simp [Expr.visits, enter_all, hexpr, expr_unmarked hexpr hrest r]
  | .assignment _ a b, d | .binary _ _ a b, d => by
    simp [Expr.visits, enter_all, hexpr, expr_unmarked hexpr hrest a, expr_unmarked hexpr hrest b]
  | .unary _ _ e, d => by simp [Expr.visits, enter_all, hexpr, expr_unmarked hexpr hrest e]
  | .call _ r _ args, d => by
    simp [Expr.visits, enter_all, hexpr, expr_unmarked hexpr hrest r,
      exprs_unmarked hexpr hrest args]
  | .foreign .., _ => by simp [Expr.visits, enter_all, hexpr, hrest]

theorem exprs_unmarked {g : Visit → List Text.Span} (hexpr : ∀ d e, g (.node d (.expr e)) = [])
    (hrest : ∀ text, g (.unhandled text) = []) : ∀ (es : List Expr) (d : Nat),
    (Expr.visitsAll (fun _ => true) d es).flatMap g = []
  | [], _ => rfl
  | e :: rest, d => by
    simp [Expr.visitsAll, expr_unmarked hexpr hrest e, exprs_unmarked hexpr hrest rest]

end

theorem expr_markers (e : Expr) (d : Nat) : (e.visits (fun _ => true) d).flatMap markerAt = [] :=
  expr_unmarked (fun _ _ => rfl) (fun _ => rfl) e d

theorem expr_marks (e : Expr) (d : Nat) : (e.visits (fun _ => true) d).flatMap marksOf = [] :=
  expr_unmarked (fun _ _ => rfl) (fun _ => rfl) e d

/-- Blocks know their braces wherever they are the user's. -/
theorem places_braces {o : Origin}
    (ho : o.generated = true ∨ ∃ p, o.provenance = some p ∧ p.isBlock = true) :
    places.braces o = bracesOf o := by
  unfold Tally.braces bracesOf
  split
  · rfl
  · rename_i hgenerated
    obtain ⟨p, hp, hblock⟩ := ho.resolve_left hgenerated
    rw [hp]
    simp [Provenance.isOutermostBody, hblock, places]

/-! ## Bodies that lowering has made -/

variable {again : Bool}

mutual

theorem settled_markers : ∀ {s : Stmt}, Settled true again s → ∀ d,
    (s.visits (fun _ => true) d).flatMap markerAt = places.stmt s
  | .block b, hs, d => settledBlock_markers (b := b) hs d
  | .list _ ss, hs, d => by
    rw [Stmt.visits, enter_all, Tally.stmt]
    exact settledAll_markers (s := ss) hs (d + 1)
  | .sequencePoint .., _, _ => by simp [Stmt.visits, enter_all, markerAt, Tally.stmt, places]
  | .expression _ e, _, d | .return _ e, _, d | .yieldReturn _ e, _, d | .throw _ e, _, d
  | .conditionalGoto _ e _ _, _, d | .dispatch _ e _ _, _, d => by
    simp [Stmt.visits, enter_all, markerAt, Tally.stmt, expr_markers, places_expr]
  | .try _ body catches cleanup, ⟨hbody, hcatches, hcleanup, _⟩, d => by
    have hlast : (cleanup.visits (fun _ => true) (d + 1)).flatMap markerAt = places.block cleanup := by
      rcases hcleanup with rfl | hcleanup
      · rfl
      · exact settledBlock_markers hcleanup (d + 1)
    simp [Stmt.visits, enter_all, markerAt, Tally.stmt, hlast, settledBlock_markers hbody,
      settledCatches_markers hcatches]
  | .yieldBreak _, _, _ | .label .., _, _ | .goto .., _, _ => by
    simp [Stmt.visits, enter_all, markerAt, Tally.stmt]
  | .absent, hs, _ | .noOp .., hs, _ | .localDeclaration .., hs, _ | .if .., hs, _
  | .while .., hs, _ | .break .., hs, _ | .continue .., hs, _ | .foreign .., hs, _ => hs.elim

theorem settledAll_markers : ∀ {s : List Stmt}, SettledAll true again s → ∀ d,
    (Stmt.visitsAll (fun _ => true) d s).flatMap markerAt = places.stmts s
  | [], _, _ => rfl
  | s :: rest, hss, d => by
    simp [Stmt.visitsAll, settled_markers hss.1, settledAll_markers hss.2]

/-- A block that lowering has made counts as the markers that are in it. -/
theorem settledBlock_markers : ∀ {b : Block}, SettledBlock true again b → ∀ d,
    (b.visits (fun _ => true) d).flatMap markerAt = places.block b
  | .absent, hb, _ => hb.elim
  | .mk o ls ss, hb, d => by
    rw [Block.visits, enter_all, Tally.block, places_fair.braces_eq hb.1]
    exact settledAll_markers (s := ss) hb.2 (d + 1)

theorem settledCatches_markers : ∀ {cs : List Catch}, SettledCatches true again cs → ∀ d,
    (Catch.visitsAll (fun _ => true) d cs).flatMap markerAt = places.catches cs
  | [], _, _ => rfl
  | .mk _ _ body :: rest, hcs, d => by
    simp [Catch.visitsAll, Tally.catches, settledBlock_markers hcs.1, settledCatches_markers hcs.2,
      places]

end

/-! ## Bodies of a source -/

variable {params : List Param}

mutual

theorem bound_marks : ∀ {s : Stmt} {loop : Option (Label × Label)} {n m : Nat},
    BoundStmt params loop n s m → ∀ d,
    (s.visits (fun _ => true) d).flatMap marksOf = places.stmt s
  | .block b, _, _, _, hs, d => boundBlock_marks (b := b) hs d
  | .noOp _, _, _, _, _, d => by
    simp [Stmt.visits, enter_all, marksOf, Tally.stmt, places]
  | .localDeclaration o l init, _, _, _, _, d => by
    simp [Stmt.visits, enter_all, marksOf, Tally.stmt, expr_marks, places_expr]
  | .expression _ e, _, _, _, _, d | .return _ e, _, _, _, _, d | .yieldReturn _ e, _, _, _, _, d
  | .throw _ e, _, _, _, _, d => by
    simp [Stmt.visits, enter_all, marksOf, Tally.stmt, expr_marks, places_expr]
  | .if _ c t f, _, _, _, ⟨_, k, ht, hf⟩, d => by
    have hlast : (f.visits (fun _ => true) (d + 1)).flatMap marksOf = places.stmt f := by
      rcases hf with ⟨rfl, -⟩ | hf
      · rfl
      · exact bound_marks hf (d + 1)
    simp [Stmt.visits, enter_all, marksOf, Tally.stmt, expr_marks, places_expr, hlast,
      bound_marks ht]
  | .while _ c body _ _, _, _, _, ⟨_, _, _, hbody⟩, d => by
    simp [Stmt.visits, enter_all, marksOf, Tally.stmt, expr_marks, places_expr, bound_marks hbody]
  | .try _ body catches cleanup, _, _, _, ⟨k, j, hbody, hcatches, hcleanup, _⟩, d => by
    have hlast : (cleanup.visits (fun _ => true) (d + 1)).flatMap marksOf = places.block cleanup := by
      rcases hcleanup with ⟨rfl, -⟩ | hcleanup
      · rfl
      · exact boundBlock_marks hcleanup (d + 1)
    simp [Stmt.visits, enter_all, marksOf, Tally.stmt, hlast, boundBlock_marks hbody,
      boundCatches_marks hcatches]
  | .yieldBreak _, _, _, _, _, _ | .break .., _, _, _, _, _ | .continue .., _, _, _, _, _
  | .label .., _, _, _, _, _ | .goto .., _, _, _, _, _ => by
    simp [Stmt.visits, enter_all, marksOf, Tally.stmt]
  | .absent, _, _, _, hs, _ | .list .., _, _, _, hs, _ | .sequencePoint .., _, _, _, hs, _
  | .conditionalGoto .., _, _, _, hs, _ | .dispatch .., _, _, _, hs, _
  | .foreign .., _, _, _, hs, _ => hs.elim

theorem boundAll_marks : ∀ {ss : List Stmt} {loop : Option (Label × Label)} {n m : Nat},
    BoundStmts params loop n ss m → ∀ d,
    (Stmt.visitsAll (fun _ => true) d ss).flatMap marksOf = places.stmts ss
  | [], _, _, _, _, _ => rfl
  | s :: rest, _, _, _, ⟨k, hs, hrest⟩, d => by
    simp [Stmt.visitsAll, bound_marks hs, boundAll_marks hrest]

/-- A block of a source counts as the places that are marked in it. -/
theorem boundBlock_marks : ∀ {b : Block} {loop : Option (Label × Label)} {n m : Nat},
    BoundBlock params loop n b m → ∀ d,
    (b.visits (fun _ => true) d).flatMap marksOf = places.block b
  | .absent, _, _, _, hb, _ => hb.elim
  | .mk o ls ss, _, _, _, ⟨hbraces, hss⟩, d => by
    have hinner := boundAll_marks hss (d + 1)
    rw [Block.visits, enter_all, Tally.block, places_braces hbraces, ← hinner]
    rfl

theorem boundCatches_marks : ∀ {cs : List Catch} {loop : Option (Label × Label)} {n m : Nat},
    BoundCatches params loop n cs m → ∀ d,
    (Catch.visitsAll (fun _ => true) d cs).flatMap marksOf = places.catches cs
  | [], _, _, _, _, _ => rfl
  | .mk _ _ body :: rest, _, _, _, ⟨k, hbody, hrest⟩, d => by
    simp [Catch.visitsAll, Tally.catches, boundBlock_marks hbody, boundCatches_marks hrest, places]

end

/-! ## Methods -/

theorem places_transported : Transports Hoists places places where
  marker _ := rfl
  expr _ e e' _ := by rw [places_expr, places_expr]
  locals _ _ := ⟨rfl, rfl⟩
  handler _ _ := rfl

/-- A lowered block has the markers that it counts as. -/
theorem markers_of_walked {b b' : Block} (h : WalkedBlock true b b') :
    markersIn b' = places.block b' :=
  @settledBlock_markers true _ (walkedBlock_settled (.inl rfl) h) 0

/-- The bodies that lowering makes of a method have one marker for each place that is marked in the
method, and no others. -/
theorem markers_conserved {file source : String} {program : Program}
    (hread : read file source = .ok program) {m : MethodBody} (hm : m ∈ program.methods)
    {l : Lowered} (hlower : lowerMethod true m = .ok l) :
    (l.bodies.flatMap fun x => markersIn x.body).Perm (markedPlaces m.body) := by
  have hbound := bound_methods hread hm
  obtain ⟨n, hblock⟩ := hbound.bound
  have hmarked : markedPlaces m.body = places.block m.body := boundBlock_marks hblock 0
  obtain ⟨w, k, hwalk, -, hverify⟩ := walkBody_ok hbound true
  have hwalked := walkedBlock_of_ok hwalk
  have hbody := walkedBlock_tally places_fair hwalked
  rw [hmarked]
  cases l with
  | plain m' =>
    have hplain : m.symbol.isIterator = false := by
      refine Bool.eq_false_iff.mpr fun hiterator => ?_
      rw [lowerMethod_of_build hiterator hwalk hverify] at hlower
      split at hlower
      · rename_i machine _
        cases hcheck : machine.methods.forM checkMade with
        | ok u =>
          rw [hcheck] at hlower
          cases hlower
        | error fault =>
          rw [hcheck] at hlower
          cases hlower
      · cases hlower
    rw [lowerMethod_of_walk hplain hwalk] at hlower
    split at hlower
    · cases hlower
      simpa [Lowered.bodies, markers_of_walked hwalked] using hbody
    · cases hlower
  | machine sm =>
    obtain ⟨plan, w', b, k', n', hwalk', hprepares, hbuilt⟩ := built_of_walked hread hm hlower
    obtain rfl : w' = w := by
      rw [hwalk] at hwalk'
      cases hwalk'
      rfl
    have hmethods := hbuilt.tally hprepares places_fair (places_silent plan)
    obtain ⟨h, h', a, -, hhoist, -⟩ := hprepares
    rw [movedBlock_tally places_transported (movedBlock_of_ok hhoist)] at hmethods
    have hmarkers : (sm.methods.flatMap fun x => markersIn x.body) =
        sm.methods.flatMap fun x => places.block x.body := by
      refine List.flatMap_congr fun x hx => ?_
      obtain ⟨before, hbefore⟩ := hbuilt.walked x hx
      exact markers_of_walked hbefore
    rw [Lowered.bodies, hmarkers]
    exact hmethods.trans hbody

/-- A program with an empty statement, and blocks that go into the method of a finally. -/
def markedSource : String :=
  "class C \x7b extern void F(int n); iterator int M(int n) \x7b var i int = 0; while (i < n) \x7b " ++
    "try \x7b if (i == 1) ; else yield return i; \x7d finally \x7b \x7b F(i); \x7d \x7d " ++
    "i = i + 1; \x7d \x7d \x7d"

theorem markers_conserved_nested : ∃ program m sm, read "" markedSource = .ok program ∧
    m ∈ program.methods ∧ lowerMethod true m = .ok (.machine sm) ∧
    (markedPlaces m.body).length = 10 ∧
    (sm.methods.map fun x => (markersIn x.body).length) = [6, 0, 4] ∧
    ((Lowered.machine sm).bodies.flatMap fun x => markersIn x.body).Perm (markedPlaces m.body) := by
  have hfact : ((sample true markedSource).map fun (m, sm) => ((markedPlaces m.body).length,
      sm.methods.map fun x => (markersIn x.body).length)) = some (10, [6, 0, 4]) := by
    rw [sample, show markedSource = .ofList _ from append_ofList (append_ofList rfl rfl) rfl,
      read_ofList]
    decide +kernel
  obtain ⟨⟨m, sm⟩, hsample, hcounts⟩ := Option.map_eq_some_iff.mp hfact
  obtain ⟨program, hread, hm, hlower⟩ := sample_eq_some hsample
  simp only [Prod.mk.injEq] at hcounts
  exact ⟨program, m, sm, hread, hm, hlower, hcounts.1, hcounts.2, markers_conserved hread hm hlower⟩

end Resumable.Lowering
