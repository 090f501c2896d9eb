import Resumable.Proofs.Machine.Flow
import Resumable.Proofs.StateMachine.Extracted
import Resumable.Proofs.StateMachine.Leaving
import Resumable.Proofs.StateMachine.Yields

/-!
# Parts without suspensions, and parts that hoisting keeps

The finally of a frame becomes a method without being converted.  It counts as converted outside of
every frame (`emitsBlock_self`), so what is said of converted parts is said of it.  Hoisting keeps how
many suspensions are in a part and which labels stand outside of its frames (`moved_places`), and the
frames that the analysis finds are as many as the finallys that are extracted (`matches_length`).
-/

set_option autoImplicit false

namespace Resumable.StateMachine

open Resumable.Symbol Resumable.Tree Resumable.Source Resumable.Lowering
open Resumable.Machine hiding Region Outcome Handler

/-! ## Parts that stay as they are -/

/-- The part neither returns nor suspends, nor does it end the elements. -/
def Still (exits : List Kind) : Prop :=
  .return ∉ exits ∧ .yieldReturn ∉ exits ∧ .yieldBreak ∉ exits

theorem Still.append {a b : List Kind} : Still (a ++ b) ↔ Still a ∧ Still b := by
  simp only [Still, List.mem_append, not_or]
  grind

section Self

variable {P : Expr → Prop} {plan : Plan} {owner : TypeDecl} {owners : List (Option Label × Int)}
  {layer : Layer → Prop}

/-- A label outside of every frame leads to itself. -/
theorem Leaving.self {l : Option Label} (h : owners.lookup l = some stateRunning) :
    Leaving owners [] l l := ⟨[], .here h⟩

mutual

theorem emits_self : ∀ {s : Stmt}, Ready P s → Still (exitsStmt s) →
    (∀ l ∈ targetsStmt s, owners.lookup l = some stateRunning) →
    Emits plan (Leaving owners) layer [] s {} s
  | .block b, hs, hstill, hjumps => ⟨b, emitsBlock_self (b := b) hs hstill hjumps, rfl⟩
  | .list _ ss, hs, hstill, hjumps => ⟨ss, @emitsAll_self ss hs hstill hjumps, rfl⟩
  | .goto _ l, _, _, hjumps | .conditionalGoto _ _ _ l, _, _, hjumps =>
    ⟨rfl, l, .self (hjumps l List.mem_cons_self), rfl⟩
  | .label .., _, _, _ | .sequencePoint .., _, _, _ | .expression .., _, _, _
  | .throw .., _, _, _ => ⟨rfl, rfl⟩
  | .try _ body catches cleanup, ⟨hbody, hcatches, hcleanup, _⟩, hstill, hjumps => by
    rw [exitsStmt, Still.append, Still.append] at hstill
    simp only [targetsStmt, forall_mem_append] at hjumps
    have hframed : ¬ framed body cleanup = true := fun h => hstill.1.1.2.1 (framed_iff.mp h).2
    rw [Emits, if_neg hframed]
    refine ⟨rfl, body, catches, cleanup, emitsBlock_self hbody hstill.1.1 hjumps.1.1,
      emitsCatches_self hcatches hstill.1.2 hjumps.1.2, ?_, rfl⟩
    exact hcleanup.imp (fun h => ⟨h, h⟩) fun h => emitsBlock_self h hstill.2 hjumps.2
  | .return .., _, hstill, _ => absurd List.mem_cons_self hstill.1
  | .yieldReturn .., _, hstill, _ => absurd List.mem_cons_self hstill.2.1
  | .yieldBreak _, _, hstill, _ => absurd List.mem_cons_self hstill.2.2
  | .absent, h, _, _ | .noOp .., h, _, _ | .localDeclaration .., h, _, _ | .if .., h, _, _
  | .while .., h, _, _ | .break .., h, _, _ | .continue .., h, _, _ | .dispatch .., h, _, _
  | .foreign .., h, _, _ => h.elim

theorem emitsAll_self : ∀ {ss : List Stmt}, ReadyAll P ss → Still (exitsStmts ss) →
    (∀ l ∈ targetsStmts ss, owners.lookup l = some stateRunning) →
    EmitsAll plan (Leaving owners) layer [] ss {} ss
  | [], _, _, _ => ⟨rfl, rfl⟩
  | s :: rest, hss, hstill, hjumps => by
    rw [exitsStmts, Still.append] at hstill
    rw [targetsStmts, forall_mem_append] at hjumps
    exact ⟨{}, {}, s, rest, emits_self hss.1 hstill.1 hjumps.1,
      emitsAll_self hss.2 hstill.2 hjumps.2, rfl, rfl⟩

/-- A block without suspensions, returns and ends stays as it is if its jumps stay outside of every
frame. -/
theorem emitsBlock_self : ∀ {b : Block}, ReadyBlock P b → Still (exitsBlock b) →
    (∀ l ∈ targetsBlock b, owners.lookup l = some stateRunning) →
    EmitsBlock plan (Leaving owners) layer [] b {} b
  | .absent, h, _, _ => h.elim
  | .mk _ _ ss, hb, hstill, hjumps => ⟨ss, @emitsAll_self ss hb.2 hstill hjumps, rfl⟩

theorem emitsCatches_self : ∀ {cs : List Catch}, ReadyCatches P cs → Still (exitsCatches cs) →
    (∀ l ∈ targetsCatches cs, owners.lookup l = some stateRunning) →
    EmitsCatches plan (Leaving owners) layer [] cs {} cs
  | [], _, _, _ => ⟨rfl, rfl⟩
  | .mk _ _ body :: rest, hcs, hstill, hjumps => by
    rw [exitsCatches, Still.append] at hstill
    rw [targetsCatches, forall_mem_append] at hjumps
    exact ⟨{}, {}, body, rest, emitsBlock_self hcs.1 hstill.1 hjumps.1,
      emitsCatches_self hcs.2 hstill.2 hjumps.2, rfl, rfl⟩

end

mutual

theorem matches_self : ∀ (s : Stmt) (k : Nat), .yieldReturn ∉ exitsStmt s →
    Matches owner owners k s {}
  | .block b, k, h => matchesBlock_self b k h
  | .list _ ss, k, h => matchesAll_self ss k h
  | .try _ body catches cleanup, k, h => by
    simp only [exitsStmt, List.mem_append, not_or] at h
    rw [Matches, if_neg fun hframed => h.1.1 (framed_iff.mp hframed).2]
    exact ⟨rfl, matchesBlock_self body _ h.1.1, matchesCatches_self catches _ h.1.2,
      matchesBlock_self cleanup _ h.2⟩
  | .yieldReturn .., _, h => absurd List.mem_cons_self h
  | .absent, _, _ | .noOp .., _, _ | .localDeclaration .., _, _ | .if .., _, _ | .while .., _, _
  | .break .., _, _ | .continue .., _, _ | .dispatch .., _, _ | .foreign .., _, _
  | .label .., _, _ | .sequencePoint .., _, _ | .expression .., _, _ | .throw .., _, _
  | .goto .., _, _ | .conditionalGoto .., _, _ | .return .., _, _ | .yieldBreak _, _, _ => rfl

theorem matchesAll_self : ∀ (ss : List Stmt) (k : Nat), .yieldReturn ∉ exitsStmts ss →
    MatchesAll owner owners k ss {}
  | [], _, _ => rfl
  | s :: rest, k, h => by
    rw [exitsStmts, List.mem_append, not_or] at h
    exact ⟨{}, {}, matches_self s k h.1, matchesAll_self rest _ h.2, rfl⟩

/-- In a block without suspensions there is nothing. -/
theorem matchesBlock_self : ∀ (b : Block) (k : Nat), .yieldReturn ∉ exitsBlock b →
    MatchesBlock owner owners k b {}
  | .absent, _, _ => rfl
  | .mk _ _ ss, k, h => matchesAll_self ss k h

theorem matchesCatches_self : ∀ (cs : List Catch) (k : Nat), .yieldReturn ∉ exitsCatches cs →
    MatchesCatches owner owners k cs {}
  | [], _, _ => rfl
  | .mk _ _ body :: rest, k, h => by
    rw [exitsCatches, List.mem_append, not_or] at h
    exact ⟨{}, {}, matchesBlock_self body k h.1, matchesCatches_self rest _ h.2, rfl⟩

end

end Self

/-! ## As many frames as finallys -/

section Frames

variable {P : Expr → Prop} {owner : TypeDecl} {owners : List (Option Label × Int)}

theorem Frame.preorderAll_append_length (a b : Contents) :
    (Frame.preorderAll (a.append b).children).length =
      (Frame.preorderAll a.children).length + (Frame.preorderAll b.children).length := by
  rw [Contents.append, Frame.preorderAll_append, List.length_append]

mutual

theorem matches_length : ∀ {s : Stmt} {k : Nat} {c : Contents}, Ready P s →
    Matches owner owners k s c →
    (Frame.preorderAll c.children).length = (cleanupsStmt s).length
  | .block b, _, _, hs, h => matchesBlock_length (b := b) hs h
  | .list _ ss, k, c, hs, h => @matchesAll_length ss k c hs h
  | .try _ body catches cleanup, _, _, ⟨hbody', hcatches', hcleanup', _⟩, h => by
    rw [Matches] at h
    rw [cleanupsStmt]
    split at h <;> rename_i hframed
    · obtain ⟨state, entry, method, inner, rfl, -, -, hbody⟩ := h
      rw [if_pos hframed, List.length_cons, ← matchesBlock_length hbody' hbody]
      simp [Frame.preorderAll, Frame.preorder]
    · obtain ⟨rfl, hbody, hcatches, hcleanup⟩ := h
      rw [if_neg hframed, List.length_append, List.length_append, ← matchesBlock_length hbody' hbody,
        ← matchesCatches_length hcatches' hcatches]
      rcases hcleanup' with rfl | hcleanup'
      · rfl
      · rw [← matchesBlock_length hcleanup' hcleanup]
        rfl
  | .yieldReturn .., _, _, _, ⟨_, rfl⟩ => rfl
  | .label .., _, _, _, rfl | .sequencePoint .., _, _, _, rfl | .expression .., _, _, _, rfl
  | .throw .., _, _, _, rfl | .goto .., _, _, _, rfl | .conditionalGoto .., _, _, _, rfl
  | .return .., _, _, _, rfl | .yieldBreak _, _, _, _, rfl => rfl
  | .absent, _, _, hs, _ | .noOp .., _, _, hs, _ | .localDeclaration .., _, _, hs, _
  | .if .., _, _, hs, _ | .while .., _, _, hs, _ | .break .., _, _, hs, _
  | .continue .., _, _, hs, _ | .dispatch .., _, _, hs, _ | .foreign .., _, _, hs, _ => hs.elim

theorem matchesAll_length : ∀ {ss : List Stmt} {k : Nat} {c : Contents}, ReadyAll P ss →
    MatchesAll owner owners k ss c →
    (Frame.preorderAll c.children).length = (cleanupsStmts ss).length
  | [], _, _, _, rfl => rfl
  | s :: rest, _, _, hss, ⟨a, b, h, h', rfl⟩ => by
    rw [Frame.preorderAll_append_length, matches_length hss.1 h, matchesAll_length hss.2 h',
      cleanupsStmts, List.length_append]

/-- The frames in a block are as many as the finallys of its extracted tries. -/
theorem matchesBlock_length : ∀ {b : Block} {k : Nat} {c : Contents}, ReadyBlock P b →
    MatchesBlock owner owners k b c →
    (Frame.preorderAll c.children).length = (cleanupsBlock b).length
  | .absent, _, _, hb, _ => hb.elim
  | .mk _ _ ss, k, c, hb, h => @matchesAll_length ss k c hb.2 h

theorem matchesCatches_length : ∀ {cs : List Catch} {k : Nat} {c : Contents}, ReadyCatches P cs →
    MatchesCatches owner owners k cs c →
    (Frame.preorderAll c.children).length = (cleanupsCatches cs).length
  | [], _, _, _, rfl => rfl
  | .mk _ _ body :: rest, _, _, hcs, ⟨a, b, h, h', rfl⟩ => by
    rw [Frame.preorderAll_append_length, matchesBlock_length hcs.1 h, matchesCatches_length hcs.2 h',
      cleanupsCatches, List.length_append]

end

end Frames

/-! ## The same contents -/

/-- As many suspensions and outermost frames are in both. -/
def Contents.Sized (c c' : Contents) : Prop :=
  c.suspensions.length = c'.suspensions.length ∧ c.children.length = c'.children.length

theorem Contents.Sized.append {a b a' b' : Contents} (h : a.Sized a') (h' : b.Sized b') :
    (a.append b).Sized (a'.append b') := by
  simp only [Sized, Contents.append, List.length_append, h.1, h.2, h'.1, h'.2, and_self]

/-- Contents of the same size that are put together are the same if the results are. -/
theorem Contents.Sized.inj {a b a' b' : Contents} (h : a.Sized a')
    (heq : a.append b = a'.append b') : a = a' ∧ b = b' := by
  simp only [Contents.append, Contents.mk.injEq] at heq
  obtain ⟨hs, hs'⟩ := List.append_inj heq.1 h.1
  obtain ⟨hf, hf'⟩ := List.append_inj heq.2 h.2
  exact ⟨by cases a; cases a'; simp_all, by cases b; cases b'; simp_all⟩

section Sized

variable {plan : Plan} {jump : List Layer → Option Label → Option Label → Prop} {layer : Layer → Prop}
  {owner : TypeDecl} {owners : List (Option Label × Int)}

mutual

theorem emits_sized : ∀ {s t : Stmt} {layers : List Layer} {k : Nat} {c c' : Contents},
    Emits plan jump layer layers s c t → Matches owner owners k s c' → c.Sized c'
  | .block b, _, _, _, _, _, ⟨_, hb, _⟩, h => emitsBlock_sized (b := b) hb h
  | .list _ ss, _, _, _, _, _, ⟨_, hss, _⟩, h => @emitsAll_sized ss _ _ _ _ _ hss h
  | .yieldReturn .., _, _, _, _, _, ⟨_, rfl, _⟩, ⟨_, rfl⟩ => ⟨rfl, rfl⟩
  | .try _ body catches cleanup, _, _, _, _, _, h, h' => by
    rw [Emits] at h
    rw [Matches] at h'
    split at h <;> rename_i hframed
    · rw [if_pos hframed] at h'
      obtain ⟨f, routes, start, b', behind, rfl, -⟩ := h
      obtain ⟨state, entry, method, inner, rfl, -⟩ := h'
      exact ⟨rfl, rfl⟩
    · rw [if_neg hframed] at h'
      obtain ⟨rfl, -⟩ := h
      obtain ⟨rfl, -⟩ := h'
      exact ⟨rfl, rfl⟩
  | .label .., _, _, _, _, _, ⟨rfl, _⟩, rfl | .sequencePoint .., _, _, _, _, _, ⟨rfl, _⟩, rfl
  | .expression .., _, _, _, _, _, ⟨rfl, _⟩, rfl | .throw .., _, _, _, _, _, ⟨rfl, _⟩, rfl
  | .goto .., _, _, _, _, _, ⟨rfl, _⟩, rfl | .conditionalGoto .., _, _, _, _, _, ⟨rfl, _⟩, rfl
  | .yieldBreak _, _, _, _, _, _, ⟨rfl, _⟩, rfl => ⟨rfl, rfl⟩
  | .absent, _, _, _, _, _, h, _ | .noOp .., _, _, _, _, _, h, _
  | .localDeclaration .., _, _, _, _, _, h, _ | .if .., _, _, _, _, _, h, _
  | .while .., _, _, _, _, _, h, _ | .break .., _, _, _, _, _, h, _
  | .continue .., _, _, _, _, _, h, _ | .dispatch .., _, _, _, _, _, h, _
  | .foreign .., _, _, _, _, _, h, _ | .return .., _, _, _, _, _, h, _ => h.elim

theorem emitsAll_sized : ∀ {ss ts : List Stmt} {layers : List Layer} {k : Nat} {c c' : Contents},
    EmitsAll plan jump layer layers ss c ts → MatchesAll owner owners k ss c' → c.Sized c'
  | [], _, _, _, _, _, ⟨rfl, _⟩, rfl => ⟨rfl, rfl⟩
  | _ :: _, _, _, _, _, _, ⟨_, _, _, _, hs, hrest, rfl, _⟩, ⟨_, _, hs', hrest', rfl⟩ =>
    (emits_sized hs hs').append (emitsAll_sized hrest hrest')

/-- The conversion and the analysis find as many suspensions and frames in a block. -/
theorem emitsBlock_sized : ∀ {b b' : Block} {layers : List Layer} {k : Nat} {c c' : Contents},
    EmitsBlock plan jump layer layers b c b' → MatchesBlock owner owners k b c' → c.Sized c'
  | .absent, _, _, _, _, _, h, _ => h.elim
  | .mk _ _ ss, _, _, _, _, _, ⟨_, hss, _⟩, h => @emitsAll_sized ss _ _ _ _ _ hss h

end

end Sized

/-! ## What hoisting keeps -/

/-- The same labels stand outside of frames, and there are as many suspensions. -/
structure KeepsPlaces (own own' : List (Option Label)) (es es' : List Expr) : Prop where
  own : own' = own
  count : es'.length = es.length

theorem KeepsPlaces.append {own own' ls ls' : List (Option Label)} {es es' xs xs' : List Expr}
    (h : KeepsPlaces own own' es es') (h' : KeepsPlaces ls ls' xs xs') :
    KeepsPlaces (own ++ ls) (own' ++ ls') (es ++ xs) (es' ++ xs') :=
  ⟨by rw [h.own, h'.own], by rw [List.length_append, List.length_append, h.count, h'.count]⟩

section Moved

variable {R : Hoisted → Expr → Expr → Prop}

mutual

theorem moved_places : ∀ {s t : Stmt} {h h' : Hoisted}, Moved R h s t h' →
    KeepsPlaces (ownStmt s) (ownStmt t) (elementsStmt s) (elementsStmt t)
  | .block b, _, _, _, ⟨_, hb, rfl⟩ => movedBlock_places (b := b) hb
  | .list _ ss, _, _, _, ⟨_, hss, rfl⟩ => movedAll_places (s := ss) hss
  | .try _ body catches cleanup, _, _, _, ⟨body', catches', cleanup', _, _, hcleanup, hcatches,
      hbody, rfl⟩ => by
    have hparts := ((movedBlock_places hbody).append (movedCatches_places hcatches)).append
      (movedBlock_places hcleanup)
    have hframed : framed body' cleanup' = framed body cleanup :=
      framed_congr (movedBlock_tries hbody).exits hcleanup.absent_iff
    refine ⟨?_, hparts.count⟩
    rw [ownStmt, ownStmt, hframed, hparts.own]
  | .expression .., _, _, _, ⟨_, _, rfl, _⟩ | .yieldReturn .., _, _, _, ⟨_, _, rfl, _⟩
  | .conditionalGoto .., _, _, _, ⟨_, _, rfl, _⟩ | .dispatch .., _, _, _, ⟨_, _, rfl, _⟩
  | .return .., _, _, _, ⟨_, _, rfl, _⟩ | .throw .., _, _, _, ⟨_, _, rfl, _⟩
  | .sequencePoint .., _, _, _, ⟨rfl, _⟩ | .yieldBreak _, _, _, _, ⟨rfl, _⟩
  | .label .., _, _, _, ⟨rfl, _⟩ | .goto .., _, _, _, ⟨rfl, _⟩ => ⟨rfl, rfl⟩
  | .absent, _, _, _, hs | .noOp .., _, _, _, hs | .localDeclaration .., _, _, _, hs
  | .if .., _, _, _, hs | .while .., _, _, _, hs | .break .., _, _, _, hs
  | .continue .., _, _, _, hs | .foreign .., _, _, _, hs => by
    rw [Moved] at hs
    exact hs.elim
termination_by structural s => s

theorem movedAll_places : ∀ {s ts : List Stmt} {h h' : Hoisted}, MovedAll R h s ts h' →
    KeepsPlaces (ownStmts s) (ownStmts ts) (elementsStmts s) (elementsStmts ts)
  | [], _, _, _, ⟨rfl, _⟩ => ⟨rfl, rfl⟩
  | _ :: _, _, _, _, ⟨_, _, _, hs, hrest, rfl⟩ => (moved_places hs).append (movedAll_places hrest)
termination_by structural ss => ss

/-- Hoisting keeps the labels outside of the frames of a block, and how many suspensions it has. -/
theorem movedBlock_places : ∀ {b b' : Block} {h h' : Hoisted}, MovedBlock R h b b' h' →
    KeepsPlaces (ownBlock b) (ownBlock b') (elementsBlock b) (elementsBlock b')
  | .absent, _, _, _, ⟨rfl, _⟩ => ⟨rfl, rfl⟩
  | .mk _ _ ss, _, _, _, ⟨_, _, _, hss, rfl⟩ => movedAll_places (s := ss) hss
termination_by structural b => b

theorem movedCatches_places : ∀ {cs ds : List Catch} {h h' : Hoisted}, MovedCatches R h cs ds h' →
    KeepsPlaces (ownCatches cs) (ownCatches ds) (elementsCatches cs) (elementsCatches ds)
  | [], _, _, _, ⟨rfl, _⟩ => ⟨rfl, rfl⟩
  | .mk _ _ body :: _, _, _, _, ⟨_, _, _, hbody, hrest, rfl⟩ =>
    (movedBlock_places (b := body) hbody).append (movedCatches_places hrest)
termination_by structural cs => cs

end

end Moved

end Resumable.StateMachine
