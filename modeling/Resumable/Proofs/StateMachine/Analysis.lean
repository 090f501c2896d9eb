import Resumable.Proofs.Machine.Body
import Resumable.Proofs.StateMachine.Checking

/-!
# What the analysis finds

The analysis of a guarded body goes through.  It numbers the suspension points and frames as they
stand in the body (`Matches`), the labels it makes carry the numbers that lowering counts, and it
takes note of the frame, by its state, that each label is in.  No two frames have the same state, so
the state tells which labels stand directly inside a frame.
-/

set_option autoImplicit false

namespace Resumable.StateMachine

open Resumable.Report Resumable.Symbol Resumable.Tree Resumable.Source Resumable.Lowering
open Resumable.Machine (lookup_of_nodup)

/-! ## Steps with a state -/

namespace Stateful

variable {σ α β : Type}

theorem bind_apply (x : StateT σ Lower α) (f : α → StateT σ Lower β) (s : σ) (n : Nat) :
    (x >>= f) s n = match x s n with
      | (.ok (a, t), k) => f a t k
      | (.error e, k) => (.error e, k) := by
  change (x s >>= fun p => f p.1 p.2) n = _
  rw [Lower.bind_apply]
  cases x s n with
  | mk result k => cases result <;> rfl

theorem pure_apply (a : α) (s : σ) (n : Nat) :
    (pure a : StateT σ Lower α) s n = (.ok (a, s), n) := rfl

theorem get_apply (s : σ) (n : Nat) : (get : StateT σ Lower σ) s n = (.ok (s, s), n) := rfl

theorem set_apply (t s : σ) (n : Nat) :
    (set t : StateT σ Lower PUnit) s n = (.ok (⟨⟩, t), n) := rfl

theorem lift_apply (x : Lower α) (s : σ) (n : Nat) :
    (liftM x : StateT σ Lower α) s n = match x n with
      | (.ok a, k) => (.ok (a, s), k)
      | (.error e, k) => (.error e, k) := by
  change (x >>= fun a => (pure (a, s) : Lower (α × σ))) n = _
  rw [Lower.bind_apply]
  cases x n with
  | mk result k => cases result <;> rfl

end Stateful

/-! ## Labels that are made on the way -/

/-- The label is one that lowering makes, with a number behind `a` up to `b`. -/
def MadeLabel (a b : Nat) (l : Option Label) : Prop :=
  ∃ (stem : String) (k : Nat), l = some (.generated stem k) ∧ a < k ∧ k ≤ b ∧ stem ≠ "break" ∧
    stem ≠ "continue"

/-- Labels that lowering makes with certain numbers, none of them twice. -/
structure Numbered (a b : Nat) (labels : List (Option Label)) : Prop where
  le : a ≤ b
  nodup : labels.Nodup
  numbered : ∀ l ∈ labels, MadeLabel a b l

theorem MadeLabel.mono {a b c d : Nat} {l : Option Label} (h : MadeLabel a b l) (hca : c ≤ a)
    (hbd : b ≤ d) : MadeLabel c d l := by
  obtain ⟨stem, k, hl, hlow, hhigh, hstem⟩ := h
  exact ⟨stem, k, hl, by omega, by omega, hstem⟩

theorem MadeLabel.not_behind {a b c d : Nat} {l : Option Label} (h : MadeLabel a b l)
    (hbc : b ≤ c) : ¬ MadeLabel c d l := by
  obtain ⟨stem, k, rfl, -, hhigh, -⟩ := h
  rintro ⟨stem', k', hl, hlow, -, -⟩
  simp only [Option.some.injEq, Label.generated.injEq, Int.natCast_inj] at hl
  omega

namespace Numbered

variable {a b c : Nat} {ls ls' : List (Option Label)}

theorem nil : Numbered a a [] where
  le := Nat.le_refl a
  nodup := .nil
  numbered _ h := nomatch h

theorem single {stem : String} (hbreak : stem ≠ "break") (hcontinue : stem ≠ "continue") :
    Numbered a (a + 1) [some (.generated stem (a + 1 : Nat))] where
  le := Nat.le_succ a
  nodup := by simp
  numbered l hl := by
    rw [List.mem_singleton.mp hl]
    exact ⟨stem, a + 1, rfl, by omega, by omega, hbreak, hcontinue⟩

theorem append (h : Numbered a c ls) (h' : Numbered c b ls') : Numbered a b (ls ++ ls') where
  le := Nat.le_trans h.le h'.le
  nodup := by
    refine List.nodup_append.mpr ⟨h.nodup, h'.nodup, ?_⟩
    rintro l hl _ hl' rfl
    exact (h.numbered l hl).not_behind (Nat.le_refl c) (h'.numbered l hl')
  numbered l hl := by
    rcases List.mem_append.mp hl with hl | hl
    · exact (h.numbered l hl).mono (Nat.le_refl a) h'.le
    · exact (h'.numbered l hl).mono h.le (Nat.le_refl b)

theorem perm (h : Numbered a b ls) (hperm : ls'.Perm ls) : Numbered a b ls' where
  le := h.le
  nodup := hperm.nodup_iff.mpr h.nodup
  numbered l hl := h.numbered l (hperm.mem_iff.mp hl)

end Numbered

/-! ## Labels of frames -/

mutual

/-- The labels that resuming goes to inside a frame and before it, at any depth. -/
def Frame.labels : Frame → List (Option Label)
  | .mk _ entry _ suspensions children =>
    some entry :: (suspensions.map (fun s => some s.resume) ++ Frame.labelsAll children)

/-- The labels that resuming goes to in several frames. -/
def Frame.labelsAll : List Frame → List (Option Label)
  | [] => []
  | f :: rest => f.labels ++ Frame.labelsAll rest

end

/-- The labels that resuming goes to in a part of a body. -/
def Contents.labels (c : Contents) : List (Option Label) :=
  c.suspensions.map (fun s => some s.resume) ++ Frame.labelsAll c.children

theorem Frame.labelsAll_append (a b : List Frame) :
    Frame.labelsAll (a ++ b) = Frame.labelsAll a ++ Frame.labelsAll b := by
  induction a with
  | nil => rfl
  | cons f rest ih => simp only [List.cons_append, Frame.labelsAll, ih, List.append_assoc]

theorem Frame.mem_preorder_self (f : Frame) : f ∈ f.preorder := by
  obtain ⟨state, entry, cleanup, suspensions, children⟩ := f
  exact List.mem_cons_self

theorem Frame.preorder_eq (f : Frame) : f.preorder = f :: Frame.preorderAll f.children := by
  obtain ⟨state, entry, cleanup, suspensions, children⟩ := f
  rfl

theorem Frame.preorderAll_append (a b : List Frame) :
    Frame.preorderAll (a ++ b) = Frame.preorderAll a ++ Frame.preorderAll b := by
  induction a with
  | nil => rfl
  | cons f rest ih => simp only [List.cons_append, Frame.preorderAll, ih, List.append_assoc]

theorem Contents.labels_append (a b : Contents) :
    (a.append b).labels.Perm (a.labels ++ b.labels) := by
  refine List.perm_iff_count.mpr fun l => ?_
  simp only [Contents.labels, Contents.append, List.map_append, Frame.labelsAll_append,
    List.count_append]
  omega

theorem Contents.append_nil (c : Contents) : c.append {} = c := by
  simp [Contents.append]

theorem Contents.nil_append (c : Contents) : Contents.append {} c = c := rfl

/-! ## Labels that stay and finallys that go -/

mutual

/-- The labels of a statement that are not in finallys of frames. -/
def keptStmt : Stmt → List (Option Label)
  | .block b => keptBlock b
  | .list _ ss => keptStmts ss
  | .label _ l => [l]
  | .try _ body catches cleanup =>
    if framed body cleanup then keptBlock body
    else keptBlock body ++ keptCatches catches ++ keptBlock cleanup
  | _ => []

/-- The labels of statements that are not in finallys of frames. -/
def keptStmts : List Stmt → List (Option Label)
  | [] => []
  | s :: rest => keptStmt s ++ keptStmts rest

/-- The labels of a block that are not in finallys of frames. -/
def keptBlock : Block → List (Option Label)
  | .absent => []
  | .mk _ _ ss => keptStmts ss

/-- The labels of handlers that are not in finallys of frames. -/
def keptCatches : List Catch → List (Option Label)
  | [] => []
  | .mk _ _ body :: rest => keptBlock body ++ keptCatches rest

end

mutual

/-- The finallys of the frames in a statement. -/
def cleanupsStmt : Stmt → List Block
  | .block b => cleanupsBlock b
  | .list _ ss => cleanupsStmts ss
  | .if _ _ t f => cleanupsStmt t ++ cleanupsStmt f
  | .while _ _ body _ _ => cleanupsStmt body
  | .try _ body catches cleanup =>
    if framed body cleanup then cleanup :: cleanupsBlock body
    else cleanupsBlock body ++ cleanupsCatches catches ++ cleanupsBlock cleanup
  | _ => []

/-- The finallys of the frames in statements. -/
def cleanupsStmts : List Stmt → List Block
  | [] => []
  | s :: rest => cleanupsStmt s ++ cleanupsStmts rest

/-- The finallys of the frames in a block. -/
def cleanupsBlock : Block → List Block
  | .absent => []
  | .mk _ _ ss => cleanupsStmts ss

/-- The finallys of the frames in handlers. -/
def cleanupsCatches : List Catch → List Block
  | [] => []
  | .mk _ _ body :: rest => cleanupsBlock body ++ cleanupsCatches rest

end

/-- The method of the frame's finally does what the finally does. -/
def Extracted (owner : TypeDecl) (field : Field) (cleanup : Block) (f : Frame) : Prop :=
  ∃ name parent, f.cleanup = ⟨.cleanup owner name, .mk cleanup.origin []
    (assignState cleanup.origin.provenance field parent :: cleanup.statements)⟩

/-! ## Contents of a tree -/

mutual

/-- The expressions of the suspension points of a statement, in order. -/
def elementsStmt : Stmt → List Expr
  | .block b => elementsBlock b
  | .list _ ss => elementsStmts ss
  | .yieldReturn _ e => [e]
  | .try _ body catches cleanup =>
    elementsBlock body ++ elementsCatches catches ++ elementsBlock cleanup
  | _ => []

/-- The expressions of the suspension points of statements. -/
def elementsStmts : List Stmt → List Expr
  | [] => []
  | s :: rest => elementsStmt s ++ elementsStmts rest

/-- The expressions of the suspension points of a block. -/
def elementsBlock : Block → List Expr
  | .absent => []
  | .mk _ _ ss => elementsStmts ss

/-- The expressions of the suspension points of handlers. -/
def elementsCatches : List Catch → List Expr
  | [] => []
  | .mk _ _ body :: rest => elementsBlock body ++ elementsCatches rest

end

mutual

/-- A statement that does not suspend has no elements. -/
theorem elementsStmt_quiet : ∀ {s : Stmt}, .yieldReturn ∉ exitsStmt s → elementsStmt s = []
  | .block b, hs => elementsBlock_quiet (b := b) hs
  | .list _ ss, hs => @elementsStmts_quiet ss hs
  | .yieldReturn .., hs => absurd List.mem_cons_self hs
  | .try _ body catches cleanup, hs => by
    simp only [exitsStmt, List.mem_append, not_or] at hs
    simp only [elementsStmt, elementsBlock_quiet hs.1.1, elementsCatches_quiet hs.1.2,
      elementsBlock_quiet hs.2, List.append_nil]
  | .absent, _ | .sequencePoint .., _ | .noOp .., _ | .localDeclaration .., _ | .expression .., _
  | .return .., _ | .yieldBreak .., _ | .throw .., _ | .if .., _ | .while .., _ | .break .., _
  | .continue .., _ | .label .., _ | .goto .., _ | .conditionalGoto .., _ | .dispatch .., _
  | .foreign .., _ => rfl

theorem elementsStmts_quiet : ∀ {ss : List Stmt}, .yieldReturn ∉ exitsStmts ss →
    elementsStmts ss = []
  | [], _ => rfl
  | s :: rest, hs => by
    simp only [exitsStmts, List.mem_append, not_or] at hs
    simp only [elementsStmts, elementsStmt_quiet hs.1, elementsStmts_quiet hs.2, List.append_nil]

theorem elementsBlock_quiet : ∀ {b : Block}, .yieldReturn ∉ exitsBlock b → elementsBlock b = []
  | .absent, _ => rfl
  | .mk _ _ ss, hs => @elementsStmts_quiet ss hs

theorem elementsCatches_quiet : ∀ {cs : List Catch}, .yieldReturn ∉ exitsCatches cs →
    elementsCatches cs = []
  | [], _ => rfl
  | .mk _ _ body :: rest, hs => by
    simp only [exitsCatches, List.mem_append, not_or] at hs
    simp only [elementsCatches, elementsBlock_quiet hs.1, elementsCatches_quiet hs.2,
      List.append_nil]

end

mutual

/-- The suspension points and frames are those of the statement, `k` suspension points stand before
them, and the state of each frame tells which labels stand directly inside it. -/
def Matches (owner : TypeDecl) (owners : List (Option Label × Int)) (k : Nat) :
    Stmt → Contents → Prop
  | .block b, c => MatchesBlock owner owners k b c
  | .list _ ss, c => MatchesAll owner owners k ss c
  | .yieldReturn .., c => ∃ resume, c = ⟨[⟨(k + 1 : Nat), resume⟩], []⟩
  | .try _ body catches cleanup, c =>
    if framed body cleanup then ∃ state entry method inner,
      c = ⟨[], [.mk state entry method inner.suspensions inner.children]⟩ ∧
      method.symbol.owner = some owner ∧
      (∀ l, owners.lookup l = some state ↔ l ∈ ownBlock body) ∧
      MatchesBlock owner owners k body inner
    else c = {} ∧ MatchesBlock owner owners k body {} ∧
      MatchesCatches owner owners (k + (elementsBlock body).length) catches {} ∧
      MatchesBlock owner owners
        (k + ((elementsBlock body).length + (elementsCatches catches).length)) cleanup {}
  | _, c => c = {}

/-- The suspension points and frames are those of the statements. -/
def MatchesAll (owner : TypeDecl) (owners : List (Option Label × Int)) (k : Nat) :
    List Stmt → Contents → Prop
  | [], c => c = {}
  | s :: rest, c => ∃ a b, Matches owner owners k s a ∧
    MatchesAll owner owners (k + (elementsStmt s).length) rest b ∧ c = a.append b

/-- The suspension points and frames are those of the block. -/
def MatchesBlock (owner : TypeDecl) (owners : List (Option Label × Int)) (k : Nat) :
    Block → Contents → Prop
  | .absent, c => c = {}
  | .mk _ _ ss, c => MatchesAll owner owners k ss c

/-- The suspension points and frames are those of the handlers. -/
def MatchesCatches (owner : TypeDecl) (owners : List (Option Label × Int)) (k : Nat) :
    List Catch → Contents → Prop
  | [], c => c = {}
  | .mk _ _ body :: rest, c => ∃ a b, MatchesBlock owner owners k body a ∧
    MatchesCatches owner owners (k + (elementsBlock body).length) rest b ∧ c = a.append b

end

mutual

/-- There is nothing in a statement that does not suspend. -/
theorem matches_quiet {owner : TypeDecl} {owners : List (Option Label × Int)} :
    ∀ {k : Nat} {s : Stmt} {c : Contents}, .yieldReturn ∉ exitsStmt s →
      Matches owner owners k s c → c = {}
  | _, .block b, c, hs, h => matchesBlock_quiet (b := b) hs h
  | k, .list _ ss, c, hs, h => @matchesAll_quiet owner owners k ss c hs h
  | _, .yieldReturn .., c, hs, h => absurd List.mem_cons_self hs
  | _, .try _ body catches cleanup, c, hs, h => by
    have hframed : framed body cleanup = false := by
      refine Bool.eq_false_iff.mpr fun hframed => hs ?_
      simp [exitsStmt, (framed_iff.mp hframed).2]
    simp only [Matches, hframed, Bool.false_eq_true, if_false] at h
    exact h.1
  | _, .absent, _, _, h | _, .sequencePoint .., _, _, h | _, .noOp .., _, _, h
  | _, .localDeclaration .., _, _, h | _, .expression .., _, _, h | _, .return .., _, _, h
  | _, .yieldBreak .., _, _, h | _, .throw .., _, _, h | _, .if .., _, _, h | _, .while .., _, _, h
  | _, .break .., _, _, h | _, .continue .., _, _, h | _, .label .., _, _, h | _, .goto .., _, _, h
  | _, .conditionalGoto .., _, _, h | _, .dispatch .., _, _, h | _, .foreign .., _, _, h => h

theorem matchesAll_quiet {owner : TypeDecl} {owners : List (Option Label × Int)} :
    ∀ {k : Nat} {ss : List Stmt} {c : Contents}, .yieldReturn ∉ exitsStmts ss →
      MatchesAll owner owners k ss c → c = {}
  | _, [], _, _, h => h
  | _, s :: rest, c, hs, ⟨a, b, ha, hb, hc⟩ => by
    simp only [exitsStmts, List.mem_append, not_or] at hs
    rw [hc, matches_quiet hs.1 ha, matchesAll_quiet hs.2 hb]
    rfl

theorem matchesBlock_quiet {owner : TypeDecl} {owners : List (Option Label × Int)} :
    ∀ {k : Nat} {b : Block} {c : Contents}, .yieldReturn ∉ exitsBlock b →
      MatchesBlock owner owners k b c → c = {}
  | _, .absent, _, _, h => h
  | k, .mk _ _ ss, c, hs, h => @matchesAll_quiet owner owners k ss c hs h

theorem matchesCatches_quiet {owner : TypeDecl} {owners : List (Option Label × Int)} :
    ∀ {k : Nat} {cs : List Catch} {c : Contents}, .yieldReturn ∉ exitsCatches cs →
      MatchesCatches owner owners k cs c → c = {}
  | _, [], _, _, h => h
  | _, .mk _ _ body :: rest, c, hs, ⟨a, b, ha, hb, hc⟩ => by
    simp only [exitsCatches, List.mem_append, not_or] at hs
    rw [hc, matchesBlock_quiet hs.1 ha, matchesCatches_quiet hs.2 hb]
    rfl

end

/-! ## Steps of the analysis -/

/-- Where no label is noted twice, looking a label up finds what is noted of it. -/
theorem lookup_iff_mem {owners : List (Option Label × Int)} (hnodup : (owners.map Prod.fst).Nodup)
    {l : Option Label} {state : Int} : owners.lookup l = some state ↔ (l, state) ∈ owners := by
  constructor
  · intro hl
    obtain ⟨before, behind, heq, -⟩ := List.lookup_eq_some_iff.mp hl
    simp [heq]
  · exact fun hl => lookup_of_nodup hnodup hl

/-- The state is that of a frame numbered between two points of the analysis. -/
def Between (a b : Analysis) (state : Int) : Prop :=
  stateOfFrame b.frameCount ≤ state ∧ state < stateOfFrame a.frameCount

/-- What the analysis has noted in the end, seen from two of its points: no label twice, states of
earlier frames before the first, and none of the frames between them behind the second. -/
structure Completes (a b : Analysis) (final : List (Option Label × Int)) : Prop where
  nodup : (final.map Prod.fst).Nodup
  before : ∀ x ∈ a.owners, stateOfFrame a.frameCount ≤ x.2
  behind : ∃ more, final = b.owners ++ more ∧ ∀ x ∈ more, ¬ Between a b x.2

/-- What the analysis of a part of a body in the frame `frame` finds between two of its points:
`kept` are the labels of the part, `own` those outside of frames, `cleanups` the finallys of its
frames, `yields` the number of its suspension points, and `found` says which contents are those of
the part if a number of suspension points stands before it. -/
structure Analyzed (owner : TypeDecl) (field : Field) (frame : Int)
    (kept own : List (Option Label)) (cleanups : List Block) (yields : Nat)
    (found : List (Option Label × Int) → Nat → Contents → Prop) (a : Analysis) (n : Nat)
    (c : Contents) (b : Analysis) (m : Nat) : Prop where
  labels : Numbered n m c.labels
  counted : b.suspensionCount = a.suspensionCount + yields
  within : b.members.owner = owner
  unfrozen : b.members.frozen = false
  frames : a.frameCount ≤ b.frameCount
  owners : ∃ pairs, b.owners = a.owners ++ pairs ∧ pairs.map Prod.fst = kept ∧
    (∀ l, (l, frame) ∈ pairs ↔ l ∈ own) ∧ ∀ x ∈ pairs, x.2 = frame ∨ Between a b x.2
  found : ∀ final, Completes a b final → found final a.suspensionCount c
  extracted : ∀ f ∈ Frame.preorderAll c.children, ∃ cleanup ∈ cleanups,
    Extracted owner field cleanup f
  cleanups : ∀ cleanup ∈ cleanups, ∃ f ∈ Frame.preorderAll c.children,
    Extracted owner field cleanup f

namespace Analyzed

variable {owner : TypeDecl} {field : Field} {frame : Int}
  {kept kept' own own' : List (Option Label)} {cleanups cleanups' : List Block}
  {yields yields' : Nat} {found found' : List (Option Label × Int) → Nat → Contents → Prop}
  {a b d : Analysis} {n m k : Nat} {c c' : Contents}

/-- A part without labels, suspension points and frames. -/
theorem still (howner : a.members.owner = owner) (hunfrozen : a.members.frozen = false)
    (hfound : ∀ final k, found final k {}) :
    Analyzed owner field frame [] [] [] 0 found a n {} a n where
  labels := .nil
  counted := rfl
  within := howner
  unfrozen := hunfrozen
  frames := Nat.le_refl _
  owners := ⟨[], by simp⟩
  found final _ := hfound final _
  extracted _ h := nomatch h
  cleanups _ h := nomatch h

theorem weaken (h : Analyzed owner field frame kept own cleanups yields found a n c b m)
    (hyields : yields' = yields) (hfound : ∀ final k, found final k c → found' final k c) :
    Analyzed owner field frame kept own cleanups yields' found' a n c b m :=
  ⟨h.labels, by rw [hyields]; exact h.counted, h.within, h.unfrozen, h.frames, h.owners,
    fun final hfinal => hfound final _ (h.found final hfinal), h.extracted, h.cleanups⟩

/-- One part after another. -/
theorem append (h : Analyzed owner field frame kept own cleanups yields found a n c b m)
    (h' : Analyzed owner field frame kept' own' cleanups' yields' found' b m c' d k)
    (hframe : stateOfFrame a.frameCount ≤ frame) :
    Analyzed owner field frame (kept ++ kept') (own ++ own') (cleanups ++ cleanups')
      (yields + yields')
      (fun final i x => ∃ y z, found final i y ∧ found' final (i + yields) z ∧ x = y.append z)
      a n (c.append c') d k := by
  obtain ⟨pairs, howners, hkept, hown, hstates⟩ := h.owners
  obtain ⟨pairs', howners', hkept', hown', hstates'⟩ := h'.owners
  have hle := h.frames
  have hle' := h'.frames
  refine ⟨(h.labels.append h'.labels).perm (Contents.labels_append c c'),
    by rw [h'.counted, h.counted, Nat.add_assoc], h'.within, h'.unfrozen,
    Nat.le_trans hle hle', ⟨pairs ++ pairs', ?_, ?_, fun l => ?_, fun x hx => ?_⟩,
    fun final hfinal => ?_, fun f hf => ?_, fun cleanup hcleanup => ?_⟩
  · rw [howners', howners, List.append_assoc]
  · rw [List.map_append, hkept, hkept']
  · rw [List.mem_append, List.mem_append, hown, hown']
  · unfold Between at hstates hstates' ⊢
    unfold stateOfFrame at hstates hstates' hframe ⊢
    rcases List.mem_append.mp hx with hx | hx
    · rcases hstates x hx with hstate | hstate <;> omega
    · rcases hstates' x hx with hstate | hstate <;> omega
  · obtain ⟨more, hmore, hbehind⟩ := hfinal.behind
    refine ⟨c, c', h.found final ⟨hfinal.nodup, hfinal.before, pairs' ++ more, ?_, fun x hx => ?_⟩,
      h.counted ▸ h'.found final ⟨hfinal.nodup, fun x hx => ?_, more, hmore, fun x hx => ?_⟩, rfl⟩
    · rw [hmore, howners', List.append_assoc]
    · unfold Between at hstates' hbehind ⊢
      unfold stateOfFrame at hstates' hbehind hframe ⊢
      rcases List.mem_append.mp hx with hx | hx
      · rcases hstates' x hx with hstate | hstate <;> omega
      · have := hbehind x hx
        omega
    · unfold Between at hstates
      rw [howners] at hx
      have hbefore := hfinal.before
      unfold stateOfFrame at hstates hframe hbefore ⊢
      rcases List.mem_append.mp hx with hx | hx
      · have := hbefore x hx
        omega
      · rcases hstates x hx with hstate | hstate <;> omega
    · unfold Between at hbehind ⊢
      have := hbehind x hx
      unfold stateOfFrame at this ⊢
      omega
  · rw [Contents.append, Frame.preorderAll_append] at hf
    rcases List.mem_append.mp hf with hf | hf
    · obtain ⟨cleanup, hmem, hextracted⟩ := h.extracted f hf
      exact ⟨cleanup, List.mem_append_left _ hmem, hextracted⟩
    · obtain ⟨cleanup, hmem, hextracted⟩ := h'.extracted f hf
      exact ⟨cleanup, List.mem_append_right _ hmem, hextracted⟩
  · rw [Contents.append, Frame.preorderAll_append]
    rcases List.mem_append.mp hcleanup with hcleanup | hcleanup
    · obtain ⟨f, hmem, hextracted⟩ := h.cleanups cleanup hcleanup
      exact ⟨f, List.mem_append_left _ hmem, hextracted⟩
    · obtain ⟨f, hmem, hextracted⟩ := h'.cleanups cleanup hcleanup
      exact ⟨f, List.mem_append_right _ hmem, hextracted⟩

/-- A suspension point. -/
theorem suspension (howner : a.members.owner = owner) (hunfrozen : a.members.frozen = false)
    (hfound : ∀ final, found final a.suspensionCount ⟨[⟨(a.suspensionCount + 1 : Nat),
      .generated "resume" (n + 1 : Nat)⟩], []⟩) :
    Analyzed owner field frame [] [] [] 1 found a n
      ⟨[⟨(a.suspensionCount + 1 : Nat), .generated "resume" (n + 1 : Nat)⟩], []⟩
      { a with suspensionCount := a.suspensionCount + 1 } (n + 1) where
  labels := .single (by decide) (by decide)
  counted := rfl
  within := howner
  unfrozen := hunfrozen
  frames := Nat.le_refl _
  owners := ⟨[], by simp⟩
  found final _ := hfound final
  extracted _ h := nomatch h
  cleanups _ h := nomatch h

/-- A label. -/
theorem label (l : Option Label) (howner : a.members.owner = owner)
    (hunfrozen : a.members.frozen = false) (hfound : ∀ final k, found final k {}) :
    Analyzed owner field frame [l] [l] [] 0 found a n {}
      { a with owners := a.owners ++ [(l, frame)] } n where
  labels := .nil
  counted := rfl
  within := howner
  unfrozen := hunfrozen
  frames := Nat.le_refl _
  owners := ⟨[(l, frame)], rfl, rfl, by simp, by simp⟩
  found final _ := hfound final _
  extracted _ h := nomatch h
  cleanups _ h := nomatch h

/-- A frame: its state is new, and so it is that of the labels directly inside. -/
theorem region {body cleanup : Block} {members : MemberList} (name : String) (parent : Int)
    (h : Analyzed owner field (stateOfFrame (a.frameCount + 1)) kept own cleanups yields
      (fun final i x => MatchesBlock owner final i body x)
      { a with members, frameCount := a.frameCount + 1 } (n + 1) c b m)
    (hown : own = ownBlock body) (hframed : framed body cleanup = true) (catches : List Catch)
    (o : Origin) (hframe : stateOfFrame a.frameCount ≤ frame) :
    Analyzed owner field frame kept [] (cleanup :: cleanups) yields
      (fun final i x => Matches owner final i (.try o body catches cleanup) x) a n
      ⟨[], [.mk (stateOfFrame (a.frameCount + 1)) (.generated "region" (n + 1 : Nat))
        ⟨.cleanup owner name, .mk cleanup.origin []
          (assignState cleanup.origin.provenance field parent :: cleanup.statements)⟩
        c.suspensions c.children]⟩ b m := by
  obtain ⟨pairs, howners, hkept, hmem, hstates⟩ := h.owners
  have hle := h.frames
  simp only at hle howners
  refine ⟨?_, h.counted, h.within, h.unfrozen, Nat.le_of_succ_le hle,
    ⟨pairs, howners, hkept, fun l => ?_, fun x hx => .inr ?_⟩, fun final hfinal => ?_,
    fun f hf => ?_, fun x hx => ?_⟩
  · have hentry : Numbered n (n + 1) [some (.generated "region" (n + 1 : Nat))] :=
      .single (by decide) (by decide)
    simpa [Contents.labels, Frame.labelsAll, Frame.labels] using hentry.append h.labels
  · rw [List.mem_nil_iff, iff_false]
    intro hl
    have := hstates _ hl
    unfold Between at this
    unfold stateOfFrame at this hframe
    simp only at this
    omega
  · have := hstates x hx
    unfold Between at this ⊢
    unfold stateOfFrame at this ⊢
    simp only at this
    omega
  · obtain ⟨more, hmore, hbehind⟩ := hfinal.behind
    simp only [Matches, hframed, if_true]
    refine ⟨_, _, _, c, rfl, rfl, fun l => ?_, h.found final ⟨hfinal.nodup, fun x hx => ?_, more,
      hmore, fun x hx => ?_⟩⟩
    · rw [lookup_iff_mem hfinal.nodup, hmore, howners, ← hown, ← hmem]
      have hbefore := hfinal.before (l, stateOfFrame (a.frameCount + 1))
      have hmore := hbehind (l, stateOfFrame (a.frameCount + 1))
      unfold Between at hmore
      unfold stateOfFrame at hbefore hmore ⊢
      simp only [List.mem_append] at hbefore hmore ⊢
      constructor
      · rintro ((hin | hin) | hin)
        · have := hbefore hin
          omega
        · exact hin
        · have := hmore hin
          omega
      · exact fun hin => .inl (.inr hin)
    · have := hfinal.before x hx
      unfold stateOfFrame at this ⊢
      simp only
      omega
    · have := hbehind x hx
      unfold Between at this ⊢
      unfold stateOfFrame at this ⊢
      simp only
      omega
  · simp only [Frame.preorderAll, Frame.preorder, List.append_nil, List.mem_cons] at hf
    rcases hf with rfl | hf
    · exact ⟨cleanup, List.mem_cons_self, name, parent, rfl⟩
    · obtain ⟨x, hx, hextracted⟩ := h.extracted f hf
      exact ⟨x, List.mem_cons_of_mem _ hx, hextracted⟩
  · simp only [Frame.preorderAll, Frame.preorder, List.append_nil, List.mem_cons]
    rcases List.mem_cons.mp hx with rfl | hx
    · exact ⟨_, .inl rfl, name, parent, rfl⟩
    · obtain ⟨f, hf, hextracted⟩ := h.cleanups x hx
      exact ⟨f, .inr hf, hextracted⟩

end Analyzed

/-! ## The analysis goes through -/

/-- Extraction of the finally of a frame goes through. -/
theorem extract_ok {members : MemberList} (hunfrozen : members.frozen = false) (field : Field)
    (parent : Int) (name : String) (o : Origin) {body cleanup : Block}
    (hframed : framed body cleanup = true) (hbody : verifiedBlock true body = true) :
    ∃ members', extract members field parent name o body cleanup = .ok
      (⟨.cleanup members.owner name, .mk cleanup.origin []
        (assignState cleanup.origin.provenance field parent :: cleanup.statements)⟩, members') ∧
      members'.owner = members.owner ∧ members'.frozen = false := by
  obtain ⟨hpresent, hyields⟩ := framed_iff.mp hframed
  have habsent : cleanup.isAbsent = false := by
    cases cleanup with
    | absent => exact absurd rfl hpresent
    | mk => rfl
  have hadd := @add_ok members hunfrozen (.method (.cleanup members.owner name)) rfl
  refine ⟨{ members with members := members.members ++ [.method (.cleanup members.owner name)] }, ?_,
    rfl, hunfrozen⟩
  simp only [extract, habsent, containsYield_eq hbody, hyields, Violation.check, hadd, bind,
    Except.bind, Bool.not_false, decide_true, if_true]
  rfl

theorem frame_ok {a : Analysis} (hunfrozen : a.members.frozen = false) (field : Field)
    (parent : Int)
    (o : Origin) {body cleanup : Block} (hframed : framed body cleanup = true)
    (hbody : verifiedBlock true body = true) (n : Nat) :
    ∃ name members, Analyze.frame field parent o body cleanup a n =
      (.ok ((stateOfFrame (a.frameCount + 1), .generated "region" (n + 1 : Nat),
        ⟨.cleanup a.members.owner name, .mk cleanup.origin []
          (assignState cleanup.origin.provenance field parent :: cleanup.statements)⟩),
        { a with members, frameCount := a.frameCount + 1 }), n + 1) ∧
      members.owner = a.members.owner ∧ members.frozen = false := by
  obtain ⟨members, hextract, howner, hunfrozen'⟩ := extract_ok hunfrozen field parent
    (a.members.uniqueName s!"$finally{a.frameCount + 1}") o hframed hbody
  refine ⟨a.members.uniqueName s!"$finally{a.frameCount + 1}", members, ?_, howner, hunfrozen'⟩
  simp only [Analyze.frame, Stateful.bind_apply, Stateful.get_apply, Stateful.lift_apply,
    Lower.newLabel_apply, hextract, Lower.ofExcept, Lower.pure_apply, Stateful.set_apply,
    Stateful.pure_apply]

/-- A try that is no frame does not suspend. -/
theorem quiet_body {P : Expr → Prop} {o : Origin} {body cleanup : Block} {catches : List Catch}
    (hready : Ready P (.try o body catches cleanup))
    (hguarded : Guarded (.try o body catches cleanup))
    (hframed : framed body cleanup = false) : .yieldReturn ∉ exitsBlock body := by
  by_cases hempty : catches = []
  · intro hyields
    rw [framed_iff.mpr ⟨hready.2.2.2.mp hempty, hyields⟩] at hframed
    cases hframed
  · exact hguarded.1.2.2 hempty

/-- The analysis of a part of a body goes through, wherever it begins. -/
def Goes (owner : TypeDecl) (field : Field) (frame : Int) (kept own : List (Option Label))
    (cleanups : List Block) (yields : Nat)
    (found : List (Option Label × Int) → Nat → Contents → Prop) (x : Analyze Contents) : Prop :=
  ∀ a : Analysis, a.members.owner = owner → a.members.frozen = false →
    stateOfFrame a.frameCount ≤ frame → (a.owners.map Prod.fst ++ kept).Nodup → ∀ n, ∃ c b m,
      x a n = (.ok (c, b), m) ∧ Analyzed owner field frame kept own cleanups yields found a n c b m

namespace Goes

variable {owner : TypeDecl} {field : Field} {frame : Int}
  {kept kept' own own' : List (Option Label)} {cleanups cleanups' : List Block}
  {yields yields' : Nat} {found found' : List (Option Label × Int) → Nat → Contents → Prop}
  {x y : Analyze Contents}

theorem still (hfound : ∀ final k, found final k {}) :
    Goes owner field frame [] [] [] 0 found (pure {}) :=
  fun a howner hunfrozen _ _ n => ⟨{}, a, n, rfl, .still howner hunfrozen hfound⟩

theorem append (h : Goes owner field frame kept own cleanups yields found x)
    (h' : Goes owner field frame kept' own' cleanups' yields' found' y) :
    Goes owner field frame (kept ++ kept') (own ++ own') (cleanups ++ cleanups') (yields + yields')
      (fun final i c => ∃ d e, found final i d ∧ found' final (i + yields) e ∧ c = d.append e)
      (do
        let c ← x
        let c' ← y
        return c.append c') := by
  intro a howner hunfrozen hframe hnodup n
  rw [← List.append_assoc] at hnodup
  obtain ⟨c, b, m, hx, hone⟩ := h a howner hunfrozen hframe (List.nodup_append.mp hnodup).1 n
  have hle := hone.frames
  obtain ⟨pairs, howners, hkept, -, -⟩ := hone.owners
  obtain ⟨c', d, k, hy, htwo⟩ := h' b hone.within hone.unfrozen (by unfold stateOfFrame at *; omega)
    (by rwa [howners, List.map_append, hkept]) m
  refine ⟨c.append c', d, k, ?_, hone.append htwo hframe⟩
  simp only [Stateful.bind_apply, hx, hy, Stateful.pure_apply]

/-- A label that is not yet there. -/
theorem label (o : Origin) (l : Option Label) (hfound : ∀ final k, found final k {}) :
    Goes owner field frame [l] [l] [] 0 found (do
      Analyze.own o l frame
      return {}) := by
  intro a howner hunfrozen _ hnodup n
  have hnew : a.owners.lookup l = none := by
    refine List.lookup_eq_none_iff.mpr fun x hx => ?_
    have hne : x.1 ≠ l :=
      (List.nodup_append.mp hnodup).2.2 x.1 (List.mem_map_of_mem hx) l (by simp)
    simpa [bne_iff_ne] using hne.symm
  refine ⟨{}, { a with owners := a.owners ++ [(l, frame)] }, n, ?_,
    .label l howner hunfrozen hfound⟩
  simp only [Analyze.own, Stateful.bind_apply, Stateful.get_apply, hnew, Option.isSome_none,
    Bool.false_eq_true, if_false]
  rfl

/-- A frame, whose try block is analyzed in its state. -/
theorem region {body cleanup : Block} (hframed : framed body cleanup = true)
    (hverified : verifiedBlock true body = true)
    (h : ∀ state, Goes owner field state kept (ownBlock body) cleanups yields
      (MatchesBlock owner · · body) (analyzeBlock field state body)) (o : Origin)
    (catches : List Catch) :
    Goes owner field frame kept [] (cleanup :: cleanups) yields
      (Matches owner · · (.try o body catches cleanup))
      (do
        let (state, entry, method) ← Analyze.frame field frame o body cleanup
        let inner ← analyzeBlock field state body
        return { children := [.mk state entry method inner.suspensions inner.children] }) := by
  intro a howner hunfrozen hold hnodup n
  obtain ⟨name, members, hstep, howner', hunfrozen'⟩ :=
    frame_ok hunfrozen field frame o hframed hverified n
  obtain ⟨c, b, m, hinner, hanalyzed⟩ := h (stateOfFrame (a.frameCount + 1))
    { a with members, frameCount := a.frameCount + 1 } (howner'.trans howner) hunfrozen'
    (Int.le_refl _) hnodup (n + 1)
  refine ⟨_, b, m, ?_, hanalyzed.region name frame rfl hframed catches o hold⟩
  rw [howner] at hstep
  simp only [Stateful.bind_apply, hstep, hinner, Stateful.pure_apply]

theorem weaken (h : Goes owner field frame kept own cleanups yields found x)
    (hyields : yields' = yields) (hfound : ∀ final k c, found final k c → found' final k c) :
    Goes owner field frame kept own cleanups yields' found' x := by
  intro a howner hunfrozen hframe hnodup n
  obtain ⟨c, b, m, hx, hanalyzed⟩ := h a howner hunfrozen hframe hnodup n
  exact ⟨c, b, m, hx, hanalyzed.weaken hyields fun final k => hfound final k c⟩

end Goes

variable {P : Expr → Prop} {owner : TypeDecl}

mutual

theorem analyzeStmt_ok (hP : ∀ e, P e → soundExpr e = true) (field : Field) : ∀ {s : Stmt},
    Ready P s → Guarded s → ∀ frame : Int,
    Goes owner field frame (keptStmt s) (ownStmt s) (cleanupsStmt s) (elementsStmt s).length
      (Matches owner · · s) (analyzeStmt field frame s)
  | .block b, hs, hguarded, frame => analyzeBlock_ok hP field (b := b) hs hguarded frame
  | .list _ ss, hs, hguarded, frame => @analyzeStmts_ok hP field ss hs hguarded frame
  | .yieldReturn .., _, _, frame => fun a howner hunfrozen _ _ n =>
    ⟨_, _, _, rfl, .suspension howner hunfrozen fun _ => ⟨_, rfl⟩⟩
  | .label o l, _, _, frame => .label o l fun _ _ => rfl
  | .try o body catches cleanup, hs, hguarded, frame => by
    have hverified := verifiedBlock_of_ready hP hs.1
    rw [analyzeStmt, isFrame_eq hverified]
    cases hframed : framed body cleanup with
    | true =>
      have hregion : Goes owner field frame _ _ _ _ _ _ := .region hframed hverified
        (fun state => analyzeBlock_ok hP field hs.1 hguarded.2.1 state) o catches
      have hyields : (elementsStmt (.try o body catches cleanup)).length =
          (elementsBlock body).length := by
        simp [elementsStmt, elementsCatches_quiet hguarded.1.1, elementsBlock_quiet hguarded.1.2.1]
      simp only [keptStmt, ownStmt, cleanupsStmt, hframed, if_true]
      exact hregion.weaken hyields fun _ _ _ h => h
    | false =>
      have hlast : Goes owner field frame (keptBlock cleanup) (ownBlock cleanup)
          (cleanupsBlock cleanup) (elementsBlock cleanup).length (MatchesBlock owner · · cleanup)
          (analyzeBlock field frame cleanup) := by
        rcases hs.2.2.1 with rfl | hcleanup
        · exact .still fun _ _ => rfl
        · exact analyzeBlock_ok hP field hcleanup hguarded.2.2.2 frame
      have hparts := ((analyzeBlock_ok hP field hs.1 hguarded.2.1 frame).append
        (analyzeCatches_ok hP field hs.2.1 hguarded.2.2.1 frame)).append hlast
      have hquiet := quiet_body hs hguarded hframed
      simp only [keptStmt, ownStmt, cleanupsStmt, hframed, Bool.false_eq_true, if_false]
      simp only [bind_assoc, pure_bind] at hparts
      refine hparts.weaken (by simp [elementsStmt, Nat.add_assoc]) ?_
      -- None of the parts suspends, so there is nothing in any of them.
      rintro final k c ⟨d, e, ⟨d', e', hbody, hcatches, rfl⟩, hcleanup, rfl⟩
      obtain rfl := matchesBlock_quiet hquiet hbody
      obtain rfl := matchesCatches_quiet hguarded.1.1 hcatches
      obtain rfl := matchesBlock_quiet hguarded.1.2.1 hcleanup
      simp only [Matches, hframed, Bool.false_eq_true, if_false]
      exact ⟨rfl, hbody, hcatches, hcleanup⟩
  | .sequencePoint .., _, _, frame | .yieldBreak _, _, _, frame | .goto .., _, _, frame
  | .expression .., _, _, frame | .conditionalGoto .., _, _, frame | .return .., _, _, frame
  | .throw .., _, _, frame => .still fun _ _ => rfl
  | .absent, hs, _, _ | .noOp .., hs, _, _ | .localDeclaration .., hs, _, _ | .if .., hs, _, _
  | .while .., hs, _, _ | .break .., hs, _, _ | .continue .., hs, _, _ | .dispatch .., hs, _, _
  | .foreign .., hs, _, _ => hs.elim

theorem analyzeStmts_ok (hP : ∀ e, P e → soundExpr e = true) (field : Field) :
    ∀ {ss : List Stmt}, ReadyAll P ss → GuardedAll ss → ∀ frame : Int,
    Goes owner field frame (keptStmts ss) (ownStmts ss) (cleanupsStmts ss)
      (elementsStmts ss).length (MatchesAll owner · · ss) (analyzeStmts field frame ss)
  | [], _, _, _ => .still fun _ _ => rfl
  | _ :: _, hss, hguarded, frame =>
    ((analyzeStmt_ok hP field hss.1 hguarded.1 frame).append
      (analyzeStmts_ok hP field hss.2 hguarded.2 frame)).weaken
      (by rw [elementsStmts, List.length_append]) fun _ _ _ h => h

theorem analyzeBlock_ok (hP : ∀ e, P e → soundExpr e = true) (field : Field) : ∀ {b : Block},
    ReadyBlock P b → GuardedBlock b → ∀ frame : Int,
    Goes owner field frame (keptBlock b) (ownBlock b) (cleanupsBlock b) (elementsBlock b).length
      (MatchesBlock owner · · b) (analyzeBlock field frame b)
  | .absent, hb, _, _ => hb.elim
  | .mk _ _ ss, hb, hguarded, frame => @analyzeStmts_ok hP field ss hb.2 hguarded frame

theorem analyzeCatches_ok (hP : ∀ e, P e → soundExpr e = true) (field : Field) :
    ∀ {cs : List Catch}, ReadyCatches P cs → GuardedCatches cs → ∀ frame : Int,
    Goes owner field frame (keptCatches cs) (ownCatches cs) (cleanupsCatches cs)
      (elementsCatches cs).length (MatchesCatches owner · · cs) (analyzeCatches field frame cs)
  | [], _, _, _ => .still fun _ _ => rfl
  | .mk .. :: _, hcs, hguarded, frame =>
    ((analyzeBlock_ok hP field hcs.1 hguarded.1 frame).append
      (analyzeCatches_ok hP field hcs.2 hguarded.2 frame)).weaken
      (by rw [elementsCatches, List.length_append]) fun _ _ _ h => h

end

end Resumable.StateMachine
