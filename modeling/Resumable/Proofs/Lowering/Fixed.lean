import Resumable.Proofs.Lowering.Walked

/-!
# Lowering again

A lowered tree is `Fixed`: lowering it again goes through, gives the tree back and makes no label.
What lowering makes of each statement is fixed if the parts are (`walkedBlock_fixed`), so lowering is
idempotent (`lowering_idempotent`).  The methods of a state machine are put together from lowered
parts and lowered as a whole, which adds nothing to these parts for this reason.
-/

set_option autoImplicit false

namespace Resumable.Lowering

open Resumable.Symbol Resumable.Tree

/-! ## Trees that lowering gives back -/

/-- Lowering gives the statement back and makes no label. -/
def Fixed (markers : Bool) (s : Stmt) : Prop := ∀ n, walkStmt markers s n = (.ok (some s), n)

/-- Lowering gives the block back and makes no label. -/
def FixedBlock (markers : Bool) (b : Block) : Prop := ∀ n, walkBlock markers b n = (.ok b, n)

/-- Lowering gives the handlers back and makes no label. -/
def FixedCatches (markers : Bool) (cs : List Catch) : Prop :=
  ∀ n, walkCatches markers cs n = (.ok cs, n)

variable {markers : Bool}

theorem FixedBlock.present {b : Block} (h : FixedBlock markers b) : b ≠ .absent := by
  rintro rfl
  have hn := h 0
  rw [walkBlock, Lower.fail_ok] at hn
  exact hn

/-! ## Statements whose parts are fixed -/

theorem walkStmts_fixed {ss : List Stmt} (h : ∀ s ∈ ss, Fixed markers s) (n : Nat) :
    walkStmts markers ss n = (.ok ss, n) := by
  induction ss with
  | nil => rfl
  | cons s rest ih =>
    have hrest := ih fun t ht => h t (List.mem_cons_of_mem s ht)
    rw [walkStmts]
    exact Lower.bind_ok.mpr ⟨some s, n, h s List.mem_cons_self n,
      Lower.bind_ok.mpr ⟨rest, n, hrest, rfl⟩⟩

theorem Fixed.block {b : Block} (h : FixedBlock markers b) : Fixed markers (.block b) := by
  intro n
  rw [walkStmt]
  exact Lower.bind_ok.mpr ⟨b, n, h n, rfl⟩

theorem Fixed.list {o : Origin} {ss : List Stmt} (h : ∀ s ∈ ss, Fixed markers s) :
    Fixed markers (.list o ss) := by
  intro n
  rw [walkStmt]
  exact Lower.bind_ok.mpr ⟨ss, n, walkStmts_fixed h n, rfl⟩

/-- A block that carries its markers already, or does not need any. -/
theorem FixedBlock.mk {o : Origin} {locals : List Local} {ss : List Stmt}
    (hmade : (o.generated || !markers) = true) (h : ∀ s ∈ ss, Fixed markers s) :
    FixedBlock markers (.mk o locals ss) := by
  intro n
  rw [walkBlock, if_pos hmade]
  exact Lower.bind_ok.mpr ⟨ss, n, walkStmts_fixed h n, rfl⟩

theorem FixedCatches.cons {o : Origin} {l : Option Local} {body : Block} {rest : List Catch}
    (hbody : FixedBlock markers body) (hrest : FixedCatches markers rest) :
    FixedCatches markers (.mk o l body :: rest) := by
  intro n
  rw [walkCatches]
  exact Lower.bind_ok.mpr ⟨body, n, hbody n, Lower.bind_ok.mpr ⟨rest, n, hrest n, rfl⟩⟩

/-- A try with handlers only is not split. -/
theorem Fixed.tryCatch {o : Origin} {body : Block} {catches : List Catch}
    (hbody : FixedBlock markers body) (hcatches : FixedCatches markers catches) :
    Fixed markers (.try o body catches .absent) := by
  intro n
  have hwhole : splitTry o body catches .absent = .try o body catches .absent := by
    simp [splitTry, Block.isAbsent]
  rw [walkStmt]
  refine Lower.bind_ok.mpr ⟨body, n, hbody n, Lower.bind_ok.mpr ⟨catches, n, hcatches n, ?_⟩⟩
  rw [hwhole]
  rfl

/-- Nor is a try with a finally only. -/
theorem Fixed.tryFinally {o : Origin} {body cleanup : Block} (hbody : FixedBlock markers body)
    (hcleanup : FixedBlock markers cleanup) : Fixed markers (.try o body [] cleanup) := by
  intro n
  have hwhole : splitTry o body [] cleanup = .try o body [] cleanup := rfl
  rw [walkStmt]
  · refine Lower.bind_ok.mpr ⟨body, n, hbody n, Lower.bind_ok.mpr ⟨[], n, rfl,
      Lower.bind_ok.mpr ⟨cleanup, n, hcleanup n, ?_⟩⟩⟩
    rw [hwhole]
    rfl
  · exact hcleanup.present

/-- So both halves of a try that is split are fixed. -/
theorem fixed_splitTry {o : Origin} {body cleanup : Block} {catches : List Catch}
    (hbody : FixedBlock markers body) (hcatches : FixedCatches markers catches)
    (hcleanup : cleanup = .absent ∨ FixedBlock markers cleanup) :
    Fixed markers (splitTry o body catches cleanup) := by
  rcases hcleanup with rfl | hcleanup
  · have hwhole : splitTry o body catches .absent = .try o body catches .absent := by
      simp [splitTry, Block.isAbsent]
    rw [hwhole]
    exact .tryCatch hbody hcatches
  · cases catches with
    | nil => exact .tryFinally hbody hcleanup
    | cons c rest =>
      have hpresent : cleanup.isAbsent = false := by
        cases cleanup with
        | absent => exact absurd rfl hcleanup.present
        | mk => rfl
      have hinner : FixedBlock markers
          (Made.block o.provenance [.try o.asGenerated body (c :: rest) .absent]) := by
        refine .mk rfl fun s hs => ?_
        rw [List.mem_singleton.mp hs]
        exact .tryCatch hbody hcatches
      simp only [splitTry, hpresent, List.isEmpty_cons, Bool.not_false, Bool.and_self, if_true]
      exact .tryFinally hinner hcleanup

/-! ## Statements of one node -/

theorem Fixed.label (o : Origin) (l : Option Label) : Fixed markers (.label o l) := fun _ => rfl

theorem Fixed.goto (o : Origin) (l : Option Label) : Fixed markers (.goto o l) := fun _ => rfl

theorem Fixed.sequencePoint (o : Origin) (place : Text.Span) :
    Fixed markers (.sequencePoint o place) := fun _ => rfl

/-- A statement that keeps everything but its expression, which has to be there. -/
theorem Fixed.withExpr {f : Expr → Stmt} {e : Expr}
    (hwalk : walkStmt markers (f e) = do
      let e ← walkExpr e
      return some (f e))
    (h : soundExpr e = true) : Fixed markers (f e) := by
  intro n
  rw [hwalk]
  exact Lower.bind_ok.mpr ⟨e, n, walkExpr_ok.mpr ⟨h, rfl, rfl⟩, rfl⟩

/-- A statement that keeps everything but its expression, which may be left out. -/
theorem Fixed.withOptional {f : Expr → Stmt} {e : Expr}
    (hwalk : walkStmt markers (f e) = do
      let e ← walkOptional e
      return some (f e))
    (h : (e.isAbsent || soundExpr e) = true) : Fixed markers (f e) := by
  intro n
  rw [hwalk]
  exact Lower.bind_ok.mpr ⟨e, n, walkOptional_ok.mpr ⟨h, rfl, rfl⟩, rfl⟩

theorem Fixed.conditionalGoto {o : Origin} {c : Expr} {whenTrue : Bool} {l : Option Label}
    (h : soundExpr c = true) : Fixed markers (.conditionalGoto o c whenTrue l) :=
  .withExpr (f := fun c => .conditionalGoto o c whenTrue l) rfl h

/-! ## What lowering makes is fixed -/

theorem fixed_emptyBlock (o : Origin) : FixedBlock markers (emptyBlock markers o) := by
  refine .mk rfl fun s hs => ?_
  split at hs
  · cases hs
  · rw [List.mem_singleton.mp hs]
    exact .sequencePoint _ _

theorem fixed_markBlock {p : Provenance} {ss : List Stmt} (h : ∀ s ∈ ss, Fixed markers s) :
    ∀ s ∈ markBlock p ss, Fixed markers s := by
  intro s hs
  simp only [markBlock, List.cons_append, List.mem_cons, List.mem_append] at hs
  rcases hs with rfl | hs | hs
  · exact .sequencePoint _ _
  · exact h s hs
  · split at hs
    · cases hs
    · rw [List.mem_singleton.mp hs]
      exact .sequencePoint _ _

theorem fixed_branch {o : Origin} {c : Expr} {t : Option Stmt} {done : Label}
    (hc : soundExpr c = true) (ht : ∀ s ∈ t.toList, Fixed markers s) :
    Fixed markers (branch o c t done) := by
  refine .list fun s hs => ?_
  simp only [List.cons_append, List.mem_cons, List.mem_append, List.not_mem_nil, or_false] at hs
  rcases hs with rfl | hs | rfl
  · exact .conditionalGoto hc
  · exact ht s hs
  · exact .label _ _

theorem fixed_branches {o : Origin} {c : Expr} {t f : Option Stmt} {otherwise done : Label}
    (hc : soundExpr c = true) (ht : ∀ s ∈ t.toList, Fixed markers s)
    (hf : ∀ s ∈ f.toList, Fixed markers s) : Fixed markers (branches o c t f otherwise done) := by
  refine .list fun s hs => ?_
  simp only [List.cons_append, List.mem_cons, List.mem_append, List.not_mem_nil, or_false] at hs
  rcases hs with rfl | ((hs | rfl | rfl) | hs) | rfl
  · exact .conditionalGoto hc
  · exact ht s hs
  · exact .goto _ _
  · exact .label _ _
  · exact hf s hs
  · exact .label _ _

theorem fixed_loop {o : Origin} {c : Expr} {body : Option Stmt} {exit again : Label}
    (hc : soundExpr c = true) (hbody : ∀ s ∈ body.toList, Fixed markers s) :
    Fixed markers (loop o c body exit again) := by
  refine .list fun s hs => ?_
  simp only [List.cons_append, List.mem_cons, List.mem_append, List.not_mem_nil, or_false] at hs
  rcases hs with rfl | rfl | hs | rfl | rfl
  · exact .label _ _
  · exact .conditionalGoto hc
  · exact hbody s hs
  · exact .goto _ _
  · exact .label _ _

/-- What is left of a statement is one statement at most. -/
theorem fixed_some {s : Stmt} (h : Fixed markers s) : ∀ t ∈ (some s).toList, Fixed markers t := by
  intro t ht
  rw [Option.mem_toList.mp ht |> Option.some.inj] at h
  exact h

mutual

theorem walked_fixed : ∀ {s : Stmt} {s' : Option Stmt}, WalkedStmt markers s s' →
    ∀ t ∈ s'.toList, Fixed markers t
  | .block b, _, ⟨b', hb, rfl⟩ => fixed_some (.block (walkedBlock_fixed hb))
  | .list o ss, _, ⟨ss', hss, rfl⟩ => fixed_some (.list (@walkedStmts_fixed ss ss' hss))
  | .sequencePoint .., _, rfl => fixed_some (.sequencePoint _ _)
  | .noOp o, _, rfl => fixed_some (.block (fixed_emptyBlock o))
  | .localDeclaration .., _, .inl ⟨_, rfl⟩ => by simp
  | .localDeclaration o l init, _, .inr ⟨hsound, rfl⟩ =>
    fixed_some (.withExpr (f := .expression o) rfl (by simpa [soundExpr] using hsound))
  | .expression o _, _, ⟨hsound, rfl⟩ => fixed_some (.withExpr (f := .expression o) rfl hsound)
  | .return o _, _, ⟨hsound, rfl⟩ => fixed_some (.withOptional (f := .return o) rfl hsound)
  | .throw o _, _, ⟨hsound, rfl⟩ => fixed_some (.withOptional (f := .throw o) rfl hsound)
  | .yieldReturn o _, _, ⟨hsound, rfl⟩ => fixed_some (.withExpr (f := .yieldReturn o) rfl hsound)
  | .yieldBreak _, _, rfl => fixed_some fun _ => rfl
  | .break .., _, rfl | .continue .., _, rfl | .goto .., _, rfl => fixed_some (.goto _ _)
  | .label .., _, rfl => fixed_some (.label _ _)
  | .conditionalGoto .., _, ⟨hsound, rfl⟩ => fixed_some (.conditionalGoto hsound)
  | .dispatch o _ cases l, _, ⟨hsound, rfl⟩ =>
    fixed_some (.withExpr (f := fun e => .dispatch o e cases l) rfl hsound)
  | .try _ body catches cleanup, _, ⟨_, _, _, hbody, hcatches, hcleanup, rfl⟩ =>
    fixed_some (fixed_splitTry (walkedBlock_fixed hbody) (walkedCatches_fixed hcatches)
      (hcleanup.imp And.right walkedBlock_fixed))
  | .if _ c t f, _, ⟨hsound, _, _, ht, .inl ⟨_, rfl⟩⟩ =>
    fixed_some (fixed_branch hsound (walked_fixed (s := t) ht))
  | .if _ c t f, _, ⟨hsound, _, _, ht, .inr ⟨_, _, hf, rfl⟩⟩ =>
    fixed_some (fixed_branches hsound (walked_fixed (s := t) ht) (walked_fixed (s := f) hf))
  | .while _ c body _ _, _, ⟨hsound, _, _, _, hbody, _, _, rfl⟩ =>
    fixed_some (fixed_loop hsound (walked_fixed (s := body) hbody))
  | .absent, _, h | .foreign .., _, h => h.elim

theorem walkedStmts_fixed : ∀ {ss ss' : List Stmt}, WalkedStmts markers ss ss' →
    ∀ t ∈ ss', Fixed markers t
  | [], _, rfl => by simp
  | s :: rest, _, ⟨s', rest', hs, hrest, rfl⟩ => by
    intro t ht
    rcases List.mem_append.mp ht with h | h
    · exact walked_fixed hs t h
    · exact walkedStmts_fixed hrest t h

/-- What lowering makes of a block is fixed. -/
theorem walkedBlock_fixed : ∀ {b b' : Block}, WalkedBlock markers b b' → FixedBlock markers b'
  | .absent, _, h => h.elim
  | .mk o locals ss, _, ⟨ss', hss, .inl ⟨hmade, rfl⟩⟩ => .mk hmade (@walkedStmts_fixed ss ss' hss)
  | .mk o locals ss, _, ⟨ss', hss, .inr ⟨_, p, _, _, rfl⟩⟩ =>
    .mk rfl (fixed_markBlock (@walkedStmts_fixed ss ss' hss))

theorem walkedCatches_fixed : ∀ {cs cs' : List Catch}, WalkedCatches markers cs cs' →
    FixedCatches markers cs'
  | [], _, rfl => fun _ => rfl
  | .mk .. :: _, _, ⟨_, _, hbody, hrest, rfl⟩ =>
    .cons (walkedBlock_fixed hbody) (walkedCatches_fixed hrest)

end

/-! ## Idempotence -/

/-- **Lowering is idempotent.**  If a block can be lowered, what comes of it can be lowered again, with
the same setting of the markers.  This gives the very same tree, so no marker is added, and the count
of labels does not move, however many labels have been made in the meantime. -/
theorem lowering_idempotent {markers : Bool} {b b' : Block} {made made' : Nat}
    (h : (walkBlock markers b).outcome made = (.ok b', made')) (later : Nat) :
    (walkBlock markers b').outcome later = (.ok b', later) :=
  walkedBlock_fixed (walkedBlock_of_ok h) later

/-- A block of the user's with a branch inside a loop, and a try that has to be split. -/
def nestedBlock : Block :=
  let block (statements : List Stmt) : Block := .mk (.bound { construct := .block }) [] statements
  let flag : Expr := .literal {} (.bool true) (some .bool)
  block
    [.localDeclaration {} { number := 0, name := "i", type := some .int } .absent,
     .while {} flag (.block (block
       [.if {} flag (.noOp {}) (.block (block [.break {} (some (.generated "break" 1))])),
        .try {} (block [.yieldReturn {} flag]) [.mk {} none (block [.throw {} .absent])]
          (block [.noOp {}])]))
       (some (.generated "break" 1)) (some (.generated "continue" 1))]

theorem lowering_idempotent_nested : ∃ b', (walkBlock true nestedBlock).outcome 1 = (.ok b', 3) ∧
    (walkBlock true b').outcome 3 = (.ok b', 3) := by
  obtain ⟨b', h⟩ : ∃ b', (walkBlock true nestedBlock).outcome 1 = (.ok b', 3) := ⟨_, rfl⟩
  exact ⟨b', h, lowering_idempotent h 3⟩

end Resumable.Lowering
