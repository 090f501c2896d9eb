import Resumable.Lowering.Lowered
import Resumable.Proofs.Lowering.Accepted

/-!
# Suspensions in lowered trees

Lowering keeps the exits of a tree (`walked_exits`), and a tree that is in the lowered form apart
from suspensions is in the lowered form if there are none.  So a method that is not to become a
state machine is lowered if and only if it does not suspend, and suspensions are all that can stand
in the way (`plain_lowers_iff`).
-/

set_option autoImplicit false

namespace Resumable.Lowering

open Resumable.Report Resumable.Symbol Resumable.Tree Resumable.Source
open Resumable.Machine (labelsStmt labelsStmts labelsBlock labelsCatches targetsStmt targetsStmts
  targetsBlock targetsCatches labelsStmts_append targetsStmts_append)

/-! ## Lowering keeps exits -/

theorem exits_branch (o : Origin) (x : Expr) (t : Option Stmt) (done : Label) :
    exitsStmt (branch o x t done) = exitsStmts t.toList := by
  simp [branch, exitsStmt, exitsStmts, exitsStmts_append, Made.gotoUnless, Made.label]

theorem exits_branches (o : Origin) (x : Expr) (t f : Option Stmt) (otherwise done : Label) :
    exitsStmt (branches o x t f otherwise done) =
      exitsStmts t.toList ++ exitsStmts f.toList := by
  simp [branches, exitsStmt, exitsStmts, exitsStmts_append, Made.gotoUnless, Made.label, Made.goto]

theorem exits_loop (o : Origin) (x : Expr) (body : Option Stmt) (exit again : Label) :
    exitsStmt (loop o x body exit again) = exitsStmts body.toList := by
  simp [loop, exitsStmt, exitsStmts, exitsStmts_append, Made.gotoUnless, Made.label, Made.goto]

theorem exits_splitTry (o : Origin) (body : Block) (catches : List Catch) (cleanup : Block) :
    exitsStmt (splitTry o body catches cleanup) =
      exitsBlock body ++ exitsCatches catches ++ exitsBlock cleanup := by
  unfold splitTry
  split <;> simp [exitsStmt, exitsBlock, exitsStmts, exitsCatches, Made.block]

theorem exits_markBlock (p : Provenance) (ss : List Stmt) :
    exitsStmts (markBlock p ss) = exitsStmts ss := by
  unfold markBlock
  split <;> simp [exitsStmts, exitsStmts_append, exitsStmt, Made.sequencePoint]

mutual

theorem walked_exits {markers : Bool} : ∀ {s : Stmt} {s' : Option Stmt},
    WalkedStmt markers s s' → exitsStmts s'.toList = exitsStmt s
  | .block b, _, ⟨b', hb, rfl⟩ => by
    simpa [exitsStmts, exitsStmt] using walkedBlock_exits hb
  | .list o ss, _, ⟨ss', hss, rfl⟩ => by
    simpa [exitsStmts, exitsStmt] using walkedStmts_exits hss
  | .noOp o, _, rfl => by
    simp only [Option.toList_some, exitsStmts, exitsStmt, emptyBlock, exitsBlock]
    split <;> rfl
  | .localDeclaration .., _, .inl ⟨_, rfl⟩ | .localDeclaration .., _, .inr ⟨_, rfl⟩ => rfl
  | .sequencePoint .., _, rfl | .yieldBreak _, _, rfl | .break .., _, rfl | .continue .., _, rfl
  | .label .., _, rfl | .goto .., _, rfl => rfl
  | .expression .., _, ⟨_, rfl⟩ | .return .., _, ⟨_, rfl⟩ | .throw .., _, ⟨_, rfl⟩
  | .yieldReturn .., _, ⟨_, rfl⟩ | .conditionalGoto .., _, ⟨_, rfl⟩
  | .dispatch .., _, ⟨_, rfl⟩ => rfl
  | .if o x t f, _, ⟨_, t', done, ht, .inl ⟨hf, rfl⟩⟩ => by
    subst hf
    simp [exitsStmts, exits_branch, walked_exits ht, exitsStmt]
  | .if o x t f, _, ⟨_, t', done, ht, .inr ⟨f', otherwise, hf, rfl⟩⟩ => by
    simp [exitsStmts, exits_branches, walked_exits ht, walked_exits hf, exitsStmt]
  | .while o x body exit again, _, ⟨_, body', _, _, hbody, _, _, rfl⟩ => by
    simp [exitsStmts, exits_loop, walked_exits hbody, exitsStmt]
  | .try o body catches cleanup, _, ⟨body', catches', cleanup', hbody, hcatches, hcleanup, rfl⟩ => by
    have hcleanup' : exitsBlock cleanup' = exitsBlock cleanup := by
      rcases hcleanup with ⟨rfl, rfl⟩ | hcleanup
      · rfl
      · exact walkedBlock_exits hcleanup
    simp [exitsStmts, exits_splitTry, walkedBlock_exits hbody, walkedCatches_exits hcatches,
      hcleanup', exitsStmt]
  | .absent, _, h | .foreign .., _, h => h.elim

theorem walkedStmts_exits {markers : Bool} : ∀ {ss ss' : List Stmt},
    WalkedStmts markers ss ss' → exitsStmts ss' = exitsStmts ss
  | [], _, rfl => rfl
  | s :: rest, _, ⟨s', rest', hs, hrest, rfl⟩ => by
    rw [exitsStmts_append, walked_exits hs, walkedStmts_exits hrest, exitsStmts]

theorem walkedBlock_exits {markers : Bool} : ∀ {b b' : Block},
    WalkedBlock markers b b' → exitsBlock b' = exitsBlock b
  | .absent, _, h => h.elim
  | .mk o locals ss, _, ⟨ss', hss, .inl ⟨_, rfl⟩⟩ => walkedStmts_exits hss
  | .mk o locals ss, _, ⟨ss', hss, .inr ⟨_, p, _, _, rfl⟩⟩ => by
    rw [exitsBlock, exits_markBlock, walkedStmts_exits hss, exitsBlock]

theorem walkedCatches_exits {markers : Bool} : ∀ {cs cs' : List Catch},
    WalkedCatches markers cs cs' → exitsCatches cs' = exitsCatches cs
  | [], _, rfl => rfl
  | .mk o l body :: rest, _, ⟨body', rest', hbody, hrest, rfl⟩ => by
    rw [exitsCatches, walkedBlock_exits hbody, walkedCatches_exits hrest, exitsCatches]

end

/-! ## Suspensions and the lowered form -/

/-- None of the exits is a suspension. -/
def YieldFree (exits : List Kind) : Prop := ∀ k ∈ exits, k.isYield = false

theorem YieldFree.append {a b : List Kind} : YieldFree (a ++ b) ↔ YieldFree a ∧ YieldFree b := by
  simp [YieldFree, or_imp, forall_and]

mutual

/-- A tree that is in the lowered form apart from suspensions is in the lowered form if there are
none. -/
theorem verifiedStmt_false_iff : ∀ s : Stmt, verifiedStmt false s = true ↔
    verifiedStmt true s = true ∧ YieldFree (exitsStmt s)
  | .block b => verifiedBlock_false_iff b
  | .list _ ss => verifiedStmts_false_iff ss
  | .yieldReturn .. | .yieldBreak _ => by simp [verifiedStmt, exitsStmt, YieldFree, Kind.isYield]
  | .return .. => by simp [verifiedStmt, exitsStmt, YieldFree, Kind.isYield]
  | .try _ body catches cleanup => by
    simp only [verifiedStmt, exitsStmt, Bool.and_eq_true, YieldFree.append,
      verifiedBlock_false_iff body, verifiedCatches_false_iff catches,
      verifiedBlock_false_iff cleanup]
    grind
  | .absent | .sequencePoint .. | .noOp .. | .localDeclaration .. | .expression .. | .throw ..
  | .if .. | .while .. | .break .. | .continue .. | .label .. | .goto .. | .conditionalGoto ..
  | .dispatch .. | .foreign .. => by
    simp [verifiedStmt, exitsStmt, YieldFree]

theorem verifiedStmts_false_iff : ∀ ss : List Stmt, verifiedStmts false ss = true ↔
    verifiedStmts true ss = true ∧ YieldFree (exitsStmts ss)
  | [] => by simp [verifiedStmts, exitsStmts, YieldFree]
  | s :: rest => by
    simp only [verifiedStmts, exitsStmts, Bool.and_eq_true, YieldFree.append,
      verifiedStmt_false_iff s, verifiedStmts_false_iff rest]
    grind

theorem verifiedBlock_false_iff : ∀ b : Block, verifiedBlock false b = true ↔
    verifiedBlock true b = true ∧ YieldFree (exitsBlock b)
  | .absent => by simp [verifiedBlock, exitsBlock, YieldFree]
  | .mk _ _ ss => verifiedStmts_false_iff ss

theorem verifiedCatches_false_iff : ∀ cs : List Catch, verifiedCatches false cs = true ↔
    verifiedCatches true cs = true ∧ YieldFree (exitsCatches cs)
  | [] => by simp [verifiedCatches, exitsCatches, YieldFree]
  | .mk _ _ body :: rest => by
    simp only [verifiedCatches, exitsCatches, Bool.and_eq_true, YieldFree.append,
      verifiedBlock_false_iff body, verifiedCatches_false_iff rest]
    grind

end

theorem verify_false_iff {b : Block} : verify false (.stmt (.block b)) = .ok () ↔
    verify true (.stmt (.block b)) = .ok () ∧ YieldFree (exitsBlock b) := by
  rw [verify_block_iff, verify_block_iff, verifiedBlock_false_iff]
  grind

/-! ## What verification reports -/

/-- The violation is that a suspension is left over. -/
def LeftOver (e : Violation) : Prop :=
  ∃ k : Kind, k.isYield = true ∧ e.cause = .survivingYield k.name

/-- Where suspensions are not allowed, a step of the survey does the same or reports one. -/
theorem step_false {s s' : Survey} {v : Visit} (h : Survey.step true s v = .ok s') :
    Survey.step false s v = .ok s' ∨ ∃ e, Survey.step false s v = .error e ∧ LeftOver e := by
  cases v with
  | unhandled d => cases h
  | node depth n =>
    cases hkind : n.kind? with
    | none =>
      simp only [Survey.step, hkind] at h ⊢
      exact .inl h
    | some k =>
      cases hyield : k.isYield with
      | true =>
        refine .inr ⟨{ cause := .survivingYield k.name, span := n.origin.span }, ?_, k, hyield, rfl⟩
        simp only [Survey.step, hkind, Survey.checkKind, hyield, if_true]
        rfl
      | false =>
        simp only [Survey.step, hkind, Survey.checkKind, hyield, Bool.false_eq_true, if_false]
          at h ⊢
        exact .inl h

theorem foldlM_false {vs : List Visit} : ∀ {s s' : Survey},
    vs.foldlM (Survey.step true) s = .ok s' →
    vs.foldlM (Survey.step false) s = .ok s' ∨
      ∃ e, vs.foldlM (Survey.step false) s = .error e ∧ LeftOver e := by
  induction vs with
  | nil => exact fun h => .inl h
  | cons v rest ih =>
    intro s s' h
    rw [List.foldlM_cons] at h
    simp only [List.foldlM_cons]
    cases hstep : Survey.step true s v with
    | error e =>
      rw [hstep] at h
      cases h
    | ok mid =>
      rw [hstep] at h
      rcases step_false hstep with hfalse | ⟨e, hfalse, he⟩
      · rw [hfalse]
        exact ih h
      · rw [hfalse]
        exact .inr ⟨e, rfl, he⟩

/-- If a tree is in the lowered form apart from suspensions, these are all that is reported. -/
theorem verify_false {n : Node} (h : verify true n = .ok ()) :
    verify false n = .ok () ∨ ∃ e, verify false n = .error e ∧ LeftOver e := by
  unfold verify at h ⊢
  cases hsurvey : (n.visits fun _ => true).foldlM (Survey.step true) {} with
  | error e =>
    rw [hsurvey] at h
    cases h
  | ok survey =>
    rw [hsurvey] at h
    rcases foldlM_false hsurvey with hfalse | ⟨e, hfalse, he⟩
    · rw [hfalse]
      exact .inl h
    · rw [hfalse]
      exact .inr ⟨e, rfl, he⟩

/-! ## Bodies -/

/-- What lowering makes of a tree is in the lowered form apart from suspensions if and only if its
jumps go to labels of the tree, if these differ from each other and from the labels that lowering
makes. -/
theorem Laid.verify_iff {a c : Nat} {ls : List (Option Label)} {js : List Leap} {b : Block}
    (h : Laid a c ls js [.block b]) (hnodup : ls.Nodup)
    (hls : ∀ l ∈ ls, l ≠ none ∧ ¬ BranchLabel a c l) (hjs : ∀ j ∈ js, ¬ BranchLabel a c j.target) :
    verify true (.stmt (.block b)) = .ok () ↔ ∀ j ∈ js, j.target ∈ ls := by
  obtain ⟨made, hperm, hmade⟩ := h.labels
  have hlabels : (labelsBlock b).Perm (ls ++ made) := by
    simpa [labelsStmts, labelsStmt] using hperm
  have hnodup' : (labelsBlock b).Nodup := by
    refine hlabels.nodup_iff.mpr (List.nodup_append.mpr ⟨hnodup, hmade.nodup, ?_⟩)
    rintro l hl _ hl' rfl
    exact (hls l hl).2 (hmade.numbered l hl')
  have hverified : verifiedBlock true b = true := by
    simpa [verifiedStmts, verifiedStmt] using h.verified
  have hmem : ∀ l, l ∈ labelsBlock b ↔ l ∈ ls ∨ l ∈ made := by
    intro l
    rw [hlabels.mem_iff, List.mem_append]
  rw [verify_block_iff]
  constructor
  · rintro ⟨-, -, htargets⟩ j hj
    have htarget : j.target ∈ targetsBlock b := by
      simpa [targetsStmts, targetsStmt] using h.leaps j hj
    exact ((hmem _).mp (htargets _ htarget).1).resolve_right fun hin =>
      hjs j hj (hmade.numbered _ hin)
  · intro hjumps
    refine ⟨hverified, hnodup', fun l hl => ?_⟩
    have hin : l ∈ labelsBlock b := by
      rcases h.targets l (by simpa [targetsStmts, targetsStmt] using hl) with hl | ⟨j, hj, rfl⟩
      · simpa [labelsStmts, labelsStmt] using hl
      · exact (hmem _).mpr (.inl (hjumps j hj))
    refine ⟨hin, ?_⟩
    rcases (hmem l).mp hin with hl | hl
    · exact (hls l hl).1
    · obtain ⟨k, -, -, rfl | rfl⟩ := hmade.numbered l hl <;> simp

theorem ne_none_of_program {l : Option Label} (h : OfProgram l) : l ≠ none := by
  rintro rfl
  exact h

theorem not_branch_of_program {l : Option Label} (h : OfProgram l) (a b : Nat) :
    ¬ BranchLabel a b l := by
  rintro ⟨k, -, -, rfl | rfl⟩ <;> simp [OfProgram] at h

/-- The body of a method that resolution makes is lowered, and what lowering gives is in the lowered
form apart from suspensions. -/
theorem walkBody_ok {m : MethodBody} (hm : BoundMethod m) (markers : Bool) :
    ∃ b k, walkBlock markers m.body 0 = (.ok b, k) ∧
      Laid 0 k (landingsBlock m.body) (leapsBlock m.body) [.block b] ∧
      verify true (.stmt (.block b)) = .ok () := by
  obtain ⟨n, hbound⟩ := hm.bound
  obtain ⟨b, k, hwalk, hlaid⟩ := walkBlock_ok markers (walkableBlock_of_bound hbound) 0
  refine ⟨b, k, hwalk, hlaid, ?_⟩
  have hls : ∀ l ∈ landingsBlock m.body, l ≠ none ∧ ¬ BranchLabel 0 k l := fun l hl =>
    ⟨ne_none_of_program (hm.ofProgram l hl), not_branch_of_program (hm.ofProgram l hl) 0 k⟩
  exact (hlaid.verify_iff hm.nodup hls fun j hj => (hls _ (hm.targets j hj)).2).mpr hm.targets

/-- A method that is not resumable is lowered to the lowered body, or not at all if that is not in
the lowered form. -/
theorem lowerMethod_of_walk {m : MethodBody} (hplain : m.symbol.isIterator = false)
    {markers : Bool} {b : Block} {k : Nat} (hwalk : walkBlock markers m.body 0 = (.ok b, k)) :
    lowerMethod markers m = match verify false (.stmt (.block b)) with
      | .ok () => .ok (.plain ⟨m.symbol, b⟩)
      | .error violation => .error { violation } := by
  have hbody : lowerBody markers m 0 = match verify false (.stmt (.block b)) with
      | .ok () => (.ok (.plain ⟨m.symbol, b⟩), k)
      | .error violation => (.error violation, k) := by
    cases hverify : verify false (.stmt (.block b)) with
    | ok u => simp [lowerBody, Lower.bind_apply, hwalk, hplain, hverify, Lower.ofExcept,
        Lower.pure_apply]
    | error v =>
      simp only [lowerBody, Lower.bind_apply, hwalk, hplain, hverify, Lower.ofExcept]
      rfl
  have houtcome : (lowerBody markers m).outcome = lowerBody markers m 0 := rfl
  unfold lowerMethod
  rw [houtcome, hbody]
  cases verify false (.stmt (.block b)) with
  | ok u => rfl
  | error v => rfl

/-- A method of a program that was read and that is not resumable is lowered if and only if it does
not suspend, and suspensions are all that can stand in the way. -/
theorem plain_lowers_iff {file source : String} {program : Program}
    (hread : read file source = .ok program) {m : MethodBody} (hm : m ∈ program.methods)
    (hplain : m.symbol.isIterator = false) (markers : Bool) :
    ((∃ lowered, lowerMethod markers m = .ok lowered) ↔
      m.body.has .yieldReturn = false ∧ m.body.has .yieldBreak = false) ∧
    ∀ fault, lowerMethod markers m = .error fault →
      ∃ k : Kind, k.isYield = true ∧ fault.violation.cause = .survivingYield k.name := by
  obtain ⟨b, k, hwalk, -, hverify⟩ := walkBody_ok (bound_methods hread hm) markers
  rw [lowerMethod_of_walk hplain hwalk]
  have hexits : exitsBlock b = exitsBlock m.body := walkedBlock_exits (walkedBlock_of_ok hwalk)
  have hfree : YieldFree (exitsBlock b) ↔
      m.body.has .yieldReturn = false ∧ m.body.has .yieldBreak = false := by
    rw [hexits, ← Bool.not_eq_true, ← Bool.not_eq_true, has_iff_exits rfl, has_iff_exits rfl]
    constructor
    · intro h
      exact ⟨fun hmem => absurd (h _ hmem) (by decide), fun hmem => absurd (h _ hmem) (by decide)⟩
    · rintro ⟨hreturn, hbreak⟩ k hk
      cases k <;> first | rfl | exact absurd hk hreturn | exact absurd hk hbreak
  rw [← hfree]
  rcases verify_false hverify with hok | ⟨e, herror, kind, hkind, hcause⟩
  · rw [hok]
    refine ⟨⟨fun _ => (verify_false_iff.mp hok).2, fun _ => ⟨_, rfl⟩⟩, fun fault h => ?_⟩
    cases h
  · rw [herror]
    refine ⟨⟨?_, fun h => ?_⟩, fun fault h => ?_⟩
    · rintro ⟨lowered, h⟩
      cases h
    · rw [verify_false_iff.mpr ⟨hverify, h⟩] at herror
      cases herror
    · cases h
      exact ⟨kind, hkind, hcause⟩

/-- A method with a jump out of a try and back before it, in a loop. -/
def retrySource : String :=
  "class C \x7b extern bool F(int n); int M(int n) \x7b while (n > 0) \x7b again: try \x7b " ++
    "if (F(n)) goto again; else break; \x7d catch (e) \x7b continue; \x7d finally \x7b " ++
    "n = n - 1; \x7d \x7d return n; \x7d \x7d"

theorem plain_lowers_iff_retry :
    ∃ program m, read "" retrySource = .ok program ∧ m ∈ program.methods ∧
      m.symbol.isIterator = false ∧ m.body.has .yieldReturn = false ∧
      m.body.has .yieldBreak = false ∧ ∃ lowered, lowerMethod true m = .ok lowered := by
  have hfacts : ((read "" retrySource).toOption.map fun p => p.methods.map fun m =>
      (m.symbol.isIterator, m.body.has .yieldReturn, m.body.has .yieldBreak)) =
      some [(false, false, false)] := by
    rw [show retrySource = .ofList _ from append_ofList (append_ofList rfl rfl) rfl, read_ofList]
    decide +kernel
  obtain ⟨program, m, hread, hm, hfact⟩ := read_single hfacts
  simp only [Prod.mk.injEq] at hfact
  obtain ⟨hplain, hreturn, hbreak⟩ := hfact
  exact ⟨program, m, hread, hm, hplain, hreturn, hbreak,
    (plain_lowers_iff hread hm hplain true).1.mpr ⟨hreturn, hbreak⟩⟩

end Resumable.Lowering
