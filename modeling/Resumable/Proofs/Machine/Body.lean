import Resumable.Proofs.Machine.Agreement

/-!
# Runs of whole bodies

A body in the lowered form whose labels are all different and whose jumps all go to one of them
becomes a routine, and the runs of that routine are the structured executions of the body
(`run_iff_execBody`).  Everything else about lowered bodies is proved along their trees.
-/

set_option autoImplicit false

namespace Resumable.Machine

open Resumable.Symbol Resumable.Tree

variable {σ : Type}

/-! ## Bodies that become routines -/

mutual

/-- A statement has the lowered form. -/
def loweredStmt : Stmt → Bool
  | .block b => loweredBlock b
  | .list _ ss => loweredStmts ss
  | .sequencePoint .. | .expression .. | .return .. | .throw .. => true
  | .goto .. | .conditionalGoto .. | .dispatch .. | .label .. => true
  | .try _ body catches cleanup =>
    loweredBlock body && loweredCatches catches && loweredBlock cleanup
  | _ => false

/-- Statements have the lowered form. -/
def loweredStmts : List Stmt → Bool
  | [] => true
  | s :: rest => loweredStmt s && loweredStmts rest

/-- A block has the lowered form. -/
def loweredBlock : Block → Bool
  | .absent => true
  | .mk _ _ ss => loweredStmts ss

/-- The bodies of handlers have the lowered form. -/
def loweredCatches : List Catch → Bool
  | [] => true
  | .mk _ _ body :: rest => loweredBlock body && loweredCatches rest

end

mutual

theorem checkStmt_eq (defined : List (Option Label)) :
    ∀ s : Stmt, loweredStmt s = true → (defined ++ labelsStmt s).Nodup →
      checkStmt defined s = .ok (defined ++ labelsStmt s)
  | .block b, h, hn => by
    simp only [loweredStmt, labelsStmt, checkStmt] at h hn ⊢
    exact checkBlock_eq defined b h hn
  | .list _ ss, h, hn => by
    simp only [loweredStmt, labelsStmt, checkStmt] at h hn ⊢
    exact checkStmts_eq defined ss h hn
  | .label _ l, h, hn => by
    have hl : l ∉ defined := by
      intro hmem
      exact (List.nodup_append.mp hn).2.2 l hmem l (by simp [labelsStmt]) rfl
    simp only [labelsStmt, checkStmt]
    rw [if_neg hl]
  | .try _ body catches cleanup, h, hn => by
    simp only [loweredStmt, Bool.and_eq_true] at h
    simp only [labelsStmt, ← List.append_assoc] at hn ⊢
    have hn1 := (List.nodup_append.mp hn).1
    rw [checkStmt, checkBlock_eq defined body h.1.1 (List.nodup_append.mp hn1).1]
    show checkCatches (defined ++ labelsBlock body) catches >>= _ = _
    rw [checkCatches_eq _ catches h.1.2 hn1]
    exact checkBlock_eq _ cleanup h.2 hn
  | .sequencePoint .., _, _ | .expression .., _, _ | .return .., _, _ | .throw .., _, _
  | .goto .., _, _ | .conditionalGoto .., _, _ | .dispatch .., _, _ => by
    simp [labelsStmt, checkStmt]
  | .absent, h, _ | .noOp .., h, _ | .localDeclaration .., h, _ | .yieldReturn .., h, _
  | .yieldBreak .., h, _ | .if .., h, _ | .while .., h, _ | .break .., h, _
  | .continue .., h, _ | .foreign .., h, _ => by
    simp [loweredStmt] at h

theorem checkStmts_eq (defined : List (Option Label)) :
    ∀ ss : List Stmt, loweredStmts ss = true → (defined ++ labelsStmts ss).Nodup →
      checkStmts defined ss = .ok (defined ++ labelsStmts ss)
  | [], _, _ => by simp [labelsStmts, checkStmts]
  | s :: rest, h, hn => by
    simp only [loweredStmts, Bool.and_eq_true] at h
    simp only [labelsStmts, ← List.append_assoc] at hn ⊢
    simp only [checkStmts, checkStmt_eq defined s h.1 (List.nodup_append.mp hn).1]
    exact checkStmts_eq _ rest h.2 hn

theorem checkBlock_eq (defined : List (Option Label)) :
    ∀ b : Block, loweredBlock b = true → (defined ++ labelsBlock b).Nodup →
      checkBlock defined b = .ok (defined ++ labelsBlock b)
  | .absent, _, _ => by simp [labelsBlock, checkBlock]
  | .mk _ _ ss, h, hn => by
    simp only [loweredBlock, labelsBlock, checkBlock] at h hn ⊢
    exact checkStmts_eq defined ss h hn

theorem checkCatches_eq (defined : List (Option Label)) :
    ∀ cs : List Catch, loweredCatches cs = true → (defined ++ labelsCatches cs).Nodup →
      checkCatches defined cs = .ok (defined ++ labelsCatches cs)
  | [], _, _ => by simp [labelsCatches, checkCatches]
  | .mk _ _ body :: rest, h, hn => by
    simp only [loweredCatches, Bool.and_eq_true] at h
    simp only [labelsCatches, ← List.append_assoc] at hn ⊢
    simp only [checkCatches, checkBlock_eq defined body h.1 (List.nodup_append.mp hn).1]
    exact checkCatches_eq _ rest h.2 hn

end

/-- A body that can be executed: it has the lowered form, no label is defined twice, and each jump
goes to a label of the body. -/
structure Executable (b : Block) : Prop where
  present : b ≠ .absent
  lowered : loweredBlock b = true
  nodup : (labelsBlock b).Nodup
  targets : ∀ l ∈ targetsBlock b, l ∈ labelsBlock b ∧ l ≠ none

/-! ## Targets of instructions -/

/-- The label of a target that has not got a position yet. -/
def Target.label? : Target → Option (Option Label)
  | .label l => some l
  | .position _ => none

/-- The labels that an instruction may jump to. -/
def Instr.labels : Instr Target → List (Option Label)
  | .jump t => t.label?.toList
  | .branch _ _ t => t.label?.toList
  | .dispatch _ cases t => cases.filterMap (fun c => c.2.label?) ++ t.label?.toList
  | _ => []

theorem jumpTarget_label {l k : Option Label} (h : k ∈ (jumpTarget l).label?.toList) : k = l := by
  cases l with
  | none => simp [jumpTarget, Target.label?] at h
  | some l => simpa [jumpTarget, Target.label?] using h

theorem leafInstr_labels {s : Stmt} {l : Option Label} (h : l ∈ (leafInstr s).labels) :
    l ∈ targetsStmt s := by
  cases s with
  | goto o k => simpa [targetsStmt] using jumpTarget_label h
  | conditionalGoto o c w k => simpa [targetsStmt] using jumpTarget_label h
  | dispatch o e cases k =>
    simp only [leafInstr, Instr.labels, List.mem_append, List.filterMap_map] at h
    simp only [targetsStmt, List.mem_append, List.mem_singleton]
    rcases h with h | h
    · obtain ⟨c, hc, hl⟩ := List.mem_filterMap.mp h
      cases hl
      exact .inl (List.mem_map.mpr ⟨c, hc, rfl⟩)
    · exact .inr (jumpTarget_label h)
  | throw o e => cases e <;> simp [leafInstr, throwInstr, Instr.labels] at h
  | _ => simp [leafInstr, Instr.labels] at h

/-- The labels of the instructions of a fragment are among those given. -/
def Fragment.Aims (f : Fragment) (targets : List (Option Label)) : Prop :=
  ∀ i ∈ f.instrs, ∀ l ∈ i.labels, l ∈ targets

namespace Fragment.Aims

theorem empty {f : Fragment} (hf : f.instrs = []) (targets : List (Option Label)) :
    f.Aims targets := by
  intro i hi
  simp [hf] at hi

theorem one (i : Instr Target) (targets : List (Option Label))
    (h : ∀ l ∈ i.labels, l ∈ targets) : Aims (.one i) targets := by
  intro j hj
  rw [List.mem_singleton.mp hj]
  exact h

theorem append {a b : Fragment} {ts us : List (Option Label)} (ha : a.Aims ts) (hb : b.Aims us) :
    (a ++ b).Aims (ts ++ us) := by
  intro i hi l hl
  rcases List.mem_append.mp hi with h | h
  · exact List.mem_append_left _ (ha i h l hl)
  · exact List.mem_append_right _ (hb i h l hl)

end Fragment.Aims

open Fragment (Aims)

mutual

theorem aims_stmt (pc : Nat) : ∀ s : Stmt, (flattenStmt pc s).Aims (targetsStmt s)
  | .block b => by
    simp only [flattenStmt, targetsStmt]
    exact aims_block pc b
  | .list _ ss => by
    simp only [flattenStmt, targetsStmt]
    exact aims_stmts pc ss
  | .label _ l => by
    intro i hi
    simp [flattenStmt] at hi
  | .try o body catches cleanup => by
    rw [flattenStmt_try, targetsStmt, List.append_assoc]
    have hregion : Aims { regions := [regionAt pc body catches cleanup] } [] := .empty rfl []
    have hjump : ∀ p, (Fragment.one (.jump (.position p))).Aims [] :=
      fun p => .one _ _ (by simp [Instr.labels, Target.label?])
    have h := (hregion.append ((aims_block pc body).append
      (hjump (behindTry pc body catches cleanup)))).append
      ((aims_catches (behindBody pc body) (behindTry pc body catches cleanup) catches).append
      (aims_cleanup (behindCatches pc body catches) cleanup))
    simpa using h
  | .absent | .sequencePoint .. | .noOp .. | .localDeclaration .. | .expression .. | .return ..
  | .yieldReturn .. | .yieldBreak .. | .throw .. | .if .. | .while .. | .break .. | .continue ..
  | .goto .. | .conditionalGoto .. | .dispatch .. | .foreign .. => by
    rw [(flattenStmt_leaf rfl pc).1]
    exact .one _ _ fun l => leafInstr_labels

theorem aims_stmts (pc : Nat) : ∀ ss : List Stmt, (flattenStmts pc ss).Aims (targetsStmts ss)
  | [] => by
    simp only [flattenStmts, targetsStmts]
    exact .empty rfl _
  | s :: rest => by
    simp only [flattenStmts, targetsStmts]
    exact (aims_stmt pc s).append (aims_stmts (pc + sizeStmt s) rest)

theorem aims_block (pc : Nat) : ∀ b : Block, (flattenBlock pc b).Aims (targetsBlock b)
  | .absent => by
    simp only [flattenBlock, targetsBlock]
    exact .empty rfl _
  | .mk _ _ ss => by
    simp only [flattenBlock, targetsBlock]
    exact aims_stmts pc ss

theorem aims_cleanup (pc : Nat) : ∀ b : Block, (flattenCleanup pc b).Aims (targetsBlock b)
  | .absent => by
    simp only [flattenCleanup, targetsBlock]
    exact .empty rfl _
  | .mk _ _ ss => by
    simp only [flattenCleanup, targetsBlock]
    simpa using (aims_stmts pc ss).append (.one .endFinally [] (by simp [Instr.labels]))

theorem aims_catches (pc behind : Nat) :
    ∀ cs : List Catch, (flattenCatches pc behind cs).Aims (targetsCatches cs)
  | [] => by
    simp only [flattenCatches, targetsCatches]
    exact .empty rfl _
  | .mk _ _ body :: rest => by
    simp only [flattenCatches, targetsCatches]
    have hone : ∀ i : Instr Target, i.labels = [] → (Fragment.one i).Aims [] :=
      fun i hi => .one _ _ (by simp [hi])
    have h := ((((hone .enterCatch rfl).append (aims_block (pc + 1) body)).append
      (hone .endCatch rfl)).append (hone (.jump (.position behind)) rfl)).append
      (aims_catches (pc + sizeBlock body + 3) behind rest)
    simpa using h

end

/-! ## Routines -/

/-- The fragment of a whole body: behind its end it returns nothing. -/
def bodyFragment (b : Block) : Fragment := flattenBlock 0 b ++ .one (.return .absent)

/-- The routine of a body. -/
def routineOf (method : Method) (b : Block) : Routine :=
  { method
    instrs := ((bodyFragment b).instrs.map (bodyFragment b).resolveInstr).toArray
    regions := (bodyFragment b).regions }

theorem bodyFragment_labels (b : Block) : (bodyFragment b).labels = (flattenBlock 0 b).labels := by
  simp [bodyFragment]

theorem lookup_isSome_of_mem {l : Option Label} {xs : List (Option Label × Nat)}
    (h : l ∈ xs.map Prod.fst) : (xs.lookup l).isSome = true := by
  induction xs with
  | nil => simp at h
  | cons x xs ih =>
    obtain ⟨k, p⟩ := x
    rw [List.lookup_cons]
    cases hk : l == k with
    | true => rfl
    | false =>
      refine ih ?_
      have hne : l ≠ k := by simpa using hk
      simpa [hne] using h

/-- A body that can be executed becomes its routine. -/
theorem Executable.flatten {b : Block} (h : Executable b) (method : Method) :
    flatten { symbol := method, body := b } = .ok (routineOf method b) := by
  have haims : ∀ i ∈ (bodyFragment b).instrs, ∀ l ∈ i.labels,
      ((bodyFragment b).labels.lookup l).isSome = true := by
    intro i hi l hl
    refine lookup_isSome_of_mem ?_
    rw [bodyFragment_labels, (fits_block 0 b).labels_eq]
    refine (h.targets l ?_).1
    have hall := (aims_block 0 b).append (Aims.one (.return .absent) []
      (by simp [Instr.labels]))
    simpa using hall i hi l hl
  have htarget : ∀ t : Target,
      (∀ l ∈ t.label?.toList, ((bodyFragment b).labels.lookup l).isSome = true) →
      (bodyFragment b).checkTarget method t = .ok () ∧
        (bodyFragment b).checkCase method t = .ok () := by
    intro t ht
    cases t with
    | position pc => exact ⟨rfl, rfl⟩
    | label l =>
      have hl := ht l (by simp [Target.label?])
      simp [Fragment.checkTarget, Fragment.checkCase, hl]
  have hjumps : (bodyFragment b).instrs.forM ((bodyFragment b).checkJump method) = .ok () := by
    refine forM_ok_iff.mpr fun i hi => ?_
    have hlabels := haims i hi
    cases i with
    | jump t => exact (htarget t hlabels).1
    | branch c w t => exact (htarget t hlabels).1
    | dispatch e cases t =>
      exact (htarget t fun l hl => hlabels l (List.mem_append_right _ hl)).1
    | _ => rfl
  have hcases : (bodyFragment b).instrs.forM ((bodyFragment b).checkCases method) = .ok () := by
    refine forM_ok_iff.mpr fun i hi => ?_
    have hlabels := haims i hi
    cases i with
    | dispatch e cases t =>
      refine forM_ok_iff.mpr fun x hx => (htarget x.2 fun l hl => hlabels l ?_).2
      refine List.mem_append_left _ (List.mem_filterMap.mpr ⟨x, hx, ?_⟩)
      simpa using hl
    | _ => rfl
  obtain ⟨o, locals, ss, rfl⟩ : ∃ o locals ss, b = .mk o locals ss := by
    cases b with
    | absent => exact absurd rfl h.present
    | mk o locals ss => exact ⟨o, locals, ss, rfl⟩
  have hcheck := checkBlock_eq [] (.mk o locals ss) h.lowered h.nodup
  unfold Machine.flatten
  dsimp only
  rw [hcheck]
  show (bodyFragment (.mk o locals ss)).routine method = _
  unfold Fragment.routine
  rw [hjumps]
  show ((bodyFragment (.mk o locals ss)).instrs.forM ((bodyFragment _).checkCases method) >>= _) = _
  rw [hcases]
  rfl

/-! ## Runs -/

/-- What an execution of a body refers to. -/
def Setting.ofBody (ctx : Context σ) (observer : Observer σ) (method : Method) (b : Block) :
    Setting σ :=
  { ctx, observer, method, label := fun l => ((flattenBlock 0 b).labels.lookup l).getD 0 }

theorem lookup_of_nodup {β : Type} {x : Option Label × β} :
    ∀ {xs : List (Option Label × β)}, (xs.map Prod.fst).Nodup → x ∈ xs →
      xs.lookup x.1 = some x.2
  | [], _, h => by simp at h
  | (k, p) :: xs, hn, h => by
    rw [List.map_cons, List.nodup_cons] at hn
    rw [List.lookup_cons]
    rcases List.mem_cons.mp h with rfl | hmem
    · simp
    · have hne : x.1 ≠ k := by
        rintro rfl
        exact hn.1 (List.mem_map.mpr ⟨x, hmem, rfl⟩)
      have hk : (x.1 == k) = false := by simpa using hne
      rw [hk]
      exact lookup_of_nodup hn.2 hmem

section Runs

variable {ctx : Context σ} {observer : Observer σ} {method : Method} {b : Block}

theorem routineOf_size (method : Method) (b : Block) :
    (routineOf method b).instrs.size = sizeBlock b + 1 := by
  simp [routineOf, bodyFragment, (fits_block 0 b).length]

theorem routineOf_range (method : Method) (b : Block) :
    (routineOf method b).range = ⟨0, sizeBlock b + 1⟩ := by
  rw [Routine.range, routineOf_size]

/-- The instructions of a routine are those of its fragment, with positions for targets. -/
theorem routineOf_instrs (ctx : Context σ) (observer : Observer σ) (i : Nat) :
    (routineOf method b).instrs[i]? = ((bodyFragment b).instrs[i]?).map
      (Instr.map (Setting.ofBody ctx observer method b).position) := by
  have hresolve : (bodyFragment b).resolve = (Setting.ofBody ctx observer method b).position := by
    funext t
    cases t with
    | label l => simp [Fragment.resolve, Setting.position, Setting.ofBody, bodyFragment_labels]
    | position pc => rfl
  simp only [routineOf, List.getElem?_toArray, List.getElem?_map]
  refine congrArg (fun f => Option.map f (bodyFragment b).instrs[i]?) (funext fun instr => ?_)
  rw [Fragment.resolveInstr_eq, hresolve]

/-- A body stands in its routine. -/
theorem Executable.placed (h : Executable b) (ctx : Context σ) (observer : Observer σ)
    (method : Method) :
    Placed (Setting.ofBody ctx observer method b) (routineOf method b) (labelsBlock b)
      (routineOf method b).range (flattenBlock 0 b) 0 (sizeBlock b) (labelsBlock b) [] [] := by
  have hfits := fits_block 0 b
  rw [routineOf_range]
  refine ⟨?_, ?_, ?_, ⟨Nat.le_refl _, by dsimp only; omega⟩, by simp, by simp, ?_⟩
  · intro i hi
    rw [routineOf_instrs ctx observer, Nat.zero_add, bodyFragment,
      Fragment.append_instrs, List.getElem?_append_left (by rw [hfits.length]; exact hi)]
  · intro x hx
    have hn : ((flattenBlock 0 b).labels.map Prod.fst).Nodup := by
      rw [hfits.labels_eq]
      exact h.nodup
    simp [Setting.ofBody, lookup_of_nodup hn hx]
  · intro p _ hp
    simp only [Routine.regionsAt, routineOf, bodyFragment, Fragment.append_regions,
      Fragment.one_regions, List.append_nil]
    refine congrArg List.reverse (List.filter_congr fun g hg => ?_)
    have hmem := hfits.region_mem g hg
    have hwithin : g.guarded.isWithin ⟨0, sizeBlock b + 1⟩ = true := by
      simp only [Range.isWithin, Bool.and_eq_true, decide_eq_true_eq]
      omega
    rw [hwithin, Bool.and_true]
  · intro l hl hnot
    exact absurd hl hnot

/-- A body does what its structured execution says, up to the return behind its end. -/
theorem Executable.implements (h : Executable b) (e : Entry)
    (he : e.enters (labelsBlock b) = true) :
    Implements (Setting.ofBody ctx observer method b) (routineOf method b) (labelsBlock b)
      (routineOf method b).range True
      ((Setting.ofBody ctx observer method b).run (routineOf method b) (routineOf method b).range
        ((Setting.ofBody ctx observer method b).entry 0 e))
      ((Setting.ofBody ctx observer method b).execBody (routineOf method b).range b e) []
      (sizeBlock b + 1) := by
  have hplaced := h.placed ctx observer method
  have hbody := Implements.rounds []
    (implements_block rfl b _ 0 [] [] hplaced h.targets)
    (fun l hl g hg => hplaced.covers_label (fits_block 0 b) hl hg) (by simp) e he
  rw [Nat.zero_add] at hbody
  refine hbody.onNormal ?_
  have hlast : (routineOf method b).instrs[sizeBlock b]? = some (.return .absent) := by
    rw [routineOf_instrs ctx observer, bodyFragment,
      Fragment.append_instrs, ← (fits_block 0 b).length]
    simp [Instr.map]
  have hregions : (routineOf method b).regionsAt (sizeBlock b) (routineOf method b).range = [] := by
    have hnone := filter_covers_eq_nil (p := sizeBlock b) (fits_block 0 b).region_mem
      (.inr (by omega))
    rw [List.filter_eq_nil_iff] at hnone
    simp only [Routine.regionsAt, List.reverse_eq_nil_iff, List.filter_eq_nil_iff,
      Bool.and_eq_true, not_and]
    intro g hg hcovers
    have hg' : g ∈ (flattenBlock 0 b).regions := by
      simpa [routineOf, bodyFragment] using hg
    exact absurd hcovers (hnone g hg')
  refine Implements.leaf (s := .return {} .absent) rfl rfl ?_ hlast hregions ?_
  · rw [routineOf_range, Range.covers_eq_true]
    exact ⟨Nat.zero_le _, Nat.lt_succ_self _⟩
  · simp [targetsStmt]

/-- An execution of a whole body returns, fails, suspends or stops. -/
theorem Executable.execBody_ne (h : Executable b) {e : Entry}
    (he : e.enters (labelsBlock b) = true) {c d : Config σ} {o : Outcome}
    (ho : (Setting.ofBody ctx observer method b).execBody (routineOf method b).range b e c =
      some (o, d)) : o ≠ .normal ∧ ∀ pc l, o ≠ .jump pc l := by
  unfold Setting.execBody Flow.onNormal at ho
  obtain ⟨o', d', hd', hrest⟩ := Flow.andThen_eq_some.mp ho
  cases o' with
  | normal =>
    cases hrest
    simp
  | jump pc l =>
    have hplaced := h.placed ctx observer method
    have hbody := Implements.rounds []
      (implements_block rfl b _ 0 [] [] hplaced h.targets)
      (fun l hl g hg => hplaced.covers_label (fits_block 0 b) hl hg) (by simp) e he
    exact absurd (hbody.aims _ _ _ _ hd') (Setting.rounds_jump hd').1
  | ret | fail | suspend | stop =>
    cases hrest
    simp

/-- The runs of a routine are the structured executions of its body. -/
theorem run_iff_execBody (h : Executable b) (e : Entry) (he : e.enters (labelsBlock b) = true)
    (c : Config σ) (z : Except Failure Halt × Config σ) :
    (∃ n, observer.run ctx (routineOf method b) n (routineOf method b).range
        ((Setting.ofBody ctx observer method b).entry 0 e) c = some z) ↔
      ∃ o d, (Setting.ofBody ctx observer method b).execBody (routineOf method b).range b e c =
          some (o, d) ∧
        (Setting.ofBody ctx observer method b).close (routineOf method b).range
          (sizeBlock b + 1) o d = some z := by
  refine (h.implements e he).closes rfl ?_ ?_ c z
  · intro c d hd
    exact absurd rfl (h.execBody_ne he hd).1
  · intro c d pc l hd
    exact absurd rfl ((h.execBody_ne he hd).2 pc l)

end Runs

end Resumable.Machine
