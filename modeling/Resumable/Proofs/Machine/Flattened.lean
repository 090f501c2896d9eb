import Resumable.Proofs.Machine.Body
import Resumable.Tree.Visit

/-!
# What becomes a routine

A body whose jumps carry labels can be flattened if and only if it is in the lowered form, places no
label twice, and jumps to its own labels only (`flatten_ok_iff`).  In the routine that it becomes,
each jump goes to where the label stands, every target is an instruction, and the last instruction
returns (`Executable.resolves`).
-/

set_option autoImplicit false

namespace Resumable.Machine

open Resumable.Symbol Resumable.Tree

/-! ## What the check accepts -/

mutual

theorem checkStmt_ok {defined ds : List (Option Label)} : ∀ {s : Stmt},
    checkStmt defined s = .ok ds → loweredStmt s = true ∧ ds = defined ++ labelsStmt s ∧
      (defined.Nodup → ds.Nodup)
  | .block b, h => checkBlock_ok (b := b) h
  | .list _ ss, h => @checkStmts_ok defined ds ss h
  | .label _ l, h => by
    rw [checkStmt] at h
    split at h
    · cases h
    · rename_i hfresh
      cases h
      refine ⟨rfl, rfl, fun hn => List.nodup_append.mpr ⟨hn, by simp, ?_⟩⟩
      rintro a ha b hb rfl
      exact hfresh (List.mem_singleton.mp hb ▸ ha)
  | .try _ body catches cleanup, h => by
    rw [checkStmt] at h
    obtain ⟨_, hbody, h⟩ := bind_ok_iff.mp h
    obtain ⟨_, hcatches, h⟩ := bind_ok_iff.mp h
    obtain ⟨hlowered, rfl, hnodup⟩ := checkBlock_ok hbody
    obtain ⟨hlowered', rfl, hnodup'⟩ := checkCatches_ok hcatches
    obtain ⟨hlowered'', rfl, hnodup''⟩ := checkBlock_ok h
    exact ⟨by simp [loweredStmt, hlowered, hlowered', hlowered''],
      by simp [labelsStmt], fun hn => hnodup'' (hnodup' (hnodup hn))⟩
  | .sequencePoint .., h | .expression .., h | .return .., h | .throw .., h | .goto .., h
  | .conditionalGoto .., h | .dispatch .., h => by
    cases h
    exact ⟨rfl, by simp [labelsStmt], id⟩
  | .absent, h | .noOp .., h | .localDeclaration .., h | .yieldReturn .., h | .yieldBreak .., h
  | .if .., h | .while .., h | .break .., h | .continue .., h | .foreign .., h => nomatch h

theorem checkStmts_ok {defined ds : List (Option Label)} : ∀ {ss : List Stmt},
    checkStmts defined ss = .ok ds → loweredStmts ss = true ∧ ds = defined ++ labelsStmts ss ∧
      (defined.Nodup → ds.Nodup)
  | [], h => by
    cases h
    exact ⟨rfl, by simp [labelsStmts], id⟩
  | s :: rest, h => by
    rw [checkStmts] at h
    obtain ⟨_, hs, h⟩ := bind_ok_iff.mp h
    obtain ⟨hlowered, rfl, hnodup⟩ := checkStmt_ok hs
    obtain ⟨hlowered', rfl, hnodup'⟩ := checkStmts_ok h
    exact ⟨by simp [loweredStmts, hlowered, hlowered'], by simp [labelsStmts],
      fun hn => hnodup' (hnodup hn)⟩

theorem checkBlock_ok {defined ds : List (Option Label)} : ∀ {b : Block},
    checkBlock defined b = .ok ds → loweredBlock b = true ∧ ds = defined ++ labelsBlock b ∧
      (defined.Nodup → ds.Nodup)
  | .absent, h => by
    cases h
    exact ⟨rfl, by simp [labelsBlock], id⟩
  | .mk _ _ ss, h => @checkStmts_ok defined ds ss h

theorem checkCatches_ok {defined ds : List (Option Label)} : ∀ {cs : List Catch},
    checkCatches defined cs = .ok ds → loweredCatches cs = true ∧ ds = defined ++ labelsCatches cs ∧
      (defined.Nodup → ds.Nodup)
  | [], h => by
    cases h
    exact ⟨rfl, by simp [labelsCatches], id⟩
  | .mk _ _ body :: rest, h => by
    rw [checkCatches] at h
    obtain ⟨_, hbody, h⟩ := bind_ok_iff.mp h
    obtain ⟨hlowered, rfl, hnodup⟩ := checkBlock_ok hbody
    obtain ⟨hlowered', rfl, hnodup'⟩ := checkCatches_ok h
    exact ⟨by simp [loweredCatches, hlowered, hlowered'], by simp [labelsCatches],
      fun hn => hnodup' (hnodup hn)⟩

end

/-! ## Where the statements of a body stand -/

mutual

/-- The labels of a statement that begins at `pc`, and its statements of one instruction, each with
the position where it stands. -/
def placesStmt (pc : Nat) : Stmt → List (Nat × Stmt)
  | .block b => placesBlock pc b
  | .list _ ss => placesStmts pc ss
  | .try _ body catches cleanup =>
    placesBlock pc body ++ placesCatches (behindBody pc body) catches ++
      placesBlock (behindCatches pc body catches) cleanup
  | s => [(pc, s)]

/-- The same for statements in order. -/
def placesStmts (pc : Nat) : List Stmt → List (Nat × Stmt)
  | [] => []
  | s :: rest => placesStmt pc s ++ placesStmts (pc + sizeStmt s) rest

/-- The same for a block. -/
def placesBlock (pc : Nat) : Block → List (Nat × Stmt)
  | .absent => []
  | .mk _ _ ss => placesStmts pc ss

/-- The same for the bodies of handlers, each of which begins behind an instruction. -/
def placesCatches (pc : Nat) : List Catch → List (Nat × Stmt)
  | [] => []
  | .mk _ _ body :: rest =>
    placesBlock (pc + 1) body ++ placesCatches (pc + sizeBlock body + 3) rest

end

theorem placesStmt_leaf {s : Stmt} (h : isLeaf s = true) (pc : Nat) :
    placesStmt pc s = [(pc, s)] := by
  cases s with
  | block | list | label | «try» => cases h
  | _ => simp [placesStmt]

/-- A label and its position. -/
def labelPlace? : Nat × Stmt → Option (Option Label × Nat)
  | (pc, .label _ l) => some (l, pc)
  | _ => none

/-- The positions that are recorded for the labels of a body. -/
def labelPlaces (b : Block) : List (Option Label × Nat) := (placesBlock 0 b).filterMap labelPlace?

/-- A fragment that begins at `pc` has the instructions and the labels at these places. -/
structure Fragment.Shows (f : Fragment) (pc : Nat) (places : List (Nat × Stmt)) : Prop where
  instrs : ∀ x ∈ places, isLeaf x.2 = true →
    ∃ k, x.1 = pc + k ∧ f.instrs[k]? = some (leafInstr x.2)
  labels : f.labels = places.filterMap labelPlace?

namespace Fragment.Shows

variable {a b : Fragment} {pc pc' m : Nat} {ls : List (Option Label)} {xs ys : List (Nat × Stmt)}

theorem empty {f : Fragment} (hf : f.labels = []) (pc : Nat) : Shows f pc [] where
  instrs := by simp
  labels := hf

theorem append (ha : Shows a pc xs) (hfits : a.Fits pc m ls) (hb : Shows b pc' ys)
    (hpc : pc' = pc + m) : Shows (a ++ b) pc (xs ++ ys) where
  instrs x hx hleaf := by
    rcases List.mem_append.mp hx with h | h
    · obtain ⟨k, hk, hinstr⟩ := ha.instrs x h hleaf
      have hlt := (List.getElem?_eq_some_iff.mp hinstr).1
      exact ⟨k, hk, by rw [append_instrs, List.getElem?_append_left hlt, hinstr]⟩
    · obtain ⟨k, hk, hinstr⟩ := hb.instrs x h hleaf
      refine ⟨m + k, by omega, ?_⟩
      rw [append_instrs, List.getElem?_append_right (by rw [hfits.length]; omega), hfits.length,
        Nat.add_sub_cancel_left, hinstr]
  labels := by rw [append_labels, ha.labels, hb.labels, List.filterMap_append]

/-- A region does not move anything. -/
theorem region (h : Shows a pc xs) (g : Region) : Shows ({ regions := [g] } ++ a) pc xs where
  instrs := by simpa using h.instrs
  labels := by simpa using h.labels

end Fragment.Shows

open Fragment (Shows Fits Aims)

mutual

theorem shows_stmt (pc : Nat) : ∀ s : Stmt, Shows (flattenStmt pc s) pc (placesStmt pc s)
  | .block b => by
    simp only [flattenStmt, placesStmt]
    exact shows_block pc b
  | .list _ ss => by
    simp only [flattenStmt, placesStmt]
    exact shows_stmts pc ss
  | .label _ l => by
    simp only [flattenStmt, placesStmt]
    exact ⟨by simp [isLeaf], rfl⟩
  | .try _ body catches cleanup => by
    rw [flattenStmt_try, placesStmt, List.append_assoc]
    have fbody := (fits_block pc body).append (.one (pc + sizeBlock body)
      (.jump (.position (behindTry pc body catches cleanup)))) rfl
    have hbody := (shows_block pc body).append (fits_block pc body)
      (.empty (f := .one (.jump (.position (behindTry pc body catches cleanup)))) rfl
        (pc + sizeBlock body)) rfl
    rw [List.append_nil] at hbody
    have hcatches := shows_catches (behindBody pc body) (behindTry pc body catches cleanup) catches
    have hrest := hcatches.append (fits_catches _ _ catches)
      (shows_cleanup (behindCatches pc body catches) cleanup) rfl
    exact (hbody.region _).append (fbody.region (g := regionAt pc body catches cleanup)
      (Nat.le_refl _) (Nat.le_refl _)) hrest (Nat.add_assoc ..)
  | .absent | .sequencePoint .. | .noOp .. | .localDeclaration .. | .expression .. | .return ..
  | .yieldReturn .. | .yieldBreak .. | .throw .. | .if .. | .while .. | .break .. | .continue ..
  | .goto .. | .conditionalGoto .. | .dispatch .. | .foreign .. => by
    rw [(flattenStmt_leaf rfl pc).1, placesStmt_leaf rfl]
    exact ⟨by simp, rfl⟩

theorem shows_stmts (pc : Nat) :
    ∀ ss : List Stmt, Shows (flattenStmts pc ss) pc (placesStmts pc ss)
  | [] => .empty rfl pc
  | s :: rest => by
    simp only [flattenStmts, placesStmts]
    exact (shows_stmt pc s).append (fits_stmt pc s) (shows_stmts (pc + sizeStmt s) rest) rfl

theorem shows_block (pc : Nat) : ∀ b : Block, Shows (flattenBlock pc b) pc (placesBlock pc b)
  | .absent => .empty rfl pc
  | .mk _ _ ss => by
    simp only [flattenBlock, placesBlock]
    exact shows_stmts pc ss

theorem shows_cleanup (pc : Nat) : ∀ b : Block, Shows (flattenCleanup pc b) pc (placesBlock pc b)
  | .absent => .empty rfl pc
  | .mk _ _ ss => by
    simp only [flattenCleanup, placesBlock]
    simpa using (shows_stmts pc ss).append (fits_stmts pc ss)
      (.empty (f := .one .endFinally) rfl (pc + sizeStmts ss)) rfl

theorem shows_catches (pc behind : Nat) :
    ∀ cs : List Catch, Shows (flattenCatches pc behind cs) pc (placesCatches pc cs)
  | [] => .empty rfl pc
  | .mk _ _ body :: rest => by
    simp only [flattenCatches, placesCatches]
    have f1 := (Fits.one pc .enterCatch).append (fits_block (pc + 1) body) rfl
    have f2 := f1.append (.one _ .endCatch) rfl
    have f3 := f2.append (.one _ (.jump (.position behind))) rfl
    have hone : ∀ (i : Instr Target) (p : Nat), Shows (.one i) p [] := fun _ _ => .empty rfl _
    have h := ((((hone .enterCatch pc).append (.one pc _) (shows_block (pc + 1) body) rfl).append
      f1 (hone .endCatch _) rfl).append f2 (hone (.jump (.position behind)) _) rfl).append f3
      (shows_catches (pc + sizeBlock body + 3) behind rest) (by omega)
    simpa using h

end

/-! ## What the places are made of -/

mutual

/-- A place is one of a statement of one instruction or of a label. -/
theorem simple_of_placesStmt {x : Nat × Stmt} : ∀ {s : Stmt} {pc : Nat}, x ∈ placesStmt pc s →
    isLeaf x.2 = true ∨ ∃ o l, x.2 = .label o l
  | .block b, _, h => by
    rw [placesStmt] at h
    exact simple_of_placesBlock h
  | .list _ ss, _, h => by
    rw [placesStmt] at h
    exact simple_of_placesStmts h
  | .label o l, _, h => by
    simp only [placesStmt, List.mem_singleton] at h
    exact .inr ⟨o, l, by rw [h]⟩
  | .try _ body catches cleanup, _, h => by
    rw [placesStmt, List.mem_append, List.mem_append] at h
    rcases h with (h | h) | h
    · exact simple_of_placesBlock h
    · exact simple_of_placesCatches h
    · exact simple_of_placesBlock h
  | .absent, _, h | .sequencePoint .., _, h | .noOp .., _, h | .localDeclaration .., _, h
  | .expression .., _, h | .return .., _, h | .yieldReturn .., _, h | .yieldBreak .., _, h
  | .throw .., _, h | .if .., _, h | .while .., _, h | .break .., _, h | .continue .., _, h
  | .goto .., _, h | .conditionalGoto .., _, h | .dispatch .., _, h | .foreign .., _, h => by
    rw [placesStmt_leaf rfl, List.mem_singleton] at h
    exact .inl (by rw [h]; rfl)

theorem simple_of_placesStmts {x : Nat × Stmt} : ∀ {ss : List Stmt} {pc : Nat},
    x ∈ placesStmts pc ss → isLeaf x.2 = true ∨ ∃ o l, x.2 = .label o l
  | [], _, h => nomatch h
  | s :: rest, _, h => by
    rw [placesStmts, List.mem_append] at h
    rcases h with h | h
    · exact simple_of_placesStmt h
    · exact simple_of_placesStmts h

theorem simple_of_placesBlock {x : Nat × Stmt} : ∀ {b : Block} {pc : Nat}, x ∈ placesBlock pc b →
    isLeaf x.2 = true ∨ ∃ o l, x.2 = .label o l
  | .absent, _, h => nomatch h
  | .mk _ _ ss, pc, h => @simple_of_placesStmts x ss pc h

theorem simple_of_placesCatches {x : Nat × Stmt} : ∀ {cs : List Catch} {pc : Nat},
    x ∈ placesCatches pc cs → isLeaf x.2 = true ∨ ∃ o l, x.2 = .label o l
  | [], _, h => nomatch h
  | .mk _ _ body :: rest, _, h => by
    rw [placesCatches, List.mem_append] at h
    rcases h with h | h
    · exact simple_of_placesBlock h
    · exact simple_of_placesCatches h

end

mutual

/-- The jumps of a statement are those at its places. -/
theorem targetsStmt_places : ∀ (pc : Nat) (s : Stmt),
    targetsStmt s = (placesStmt pc s).flatMap fun x => targetsStmt x.2
  | pc, .block b => by
    rw [targetsStmt, placesStmt, ← targetsBlock_places]
  | pc, .list _ ss => by
    rw [targetsStmt, placesStmt, ← targetsStmts_places]
  | pc, .label .. => by simp [placesStmt]
  | pc, .try _ body catches cleanup => by
    rw [targetsStmt, placesStmt, List.flatMap_append, List.flatMap_append, ← targetsBlock_places,
      ← targetsCatches_places, ← targetsBlock_places]
  | pc, .absent | pc, .sequencePoint .. | pc, .noOp .. | pc, .localDeclaration ..
  | pc, .expression .. | pc, .return .. | pc, .yieldReturn .. | pc, .yieldBreak .. | pc, .throw ..
  | pc, .if .. | pc, .while .. | pc, .break .. | pc, .continue .. | pc, .goto ..
  | pc, .conditionalGoto .. | pc, .dispatch .. | pc, .foreign .. => by
    rw [placesStmt_leaf rfl, List.flatMap_singleton]

theorem targetsStmts_places : ∀ (pc : Nat) (ss : List Stmt),
    targetsStmts ss = (placesStmts pc ss).flatMap fun x => targetsStmt x.2
  | _, [] => rfl
  | pc, s :: rest => by
    rw [targetsStmts, placesStmts, List.flatMap_append, ← targetsStmt_places,
      ← targetsStmts_places]

theorem targetsBlock_places : ∀ (pc : Nat) (b : Block),
    targetsBlock b = (placesBlock pc b).flatMap fun x => targetsStmt x.2
  | _, .absent => rfl
  | pc, .mk _ _ ss => by rw [targetsBlock, placesBlock, ← targetsStmts_places]

theorem targetsCatches_places : ∀ (pc : Nat) (cs : List Catch),
    targetsCatches cs = (placesCatches pc cs).flatMap fun x => targetsStmt x.2
  | _, [] => rfl
  | pc, .mk _ _ body :: rest => by
    rw [targetsCatches, placesCatches, List.flatMap_append, ← targetsBlock_places,
      ← targetsCatches_places]

end

/-- The labels that have positions are those of the body. -/
theorem labelPlaces_eq (b : Block) : labelPlaces b = (bodyFragment b).labels := by
  rw [bodyFragment_labels, (shows_block 0 b).labels]
  rfl

theorem labelPlaces_labels (b : Block) : (labelPlaces b).map Prod.fst = labelsBlock b := by
  rw [labelPlaces_eq, bodyFragment_labels, (fits_block 0 b).labels_eq]

/-! ## Targets -/

/-- What an instruction may jump to. -/
def Instr.targets {τ : Type} : Instr τ → List τ
  | .jump t => [t]
  | .branch _ _ t => [t]
  | .dispatch _ cases t => cases.map Prod.snd ++ [t]
  | _ => []

theorem Instr.targets_map {τ τ' : Type} (f : τ → τ') (i : Instr τ) :
    (i.map f).targets = i.targets.map f := by
  cases i with
  | dispatch e cases t => simp [Instr.map, Instr.targets]
  | _ => rfl

theorem Instr.mem_labels {i : Instr Target} {l : Option Label} (h : .label l ∈ i.targets) :
    l ∈ i.labels := by
  have hjump : ∀ t : Target, .label l ∈ [t] → l ∈ t.label?.toList := by
    intro t ht
    rw [← List.mem_singleton.mp ht]
    exact List.mem_singleton_self l
  cases i with
  | jump t => exact hjump t h
  | branch c w t => exact hjump t h
  | dispatch e cases t =>
    rcases List.mem_append.mp h with h | h
    · obtain ⟨c, hc, hlabel⟩ := List.mem_map.mp h
      exact List.mem_append_left _ (List.mem_filterMap.mpr ⟨c, hc, by rw [hlabel]; rfl⟩)
    · exact List.mem_append_right _ (hjump t h)
  | _ => cases h

/-- The positions that a fragment goes to without a label are at most `limit`. -/
def Fragment.Bounded (f : Fragment) (limit : Nat) : Prop :=
  ∀ i ∈ f.instrs, ∀ p, .position p ∈ i.targets → p ≤ limit

namespace Fragment.Bounded

variable {a b : Fragment} {m n : Nat}

theorem empty {f : Fragment} (hf : f.instrs = []) (n : Nat) : f.Bounded n := by
  intro i hi
  simp [hf] at hi

theorem one {i : Instr Target} (h : ∀ p, .position p ∈ i.targets → p ≤ n) : Bounded (.one i) n := by
  intro j hj
  rw [List.mem_singleton.mp hj]
  exact h

theorem mono (h : a.Bounded m) (hle : m ≤ n) : a.Bounded n :=
  fun i hi p hp => Nat.le_trans (h i hi p hp) hle

theorem append (ha : a.Bounded n) (hb : b.Bounded n) : (a ++ b).Bounded n := by
  intro i hi
  rcases List.mem_append.mp hi with h | h
  · exact ha i h
  · exact hb i h

end Fragment.Bounded

/-- A jump of the user's that has no label goes to the start. -/
theorem leafInstr_bounded {s : Stmt} {p : Nat} (h : .position p ∈ (leafInstr s).targets) :
    p = 0 := by
  have hjump : ∀ l : Option Label, Target.position p = jumpTarget l → p = 0 := by
    intro l hl
    cases l with
    | none =>
      cases hl
      rfl
    | some l => cases hl
  cases s with
  | goto o l => exact hjump l (List.mem_singleton.mp h)
  | conditionalGoto o c w l => exact hjump l (List.mem_singleton.mp h)
  | dispatch o e cases l =>
    simp only [leafInstr, Instr.targets, List.map_map, List.mem_append, List.mem_map,
      List.mem_singleton] at h
    rcases h with ⟨c, -, hc⟩ | h
    · cases hc
    · exact hjump l h
  | throw o e => cases e <;> cases h
  | _ => cases h

open Fragment (Bounded)

mutual

theorem bounded_stmt (pc : Nat) : ∀ s : Stmt, (flattenStmt pc s).Bounded (pc + sizeStmt s)
  | .block b => by
    simp only [flattenStmt, sizeStmt]
    exact bounded_block pc b
  | .list _ ss => by
    simp only [flattenStmt, sizeStmt]
    exact bounded_stmts pc ss
  | .label _ l => .empty (by simp [flattenStmt]) _
  | .try o body catches cleanup => by
    have hbehind : behindTry pc body catches cleanup =
        pc + sizeStmt (.try o body catches cleanup) := by
      simp only [behindTry, behindCatches, behindBody, sizeStmt]
      omega
    have hjump : (Fragment.one (.jump (.position (behindTry pc body catches cleanup)))).Bounded
        (behindTry pc body catches cleanup) :=
      .one fun p hp => by
        cases List.mem_singleton.mp hp
        exact Nat.le_refl _
    rw [flattenStmt_try, ← hbehind]
    refine .append (.append (.empty rfl _) (.append ((bounded_block pc body).mono ?_) hjump))
      (.append (bounded_catches (behindBody pc body) _ catches ?_)
        ((bounded_cleanup (behindCatches pc body catches) cleanup).mono ?_)) <;>
    · simp only [behindTry, behindCatches, behindBody]
      omega
  | .absent | .sequencePoint .. | .noOp .. | .localDeclaration .. | .expression .. | .return ..
  | .yieldReturn .. | .yieldBreak .. | .throw .. | .if .. | .while .. | .break .. | .continue ..
  | .goto .. | .conditionalGoto .. | .dispatch .. | .foreign .. => by
    rw [(flattenStmt_leaf rfl pc).1]
    exact .one fun p hp => by
      rw [leafInstr_bounded hp]
      exact Nat.zero_le _

theorem bounded_stmts (pc : Nat) :
    ∀ ss : List Stmt, (flattenStmts pc ss).Bounded (pc + sizeStmts ss)
  | [] => .empty rfl _
  | s :: rest => by
    simp only [flattenStmts, sizeStmts]
    exact .append ((bounded_stmt pc s).mono (by omega))
      ((bounded_stmts (pc + sizeStmt s) rest).mono (by omega))

theorem bounded_block (pc : Nat) : ∀ b : Block, (flattenBlock pc b).Bounded (pc + sizeBlock b)
  | .absent => .empty rfl _
  | .mk _ _ ss => by
    simp only [flattenBlock, sizeBlock]
    exact bounded_stmts pc ss

theorem bounded_cleanup (pc : Nat) :
    ∀ b : Block, (flattenCleanup pc b).Bounded (pc + sizeCleanup b)
  | .absent => .empty rfl _
  | .mk _ _ ss => by
    simp only [flattenCleanup, sizeCleanup]
    exact .append ((bounded_stmts pc ss).mono (by omega)) (.one fun p hp => nomatch hp)

/-- Handlers go behind the try. -/
theorem bounded_catches (pc behind : Nat) : ∀ cs : List Catch, pc + sizeCatches cs ≤ behind →
    (flattenCatches pc behind cs).Bounded behind
  | [], _ => .empty rfl _
  | .mk _ _ body :: rest, hle => by
    simp only [flattenCatches]
    simp only [sizeCatches] at hle
    have hjump : (Fragment.one (.jump (.position behind))).Bounded behind := .one fun p hp => by
      cases List.mem_singleton.mp hp
      exact Nat.le_refl _
    have hsilent : ∀ i : Instr Target, i.targets = [] → (Fragment.one i).Bounded behind :=
      fun i hi => .one fun p hp => by simp [hi] at hp
    exact .append (.append (.append (.append (hsilent .enterCatch rfl)
      ((bounded_block (pc + 1) body).mono (by omega))) (hsilent .endCatch rfl)) hjump)
      (bounded_catches (pc + sizeBlock body + 3) behind rest (by omega))

end

/-! ## Bodies that can be flattened -/

theorem mem_of_lookup_isSome {l : Option Label} {xs : List (Option Label × Nat)}
    (h : (xs.lookup l).isSome = true) : l ∈ xs.map Prod.fst := by
  induction xs with
  | nil => cases h
  | cons x xs ih =>
    rw [List.lookup_cons] at h
    cases hx : l == x.1 with
    | true => simp [beq_iff_eq.mp hx]
    | false =>
      rw [hx] at h
      exact List.mem_cons_of_mem _ (ih h)

/-- The checks of the targets pass only if the labels of the instruction are defined. -/
theorem defined_of_checks {f : Fragment} {method : Method} {i : Instr Target} {l : Option Label}
    (hjump : f.checkJump method i = .ok ()) (hcases : f.checkCases method i = .ok ())
    (hl : l ∈ i.labels) : l ∈ f.labels.map Prod.fst := by
  have htarget : ∀ t : Target, f.checkTarget method t = .ok () → l ∈ t.label?.toList →
      l ∈ f.labels.map Prod.fst := by
    intro t ht hlabel
    cases t with
    | position => cases hlabel
    | label k =>
      obtain rfl := List.mem_singleton.mp hlabel
      rw [Fragment.checkTarget] at ht
      split at ht
      · rename_i hsome
        exact mem_of_lookup_isSome hsome
      · cases ht
  cases i with
  | jump t => exact htarget t hjump hl
  | branch c w t => exact htarget t hjump hl
  | dispatch e cases t =>
    rcases List.mem_append.mp hl with h | h
    · obtain ⟨⟨n, target⟩, hc, hlabel⟩ := List.mem_filterMap.mp h
      have hcase : f.checkCase method target = .ok () := forM_ok_iff.mp hcases (n, target) hc
      cases target with
      | position => cases hlabel
      | label k =>
        cases hlabel
        rw [Fragment.checkCase] at hcase
        split at hcase
        · rename_i hsome
          exact mem_of_lookup_isSome hsome
        · cases hcase
    · exact htarget t hjump h
  | _ => cases hl

/-- A statement of one instruction goes to its labels by its instruction. -/
theorem mem_leafInstr_labels {s : Stmt} (hs : isLeaf s = true) {l : Option Label}
    (hl : l ∈ targetsStmt s) (hne : l ≠ none) : l ∈ (leafInstr s).labels := by
  have hjump : ∀ k, l = k → l ∈ (jumpTarget k).label?.toList := by
    rintro _ rfl
    cases l with
    | none => exact absurd rfl hne
    | some l => simp [jumpTarget, Target.label?]
  cases s with
  | block | list | label | «try» => cases hs
  | goto o k => exact hjump k (List.mem_singleton.mp hl)
  | conditionalGoto o c w k => exact hjump k (List.mem_singleton.mp hl)
  | dispatch o e cases k =>
    rw [targetsStmt, List.mem_append] at hl
    rw [leafInstr, Instr.labels, List.filterMap_map, List.mem_append]
    rcases hl with h | h
    · obtain ⟨c, hc, rfl⟩ := List.mem_map.mp h
      exact .inl (List.mem_filterMap.mpr ⟨c, hc, rfl⟩)
    · exact .inr (hjump k (List.mem_singleton.mp h))
  | _ => cases hl

/-- A body that was flattened can be executed, and the routine is its own. -/
theorem executable_of_flatten {b : Block} {method : Method} {r : Routine}
    (h : flatten { symbol := method, body := b } = .ok r)
    (hlabelled : ∀ l ∈ targetsBlock b, l ≠ none) : Executable b ∧ r = routineOf method b := by
  have hpresent : b ≠ .absent := by
    rintro rfl
    cases h
  obtain ⟨o, locals, ss, rfl⟩ : ∃ o locals ss, b = .mk o locals ss := by
    cases b with
    | absent => exact absurd rfl hpresent
    | mk o locals ss => exact ⟨o, locals, ss, rfl⟩
  obtain ⟨ds, hcheck, h⟩ := bind_ok_iff.mp h
  obtain ⟨hlowered, rfl, hnodup⟩ := checkBlock_ok hcheck
  obtain ⟨_, hjumps, h⟩ := bind_ok_iff.mp h
  obtain ⟨_, hcases, h⟩ := bind_ok_iff.mp h
  have hexecutable : Executable (.mk o locals ss) := by
    refine ⟨hpresent, hlowered, hnodup .nil, fun l hl => ⟨?_, hlabelled l hl⟩⟩
    rw [targetsBlock_places 0] at hl
    obtain ⟨x, hx, htarget⟩ := List.mem_flatMap.mp hl
    rcases simple_of_placesBlock hx with hleaf | ⟨o', l', hlabel⟩
    · obtain ⟨k, -, hinstr⟩ := (shows_block 0 (.mk o locals ss)).instrs x hx hleaf
      have hmem : leafInstr x.2 ∈ (bodyFragment (.mk o locals ss)).instrs :=
        List.mem_append_left _ (List.mem_of_getElem? hinstr)
      have hne : l ≠ none := hlabelled l (by rw [targetsBlock_places 0]; exact hl)
      have hdefined := defined_of_checks (forM_ok_iff.mp hjumps _ hmem)
        (forM_ok_iff.mp hcases _ hmem) (mem_leafInstr_labels hleaf htarget hne)
      rwa [← labelPlaces_labels, labelPlaces_eq]
    · rw [hlabel] at htarget
      cases htarget
  refine ⟨hexecutable, ?_⟩
  cases h
  rfl

/-- A body whose jumps carry labels can be flattened if and only if it is in the lowered form,
places no label twice and jumps to its own labels. -/
theorem flatten_ok_iff {b : Block} (method : Method) (hlabelled : ∀ l ∈ targetsBlock b, l ≠ none) :
    (∃ r, flatten { symbol := method, body := b } = .ok r) ↔ Executable b :=
  ⟨fun ⟨_, h⟩ => (executable_of_flatten h hlabelled).1, fun h => ⟨_, h.flatten method⟩⟩

/-! ## Jumps in routines -/

/-- The position that is recorded for a label of a body. -/
def recorded? (b : Block) (l : Option Label) : Option Nat := (bodyFragment b).labels.lookup l

/-- In the routine of a body, each jump of the body goes to the position that is recorded for its
label, every target is an instruction, and the last instruction returns. -/
structure Resolves (b : Block) (r : Routine) : Prop where
  labels : (bodyFragment b).labels = labelPlaces b
  goto : ∀ i o l, (i, .goto o l) ∈ placesBlock 0 b →
    ∃ p, recorded? b l = some p ∧ r.instrs[i]? = some (.jump p)
  conditional : ∀ i o c whenTrue l, (i, .conditionalGoto o c whenTrue l) ∈ placesBlock 0 b →
    ∃ p, recorded? b l = some p ∧ r.instrs[i]? = some (.branch c whenTrue p)
  dispatch : ∀ i o e cases l, (i, .dispatch o e cases l) ∈ placesBlock 0 b →
    ∃ targets p, (cases.map fun c => (c.value, recorded? b c.label)) =
        (targets.map fun t => (t.1, some t.2)) ∧
      recorded? b l = some p ∧ r.instrs[i]? = some (.dispatch e targets p)
  valid : ∀ i ∈ r.instrs, ∀ t ∈ i.targets, t < r.instrs.size
  last : r.instrs.back? = some (.return .absent)

/-- A label that is jumped to has a position, which is the place of an instruction. -/
theorem Executable.recorded {b : Block} (h : Executable b) {l : Option Label}
    (hl : l ∈ targetsBlock b) : ∃ p, recorded? b l = some p ∧
      (bodyFragment b).resolve (jumpTarget l) = p ∧ p ≤ sizeBlock b := by
  obtain ⟨hmem, hne⟩ := h.targets l hl
  rw [← labelPlaces_labels] at hmem
  obtain ⟨⟨k, p⟩, hx, rfl⟩ := List.mem_map.mp hmem
  have hnodup : ((labelPlaces b).map Prod.fst).Nodup := by
    rw [labelPlaces_labels]
    exact h.nodup
  have hlookup : recorded? b k = some p := by
    rw [recorded?, ← labelPlaces_eq]
    exact lookup_of_nodup hnodup hx
  refine ⟨p, hlookup, ?_, ?_⟩
  · cases k with
    | none => exact absurd rfl hne
    | some l => exact congrArg (fun x => x.getD 0) hlookup
  · rw [labelPlaces_eq, bodyFragment_labels] at hx
    have := ((fits_block 0 b).label_mem _ hx).2
    omega

/-- No target of a body is behind its last instruction. -/
theorem Executable.resolve_le {b : Block} (h : Executable b) {i : Instr Target}
    (hi : i ∈ (bodyFragment b).instrs) {t : Target} (ht : t ∈ i.targets) :
    (bodyFragment b).resolve t ≤ sizeBlock b := by
  have hbounded : (bodyFragment b).Bounded (sizeBlock b) := by
    have hblock := bounded_block 0 b
    rw [Nat.zero_add] at hblock
    exact hblock.append (.one fun p hp => nomatch hp)
  have haims : (bodyFragment b).Aims (targetsBlock b) := by
    have hall := (aims_block 0 b).append (Aims.one (.return .absent) [] (by simp [Instr.labels]))
    rwa [List.append_nil] at hall
  cases t with
  | position p => exact hbounded i hi p ht
  | label l =>
    have hl : l ∈ targetsBlock b := haims i hi l (Instr.mem_labels ht)
    obtain ⟨p, hlookup, -, hle⟩ := h.recorded hl
    rw [recorded?] at hlookup
    rw [Fragment.resolve, hlookup]
    exact hle

/-- The instruction of a statement stands at its place. -/
theorem routineOf_place {b : Block} {method : Method} {i : Nat} {s : Stmt}
    (hs : isLeaf s = true) (h : (i, s) ∈ placesBlock 0 b) :
    (routineOf method b).instrs[i]? = some ((leafInstr s).map (bodyFragment b).resolve) := by
  obtain ⟨k, hk, hinstr⟩ := (shows_block 0 b).instrs (i, s) h hs
  obtain rfl : i = k := by omega
  have hlt := (List.getElem?_eq_some_iff.mp hinstr).1
  simp only [routineOf, List.getElem?_toArray, List.getElem?_map, bodyFragment,
    Fragment.append_instrs, List.getElem?_append_left hlt, hinstr, Option.map_some,
    Fragment.resolveInstr_eq]

theorem targets_of_place {b : Block} {i : Nat} {s : Stmt} (h : (i, s) ∈ placesBlock 0 b)
    {l : Option Label} (hl : l ∈ targetsStmt s) : l ∈ targetsBlock b := by
  rw [targetsBlock_places 0]
  exact List.mem_flatMap.mpr ⟨(i, s), h, hl⟩

theorem Executable.resolves {b : Block} (h : Executable b) (method : Method) :
    Resolves b (routineOf method b) where
  labels := (labelPlaces_eq b).symm
  goto i o l hplace := by
    have hl : l ∈ targetsBlock b := targets_of_place hplace (by simp [targetsStmt])
    obtain ⟨p, hlookup, hresolve, -⟩ := h.recorded hl
    exact ⟨p, hlookup, by rw [routineOf_place rfl hplace, leafInstr, Instr.map, hresolve]⟩
  conditional i o c whenTrue l hplace := by
    have hl : l ∈ targetsBlock b := targets_of_place hplace (by simp [targetsStmt])
    obtain ⟨p, hlookup, hresolve, -⟩ := h.recorded hl
    exact ⟨p, hlookup, by rw [routineOf_place rfl hplace, leafInstr, Instr.map, hresolve]⟩
  dispatch i o e cases l hplace := by
    have hl : l ∈ targetsBlock b := targets_of_place hplace (by simp [targetsStmt])
    obtain ⟨p, hlookup, hresolve, -⟩ := h.recorded hl
    refine ⟨cases.map fun c => (c.value, (bodyFragment b).resolve (.label c.label)), p, ?_,
      hlookup, ?_⟩
    · rw [List.map_map]
      refine List.map_congr_left fun c hc => ?_
      have hmem : c.label ∈ targetsStmt (.dispatch o e cases l) :=
        List.mem_append_left _ (List.mem_map_of_mem hc)
      obtain ⟨q, hq, -, -⟩ := h.recorded (targets_of_place hplace hmem)
      rw [Function.comp, hq]
      exact congrArg (fun x => (c.value, some (x.getD 0))) hq.symm
    · rw [routineOf_place rfl hplace, leafInstr, Instr.map, hresolve, List.map_map]
      rfl
  valid i hi t ht := by
    obtain ⟨j, hj, rfl⟩ := List.mem_map.mp (List.mem_toArray.mp hi)
    rw [Fragment.resolveInstr_eq, Instr.targets_map] at ht
    obtain ⟨target, htarget, rfl⟩ := List.mem_map.mp ht
    have hle := h.resolve_le hj htarget
    rw [routineOf_size]
    omega
  last := by
    simp [routineOf, bodyFragment, Fragment.resolveInstr]

end Resumable.Machine
