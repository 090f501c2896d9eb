import Resumable.Proofs.Machine.Placement

/-!
# Parts of a routine

`Placed` says that a fragment stands somewhere in a routine: its instructions are those of the
routine, the regions around it are known, and no label from elsewhere lies inside it.  The parts
of a fragment are placed in their turn, a try block inside the region of its try, and a finally
also as a scope of its own.
-/

set_option autoImplicit false

namespace Resumable.Machine

open Resumable.Symbol Resumable.Tree

variable {σ : Type}

/-! ## Targets as positions -/

/-- An instruction with other targets. -/
def Instr.map {τ τ' : Type} (f : τ → τ') : Instr τ → Instr τ'
  | .exec e => .exec e
  | .jump t => .jump (f t)
  | .branch c whenTrue t => .branch c whenTrue (f t)
  | .dispatch e cases t => .dispatch e (cases.map fun x => (x.1, f x.2)) (f t)
  | .return e => .return e
  | .throw e => .throw e
  | .rethrow => .rethrow
  | .enterCatch => .enterCatch
  | .endCatch => .endCatch
  | .endFinally => .endFinally
  | .mark => .mark

theorem Fragment.resolveInstr_eq (f : Fragment) (i : Instr Target) :
    f.resolveInstr i = i.map f.resolve := by
  cases i <;> rfl

/-- Where a target is. -/
def Setting.position (S : Setting σ) : Target → Nat
  | .label l => S.label l
  | .position pc => pc

/-- Where a part that begins at `pc` is entered. -/
def Setting.entry (S : Setting σ) (pc : Nat) : Entry → Nat
  | .start => pc
  | .seek l => S.label l

/-! ## Ranges -/

theorem Range.covers_eq_true {range : Range} {p : Nat} :
    range.covers p = true ↔ range.start ≤ p ∧ p < range.stop := by
  simp [covers]

theorem Range.covers_eq_false {range : Range} {p : Nat} :
    range.covers p = false ↔ p < range.start ∨ range.stop ≤ p := by
  rw [← Bool.not_eq_true, covers_eq_true]
  omega

theorem regionAt_guarded (pc : Nat) (body : Block) (catches : List Catch) (cleanup : Block) :
    (regionAt pc body catches cleanup).guarded = ⟨pc, pc + sizeBlock body + 1⟩ := rfl

/-! ## Placed fragments -/

/-- A fragment stands at `pc` in a routine, inside a scope and directly inside the regions
`around`, innermost first.  `near` are the labels directly before it, and `defined` all labels
that jumps may go to. -/
structure Placed (S : Setting σ) (r : Routine) (defined : List (Option Label)) (scope : Range)
    (f : Fragment) (pc size : Nat) (labels near : List (Option Label)) (around : List Region) :
    Prop where
  code : ∀ i, i < size → r.instrs[pc + i]? = (f.instrs[i]?).map (Instr.map S.position)
  label : ∀ x ∈ f.labels, S.label x.1 = x.2
  regions : ∀ p, pc ≤ p → p < pc + size →
    r.regionsAt p scope = (f.regions.filter fun g => g.guarded.covers p).reverse ++ around
  inside : scope.start ≤ pc ∧ pc + size < scope.stop
  guarded : ∀ g ∈ around, g.guarded.start ≤ pc ∧ pc + size < g.guarded.stop
  before : ∀ l ∈ near, S.label l = pc
  outside : ∀ l ∈ defined, l ∉ labels →
    S.label l < pc ∨ (S.label l = pc ∧ (l ∈ near ∨ size = 0)) ∨ pc + size ≤ S.label l

open Fragment (Fits Follows append_assoc)

/-- The positions of labels in a fragment. -/
theorem Fragment.Fits.label_range {S : Setting σ} {f : Fragment} {pc size : Nat}
    {labels : List (Option Label)} (fits : f.Fits pc size labels)
    (hlabel : ∀ x ∈ f.labels, S.label x.1 = x.2) {l : Option Label} (hl : l ∈ labels) :
    pc ≤ S.label l ∧ S.label l ≤ pc + size := by
  rw [← fits.labels_eq] at hl
  obtain ⟨x, hx, rfl⟩ := List.mem_map.mp hl
  rw [hlabel x hx]
  exact fits.label_mem x hx

/-- Regions inside a stretch of code do not cover positions outside of it. -/
theorem filter_covers_eq_nil {regions : List Region} {start stop p : Nat}
    (h : ∀ g ∈ regions, start ≤ g.guarded.start ∧ g.guarded.stop ≤ stop)
    (hp : p < start ∨ stop ≤ p) : regions.filter (fun g => g.guarded.covers p) = [] := by
  rw [List.filter_eq_nil_iff]
  intro g hg hcovers
  have hbounds := h g hg
  rw [Range.covers_eq_true] at hcovers
  omega

namespace Placed

variable {S : Setting σ} {r : Routine} {defined : List (Option Label)} {scope : Range}
  {a b f : Fragment} {pc pc' m n size : Nat} {ls ks labels near behind : List (Option Label)}
  {around : List Region}

/-- The regions around a part cover the labels of the part. -/
theorem covers_label (h : Placed S r defined scope f pc size labels near around)
    (fits : f.Fits pc size labels) {l : Option Label} (hl : l ∈ labels) {g : Region}
    (hg : g ∈ around) : g.guarded.covers (S.label l) = true := by
  have hrange := fits.label_range h.label hl
  have hguarded := h.guarded g hg
  rw [Range.covers_eq_true]
  omega

theorem left (h : Placed S r defined scope (a ++ b) pc size labels near around)
    (ha : a.Fits pc m ls) (hb : b.Fits pc' n ks) (hpc : pc' = pc + m) (hsize : size = m + n)
    (hlabels : labels = ls ++ ks) : Placed S r defined scope a pc m ls near around := by
  subst hpc hsize hlabels
  refine ⟨?_, ?_, ?_, ?_, ?_, h.before, ?_⟩
  · intro i hi
    rw [h.code i (by omega), Fragment.append_instrs,
      List.getElem?_append_left (by rw [ha.length]; exact hi)]
  · intro x hx
    exact h.label x (List.mem_append_left _ hx)
  · intro p hp hp'
    rw [h.regions p hp (by omega), Fragment.append_regions, List.filter_append,
      filter_covers_eq_nil hb.region_mem (.inl hp'), List.append_nil]
  · have := h.inside
    omega
  · intro g hg
    have := h.guarded g hg
    omega
  · intro l hl hnot
    by_cases hks : l ∈ ks
    · have := hb.label_range (fun x hx => h.label x (List.mem_append_right _ hx)) hks
      omega
    · rcases h.outside l hl (by simp [hnot, hks]) with h' | ⟨h', hnear | hzero⟩ | h'
      · exact .inl h'
      · exact .inr (.inl ⟨h', .inl hnear⟩)
      · exact .inr (.inl ⟨h', .inr (by omega)⟩)
      · exact .inr (.inr (by omega))

theorem right (h : Placed S r defined scope (a ++ b) pc size labels near around)
    (ha : a.Fits pc m ls) (hf : a.Follows pc m near behind) (hb : b.Fits pc' n ks)
    (hpc : pc' = pc + m) (hsize : size = m + n) (hlabels : labels = ls ++ ks) :
    Placed S r defined scope b pc' n ks behind around := by
  subst hpc hsize hlabels
  refine ⟨?_, ?_, ?_, ?_, ?_, ?_, ?_⟩
  · intro i hi
    have hcode := h.code (m + i) (by omega)
    rw [Fragment.append_instrs, List.getElem?_append_right (by rw [ha.length]; omega),
      ha.length, Nat.add_sub_cancel_left] at hcode
    rw [Nat.add_assoc]
    exact hcode
  · intro x hx
    exact h.label x (List.mem_append_right _ hx)
  · intro p hp hp'
    rw [h.regions p (by omega) (by omega), Fragment.append_regions, List.filter_append,
      filter_covers_eq_nil ha.region_mem (.inr (by omega)), List.nil_append]
  · have := h.inside
    omega
  · intro g hg
    have := h.guarded g hg
    omega
  · intro l hl
    rcases hf.source l hl with ⟨hnear, hm⟩ | ⟨x, hx, rfl, hend⟩
    · rw [h.before l hnear]
      omega
    · rw [h.label x (List.mem_append_left _ hx), hend]
  · intro l hl hnot
    by_cases hls : l ∈ ls
    · have hrange := ha.label_range (fun x hx => h.label x (List.mem_append_left _ hx)) hls
      by_cases hend : S.label l = pc + m
      · refine .inr (.inl ⟨hend, .inl ?_⟩)
        rw [← ha.labels_eq] at hls
        obtain ⟨x, hx, rfl⟩ := List.mem_map.mp hls
        rw [h.label x (List.mem_append_left _ hx)] at hend
        exact hf.at_end x hx hend
      · exact .inl (by omega)
    · rcases h.outside l hl (by simp [hnot, hls]) with h' | ⟨h', hnear | hzero⟩ | h'
      · exact .inl (by omega)
      · by_cases hm : m = 0
        · exact .inr (.inl ⟨by omega, .inl (hf.through hm l hnear)⟩)
        · exact .inl (by omega)
      · exact .inr (.inl ⟨by omega, .inr (by omega)⟩)
      · exact .inr (.inr (by omega))

/-- Behind one instruction there are no labels that stand before it. -/
theorem tail {i : Instr Target}
    (h : Placed S r defined scope (.one i ++ b) pc size labels near around)
    (hb : b.Fits pc' n labels) (hpc : pc' = pc + 1) (hsize : size = 1 + n) :
    Placed S r defined scope b pc' n labels [] around :=
  h.right (.one pc i) (.one pc i near) hb hpc hsize rfl

/-- The first instruction of a part. -/
theorem head_code {i : Instr Target}
    (h : Placed S r defined scope (.one i ++ b) pc size labels near around) (hsize : 0 < size) :
    r.instrs[pc]? = some (i.map S.position) := by
  have hcode := h.code 0 hsize
  simpa using hcode

/-- The regions at an instruction that begins a part. -/
theorem head_regions {i : Instr Target}
    (h : Placed S r defined scope (.one i ++ b) pc size labels near around)
    (hb : b.Fits pc' n labels) (hpc : pc' = pc + 1) (hsize : 0 < size) :
    r.regionsAt pc scope = around := by
  subst hpc
  rw [h.regions pc (Nat.le_refl _) (by omega), Fragment.append_regions, Fragment.one_regions,
    List.nil_append, filter_covers_eq_nil hb.region_mem (.inl (by omega))]
  rfl

/-- The scope covers the part and the place behind it. -/
theorem scope_covers (h : Placed S r defined scope f pc size labels near around) {p : Nat}
    (hp : pc ≤ p) (hp' : p ≤ pc + size) : scope.covers p = true := by
  have := h.inside
  rw [Range.covers_eq_true]
  omega

/-- A part of a scope as a scope of its own, with one more instruction behind it. -/
theorem own (h : Placed S r defined scope f pc size labels near around)
    (fits : f.Fits pc size labels) (hnear : ∀ g ∈ around, g.guarded.start < pc) :
    Placed S r defined ⟨pc, pc + size + 1⟩ f pc size labels near [] := by
  refine ⟨h.code, h.label, ?_, ⟨Nat.le_refl _, Nat.lt_succ_self _⟩, by simp, h.before, h.outside⟩
  intro p hp hp'
  have hregions := h.regions p hp hp'
  have hinside := h.inside
  -- The regions of the smaller scope are those of the larger one that lie inside.
  have hfilter : r.regionsAt p ⟨pc, pc + size + 1⟩ =
      (r.regionsAt p scope).filter fun g => g.guarded.isWithin ⟨pc, pc + size + 1⟩ := by
    simp only [Routine.regionsAt, List.filter_reverse, List.filter_filter]
    congr 1
    refine List.filter_congr fun g _ => ?_
    rw [Bool.eq_iff_iff]
    simp only [Range.isWithin, Bool.and_eq_true, decide_eq_true_eq]
    constructor
    · rintro ⟨hcovers, hstart, hstop⟩
      exact ⟨⟨hstart, hstop⟩, hcovers, by omega, by omega⟩
    · rintro ⟨hwithin, hcovers, -⟩
      exact ⟨hcovers, hwithin⟩
  rw [hfilter, hregions, List.filter_append]
  have hfirst : (f.regions.filter fun g => g.guarded.covers p).reverse.filter
      (fun g => g.guarded.isWithin ⟨pc, pc + size + 1⟩) =
      (f.regions.filter fun g => g.guarded.covers p).reverse := by
    rw [List.filter_eq_self]
    intro g hg
    have hmem := fits.region_mem g (List.mem_filter.mp (List.mem_reverse.mp hg)).1
    simp only [Range.isWithin, Bool.and_eq_true, decide_eq_true_eq]
    omega
  have hsecond : around.filter (fun g => g.guarded.isWithin ⟨pc, pc + size + 1⟩) = [] := by
    rw [List.filter_eq_nil_iff]
    intro g hg
    have := hnear g hg
    simp only [Range.isWithin, Bool.and_eq_true, decide_eq_true_eq]
    omega
  rw [hfirst, hsecond]

/-- A part with one more instruction behind it, both guarded by a region of their own. -/
theorem guard {g : Region} {i : Instr Target}
    (h : Placed S r defined scope ({ regions := [g] } ++ (a ++ .one i)) pc (m + 1) ls near around)
    (ha : a.Fits pc m ls) (hg : g.guarded = ⟨pc, pc + m + 1⟩) :
    Placed S r defined scope a pc m ls near (g :: around) ∧
      r.instrs[pc + m]? = some (i.map S.position) ∧
      r.regionsAt (pc + m) scope = g :: around := by
  have hcovers : ∀ p, pc ≤ p → p ≤ pc + m → g.guarded.covers p = true := by
    intro p hp hp'
    rw [hg, Range.covers_eq_true]
    dsimp only
    omega
  have hregions : ∀ p, pc ≤ p → p ≤ pc + m → r.regionsAt p scope =
      (a.regions.filter fun g => g.guarded.covers p).reverse ++ g :: around := by
    intro p hp hp'
    rw [h.regions p hp (by omega)]
    simp [hcovers p hp hp']
  refine ⟨⟨?_, ?_, ?_, ?_, ?_, h.before, ?_⟩, ?_, ?_⟩
  · intro j hj
    rw [h.code j (by omega)]
    simp [List.getElem?_append_left (show j < a.instrs.length by rw [ha.length]; exact hj)]
  · intro x hx
    exact h.label x (by simp [hx])
  · intro p hp hp'
    exact hregions p hp (by omega)
  · have := h.inside
    omega
  · intro g' hg'
    rcases List.mem_cons.mp hg' with rfl | hg'
    · rw [hg]
      exact ⟨Nat.le_refl _, Nat.lt_succ_self _⟩
    · have := h.guarded g' hg'
      omega
  · intro l hl hnot
    rcases h.outside l hl hnot with h' | ⟨h', hnear | hzero⟩ | h'
    · exact .inl h'
    · exact .inr (.inl ⟨h', .inl hnear⟩)
    · omega
    · exact .inr (.inr (by omega))
  · have hcode := h.code m (by omega)
    have hlast : (a.instrs ++ [i])[m]? = some i := by
      rw [← ha.length]
      exact List.getElem?_concat_length
    simpa [hlast] using hcode
  · rw [hregions _ (by omega) (Nat.le_refl _),
      filter_covers_eq_nil ha.region_mem (.inr (Nat.le_refl _))]
    rfl

end Placed

/-! ## The parts of a try -/

section Try

variable {S : Setting σ} {r : Routine} {defined near : List (Option Label)} {scope : Range}
  {pc : Nat} {around : List Region} {o : Origin} {body cleanup : Block} {catches : List Catch}

/-- The try block with the jump that completes it, the handlers and the finally. -/
theorem flattenStmt_try (pc : Nat) (o : Origin) (body : Block) (catches : List Catch)
    (cleanup : Block) :
    flattenStmt pc (.try o body catches cleanup) =
      ({ regions := [regionAt pc body catches cleanup] } ++
        (flattenBlock pc body ++ .one (.jump (.position (behindTry pc body catches cleanup))))) ++
      (flattenCatches (behindBody pc body) (behindTry pc body catches cleanup) catches ++
        flattenCleanup (behindCatches pc body catches) cleanup) := by
  simp only [flattenStmt, append_assoc]
  rfl

/-- A try block and the jump that completes it are inside the region of the try. -/
theorem Placed.tryBlock
    (h : Placed S r defined scope (flattenStmt pc (.try o body catches cleanup)) pc
      (sizeStmt (.try o body catches cleanup)) (labelsStmt (.try o body catches cleanup)) near
      around) :
    Placed S r defined scope (flattenBlock pc body) pc (sizeBlock body) (labelsBlock body) near
        (regionAt pc body catches cleanup :: around) ∧
      r.instrs[pc + sizeBlock body]? = some (.jump (behindTry pc body catches cleanup)) ∧
      r.regionsAt (pc + sizeBlock body) scope = regionAt pc body catches cleanup :: around := by
  rw [flattenStmt_try] at h
  have hbody := fits_block pc body
  have hblock := (hbody.append (.one (pc + sizeBlock body)
    (.jump (.position (behindTry pc body catches cleanup)))) rfl).region
      (g := regionAt pc body catches cleanup) (Nat.le_refl _) (Nat.le_refl _)
  have hrest := (fits_catches (behindBody pc body) (behindTry pc body catches cleanup)
    catches).append (fits_cleanup (behindCatches pc body catches) cleanup) rfl
  have hleft := h.left hblock hrest (Nat.add_assoc ..)
    (by simp only [sizeStmt, Nat.add_assoc]) (by simp [labelsStmt])
  rw [List.append_nil] at hleft
  exact hleft.guard hbody rfl

/-- The handlers and the finally of a try are not. -/
theorem Placed.tryRest
    (h : Placed S r defined scope (flattenStmt pc (.try o body catches cleanup)) pc
      (sizeStmt (.try o body catches cleanup)) (labelsStmt (.try o body catches cleanup)) near
      around) :
    Placed S r defined scope
        (flattenCatches (behindBody pc body) (behindTry pc body catches cleanup) catches)
        (behindBody pc body) (sizeCatches catches) (labelsCatches catches) [] around ∧
      Placed S r defined scope (flattenCleanup (behindCatches pc body catches) cleanup)
        (behindCatches pc body catches) (sizeCleanup cleanup) (labelsBlock cleanup) [] around := by
  rw [flattenStmt_try] at h
  have hbody := fits_block pc body
  have hblock := (hbody.append (.one (pc + sizeBlock body)
    (.jump (.position (behindTry pc body catches cleanup)))) rfl).region
      (g := regionAt pc body catches cleanup) (Nat.le_refl _) (Nat.le_refl _)
  have hfollows := ((follows_block pc near body).append hbody (.one (pc + sizeBlock body)
    (.jump (.position (behindTry pc body catches cleanup))) _) rfl).region
      (regionAt pc body catches cleanup)
  have hcatches := fits_catches (behindBody pc body) (behindTry pc body catches cleanup) catches
  have hcleanup := fits_cleanup (behindCatches pc body catches) cleanup
  have hright := h.right hblock hfollows (hcatches.append hcleanup rfl) (Nat.add_assoc ..)
    (by simp only [sizeStmt, Nat.add_assoc]) (by simp [labelsStmt])
  exact ⟨hright.left hcatches hcleanup rfl rfl rfl,
    hright.right hcatches (follows_catches _ _ catches) hcleanup rfl rfl rfl⟩

end Try

end Resumable.Machine
