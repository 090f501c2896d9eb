import Resumable.Proofs.Lowering.Verified
import Resumable.Proofs.Machine.Control
import Resumable.Proofs.Machine.Reach

/-!
# Control stays in its scope

In a body where no jump enters or leaves a finally and no finally returns (`WellStructured`), a run is
always in the scope that it was started for: the innermost finally that covers its instruction, or
the routine where there is none (`InScope`).  One step preserves this, and the runs of finallys start
with it, so the run of a method does not leave its scope, and each finally comes to its own end or
fails.  A run is therefore the same whatever stands in the place of the failures of control
(`runWatched`, `control_stays_in_scope`).
-/

set_option autoImplicit false

namespace Resumable.Machine

open Resumable.Symbol Resumable.Tree
open Resumable.Lowering (verify verify_block_iff)

variable {σ : Type}

/-! ## Bodies whose finallys stand apart -/

namespace Site

/-- The labels that the statement at a site jumps to. -/
def jumps (x : Site) : List (Option Label) :=
  match x.item with
  | .stmt s => targetsStmt s
  | _ => []

/-- The label that stands at a site. -/
def label? (x : Site) : Option (Option Label) :=
  match x.item with
  | .stmt (.label _ l) => some l
  | _ => none

/-- The statement at a site returns. -/
def returns (x : Site) : Bool :=
  match x.item with
  | .stmt (.return ..) => true
  | _ => false

end Site

/-- No jump of the body goes to a label that stands in other finallys, and no finally returns. -/
structure WellStructured (b : Block) : Prop where
  jumps : ∀ x ∈ sitesBlock [] 0 b, ∀ y ∈ sitesBlock [] 0 b, ∀ l ∈ x.jumps, y.label? = some l →
    x.cleanups = y.cleanups
  returns : ∀ x ∈ sitesBlock [] 0 b, x.returns = true → x.cleanups = []

namespace Site

variable {x : Site} {i : Instr Target} {f : Target → Nat}

/-- Only statements that return become instructions that do. -/
theorem returns_of_instr (hi : x.item.instr? = some i) {e : Expr} (he : i.map f = .return e) :
    x.returns = true := by
  obtain ⟨pc, item, parts⟩ := x
  cases item with
  | stmt s =>
    cases s with
    | label => cases hi
    | «return» => rfl
    | throw o e' =>
      cases hi
      cases e' <;> cases he
    | _ =>
      cases hi
      cases he
  | _ =>
    cases hi
    cases he

/-- No statement becomes an instruction that ends a handler or a finally. -/
theorem ends_of_stmt {s : Stmt} (hs : x.item = .stmt s) (hi : x.item.instr? = some i) :
    i.map f ≠ .endCatch ∧ i.map f ≠ .endFinally := by
  rw [hs] at hi
  cases s with
  | label => cases hi
  | throw o e =>
    cases hi
    cases e <;> exact ⟨nofun, nofun⟩
  | _ =>
    cases hi
    exact ⟨nofun, nofun⟩

/-- Only the end of a finally becomes the instruction that ends it. -/
theorem item_of_endFinally (hi : x.item.instr? = some i) (he : i.map f = .endFinally) :
    x.item = .endFinally := by
  cases hitem : x.item with
  | stmt s => exact absurd he (ends_of_stmt hitem hi).2
  | endFinally => rfl
  | _ =>
    rw [hitem] at hi
    cases hi
    cases he

/-- Only the end of a handler becomes the instruction that ends it. -/
theorem item_of_endCatch (hi : x.item.instr? = some i) (he : i.map f = .endCatch) :
    x.item = .endCatch := by
  cases hitem : x.item with
  | stmt s => exact absurd he (ends_of_stmt hitem hi).1
  | endCatch => rfl
  | _ =>
    rw [hitem] at hi
    cases hi
    cases he

end Site

/-! ## Targets of sites -/

/-- A statement whose jumps carry labels goes to them. -/
theorem leafInstr_targets {s : Stmt} (h : ∀ l ∈ targetsStmt s, l ≠ none) {t : Target}
    (ht : t ∈ (leafInstr s).targets) : ∃ l ∈ targetsStmt s, t = jumpTarget l := by
  cases s with
  | goto o l => exact ⟨l, List.mem_singleton_self l, List.mem_singleton.mp ht⟩
  | conditionalGoto o c w l => exact ⟨l, List.mem_singleton_self l, List.mem_singleton.mp ht⟩
  | dispatch o e cases l =>
    rcases List.mem_append.mp ht with ht | ht
    · rw [List.map_map] at ht
      obtain ⟨c, hc, rfl⟩ := List.mem_map.mp ht
      have hmem : c.label ∈ targetsStmt (.dispatch o e cases l) :=
        List.mem_append_left _ (List.mem_map_of_mem hc)
      refine ⟨c.label, hmem, ?_⟩
      cases hlabel : c.label with
      | none => exact absurd hlabel (h _ hmem)
      | some k => simp [jumpTarget, hlabel]
    · exact ⟨l, List.mem_append_right _ (List.mem_singleton_self l), List.mem_singleton.mp ht⟩
  | throw o e => cases e <;> cases ht
  | _ => cases ht

section Sites

variable {b : Block} {x : Site}

/-- There is a site for each instruction before the last one. -/
theorem exists_site {pc : Nat} (h : pc < sizeBlock b) :
    ∃ x ∈ sitesBlock [] 0 b, x.pc = pc ∧ x.item.instr?.isSome = true := by
  have hlength : (flattenBlock 0 b).instrs.length = sizeBlock b := (fits_block 0 b).length
  obtain ⟨i, hi⟩ : ∃ i, (flattenBlock 0 b).instrs[pc]? = some i :=
    ⟨_, List.getElem?_eq_getElem (by omega)⟩
  have hmem : (i, pc) ∈ (flattenBlock 0 b).instrs.zipIdx 0 := List.mem_zipIdx_iff_getElem?.mpr hi
  rw [← code_block [] 0 b] at hmem
  obtain ⟨x, hx, hcode⟩ := List.mem_filterMap.mp hmem
  rw [Site.code?, Option.map_eq_some_iff] at hcode
  obtain ⟨j, hj, heq⟩ := hcode
  exact ⟨x, hx, congrArg Prod.snd heq, by rw [hj]; rfl⟩

/-- The finallys that a site stands in are those that cover it. -/
theorem finallys_of_site (hx : x ∈ sitesBlock [] 0 b) (hplaced : x.item.instr?.isSome = true) :
    x.cleanups = finallysAt (triesBlock 0 b) x.pc := by
  rw [Site.cleanups, parts_of_site hx hplaced]
  rfl

/-- A label that is jumped to stands at the site to which the jump is resolved. -/
theorem Executable.label_site (h : Executable b) {l : Option Label} (hl : l ∈ targetsBlock b) :
    ∃ y ∈ sitesBlock [] 0 b, y.label? = some l ∧ y.reach = [(bodyFragment b).resolve (jumpTarget l)] := by
  obtain ⟨p, hlookup, hresolve, -⟩ := h.recorded hl
  obtain ⟨before, behind, hplaces, -⟩ := List.lookup_eq_some_iff.mp hlookup
  have hmem : (l, p) ∈ labelPlaces b := by
    rw [labelPlaces_eq, hplaces]
    exact List.mem_append_right _ List.mem_cons_self
  obtain ⟨place, hplace, hlabel⟩ := List.mem_filterMap.mp hmem
  rw [← places_of_sites [] 0 b] at hplace
  obtain ⟨⟨pc, item, parts⟩, hy, hsite⟩ := List.mem_filterMap.mp hplace
  cases item with
  | stmt s =>
    cases hsite
    cases s with
    | label o k =>
      cases hlabel
      exact ⟨_, hy, rfl, by rw [hresolve]; rfl⟩
    | _ => cases hlabel
  | _ => cases hsite

/-- Where control goes from an instruction, it comes from the site of the instruction or from that of
a label that is jumped to. -/
theorem Executable.reached (hb : Executable b) (hx : x ∈ sitesBlock [] 0 b) {i : Instr Target}
    (hi : x.item.instr? = some i) {p : Nat}
    (hp : i.falls = true ∧ p = x.pc + 1 ∨ p ∈ (i.map (bodyFragment b).resolve).targets) :
    ∃ y ∈ sitesBlock [] 0 b, p ∈ y.reach ∧ (y = x ∨ ∃ l ∈ x.jumps, y.label? = some l) := by
  have hself : p ∈ x.reach →
      ∃ y ∈ sitesBlock [] 0 b, p ∈ y.reach ∧ (y = x ∨ ∃ l ∈ x.jumps, y.label? = some l) :=
    fun h => ⟨x, hx, h, .inl rfl⟩
  obtain ⟨pc, item, parts⟩ := x
  rw [Instr.targets_map, List.mem_map] at hp
  cases item with
  | stmt s =>
    have hplace : (pc, s) ∈ placesBlock 0 b := by
      rw [← places_of_sites [] 0 b]
      exact List.mem_filterMap.mpr ⟨_, hx, rfl⟩
    have hleaf : isLeaf s = true := by
      rcases simple_of_placesBlock hplace with hleaf | ⟨o, l, hlabel⟩
      · exact hleaf
      · obtain rfl : s = .label o l := hlabel
        cases hi
    obtain rfl : leafInstr s = i := Option.some.inj ((instr?_leaf hleaf).symm.trans hi)
    rcases hp with ⟨-, rfl⟩ | ⟨t, ht, rfl⟩
    · refine hself ?_
      rw [reach_leaf hleaf]
      exact List.mem_singleton_self _
    · have htargets : ∀ l ∈ targetsStmt s, l ∈ targetsBlock b := fun l hl => targets_of_place hplace hl
      obtain ⟨l, hl, rfl⟩ := leafInstr_targets (fun l hl => (hb.targets l (htargets l hl)).2) ht
      obtain ⟨y, hy, hlabel, hyreach⟩ := hb.label_site (htargets l hl)
      refine ⟨y, hy, ?_, .inr ⟨l, hl, hlabel⟩⟩
      rw [hyreach]
      exact List.mem_singleton_self _
  | exit behind | exitCatch behind =>
    cases hi
    rcases hp with ⟨hfalls, -⟩ | ⟨t, ht, rfl⟩
    · cases hfalls
    · cases List.mem_singleton.mp ht
      exact hself (List.mem_singleton_self _)
  | enterCatch | endCatch =>
    cases hi
    rcases hp with ⟨-, rfl⟩ | ⟨t, ht, -⟩
    · exact hself (List.mem_singleton_self _)
    · cases ht
  | endFinally =>
    cases hi
    rcases hp with ⟨hfalls, -⟩ | ⟨t, ht, -⟩
    · cases hfalls
    · cases ht

/-- Control goes from an instruction to positions in the finallys of the instruction. -/
theorem finallys_of_target (hb : Executable b) (hstructured : WellStructured b)
    (hx : x ∈ sitesBlock [] 0 b) {i : Instr Target} (hi : x.item.instr? = some i) {p : Nat}
    (hp : i.falls = true ∧ p = x.pc + 1 ∨ p ∈ (i.map (bodyFragment b).resolve).targets) :
    p ≤ sizeBlock b ∧ finallysAt (triesBlock 0 b) p = finallysAt (triesBlock 0 b) x.pc := by
  have hplaced : x.item.instr?.isSome = true := by
    rw [hi]
    rfl
  obtain ⟨y, hy, hpy, hfrom⟩ := hb.reached hx hi hp
  have hstays := reach_block [] 0 b y hy
  have hsame : x.cleanups = y.cleanups := by
    rcases hfrom with rfl | ⟨l, hl, hlabel⟩
    · rfl
    · exact hstructured.jumps x hx y hy l hl hlabel
  refine ⟨?_, ?_⟩
  · have := hstays.between p hpy
    omega
  · rw [← finallys_of_site hx hplaced, hsame, hstays.finallys p hpy]
    exact (List.append_nil _).symm

end Sites

/-! ## Scopes -/

/-- The scope is the whole code or a finally of one of the tries, and a finally covers the position
just if the scope is in it. -/
structure InScope (ts : List TryAt) (whole scope : Range) (pc : Nat) : Prop where
  kind : scope = whole ∨ ∃ t ∈ ts, t.region.cleanup = some scope
  covers : scope.covers pc = true
  same : ∀ t ∈ ts, ∀ R, t.region.cleanup = some R → (R.covers pc = true ↔ scope.isWithin R = true)

namespace InScope

variable {ts : List TryAt} {whole scope : Range} {pc p : Nat}

/-- A run of the whole code begins in its scope. -/
theorem start (hwhole : whole.covers 0 = true) : InScope ts whole whole 0 := by
  refine ⟨.inl rfl, hwhole, fun t _ R hR => ?_⟩
  have := TryAt.cleanup_behind hR
  rw [Range.covers_eq_true] at hwhole ⊢
  rw [Range.isWithin_iff]
  omega

/-- Control that stays in the same finallys stays in its scope. -/
theorem move (h : InScope ts whole scope pc) (hp : whole.covers p = true)
    (hsame : finallysAt ts p = finallysAt ts pc) : InScope ts whole scope p := by
  have hcovers : ∀ t ∈ ts, ∀ R, t.region.cleanup = some R → (R.covers p = true ↔ R.covers pc = true) := by
    intro t ht R hR
    have hmem : ∀ q, R ∈ finallysAt ts q ↔ R.covers q = true := fun q =>
      mem_finallysAt.trans (and_iff_right ⟨t, ht, hR⟩)
    rw [← hmem p, ← hmem pc, hsame]
  refine ⟨h.kind, ?_, fun t ht R hR => (hcovers t ht R hR).trans (h.same t ht R hR)⟩
  rcases h.kind with rfl | ⟨t, ht, hscope⟩
  · exact hp
  · exact (hcovers t ht scope hscope).mpr h.covers

/-- A handler of a try in the scope starts in the scope. -/
theorem handler (h : InScope ts whole scope pc) (hts : ts.Pairwise TryAt.Precedes) {t : TryAt}
    (ht : t ∈ ts) (hcovers : t.region.guarded.covers pc = true)
    (hwithin : t.region.guarded.isWithin scope = true) {handler : Handler}
    (hh : handler ∈ t.region.handlers) (hwhole : whole.covers handler.body.start = true) :
    InScope ts whole scope handler.body.start := by
  have haround : ∀ u ∈ ts, ∀ R, u.region.cleanup = some R →
      (R.covers handler.body.start = true ↔ t.region.guarded.isWithin R = true) :=
    fun u hu R hR => finally_at_handler hts ht hu hR hh
  rw [Range.covers_eq_true] at hcovers
  refine ⟨h.kind, ?_, fun u hu R hR => (haround u hu R hR).trans ⟨fun hR' => ?_, fun hR' => ?_⟩⟩
  · rcases h.kind with rfl | ⟨u, hu, hscope⟩
    · exact hwhole
    · exact (haround u hu scope hscope).mpr hwithin
  · refine (h.same u hu R hR).mp (Range.covers_eq_true.mpr ?_)
    rw [Range.isWithin_iff] at hR'
    omega
  · rw [Range.isWithin_iff] at hwithin hR' ⊢
    omega

/-- A finally that is run begins in itself. -/
theorem cleanup (hts : ts.Pairwise TryAt.Precedes) {t : TryAt} (ht : t ∈ ts) {C : Range}
    (hC : t.region.cleanup = some C) : InScope ts whole C C.start := by
  refine ⟨.inr ⟨t, ht, hC⟩, ?_, fun u hu R hR => finally_at_cleanup hts ht hu hR hC⟩
  exact Range.covers_eq_true.mpr ⟨Nat.le_refl _, (TryAt.cleanup_bounds hC).2.2⟩

end InScope

/-- The regions in a scope around an instruction are those of tries. -/
theorem mem_regionsAt {b : Block} {method : Method} {scope : Range} {pc : Nat} {g : Region} :
    g ∈ (routineOf method b).regionsAt pc scope ↔ ∃ t ∈ triesBlock 0 b, t.region = g ∧
      t.region.guarded.covers pc = true ∧ t.region.guarded.isWithin scope = true := by
  rw [Routine.regionsAt, List.mem_reverse, List.mem_filter, routineOf_regions, List.mem_map,
    Bool.and_eq_true]
  constructor
  · rintro ⟨⟨t, ht, rfl⟩, hguards⟩
    exact ⟨t, ht, rfl, hguards⟩
  · rintro ⟨t, ht, rfl, hguards⟩
    exact ⟨⟨t, ht, rfl⟩, hguards⟩

/-! ## Runs in the middle -/

/-- The finallys of a run, each of them run for at most so many steps. -/
def finallysWithin (ctx : Context σ) (r : Routine) (steps : Nat) : Cleaner σ := fun cleanup => do
  requireEnded r.method (← run ctx r steps cleanup cleanup.start)

theorem run_succ {ctx : Context σ} {r : Routine} {scope : Range} {pc : Nat} {i : Instr Nat}
    (hcovers : scope.covers pc = true) (hi : r.instrs[pc]? = some i) (steps : Nat) :
    run ctx r (steps + 1) scope pc = (do
      match ← step ctx r (finallysWithin ctx r steps) scope pc i with
      | .goto next => run ctx r steps scope next
      | .return v => return .returned v
      | .endFinally => return .ended) := by
  rw [run, if_pos hcovers, hi]
  rfl

/-- A run in the middle: its scope, and before which instruction it is with which configuration. -/
structure Moment (σ : Type) where
  scope : Range
  pc : Nat
  config : Config σ

/-- From one moment of a run it comes to another one: in its own steps, or in those of the finallys
around an instruction, which may be started with any configuration. -/
inductive Reaches (ctx : Context σ) (r : Routine) (start : Moment σ) : Moment σ → Prop where
  | here : Reaches ctx r start start
  | next {m : Moment σ} {i : Instr Nat} {steps pc : Nat} {d : Config σ}
    (hm : Reaches ctx r start m) (hi : r.instrs[m.pc]? = some i)
    (hstep : step ctx r (finallysWithin ctx r steps) m.scope m.pc i m.config = some (.ok (.goto pc), d)) :
    Reaches ctx r start ⟨m.scope, pc, d⟩
  | inside {m : Moment σ} {g : Region} {cleanup : Range} (hm : Reaches ctx r start m)
    (hg : g ∈ r.regionsAt m.pc m.scope) (hcleanup : g.cleanup = some cleanup) (d : Config σ) :
    Reaches ctx r start ⟨cleanup, cleanup.start, d⟩

/-- The moment is inside of its scope, where there is an instruction; it is one that returns only in
the run of the whole routine, and the end of a finally only at the end of the finally that is run. -/
structure Moment.Contained (r : Routine) (m : Moment σ) : Prop where
  covers : m.scope.covers m.pc = true
  instr : ∃ i, r.instrs[m.pc]? = some i
  returns : ∀ e, r.instrs[m.pc]? = some (.return e) → m.scope = r.range
  ends : r.instrs[m.pc]? = some .endFinally → m.scope ≠ r.range ∧ m.pc + 1 = m.scope.stop

/-- How a run of a scope comes to an end that is not a failure: that of the routine returns, and that
of a finally ends it. -/
def Completion.Fits (r : Routine) (scope : Range) : Completion → Prop
  | .returned _ => scope = r.range
  | .ended => scope ≠ r.range

section Contained

variable {b : Block} {method : Method} {scope : Range} {pc : Nat}

theorem last_instr (b : Block) (method : Method) :
    (routineOf method b).instrs[sizeBlock b]? = some (.return .absent) := by
  have hlength : (flattenBlock 0 b).instrs.length = sizeBlock b := (fits_block 0 b).length
  simp only [routineOf, List.getElem?_toArray, List.getElem?_map, bodyFragment,
    Fragment.append_instrs]
  rw [List.getElem?_append_right (Nat.le_of_eq hlength), hlength, Nat.sub_self]
  rfl

/-- An instruction is the last one, behind the body, or stands at a site. -/
theorem site_of_instr {i : Instr Nat} (hi : (routineOf method b).instrs[pc]? = some i) :
    pc = sizeBlock b ∧ i = .return .absent ∨ ∃ x ∈ sitesBlock [] 0 b, x.pc = pc ∧
      ∃ j, x.item.instr? = some j ∧ j.map (bodyFragment b).resolve = i := by
  have hlt := (Array.getElem?_eq_some_iff.mp hi).1
  have hsize : (routineOf method b).instrs.size = sizeBlock b + 1 :=
    congrArg Range.stop (routineOf_range method b)
  rw [hsize] at hlt
  rcases Nat.lt_or_eq_of_le (Nat.le_of_lt_succ hlt) with hlt | rfl
  · obtain ⟨x, hx, rfl, hplaced⟩ := exists_site hlt
    obtain ⟨j, hj⟩ := Option.isSome_iff_exists.mp hplaced
    have hinstr := instr_of_site method hx hj
    exact .inr ⟨x, hx, rfl, j, hj, Option.some.inj (hinstr.symm.trans hi)⟩
  · exact .inl ⟨rfl, Option.some.inj (hi.symm.trans (last_instr b method))⟩

/-- A position in a scope is the one behind the body, which is in no finally, or that of a site. -/
theorem InScope.position (h : InScope (triesBlock 0 b) (routineOf method b).range scope pc) :
    pc = sizeBlock b ∨ pc < sizeBlock b := by
  rcases h.kind with rfl | ⟨t, ht, hscope⟩
  · have hcovers := h.covers
    rw [routineOf_range, Range.covers_eq_true] at hcovers
    dsimp only at hcovers
    omega
  · have hcovers := Range.covers_eq_true.mp h.covers
    have := TryAt.cleanup_bounds hscope
    have := tries_block_within b 0 t ht
    omega

/-- A scope at a position that no finally covers is the whole routine. -/
theorem InScope.whole_of_nil {ts : List TryAt} {whole : Range} (h : InScope ts whole scope pc)
    (hnil : finallysAt ts pc = []) : scope = whole := by
  rcases h.kind with rfl | ⟨t, ht, hscope⟩
  · rfl
  · have hmem := mem_finallysAt.mpr ⟨⟨t, ht, hscope⟩, h.covers⟩
    rw [hnil] at hmem
    cases hmem

theorem finallysAt_end (b : Block) : finallysAt (triesBlock 0 b) (sizeBlock b) = [] :=
  finallysAt_outside (tries_block_within b 0) (.inr (by omega))

/-- A moment in a scope is contained in it. -/
theorem InScope.contained (hstructured : WellStructured b)
    (h : InScope (triesBlock 0 b) (routineOf method b).range scope pc) (c : Config σ) :
    Moment.Contained (routineOf method b) ⟨scope, pc, c⟩ := by
  rcases h.position with rfl | hlt
  · have hlast := last_instr b method
    refine ⟨h.covers, ⟨_, hlast⟩, fun _ _ => h.whole_of_nil (finallysAt_end b), fun hi => ?_⟩
    rw [hlast] at hi
    cases hi
  · obtain ⟨x, hx, rfl, hplaced⟩ := exists_site hlt
    obtain ⟨i, hi⟩ := Option.isSome_iff_exists.mp hplaced
    have hinstr := instr_of_site method hx hi
    refine ⟨h.covers, ⟨_, hinstr⟩, fun e he => ?_, fun he => ?_⟩
    · refine h.whole_of_nil ?_
      rw [← finallys_of_site hx hplaced]
      have hreturn := Option.some.inj (hinstr.symm.trans he)
      exact hstructured.returns x hx (Site.returns_of_instr hi hreturn)
    · have hitem := Site.item_of_endFinally hi (Option.some.inj (hinstr.symm.trans he))
      obtain ⟨first, outer, hparts⟩ := (reach_block [] 0 b x hx).ends hitem
      -- The finally that ends here covers the instruction, so the scope lies in it.
      have hmem : ⟨first, x.pc + 1⟩ ∈ finallysAt (triesBlock 0 b) x.pc := by
        rw [← finallys_of_site hx hplaced, Site.cleanups, hparts]
        exact List.mem_cons_self
      obtain ⟨⟨t, ht, hcleanup⟩, hcovers⟩ := mem_finallysAt.mp hmem
      have hwithin := Range.isWithin_iff.mp ((h.same t ht _ hcleanup).mp hcovers)
      have hpc := Range.covers_eq_true.mp h.covers
      dsimp only at hwithin hpc ⊢
      refine ⟨fun hwhole => ?_, by omega⟩
      rw [hwhole, routineOf_range] at hwithin
      dsimp only at hwithin
      omega

/-- A step that goes on stays in its scope. -/
theorem InScope.step (hb : Executable b) (hstructured : WellStructured b)
    (h : InScope (triesBlock 0 b) (routineOf method b).range scope pc) {i : Instr Nat}
    (hi : (routineOf method b).instrs[pc]? = some i) {p : Nat}
    (hp : Next.Follows (routineOf method b) scope pc i (.goto p)) :
    InScope (triesBlock 0 b) (routineOf method b).range scope p := by
  have hsame : (i.falls = true ∧ p = pc + 1 ∨ p ∈ i.targets) →
      InScope (triesBlock 0 b) (routineOf method b).range scope p := by
    intro htarget
    rcases site_of_instr hi with ⟨-, rfl⟩ | ⟨x, hx, rfl, j, hj, rfl⟩
    · rcases htarget with ⟨hfalls, -⟩ | htarget
      · cases hfalls
      · cases htarget
    · rw [Instr.falls_map] at htarget
      obtain ⟨hle, hfinallys⟩ := finallys_of_target hb hstructured hx hj htarget
      refine h.move ?_ hfinallys
      rw [routineOf_range, Range.covers_eq_true]
      exact ⟨Nat.zero_le p, Nat.lt_succ_of_le hle⟩
  cases hp with
  | falls hfalls => exact hsame (.inl ⟨hfalls, rfl⟩)
  | jumps htarget => exact hsame (.inr htarget)
  | handled hhandles =>
    obtain ⟨g, hg, handler, hh, rfl⟩ := hhandles
    obtain ⟨t, ht, rfl, hcovers, hwithin⟩ := mem_regionsAt.mp hg
    refine h.handler (tries_block_nested b 0) ht hcovers hwithin hh ?_
    have := TryAt.handler_bounds hh
    have := TryAt.behindCatches_le (t := t)
    have := tries_block_within b 0 t ht
    rw [routineOf_range, Range.covers_eq_true]
    simp only [Handler.body]
    omega

/-- A run of the method begins in its scope. -/
theorem InScope.entry (b : Block) (method : Method) : InScope (triesBlock 0 b)
    (routineOf method b).range (routineOf method b).range 0 := by
  refine .start ?_
  rw [routineOf_range, Range.covers_eq_true]
  exact ⟨Nat.le_refl 0, Nat.succ_pos _⟩

/-- Every moment of a run is in its scope. -/
theorem InScope.of_reaches (hb : Executable b) (hstructured : WellStructured b) {ctx : Context σ}
    {c : Config σ} {m : Moment σ}
    (hm : Reaches ctx (routineOf method b) ⟨(routineOf method b).range, 0, c⟩ m) :
    InScope (triesBlock 0 b) (routineOf method b).range m.scope m.pc := by
  induction hm with
  | here => exact .entry b method
  | next hm hi hstep ih => exact ih.step hb hstructured hi (step_follows _ _ _ _ _ _ _ _ _ hstep)
  | inside hm hg hcleanup d ih =>
    obtain ⟨t, ht, rfl, -⟩ := mem_regionsAt.mp hg
    exact .cleanup (tries_block_nested b 0) ht hcleanup

end Contained

/-- A run in its scope ends as the scope does. -/
theorem InScope.fits {b : Block} {method : Method} (hb : Executable b)
    (hstructured : WellStructured b) {ctx : Context σ} {steps : Nat} {scope : Range} {pc : Nat}
    (h : InScope (triesBlock 0 b) (routineOf method b).range scope pc) {c d : Config σ}
    {z : Completion} (hrun : run ctx (routineOf method b) steps scope pc c = some (.ok z, d)) :
    z.Fits (routineOf method b) scope := by
  induction steps generalizing pc c with
  | zero => cases hrun
  | succ steps ih =>
    have hcontained := h.contained hstructured c
    obtain ⟨i, hi⟩ := hcontained.instr
    rw [run_succ h.covers hi, Act.bind_apply] at hrun
    cases hstep : Machine.step ctx (routineOf method b) (finallysWithin ctx (routineOf method b) steps)
        scope pc i c with
    | none => simp [hstep] at hrun
    | some ended =>
      obtain ⟨result, e⟩ := ended
      rw [hstep] at hrun
      cases result with
      | error f => cases hrun
      | ok next =>
        have hfollows := step_follows _ _ _ _ _ _ _ _ _ hstep
        cases next with
        | goto p => exact ih (h.step hb hstructured hi hfollows) hrun
        | «return» v =>
          cases hrun
          cases hfollows with
          | returns e v he => exact hcontained.returns e (he ▸ hi)
        | endFinally =>
          cases hrun
          cases hfollows with
          | ends he => exact (hcontained.ends (he ▸ hi)).1

/-- A finally is not the whole routine. -/
theorem cleanup_ne_range {b : Block} {method : Method} {pc : Nat} {scope : Range} {g : Region}
    {R : Range} (hg : g ∈ (routineOf method b).regionsAt pc scope) (hR : g.cleanup = some R) :
    R ≠ (routineOf method b).range := by
  obtain ⟨t, ht, rfl, -⟩ := mem_regionsAt.mp hg
  rintro rfl
  have := TryAt.cleanup_behind hR
  rw [routineOf_range] at this
  cases this

/-! ## Runs that are watched -/

/-- Execute as a run does, with another action in the place of what happens where control escapes:
where it is outside of the scope or at no instruction, where a finally has returned, and where the end
of a finally is not that of the finally which is run. -/
def runWatched (escape : Range → Nat → Act σ Completion) (ctx : Context σ) (r : Routine) :
    Nat → Range → Nat → Act σ Completion
  | 0, _, _ => outOfSteps
  | steps + 1, scope, pc => do
    let clean : Cleaner σ := fun cleanup => do
      match ← runWatched escape ctx r steps cleanup cleanup.start with
      | .ended => pure ()
      | .returned _ => discard (escape cleanup cleanup.start)
    match if scope.covers pc then r.instrs[pc]? else none with
    | none => escape scope pc
    | some instr =>
      match ← step ctx r clean scope pc instr with
      | .goto pc => runWatched escape ctx r steps scope pc
      | .return v => return .returned v
      | .endFinally =>
        if scope ≠ r.range ∧ pc + 1 = scope.stop then return .ended else escape scope pc

/-- The finallys of a run that is watched. -/
def finallysWatched (escape : Range → Nat → Act σ Completion) (ctx : Context σ) (r : Routine)
    (steps : Nat) : Cleaner σ := fun cleanup => do
  match ← runWatched escape ctx r steps cleanup cleanup.start with
  | .ended => pure ()
  | .returned _ => discard (escape cleanup cleanup.start)

theorem runWatched_succ {escape : Range → Nat → Act σ Completion} {ctx : Context σ} {r : Routine}
    {scope : Range} {pc : Nat} {i : Instr Nat} (hcovers : scope.covers pc = true)
    (hi : r.instrs[pc]? = some i) (steps : Nat) :
    runWatched escape ctx r (steps + 1) scope pc = (do
      match ← step ctx r (finallysWatched escape ctx r steps) scope pc i with
      | .goto next => runWatched escape ctx r steps scope next
      | .return v => return .returned v
      | .endFinally =>
        if scope ≠ r.range ∧ pc + 1 = scope.stop then return .ended else escape scope pc) := by
  rw [runWatched, if_pos hcovers, hi]
  rfl

/-- A run in its scope does not escape. -/
theorem InScope.watched {b : Block} {method : Method} (hb : Executable b)
    (hstructured : WellStructured b) (escape : Range → Nat → Act σ Completion) (ctx : Context σ)
    {steps : Nat} {scope : Range} {pc : Nat}
    (h : InScope (triesBlock 0 b) (routineOf method b).range scope pc) :
    runWatched escape ctx (routineOf method b) steps scope pc =
      run ctx (routineOf method b) steps scope pc := by
  induction steps generalizing scope pc with
  | zero => rfl
  | succ steps ih =>
    -- The finallys around the instruction end, so both ways run them alike.
    have hagree : Cleaner.Agree ((routineOf method b).regionsAt pc scope)
        (finallysWatched escape ctx (routineOf method b) steps)
        (finallysWithin ctx (routineOf method b) steps) := by
      intro g hg cleanup hcleanup
      obtain ⟨t, ht, rfl, -⟩ := mem_regionsAt.mp hg
      have hinside : InScope (triesBlock 0 b) (routineOf method b).range cleanup cleanup.start :=
        .cleanup (tries_block_nested b 0) ht hcleanup
      funext c
      rw [finallysWatched, finallysWithin, ih hinside, Act.bind_apply, Act.bind_apply]
      cases hrun : run ctx (routineOf method b) steps cleanup cleanup.start c with
      | none => rfl
      | some ended =>
        obtain ⟨result, d⟩ := ended
        rcases result with f | v | -
        · rfl
        · exact absurd (hinside.fits hb hstructured hrun) (cleanup_ne_range hg hcleanup)
        · rfl
    funext c
    have hcontained := h.contained hstructured c
    obtain ⟨i, hi⟩ := hcontained.instr
    rw [runWatched_succ h.covers hi, run_succ h.covers hi, step_congr hagree, Act.bind_apply,
      Act.bind_apply]
    cases hstep : Machine.step ctx (routineOf method b) (finallysWithin ctx (routineOf method b) steps)
        scope pc i c with
    | none => rfl
    | some ended =>
      obtain ⟨result, d⟩ := ended
      cases result with
      | error f => rfl
      | ok next =>
        have hfollows := step_follows _ _ _ _ _ _ _ _ _ hstep
        cases next with
        | goto p => exact congrFun (ih (h.step hb hstructured hi hfollows)) d
        | «return» v => rfl
        | endFinally =>
          cases hfollows with
          | ends he => exact congrFun (if_pos (hcontained.ends (he ▸ hi))) d

/-- **Control stays in its scope.**  The body passes verification and is flattened; none of its jumps
enters or leaves a finally, and none of its finallys returns.  A run of the method is then the same
whatever is done where control escapes: neither it nor a run of one of its finallys ever leaves its
scope, returns from a finally, or comes to the end of a finally that is not the one which is run.  So
it is at every moment that a run comes to, in the method's own code or in a finally at any depth, with
whatever configuration that was started: control is before an instruction inside of the scope of the
run, and the run executes it and goes on behind it; the instruction returns only in the method's own
run, and it is the end of a finally only at the end of the finally that is run.  Each run of a finally
that does not fail comes to that end, and the run of the method that does not fail returns. -/
theorem control_stays_in_scope {method : Method} {b : Block} {r : Routine}
    (hverify : verify false (.stmt (.block b)) = .ok ())
    (hflatten : flatten { symbol := method, body := b } = .ok r) (hstructured : WellStructured b)
    (ctx : Context σ) (c : Config σ) :
    (∀ escape steps, runWatched escape ctx r steps r.range 0 c = run ctx r steps r.range 0 c) ∧
    (∀ m, Reaches ctx r ⟨r.range, 0, c⟩ m → m.Contained r ∧
      (∀ escape steps, runWatched escape ctx r steps m.scope m.pc m.config =
        run ctx r steps m.scope m.pc m.config) ∧
      (∀ steps, ∃ i, r.instrs[m.pc]? = some i ∧ run ctx r (steps + 1) m.scope m.pc = (do
        match ← step ctx r (finallysWithin ctx r steps) m.scope m.pc i with
        | .goto next => run ctx r steps m.scope next
        | .return v => return .returned v
        | .endFinally => return .ended)) ∧
      ∀ g ∈ r.regionsAt m.pc m.scope, ∀ cleanup, g.cleanup = some cleanup →
        ∀ steps d z e, run ctx r steps cleanup cleanup.start d = some (.ok z, e) → z = .ended) ∧
    ∀ steps z d, run ctx r steps r.range 0 c = some (.ok z, d) → ∃ v, z = .returned v := by
  have htargets := (verify_block_iff.mp hverify).2.2
  obtain ⟨hexecutable, rfl⟩ := executable_of_flatten hflatten fun l hl => (htargets l hl).2
  refine ⟨fun escape steps => congrFun
      ((InScope.entry b method).watched hexecutable hstructured escape ctx) c,
    fun m hm => ?_, fun steps z d h => ?_⟩
  · have hscope := InScope.of_reaches hexecutable hstructured hm
    have hcontained := hscope.contained hstructured m.config
    refine ⟨hcontained, fun escape steps => congrFun
        (hscope.watched hexecutable hstructured escape ctx) m.config, fun steps => ?_,
      fun g hg cleanup hcleanup steps d z e h => ?_⟩
    · obtain ⟨i, hi⟩ := hcontained.instr
      exact ⟨i, hi, run_succ hcontained.covers hi steps⟩
    · have hinside := InScope.of_reaches hexecutable hstructured (.inside hm hg hcleanup d)
      have hfits := hinside.fits hexecutable hstructured h
      cases z with
      | ended => rfl
      | returned v => exact absurd hfits (cleanup_ne_range hg hcleanup)
  · have hfits := (InScope.entry b method).fits hexecutable hstructured h
    cases z with
    | ended => exact absurd rfl hfits
    | returned v => exact ⟨v, rfl⟩

/-- A return out of a try whose finally has a handler and a loop of its own. -/
def returningBody : Block :=
  let block (statements : List Stmt) : Block := .mk {} [] statements
  let one : Expr := .literal {} (.int 1) (some .int)
  block
    [.try {} (block [.return {} one]) [] (block
      [.label {} (some (.user "again")),
       .try {} (block [.throw {} one])
         [.mk {} none (block [.goto {} (some (.user "done"))])] .absent,
       .goto {} (some (.user "again")),
       .label {} (some (.user "done"))])]

theorem control_stays_in_scope_returning :
    let r := routineOf default returningBody
    let ctx : Context Unit :=
      { machine := { hosts := fun _ => none }, call := fun _ _ _ => throw default, method := default }
    let c : Config Unit := ⟨{ this := none, args := [] }, { hosts := () }⟩
    verify false (.stmt (.block returningBody)) = .ok () ∧
      flatten { symbol := default, body := returningBody } = .ok r ∧
      (∀ escape steps, runWatched escape ctx r steps r.range 0 c = run ctx r steps r.range 0 c) ∧
      Reaches ctx r ⟨r.range, 0, c⟩ ⟨⟨2, 10⟩, 2, c⟩ ∧
      Moment.Contained r (⟨⟨2, 10⟩, 2, c⟩ : Moment Unit) ∧
      (run ctx r 20 r.range 0 c).map Prod.fst = some (.ok (.returned (.int 1))) := by
  intro r ctx c
  have hverify : verify false (.stmt (.block returningBody)) = .ok () := rfl
  have hflatten : flatten { symbol := default, body := returningBody } = .ok r := rfl
  have hstructured : WellStructured returningBody := ⟨by decide, by decide⟩
  have hreaches : Reaches ctx r ⟨r.range, 0, c⟩ ⟨⟨2, 10⟩, 2, c⟩ :=
    .inside .here (List.mem_singleton_self _) rfl c
  obtain ⟨hwatched, hmoments, -⟩ := control_stays_in_scope hverify hflatten hstructured ctx c
  exact ⟨hverify, hflatten, hwatched, hreaches, (hmoments _ hreaches).1, rfl⟩

end Resumable.Machine
