import Resumable.Proofs.Machine.Around

/-!
# Held failures are those of the handlers around control

In a run of a body whose jumps respect handlers (`RespectsHandlers`), one failure is held for each
handler that control is in, the innermost first, and the run leaves none behind
(`caught_mirrors_handlers`).  A step preserves what is to be held at the position (`HeldAbove.goto`),
and so a run of a finally gives back what was held when it began (`run_restores`).  A throw of what is
held takes the failure of the handler that it stands in, which is left then (`HeldAbove.rethrown`).  A
jump to the end of a handler breaks this (`jump_to_end_drops_outer`).
-/

set_option autoImplicit false

namespace Resumable.Machine

open Resumable.Symbol Resumable.Tree
open Resumable.Lowering (verify verify_block_iff)

variable {σ : Type}

/-! ## Bodies whose jumps respect handlers -/

/-- The statement at a site throws again what is held. -/
def Site.rethrows (x : Site) : Bool :=
  match x.item with
  | .stmt (.throw _ .absent) => true
  | _ => false

/-- Only statements that do so become the instruction for it. -/
theorem Site.rethrows_of_instr {x : Site} {i : Instr Target} {f : Target → Nat}
    (hi : x.item.instr? = some i) (he : i.map f = .rethrow) : x.rethrows = true := by
  obtain ⟨pc, item, parts⟩ := x
  cases item with
  | stmt s =>
    cases s with
    | label => cases hi
    | throw o e =>
      cases hi
      cases e with
      | absent => rfl
      | _ => cases he
    | _ =>
      cases hi
      cases he
  | _ =>
    cases hi
    cases he

/-- A failure that is thrown in the part goes on out of it at once: the part is a try block without
handlers. -/
def Part.passes : Part → Bool
  | .guarded t => t.region.handlers.isEmpty
  | _ => false

/-- The handler that a failure leaves that is thrown at the site, if no other handler takes it before
and the site stands in no finally in between. -/
def Site.leaves? (x : Site) : Option Handler :=
  (x.parts.find? fun p => !p.passes).bind Part.handler?

/-- Of the parts that a failure does not go out of at once, all are around the handler. -/
theorem Site.inside_of_leaves {x : Site} {h : Handler} (hparts : x.parts.Pairwise Part.Inside)
    (hx : x.leaves? = some h) : .handler h ∈ x.parts ∧
      ∀ q ∈ x.parts, q.passes = false → q = .handler h ∨ (Part.handler h).Inside q := by
  obtain ⟨p, hfind, hp⟩ := Option.bind_eq_some_iff.mp hx
  obtain rfl : p = .handler h := by
    cases p <;> cases hp
    rfl
  obtain ⟨-, inner, outer, hsplit, hinner⟩ := List.find?_eq_some_iff_append.mp hfind
  refine ⟨List.mem_of_find?_eq_some hfind, fun q hq hpasses => ?_⟩
  rw [hsplit] at hparts hq
  rcases List.mem_append.mp hq with hq | hq
  · have := hinner q hq
    simp [hpasses] at this
  · rcases List.mem_cons.mp hq with rfl | hq
    · exact .inl rfl
    · exact .inr ((List.pairwise_cons.mp (List.pairwise_append.mp hparts).2.1).1 q hq)

/-- No jump of the body enters a handler, and a failure that is thrown again leaves its handler. -/
structure EntersNoHandler (b : Block) : Prop where
  jumps : ∀ x ∈ sitesBlock [] 0 b, ∀ y ∈ sitesBlock [] 0 b, ∀ l ∈ x.jumps, y.label? = some l →
    ∀ h ∈ y.handlers, h ∈ x.handlers
  rethrows : ∀ x ∈ sitesBlock [] 0 b, x.rethrows = true → x.leaves?.isSome = true

/-- Nor does an instruction jump to the one that ends a handler. -/
structure RespectsHandlers (b : Block) (r : Routine) : Prop extends EntersNoHandler b where
  ends : ∀ g ∈ r.regions, ∀ h ∈ g.handlers, ∀ i ∈ r.instrs, h.range.stop ∉ i.targets

section Positions

variable {b : Block} {method : Method} {x : Site} {scope : Range} {pc p : Nat}

theorem handlers_of_site (hx : x ∈ sitesBlock [] 0 b) (hplaced : x.item.instr?.isSome = true) :
    x.handlers = handlersIn (partsOf (triesBlock 0 b)) x.pc := by
  rw [Site.handlers, parts_of_site hx hplaced]
  rfl

/-- A handler ends just where an instruction says so. -/
theorem endCatch_iff {i : Instr Nat} (hi : (routineOf method b).instrs[pc]? = some i) :
    i = .endCatch ↔ ∃ h, .handler h ∈ partsOf (triesBlock 0 b) ∧ h.range.stop = pc := by
  rcases site_of_instr hi with ⟨rfl, rfl⟩ | ⟨x, hx, rfl, j, hj, rfl⟩
  · refine iff_of_false nofun ?_
    rintro ⟨h, hmem, hstop⟩
    have := handler_within (tries_block_within b 0) hmem
    omega
  · have hplaced : x.item.instr?.isSome = true := by
      rw [hj]
      rfl
    refine Iff.trans ⟨Site.item_of_endCatch hj, fun hitem => ?_⟩ ((enters_block [] 0 b x hx).ends hplaced)
    rw [hitem] at hj
    cases hj
    rfl

/-- Control comes from an instruction only to positions in handlers of the instruction, and to none
where a handler begins. -/
theorem handlers_of_target (hb : Executable b) (hrespects : EntersNoHandler b)
    (hx : x ∈ sitesBlock [] 0 b) {i : Instr Target} (hi : x.item.instr? = some i)
    (houtside : ∀ h, .handler h ∈ partsOf (triesBlock 0 b) → h.range.start ≠ x.pc)
    (hp : i.falls = true ∧ p = x.pc + 1 ∨ p ∈ (i.map (bodyFragment b).resolve).targets) :
    (∀ h, .handler h ∈ partsOf (triesBlock 0 b) → h.range.start ≠ p) ∧
      ∀ h, .handler h ∈ partsOf (triesBlock 0 b) → h.body.start ≤ p ∧ p ≤ h.body.stop →
        h.body.covers x.pc = true := by
  have hplaced : x.item.instr?.isSome = true := by
    rw [hi]
    rfl
  have hnone : x.item ≠ .enterCatch := by
    intro hitem
    obtain ⟨h, hmem, hstart⟩ := ((enters_block [] 0 b x hx).begins hplaced).mp hitem
    exact houtside h hmem hstart
  obtain ⟨y, hy, hpy, hfrom⟩ := hb.reached hx hi hp
  have hitem : y.item ≠ .enterCatch := by
    rcases hfrom with rfl | ⟨l, -, hlabel⟩
    · exact hnone
    · intro hitem
      rw [Site.label?, hitem] at hlabel
      cases hlabel
  have hsub : ∀ h ∈ y.handlers, h ∈ x.handlers := by
    rcases hfrom with rfl | ⟨l, hl, hlabel⟩
    · exact fun _ hh => hh
    · exact hrespects.jumps x hx y hy l hl hlabel
  have hlands := (enters_block [] 0 b y hy).lands hitem p hpy
  refine ⟨hlands.outside, fun h hmem hposition => ?_⟩
  obtain ⟨ended, hheld, hended⟩ := hlands.held
  have hy' : h ∈ y.handlers := by
    rw [hheld, List.filterMap_nil, List.append_nil, List.mem_append, Option.mem_toList, hended h,
      mem_handlersIn, Range.covers_eq_true]
    rcases Nat.lt_or_eq_of_le hposition.2 with hlt | rfl
    · exact .inr ⟨hmem, hposition.1, hlt⟩
    · exact .inl ⟨hmem, rfl⟩
  have hx' := hsub h hy'
  rw [handlers_of_site hx hplaced] at hx'
  exact (mem_handlersIn.mp hx').2

/-- A try whose try block is in the scope stands in the scope. -/
theorem InScope.try_within (h : InScope (triesBlock 0 b) (routineOf method b).range scope pc)
    {t : TryAt} (ht : t ∈ triesBlock 0 b) (hwithin : t.region.guarded.isWithin scope = true) :
    scope.start ≤ t.pc ∧ t.behind < scope.stop := by
  rcases h.kind with rfl | ⟨u, hu, hscope⟩
  · have := tries_block_within b 0 t ht
    rw [routineOf_range]
    dsimp only
    omega
  · exact (finally_around_guarded (tries_block_nested b 0) ht hu hscope).mp hwithin

/-- No handler begins where the scope does. -/
theorem InScope.outside (h : InScope (triesBlock 0 b) (routineOf method b).range scope pc) :
    ∀ h, .handler h ∈ partsOf (triesBlock 0 b) → h.range.start ≠ scope.start := by
  intro handler hmem hstart
  have hbounds := handler_within (tries_block_within b 0) hmem
  rcases h.kind with rfl | ⟨u, hu, hscope⟩
  · rw [routineOf_range] at hstart
    dsimp only at hstart
    omega
  · have haround := handler_at_cleanup (tries_block_nested b 0) hu hscope hmem (by omega)
    have hbehind := TryAt.cleanup_behind hscope
    simp only [Handler.body] at haround
    omega

/-- A handler that control is in belongs to the scope if it ends in it. -/
theorem InScope.holds (h : InScope (triesBlock 0 b) (routineOf method b).range scope pc)
    {handler : Handler} (hmem : .handler handler ∈ partsOf (triesBlock 0 b))
    (hposition : handler.body.start ≤ pc ∧ pc ≤ handler.body.stop)
    (hstop : handler.range.stop < scope.stop) : handler.Holds scope pc := by
  have hpc := Range.covers_eq_true.mp h.covers
  refine ⟨hposition, ?_, hstop⟩
  rcases h.kind with rfl | ⟨u, hu, hscope⟩
  · rw [routineOf_range]
    exact Nat.zero_le _
  · refine Classical.byContradiction fun hstart => ?_
    simp only [Handler.body] at hposition
    have haround := handler_at_cleanup (tries_block_nested b 0) hu hscope hmem (by omega)
    have := TryAt.cleanup_bounds hscope
    simp only [Handler.body] at haround
    omega

/-- So does one that ends at the position. -/
theorem InScope.handler_within (h : InScope (triesBlock 0 b) (routineOf method b).range scope pc)
    {handler : Handler} (hmem : .handler handler ∈ partsOf (triesBlock 0 b))
    (hstop : handler.range.stop = pc) : handler.Holds scope pc := by
  have hbounds := Machine.handler_within (tries_block_within b 0) hmem
  have hpc := Range.covers_eq_true.mp h.covers
  refine h.holds hmem ?_ (by omega)
  simp only [Handler.body]
  omega

/-- The handler that a failure leaves belongs to the scope, is inside of all other handlers around
the site, and none of those that may take the failure is in it. -/
theorem InScope.leaves (h : InScope (triesBlock 0 b) (routineOf method b).range scope x.pc)
    (hx : x ∈ sitesBlock [] 0 b) (hplaced : x.item.instr?.isSome = true) {handler : Handler}
    (hleaves : x.leaves? = some handler) :
    .handler handler ∈ partsOf (triesBlock 0 b) ∧ handler.body.covers x.pc = true ∧
      handler.Holds scope x.pc ∧
      (∀ h', .handler h' ∈ partsOf (triesBlock 0 b) → h'.body.covers x.pc = true →
        ¬ h'.body.Inside handler.body) ∧
      ∀ g ∈ (routineOf method b).regionsAt x.pc scope, ∀ h' ∈ g.handlers,
        handler.body.covers h'.body.start = false := by
  have hparts := parts_of_site hx hplaced
  have hnested : x.parts.Pairwise Part.Inside := by
    rw [hparts]
    exact covering_nested (tries_block_nested b 0) x.pc
  obtain ⟨hmem, hinside⟩ := Site.inside_of_leaves hnested hleaves
  have hcovering : ∀ p, p ∈ x.parts ↔ p ∈ partsOf (triesBlock 0 b) ∧ p.range.covers x.pc = true :=
    fun p => by rw [hparts, mem_covering]
  obtain ⟨hpart, hcovers⟩ := (hcovering _).mp hmem
  have hposition := Range.covers_eq_true.mp hcovers
  refine ⟨hpart, hcovers, h.holds hpart ⟨hposition.1, Nat.le_of_lt hposition.2⟩ ?_,
    fun h' hh' hcovers' hstrict => ?_, fun g hg h' hh' => ?_⟩
  · rcases h.kind with rfl | ⟨u, hu, hscope⟩
    · have := Machine.handler_within (tries_block_within b 0) hpart
      rw [routineOf_range]
      dsimp only
      omega
    · have hcleanup : .cleanup scope ∈ partsOf (triesBlock 0 b) :=
        List.mem_flatMap.mpr ⟨u, hu, TryAt.mem_parts.mpr (.inr (.inr ⟨scope, hscope, rfl⟩))⟩
      rcases hinside _ ((hcovering _).mpr ⟨hcleanup, h.covers⟩) rfl with heq | hin
      · cases heq
      · exact hin.strict rfl
  · rcases hinside _ ((hcovering (.handler h')).mpr ⟨hh', hcovers'⟩) rfl with heq | hin
    · cases heq
      exact Nat.lt_irrefl _ hstrict.1
    · exact Nat.lt_irrefl _ (Nat.lt_of_lt_of_le hstrict.1 hin.start)
  · obtain ⟨t, ht, rfl, hguards, -⟩ := mem_regionsAt.mp hg
    have hguarded : Part.guarded t ∈ x.parts :=
      (hcovering _).mpr ⟨List.mem_flatMap.mpr ⟨t, ht, List.mem_cons_self⟩, hguards⟩
    have hpasses : (Part.guarded t).passes = false := by
      rw [Part.passes, List.isEmpty_eq_false_iff]
      exact List.ne_nil_of_mem hh'
    have hbounds := TryAt.handler_bounds hh'
    rcases hinside _ hguarded hpasses with heq | hin
    · cases heq
    · have hstop : handler.body.stop ≤ t.region.guarded.stop := hin.stop
      refine Range.covers_eq_false.mpr (.inr ?_)
      simp only [Handler.body] at hstop ⊢
      omega

/-- A statement that throws again what is held leaves a handler. -/
theorem EntersNoHandler.leaves_of_rethrow (h : EntersNoHandler b)
    (hi : (routineOf method b).instrs[pc]? = some .rethrow) :
    ∃ x ∈ sitesBlock [] 0 b, x.pc = pc ∧ x.item.instr?.isSome = true ∧
      ∃ handler, x.leaves? = some handler := by
  rcases site_of_instr hi with ⟨-, hreturn⟩ | ⟨x, hx, rfl, j, hj, hmap⟩
  · cases hreturn
  · refine ⟨x, hx, rfl, by rw [hj]; rfl, Option.isSome_iff_exists.mp ?_⟩
    exact h.rethrows x hx (Site.rethrows_of_instr hj hmap)

/-- Where control goes next, it is in handlers of the instruction only. -/
theorem handlers_of_next (hb : Executable b) (hrespects : EntersNoHandler b) {i : Instr Nat}
    (hi : (routineOf method b).instrs[pc]? = some i)
    (houtside : ∀ h, .handler h ∈ partsOf (triesBlock 0 b) → h.range.start ≠ pc)
    (hp : i.falls = true ∧ p = pc + 1 ∨ p ∈ i.targets) :
    (∀ h, .handler h ∈ partsOf (triesBlock 0 b) → h.range.start ≠ p) ∧
      ∀ h, .handler h ∈ partsOf (triesBlock 0 b) → h.body.start ≤ p ∧ p ≤ h.body.stop →
        h.body.covers pc = true := by
  rcases site_of_instr hi with ⟨-, rfl⟩ | ⟨x, hx, rfl, j, hj, rfl⟩
  · rcases hp with ⟨hfalls, -⟩ | htarget
    · cases hfalls
    · cases htarget
  · rw [Instr.falls_map] at hp
    exact handlers_of_target hb hrespects hx hj houtside hp

end Positions

/-! ## Steps and runs -/

section Steps

variable {b : Block} {method : Method} {scope : Range} {pc p : Nat} {base caught caught' : List Caught}
  {i : Instr Nat}

/-- A step that goes on holds what is to be held at the next position. -/
theorem HeldAbove.goto (hb : Executable b) (hrespects : RespectsHandlers b (routineOf method b))
    (hscope : InScope (triesBlock 0 b) (routineOf method b).range scope pc)
    (h : HeldAbove (triesBlock 0 b) scope base pc caught)
    (hi : (routineOf method b).instrs[pc]? = some i)
    (hnext : Next.Holds (routineOf method b) scope pc i caught (.ok (.goto p)) caught') :
    HeldAbove (triesBlock 0 b) scope base p caught' := by
  have houtside : ∀ h, .handler h ∈ partsOf (triesBlock 0 b) → h.range.start ≠ pc := by
    obtain ⟨_, -, hown⟩ := h.split
    exact hown.outside
  have hends : i ≠ .endCatch → ∀ h, .handler h ∈ partsOf (triesBlock 0 b) → h.range.stop ≠ pc :=
    fun hend h hmem hstop => hend ((endCatch_iff hi).mpr ⟨h, hmem, hstop⟩)
  have hcovered : ∀ {h : Handler}, h.body.covers pc = true → h.body.start ≤ pc ∧ pc ≤ h.body.stop :=
    fun hcovers => ⟨(Range.covers_eq_true.mp hcovers).1, Nat.le_of_lt (Range.covers_eq_true.mp hcovers).2⟩
  cases hnext with
  | falls hfalls hend =>
    obtain ⟨hout, hsub⟩ := handlers_of_next hb hrespects.toEntersNoHandler hi houtside (.inl ⟨hfalls, rfl⟩)
    refine h.move (fun handler hmem => ⟨fun hholds => ?_, fun hholds => ?_⟩) hout
    · exact ⟨hcovered (hsub handler hmem hholds.position), hholds.scope⟩
    · have hlt := Nat.lt_of_le_of_ne hholds.position.2 fun hstop => hends hend handler hmem hstop.symm
      exact ⟨⟨Nat.le_succ_of_le hholds.position.1, hlt⟩, hholds.scope⟩
  | endCatch hend =>
    subst hend
    obtain ⟨hout, hsub⟩ := handlers_of_next hb hrespects.toEntersNoHandler hi houtside (.inl ⟨rfl, rfl⟩)
    obtain ⟨handler, hmem, hstop⟩ := (endCatch_iff hi).mp rfl
    exact h.tail hmem hstop (hscope.handler_within hmem hstop)
      (fun h hmem hholds => hsub h hmem hholds.position) hout
  | jumps htarget =>
    obtain ⟨hout, hsub⟩ := handlers_of_next hb hrespects.toEntersNoHandler hi houtside (.inr htarget)
    have hend : i ≠ .endCatch := by
      rintro rfl
      cases htarget
    refine h.jump (hends hend) (fun handler hmem hholds => ?_) fun handler hmem => ⟨hout handler hmem, ?_⟩
    · exact ⟨hcovered (hsub handler hmem hholds.position), hholds.scope⟩
    · rintro rfl
      obtain ⟨t, ht, hh⟩ := handler_mem_partsOf.mp hmem
      refine hrespects.ends t.region ?_ handler hh i (Array.mem_of_getElem? hi) htarget
      rw [routineOf_regions]
      exact List.mem_map_of_mem ht
  | handled hend hg hh f =>
    obtain ⟨t, ht, rfl, hcovers, hwithin⟩ := mem_regionsAt.mp hg
    exact h.handle (hends hend) (tries_block_nested b 0) ht hcovers (hscope.try_within ht hwithin) hh f

/-- A step that ends the run leaves what was held when the run began. -/
theorem HeldAbove.done (h : HeldAbove (triesBlock 0 b) scope base pc caught)
    (hi : (routineOf method b).instrs[pc]? = some i) (hlast : i = .endFinally → pc + 1 = scope.stop)
    {z : Except Failure Next} (hnext : Next.Holds (routineOf method b) scope pc i caught z caught')
    (hz : ∀ p, z ≠ .ok (.goto p)) : caught' = base := by
  have hends : i ≠ .endCatch → ∀ h, .handler h ∈ partsOf (triesBlock 0 b) → h.range.stop ≠ pc :=
    fun hend h hmem hstop => hend ((endCatch_iff hi).mpr ⟨h, hmem, hstop⟩)
  cases hnext with
  | falls | endCatch | jumps | handled => exact absurd rfl (hz _)
  | returns e v hreturn =>
    subst hreturn
    exact h.left (hends nofun)
  | fails f hend => exact h.left (hends hend)
  | ends hfinally =>
    have hstop := hlast hfinally
    subst hfinally
    obtain ⟨own, rfl, hown⟩ := h.split
    -- The handlers in the scope have ended.
    have hnil : own = [] := by
      refine List.eq_nil_iff_forall_not_mem.mpr fun x hx => ?_
      obtain ⟨handler, hmem, -, hholds⟩ := (hown.mem x.body).mp (List.mem_map_of_mem hx)
      have hle : pc ≤ handler.range.stop := hholds.position.2
      have hlt := hholds.scope.2
      exact hends nofun handler hmem (by omega)
    rw [hnil, List.nil_append]

/-- The finallys that a step runs give back what is held, or any part of it, if their runs drop what
they add. -/
theorem HeldAbove.restores {ctx : Context σ} {steps : Nat}
    (hrun : ∀ {scope pc base z} {c d : Config σ},
      InScope (triesBlock 0 b) (routineOf method b).range scope pc →
      HeldAbove (triesBlock 0 b) scope base pc c.activation.caught →
      run ctx (routineOf method b) steps scope pc c = some (z, d) → d.activation.caught = base)
    (hscope : InScope (triesBlock 0 b) (routineOf method b).range scope pc)
    (h : HeldAbove (triesBlock 0 b) scope base pc caught) {held : List Caught} (hheld : held ⊆ caught) :
    (finallysWithin ctx (routineOf method b) steps).Restores
      ((routineOf method b).regionsAt pc scope) held := by
  intro g hg cleanup hcleanup
  obtain ⟨t, ht, rfl, hcovers, hwithin⟩ := mem_regionsAt.mp hg
  have hbounds := TryAt.cleanup_bounds hcleanup
  have hguarded := TryAt.behindCatches_ge (t := t)
  have htry := hscope.try_within ht hwithin
  have hstart := TryAt.cleanup_behind hcleanup
  rw [Range.covers_eq_true] at hcovers
  have hfinally : InScope (triesBlock 0 b) (routineOf method b).range cleanup cleanup.start :=
    .cleanup (tries_block_nested b 0) ht hcleanup
  -- The handlers that control is in are around the try, and those below are not in the scope.
  have hbase : ∀ x ∈ held, x.body.isWithin cleanup = false := by
    obtain ⟨own, rfl, hown⟩ := h.split
    intro x hx
    rw [Bool.eq_false_iff, ne_eq, Range.isWithin_iff]
    rintro ⟨hge, hle⟩
    rcases List.mem_append.mp (hheld hx) with hx | hx
    · obtain ⟨handler, -, hbody, hholds⟩ := (hown.mem x.body).mp (List.mem_map_of_mem hx)
      have hposition := hholds.position
      rw [hbody] at hposition
      omega
    · have hapart := h.apart x hx
      rw [Bool.eq_false_iff, ne_eq, Range.isWithin_iff] at hapart
      omega
  have hends : (run ctx (routineOf method b) steps cleanup cleanup.start).Turns held
      fun _ held' => held' = held := by
    rintro c z d rfl hz
    exact hrun hfinally (.start hfinally.outside hbase) hz
  refine hends.bind (fun completion held' hsame => ?_) fun _ _ hsame => hsame
  subst hsame
  cases completion with
  | ended => exact .pure rfl
  | returned v => exact .throw rfl

/-- The innermost failure that is held belongs to the handler that a throw again leaves. -/
theorem HeldAbove.top (hscope : InScope (triesBlock 0 b) (routineOf method b).range scope pc)
    (h : HeldAbove (triesBlock 0 b) scope base pc caught)
    (hi : (routineOf method b).instrs[pc]? = some .rethrow) {x : Site} (hx : x ∈ sitesBlock [] 0 b)
    (hplaced : x.item.instr?.isSome = true) (hpc : x.pc = pc) {handler : Handler}
    (hleaves : x.leaves? = some handler) :
    ∃ f rest, caught = ⟨f, handler.body⟩ :: rest ∧ base <:+ rest := by
  subst hpc
  obtain ⟨hpart, -, hholds, hinnermost, -⟩ := hscope.leaves hx hplaced hleaves
  obtain ⟨own, rfl, hown⟩ := h.split
  have hheld : handler.body ∈ own.map Caught.body := (hown.mem _).mpr ⟨handler, hpart, rfl, hholds⟩
  obtain ⟨first, rest, rfl⟩ : ∃ first rest, own = first :: rest := by
    refine List.exists_cons_of_ne_nil ?_
    rintro rfl
    cases hheld
  suffices handler.body = first.body by
    rw [this]
    exact ⟨first.failure, rest ++ base, rfl, List.suffix_append rest base⟩
  rcases List.mem_cons.mp hheld with heq | hrest
  · exact heq
  · -- Otherwise the first one would be the failure of a handler inside.
    have hstrict := (List.pairwise_cons.mp hown.nested).1 _ hrest
    obtain ⟨h', hmem, hbody, hholds'⟩ := (hown.mem first.body).mp List.mem_cons_self
    have hposition := hholds'.position
    have hstop : h'.range.stop ≠ x.pc := fun hstop => nomatch (endCatch_iff hi).mpr ⟨h', hmem, hstop⟩
    refine absurd (hbody ▸ hstrict) (hinnermost h' hmem (Range.covers_eq_true.mpr ⟨hposition.1, ?_⟩))
    exact Nat.lt_of_le_of_ne hposition.2 (Ne.symm hstop)

/-- The step of a run holds what it is to hold, if the runs of finallys drop what they add. -/
theorem HeldAbove.step {ctx : Context σ} {steps : Nat}
    (hrun : ∀ {scope pc base z} {c d : Config σ},
      InScope (triesBlock 0 b) (routineOf method b).range scope pc →
      HeldAbove (triesBlock 0 b) scope base pc c.activation.caught →
      run ctx (routineOf method b) steps scope pc c = some (z, d) → d.activation.caught = base)
    (hrespects : RespectsHandlers b (routineOf method b))
    (hscope : InScope (triesBlock 0 b) (routineOf method b).range scope pc)
    (h : HeldAbove (triesBlock 0 b) scope base pc caught)
    (hi : (routineOf method b).instrs[pc]? = some i) :
    (Machine.step ctx (routineOf method b) (finallysWithin ctx (routineOf method b) steps) scope pc
      i).Turns caught (Next.Holds (routineOf method b) scope pc i caught) := by
  refine step_holds ctx (h.restores hrun hscope (List.Subset.refl caught)) ?_
  rintro rfl
  obtain ⟨x, hx, rfl, hplaced, handler, hleaves⟩ := hrespects.leaves_of_rethrow hi
  obtain ⟨-, hcovers, hholds, -, houtside⟩ := hscope.leaves hx hplaced hleaves
  obtain ⟨f, rest, rfl, -⟩ := h.top hscope hi hx hplaced rfl hleaves
  have hwithin : handler.body.isWithin scope = true := by
    have := hholds.scope
    rw [Range.isWithin_iff]
    simp only [Handler.body]
    omega
  refine ⟨_, rest, rfl, h.restores hrun hscope (List.subset_cons_self _ rest), ?_,
    fun g hg h' hh' => ?_⟩
  · simp [Caught.isLeft, hcovers, hwithin]
  · simp [Caught.isLeft, hcovers, hwithin, houtside g hg h' hh']

end Steps

section Runs

variable {b : Block} {method : Method}

/-- A run leaves held what was held when it began, however it ends. -/
theorem run_restores (hb : Executable b) (hstructured : WellStructured b)
    (hrespects : RespectsHandlers b (routineOf method b)) (ctx : Context σ) {steps : Nat}
    {scope : Range} {pc : Nat} {base : List Caught} {z : Except Failure Completion} {c d : Config σ}
    (hscope : InScope (triesBlock 0 b) (routineOf method b).range scope pc)
    (h : HeldAbove (triesBlock 0 b) scope base pc c.activation.caught)
    (hrun : run ctx (routineOf method b) steps scope pc c = some (z, d)) :
    d.activation.caught = base := by
  induction steps generalizing scope pc base z c d with
  | zero => cases hrun
  | succ steps ih =>
    have hcontained := hscope.contained hstructured c
    obtain ⟨i, hi⟩ := hcontained.instr
    have hlast : i = .endFinally → pc + 1 = scope.stop := fun hfinally =>
      (hcontained.ends (hfinally ▸ hi)).2
    rw [run_succ hcontained.covers hi, Act.bind_apply] at hrun
    cases hstep : step ctx (routineOf method b) (finallysWithin ctx (routineOf method b) steps)
        scope pc i c with
    | none => simp [hstep] at hrun
    | some ended =>
      obtain ⟨result, e⟩ := ended
      rw [hstep] at hrun
      have hnext := h.step ih hrespects hscope hi c result e rfl hstep
      cases result with
      | error f =>
        cases hrun
        exact h.done hi hlast hnext fun _ => nofun
      | ok next =>
        cases next with
        | goto p =>
          have hfollows := step_follows _ _ _ _ _ _ _ _ _ hstep
          exact ih (hscope.step hb hstructured hi hfollows) (h.goto hb hrespects hscope hi hnext) hrun
        | «return» v =>
          cases hrun
          exact h.done hi hlast hnext fun _ => nofun
        | endFinally =>
          cases hrun
          exact h.done hi hlast hnext fun _ => nofun

/-- At a moment in the method's own code those failures are held that are to be held there. -/
theorem HeldAbove.of_reaches (hb : Executable b) (hstructured : WellStructured b)
    (hrespects : RespectsHandlers b (routineOf method b)) {ctx : Context σ} {c : Config σ}
    (hc : c.activation.caught = []) {m : Moment σ}
    (hm : Reaches ctx (routineOf method b) ⟨(routineOf method b).range, 0, c⟩ m)
    (hown : m.scope = (routineOf method b).range) :
    HeldAbove (triesBlock 0 b) m.scope [] m.pc m.config.activation.caught := by
  induction hm with
  | here =>
    refine (congrArg (HeldAbove (triesBlock 0 b) (routineOf method b).range [] 0) hc).mpr ?_
    exact .start (InScope.entry b method).outside fun _ hx => absurd hx List.not_mem_nil
  | @next m i steps p d hm hi hstep ih =>
    have hscope := InScope.of_reaches hb hstructured hm
    have hheld := ih hown
    have hnext := hheld.step (run_restores hb hstructured hrespects ctx) hrespects hscope hi m.config _
      d rfl hstep
    exact hheld.goto hb hrespects hscope hi hnext
  | inside hm hg hcleanup d ih => exact absurd hown (cleanup_ne_range hg hcleanup)

/-- What is held in the method's own code is what the handlers around the instruction hold. -/
theorem HeldAt.eq_handlers {x : Site} {held : List Range} (hx : x ∈ sitesBlock [] 0 b)
    (hplaced : x.item.instr?.isSome = true) (hitem : x.item ≠ .endCatch)
    (h : HeldAt (triesBlock 0 b) (routineOf method b).range x.pc held) :
    held = x.handlers.map Handler.body := by
  rw [handlers_of_site hx hplaced]
  refine (h.unique (handlersIn_nested (tries_block_nested b 0) x.pc) fun R => ?_).symm
  rw [h.mem, List.mem_map]
  constructor
  · rintro ⟨handler, hmem, rfl⟩
    obtain ⟨hpart, hcovers⟩ := mem_handlersIn.mp hmem
    have hbounds := handler_within (tries_block_within b 0) hpart
    rw [Range.covers_eq_true] at hcovers
    refine ⟨handler, hpart, rfl, ⟨hcovers.1, Nat.le_of_lt hcovers.2⟩, ?_⟩
    rw [routineOf_range]
    dsimp only
    omega
  · rintro ⟨handler, hpart, rfl, hholds⟩
    refine ⟨handler, mem_handlersIn.mpr ⟨hpart, ?_⟩, rfl⟩
    rw [Range.covers_eq_true]
    refine ⟨hholds.position.1, Nat.lt_of_le_of_ne hholds.position.2 fun hstop => hitem ?_⟩
    exact ((enters_block [] 0 b x hx).ends hplaced).mpr ⟨handler, hpart, hstop.symm⟩

end Runs

/-- The failures that are held at a moment in the method's own code are those of the handlers that the
instruction stands in, one for each; at the end of the code there are none. -/
structure Moment.Mirrors (b : Block) (m : Moment σ) : Prop where
  site : ∀ x ∈ sitesBlock [] 0 b, x.item.instr?.isSome = true → x.pc = m.pc → x.item ≠ .endCatch →
    m.config.activation.caught.map Caught.body = x.handlers.map Handler.body
  last : m.pc = sizeBlock b → m.config.activation.caught = []

/-- What is held after a step was held before, but for the failure with which it enters a handler. -/
def Kept (held : List Caught) (p : Nat) (held' : List Caught) : Prop :=
  held' <:+ held ∨ ∃ f h rest, held' = ⟨f, Handler.body h⟩ :: rest ∧ h.body.start = p ∧ rest <:+ held

theorem Next.Holds.kept {r : Routine} {scope : Range} {pc p : Nat} {i : Instr Nat}
    {held held' : List Caught} (h : Next.Holds r scope pc i held (.ok (.goto p)) held') :
    Kept held p held' := by
  cases h with
  | falls => exact .inl List.suffix_rfl
  | endCatch => exact .inl (List.tail_suffix held)
  | jumps => exact .inl (List.dropWhile_suffix _)
  | handled _ _ _ f => exact .inr ⟨f, _, _, rfl, rfl, List.dropWhile_suffix _⟩

/-- **Held failures mirror the handlers around control.**  The body passes verification and is
flattened, its finallys stand apart, and its jumps respect handlers.  At every moment that a run of the
method comes to in its own code, other than at the end of a handler, one failure is held for each
handler that the instruction stands in, the innermost first; a step drops failures or adds the one
with which it enters a handler, and changes none.  However the run ends, it leaves none behind. -/
theorem caught_mirrors_handlers {method : Method} {b : Block} {r : Routine}
    (hverify : verify false (.stmt (.block b)) = .ok ())
    (hflatten : flatten { symbol := method, body := b } = .ok r) (hstructured : WellStructured b)
    (hrespects : RespectsHandlers b r) (ctx : Context σ) (c : Config σ)
    (hc : c.activation.caught = []) :
    (∀ m, Reaches ctx r ⟨r.range, 0, c⟩ m → m.scope = r.range → m.Mirrors b ∧
      ∀ i steps p d, r.instrs[m.pc]? = some i →
        step ctx r (finallysWithin ctx r steps) m.scope m.pc i m.config = some (.ok (.goto p), d) →
        Kept m.config.activation.caught p d.activation.caught) ∧
    ∀ steps z d, run ctx r steps r.range 0 c = some (z, d) → d.activation.caught = [] := by
  have htargets := (verify_block_iff.mp hverify).2.2
  obtain ⟨hb, rfl⟩ := executable_of_flatten hflatten fun l hl => (htargets l hl).2
  refine ⟨fun m hm hown => ?_, fun steps z d hrun => ?_⟩
  · have hscope := InScope.of_reaches hb hstructured hm
    have hheld := HeldAbove.of_reaches hb hstructured hrespects hc hm hown
    refine ⟨⟨fun x hx hplaced hpc hitem => ?_, fun hlast => ?_⟩, fun i steps p d hi hstep => ?_⟩
    · obtain ⟨own, hcaught, hat⟩ := hheld.split
      rw [List.append_nil] at hcaught
      rw [hown, ← hpc, ← hcaught] at hat
      exact hat.eq_handlers hx hplaced hitem
    · obtain ⟨own, hcaught, hat⟩ := hheld.split
      rw [hcaught, List.append_nil]
      refine List.eq_nil_iff_forall_not_mem.mpr fun x hx => ?_
      obtain ⟨handler, hmem, -, hholds⟩ := (hat.mem x.body).mp (List.mem_map_of_mem hx)
      have hbounds := handler_within (tries_block_within b 0) hmem
      have hposition := hholds.position.2
      simp only [Handler.body] at hposition
      omega
    · exact (hheld.step (run_restores hb hstructured hrespects ctx) hrespects hscope hi m.config _ d rfl
        hstep).kept
  · refine run_restores hb hstructured hrespects ctx (InScope.entry b method) ?_ hrun
    rw [hc]
    exact .start (InScope.entry b method).outside fun _ hx => absurd hx List.not_mem_nil

/-- A handler in a handler; the statements are the body of the inner one. -/
def handlerInHandler (inner : List Stmt) : Block :=
  let block (statements : List Stmt) : Block := .mk {} [] statements
  let number (n : Int) : Expr := .literal {} (.int n) (some .int)
  block [.try {} (block [.throw {} (number 1)])
    [.mk {} none (block
      [.try {} (block [.throw {} (number 2)]) [.mk {} none (block inner)] .absent,
       .expression {} (number 3)])] .absent]

example : RespectsHandlers (handlerInHandler []) (routineOf default (handlerInHandler [])) :=
  ⟨⟨by decide, by decide⟩, by decide⟩

/-- The inner handler jumps to its end: the jump drops the failure of the inner handler, and the end of
the handler that of the outer one, although control is still in it. -/
theorem jump_to_end_drops_outer :
    let b := handlerInHandler [.goto {} (some (.user "end")), .label {} (some (.user "end"))]
    let r := routineOf default b
    let ctx : Context Unit :=
      { machine := { hosts := fun _ => none }, call := fun _ _ _ => throw default, method := default }
    let c : Config Unit := ⟨{ this := none, args := [] }, { hosts := () }⟩
    verify false (.stmt (.block b)) = .ok () ∧ flatten { symbol := default, body := b } = .ok r ∧
      WellStructured b ∧ EntersNoHandler b ∧
        Reaches ctx r ⟨r.range, 0, c⟩ ⟨r.range, 9, c⟩ ∧ ¬ (⟨r.range, 9, c⟩ : Moment Unit).Mirrors b := by
  intro b r ctx c
  have hone : Reaches ctx r ⟨r.range, 0, c⟩
      ⟨r.range, 3, c.withHeld [⟨.single (.thrown (.int 1)), ⟨3, 10⟩⟩]⟩ :=
    @Reaches.next _ ctx r _ _ _ 0 _ _ .here rfl rfl
  have htwo : Reaches ctx r ⟨r.range, 0, c⟩ ⟨r.range, 6, c.withHeld
      [⟨.single (.thrown (.int 2)), ⟨6, 7⟩⟩, ⟨.single (.thrown (.int 1)), ⟨3, 10⟩⟩]⟩ :=
    @Reaches.next _ ctx r _ _ _ 0 _ _ hone rfl rfl
  have hend : Reaches ctx r ⟨r.range, 0, c⟩
      ⟨r.range, 7, c.withHeld [⟨.single (.thrown (.int 1)), ⟨3, 10⟩⟩]⟩ :=
    @Reaches.next _ ctx r _ _ _ 0 _ _ htwo rfl rfl
  have hbehind : Reaches ctx r ⟨r.range, 0, c⟩ ⟨r.range, 8, c⟩ :=
    @Reaches.next _ ctx r _ _ _ 0 _ _ hend rfl rfl
  refine ⟨rfl, rfl, ⟨by decide, by decide⟩, ⟨by decide, by decide⟩,
    @Reaches.next _ ctx r _ _ _ 0 _ _ hbehind rfl rfl, fun h => ?_⟩
  have hheld := h.site _ (List.mem_of_getElem? (i := 10) rfl) rfl rfl nofun
  cases hheld

end Resumable.Machine
