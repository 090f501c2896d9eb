import Resumable.Proofs.Machine.Reach

/-!
# Which handlers control is in

Where control comes to from a site, apart from jumps to labels, the handlers around the site are the
ones whose bodies cover the position, and at the end of a handler also this one (`lands_block`).  The
instructions that begin and end handlers belong to the sites that stand for this.
-/

set_option autoImplicit false

namespace Resumable.Machine

open Resumable.Symbol Resumable.Tree

/-- The handlers that the site stands in, innermost first. -/
def Site.handlers (x : Site) : List Handler := x.parts.filterMap Part.handler?

/-- The handlers among parts whose bodies cover a position, innermost first. -/
def handlersIn (ps : List Part) (pc : Nat) : List Handler :=
  (covering ps pc).filterMap Part.handler?

/-- At a position the handlers are held that cover it, and the one that ends there; no handler begins
there. -/
structure Lands (ps around : List Part) (p : Nat) (held : List Handler) : Prop where
  held : ∃ ended : Option Handler,
    held = ended.toList ++ (handlersIn ps p ++ around.filterMap Part.handler?) ∧
    ∀ h, ended = some h ↔ .handler h ∈ ps ∧ h.range.stop = p
  outside : ∀ h, .handler h ∈ ps → h.range.start ≠ p

/-- Where no handler begins or ends, those are held that cover the position. -/
theorem Lands.of_far {ps around : List Part} {p : Nat} {held : List Handler}
    (hfar : ∀ h, .handler h ∈ ps → h.range.start ≠ p ∧ h.range.stop ≠ p)
    (hheld : held = handlersIn ps p ++ around.filterMap Part.handler?) : Lands ps around p held := by
  refine ⟨⟨none, hheld, fun h => ⟨nofun, fun ⟨hmem, hstop⟩ => ?_⟩⟩, fun h hmem => (hfar h hmem).1⟩
  exact absurd hstop (hfar h hmem).2

/-- What is held at a position depends on the handlers that begin, end or cover there. -/
theorem Lands.widen {ps ps' around around' : List Part} {p : Nat} {held : List Handler}
    (h : Lands ps around p held)
    (hparts : ∀ h : Handler, h.range.start = p ∨ h.range.stop = p →
      (.handler h ∈ ps ↔ .handler h ∈ ps'))
    (hsame : handlersIn ps p ++ around.filterMap Part.handler? =
      handlersIn ps' p ++ around'.filterMap Part.handler?) : Lands ps' around' p held := by
  obtain ⟨⟨ended, hheld, hended⟩, houtside⟩ := h
  refine ⟨⟨ended, hheld.trans (by rw [hsame]), fun h => (hended h).trans ?_⟩, fun h hmem hstart => ?_⟩
  · exact ⟨fun ⟨hmem, hstop⟩ => ⟨(hparts h (.inr hstop)).mp hmem, hstop⟩,
      fun ⟨hmem, hstop⟩ => ⟨(hparts h (.inr hstop)).mpr hmem, hstop⟩⟩
  · exact houtside h ((hparts h (.inl hstart)).mpr hmem) hstart

/-! ## Handlers of tries -/

theorem handlersIn_append (ps qs : List Part) (pc : Nat) :
    handlersIn (ps ++ qs) pc = handlersIn qs pc ++ handlersIn ps pc := by
  rw [handlersIn, covering_append, List.filterMap_append]
  rfl

theorem mem_handlersIn {ps : List Part} {p : Nat} {h : Handler} :
    h ∈ handlersIn ps p ↔ .handler h ∈ ps ∧ h.body.covers p = true := by
  rw [handlersIn, List.mem_filterMap]
  constructor
  · rintro ⟨q, hq, heq⟩
    cases q with
    | handler h' =>
      cases heq
      exact mem_covering.mp hq
    | guarded t => cases heq
    | cleanup R => cases heq
  · exact fun hmem => ⟨.handler h, mem_covering.mpr hmem, rfl⟩

theorem TryAt.handler_mem_parts {t : TryAt} {h : Handler} :
    .handler h ∈ t.parts ↔ h ∈ t.region.handlers := by
  rw [TryAt.mem_parts]
  constructor
  · rintro (hpart | ⟨h', hh', hpart⟩ | ⟨R, -, hpart⟩)
    · cases hpart
    · cases hpart
      exact hh'
    · cases hpart
  · exact fun hh => .inr (.inl ⟨h, hh, rfl⟩)

theorem handler_mem_partsOf {ts : List TryAt} {h : Handler} :
    .handler h ∈ partsOf ts ↔ ∃ t ∈ ts, h ∈ t.region.handlers := by
  simp only [partsOf, List.mem_flatMap, TryAt.handler_mem_parts]

/-- The handlers of tries stand inside of the tries. -/
theorem handler_within {ts : List TryAt} {start stop : Nat}
    (hts : ∀ t ∈ ts, start ≤ t.pc ∧ t.behind ≤ stop) {h : Handler} (hh : .handler h ∈ partsOf ts) :
    start < h.range.start ∧ h.range.start < h.range.stop ∧ h.range.stop + 2 ≤ stop := by
  obtain ⟨t, ht, hhandler⟩ := handler_mem_partsOf.mp hh
  have hbounds := TryAt.handler_bounds hhandler
  have hle := TryAt.behindCatches_le (t := t)
  have := hts t ht
  simp only [TryAt.guarded_eq] at hbounds
  omega

/-- Where tries begin, and behind them, none of their handlers begins or ends. -/
theorem far_of_within {ts : List TryAt} {start stop p : Nat}
    (hts : ∀ t ∈ ts, start ≤ t.pc ∧ t.behind ≤ stop) (hp : p ≤ start ∨ stop ≤ p) {h : Handler}
    (hh : .handler h ∈ partsOf ts) : h.range.start ≠ p ∧ h.range.stop ≠ p := by
  have := handler_within hts hh
  omega

theorem handlersIn_none {ps : List Part} {p : Nat}
    (h : ∀ h, .handler h ∈ ps → p ≤ h.range.start ∨ h.range.stop ≤ p) : handlersIn ps p = [] := by
  refine List.eq_nil_iff_forall_not_mem.mpr fun handler hmem => ?_
  obtain ⟨hpart, hcovers⟩ := mem_handlersIn.mp hmem
  have := h handler hpart
  rw [Range.covers_eq_true] at hcovers
  simp only [Handler.body] at hcovers
  omega

theorem handlersIn_outside {ts : List TryAt} {start stop p : Nat}
    (hts : ∀ t ∈ ts, start ≤ t.pc ∧ t.behind ≤ stop) (hp : p ≤ start ∨ stop ≤ p) :
    handlersIn (partsOf ts) p = [] := by
  refine handlersIn_none fun h hmem => ?_
  have := handler_within hts hmem
  omega

/-! ## Sites -/

/-- The position of an instruction at the site, or one to which control goes from there. -/
def Site.Near (x : Site) (p : Nat) : Prop :=
  p ∈ x.reach ∨ x.item.instr?.isSome = true ∧ p = x.pc

theorem Site.Stays.near {x : Site} {start stop p : Nat} {ts : List TryAt} {around : List Part}
    (h : x.Stays start stop ts around)
    (hx : x.item.instr?.isSome = true → start ≤ x.pc ∧ x.pc ≤ stop) (hp : x.Near p) :
    start ≤ p ∧ p ≤ stop := by
  rcases hp with hp | ⟨hplaced, rfl⟩
  · exact h.between p hp
  · exact hx hplaced

/-- What a site has to do with the handlers among parts. -/
structure Site.Enters (x : Site) (ps around : List Part) : Prop where
  begins : x.item.instr?.isSome = true →
    (x.item = .enterCatch ↔ ∃ h, .handler h ∈ ps ∧ h.range.start = x.pc)
  ends : x.item.instr?.isSome = true →
    (x.item = .endCatch ↔ ∃ h, .handler h ∈ ps ∧ h.range.stop = x.pc)
  lands : x.item ≠ .enterCatch → ∀ p ∈ x.reach, Lands ps around p x.handlers

theorem Site.Enters.widen {x : Site} {ps ps' around around' : List Part} (h : x.Enters ps around)
    (hparts : ∀ p, x.Near p → ∀ h : Handler, h.range.start = p ∨ h.range.stop = p →
      (.handler h ∈ ps ↔ .handler h ∈ ps'))
    (hsame : ∀ p ∈ x.reach, handlersIn ps p ++ around.filterMap Part.handler? =
      handlersIn ps' p ++ around'.filterMap Part.handler?) : x.Enters ps' around' := by
  refine ⟨fun hplaced => (h.begins hplaced).trans ?_, fun hplaced => (h.ends hplaced).trans ?_,
    fun hitem p hp => (h.lands hitem p hp).widen (hparts p (.inl hp)) (hsame p hp)⟩
  · exact exists_congr fun h => and_congr_left fun hstart =>
      hparts x.pc (.inr ⟨hplaced, rfl⟩) h (.inl hstart)
  · exact exists_congr fun h => and_congr_left fun hstop =>
      hparts x.pc (.inr ⟨hplaced, rfl⟩) h (.inr hstop)

/-- A site that has nothing to do with the beginning or the end of a handler. -/
theorem Site.Enters.plain {x : Site} {ps around : List Part}
    (hitem : x.item ≠ .enterCatch ∧ x.item ≠ .endCatch)
    (hfar : ∀ p, x.Near p → ∀ h, .handler h ∈ ps → h.range.start ≠ p ∧ h.range.stop ≠ p)
    (hheld : ∀ p ∈ x.reach, x.handlers = handlersIn ps p ++ around.filterMap Part.handler?) :
    x.Enters ps around := by
  refine ⟨fun hplaced => iff_of_false hitem.1 ?_, fun hplaced => iff_of_false hitem.2 ?_,
    fun _ p hp => .of_far (hfar p (.inl hp)) (hheld p hp)⟩
  · rintro ⟨h, hmem, hstart⟩
    exact (hfar x.pc (.inr ⟨hplaced, rfl⟩) h hmem).1 hstart
  · rintro ⟨h, hmem, hstop⟩
    exact (hfar x.pc (.inr ⟨hplaced, rfl⟩) h hmem).2 hstop

/-- The site of a statement among no parts of tries. -/
theorem Site.Enters.stmt (around : List Part) (pc : Nat) (s : Stmt) :
    (⟨pc, .stmt s, around⟩ : Site).Enters [] around :=
  .plain ⟨nofun, nofun⟩ nofun fun _ _ => rfl

/-! ## Sites of handlers -/

/-- The bodies of handlers, and the parts of the tries in them. -/
def catchParts (pc : Nat) (cs : List Catch) : List Part :=
  (handlersAt pc cs).map Part.handler ++ partsOf (triesCatches pc cs)

/-- The handlers among the parts of handlers stand where these do. -/
theorem handler_in_catches {pc : Nat} {cs : List Catch} {h : Handler}
    (hh : .handler h ∈ catchParts pc cs) : pc ≤ h.range.start ∧ h.range.start < h.range.stop ∧
      h.range.stop + 2 ≤ pc + sizeCatches cs := by
  rcases List.mem_append.mp hh with hh | hh
  · obtain ⟨h', hh', heq⟩ := List.mem_map.mp hh
    cases heq
    exact handlersAt_bounds hh'
  · have := handler_within (tries_catches_within cs pc) hh
    omega

section Catch

variable {around : List Part} {behind pc : Nat} {o : Origin} {target : Option Local} {body : Block}
  {rest : List Catch}

theorem mem_catchParts {h : Handler} : .handler h ∈ catchParts pc (.mk o target body :: rest) ↔
    h = ⟨⟨pc, pc + sizeBlock body + 1⟩, target⟩ ∨
      .handler h ∈ partsOf (triesBlock (pc + 1) body) ∨
        .handler h ∈ catchParts (pc + sizeBlock body + 3) rest := by
  simp only [catchParts, handlersAt, triesCatches, partsOf_append, List.map_cons, List.mem_append,
    List.mem_cons, Part.handler.injEq]
  grind

/-- Where the handlers among the parts of the first handler and of the further ones stand. -/
theorem handler_cases {h : Handler} (hh : .handler h ∈ catchParts pc (.mk o target body :: rest)) :
    h = ⟨⟨pc, pc + sizeBlock body + 1⟩, target⟩ ∨
      (.handler h ∈ partsOf (triesBlock (pc + 1) body) ∧ pc + 1 < h.range.start ∧
        h.range.start < h.range.stop ∧ h.range.stop + 2 ≤ pc + 1 + sizeBlock body) ∨
      .handler h ∈ catchParts (pc + sizeBlock body + 3) rest ∧
        pc + sizeBlock body + 3 ≤ h.range.start ∧ h.range.start < h.range.stop ∧
          h.range.stop + 2 ≤ pc + sizeCatches (.mk o target body :: rest) := by
  rcases mem_catchParts.mp hh with hh | hh | hh
  · exact .inl hh
  · exact .inr (.inl ⟨hh, handler_within (tries_block_within body _) hh⟩)
  · have := handler_in_catches hh
    refine .inr (.inr ⟨hh, ?_⟩)
    rw [sizeCatches]
    omega

/-- The handlers that begin or end in the body of the first handler are those of the tries in it. -/
theorem mem_catchParts_body {h : Handler} {p : Nat} (hp : pc < p ∧ p < pc + 1 + sizeBlock body)
    (hends : h.range.start = p ∨ h.range.stop = p) : .handler h ∈ partsOf (triesBlock (pc + 1) body) ↔
      .handler h ∈ catchParts pc (.mk o target body :: rest) := by
  refine ⟨fun hmem => mem_catchParts.mpr (.inr (.inl hmem)), fun hmem => ?_⟩
  rcases handler_cases hmem with rfl | ⟨hmem, -⟩ | ⟨-, hbounds⟩
  · dsimp only at hends
    omega
  · exact hmem
  · omega

/-- Those that begin or end behind the first handler are those of the further ones. -/
theorem mem_catchParts_rest {h : Handler} {p : Nat} (hp : pc + sizeBlock body + 3 ≤ p)
    (hends : h.range.start = p ∨ h.range.stop = p) :
    .handler h ∈ catchParts (pc + sizeBlock body + 3) rest ↔
      .handler h ∈ catchParts pc (.mk o target body :: rest) := by
  refine ⟨fun hmem => mem_catchParts.mpr (.inr (.inr hmem)), fun hmem => ?_⟩
  rcases handler_cases hmem with rfl | ⟨-, hbounds⟩ | ⟨hmem, -⟩
  · dsimp only at hends
    omega
  · omega
  · exact hmem

/-- Of the instructions around the body of a handler, the first one begins it and the second one ends
it. -/
theorem far_around_handler {h : Handler} {p : Nat}
    (hmem : .handler h ∈ catchParts pc (.mk o target body :: rest))
    (hp : p = pc ∨ p = pc + sizeBlock body + 1 ∨ p = pc + sizeBlock body + 2) :
    (h.range.start = p → p = pc) ∧ (h.range.stop = p → p = pc + sizeBlock body + 1) := by
  rcases handler_cases hmem with rfl | ⟨-, hbounds⟩ | ⟨-, hbounds⟩
  · exact ⟨Eq.symm, Eq.symm⟩
  · omega
  · omega

/-- From the body of a handler control comes to positions in the body or to its end. -/
theorem lands_in_handler {p : Nat} {held : List Handler} (hp : pc + 1 ≤ p ∧ p ≤ pc + 1 + sizeBlock body)
    (h : Lands (partsOf (triesBlock (pc + 1) body))
      (.handler ⟨⟨pc, pc + sizeBlock body + 1⟩, target⟩ :: around) p held) :
    Lands (catchParts pc (.mk o target body :: rest)) around p held := by
  by_cases hend : p = pc + sizeBlock body + 1
  · -- Here the handler ends, and no other one does.
    obtain ⟨⟨ended, hheld, hended⟩, -⟩ := h
    have hnone : ended = none := by
      refine Option.eq_none_iff_forall_ne_some.mpr fun h hsome => ?_
      obtain ⟨hmem, hstop⟩ := (hended h).mp hsome
      have := handler_within (tries_block_within body (pc + 1)) hmem
      omega
    have hcovering : handlersIn (catchParts pc (.mk o target body :: rest)) p = [] :=
      congrArg (List.filterMap Part.handler?) (covering_around_handler (.inr (.inl hend)))
    refine ⟨⟨some ⟨⟨pc, pc + sizeBlock body + 1⟩, target⟩, ?_, fun h => ?_⟩, fun h hmem => ?_⟩
    · rw [hheld, hnone, hcovering, handlersIn_outside (tries_block_within body _) (.inr (by omega))]
      rfl
    · constructor
      · intro hsome
        cases hsome
        exact ⟨mem_catchParts.mpr (.inl rfl), hend.symm⟩
      · rintro ⟨hmem, hstop⟩
        rcases handler_cases hmem with rfl | ⟨-, hbounds⟩ | ⟨-, hbounds⟩
        · rfl
        · omega
        · omega
    · rcases handler_cases hmem with rfl | ⟨-, hbounds⟩ | ⟨-, hbounds⟩
      · dsimp only
        omega
      · omega
      · omega
  · refine h.widen (fun h => mem_catchParts_body (by omega)) ?_
    rw [handlersIn, handlersIn, catchParts, covering_in_handler (by omega), List.filterMap_append,
      List.append_assoc]
    rfl

/-- What the sites of handlers have to do with them, from the same for the body of the first one and
for the further ones. -/
theorem enters_catch (hbehind : pc + sizeCatches (.mk o target body :: rest) ≤ behind)
    (hbody : ∀ x ∈ sitesBlock (.handler ⟨⟨pc, pc + sizeBlock body + 1⟩, target⟩ :: around) (pc + 1) body,
      x.Enters (partsOf (triesBlock (pc + 1) body))
        (.handler ⟨⟨pc, pc + sizeBlock body + 1⟩, target⟩ :: around))
    (hrest : ∀ x ∈ sitesCatches around behind (pc + sizeBlock body + 3) rest,
      x.Stays (pc + sizeBlock body + 3) behind (triesCatches (pc + sizeBlock body + 3) rest) around ∧
        x.Enters (catchParts (pc + sizeBlock body + 3) rest) around) :
    ∀ x ∈ sitesCatches around behind pc (.mk o target body :: rest),
      x.Enters (catchParts pc (.mk o target body :: rest)) around := by
  intro x hx
  have hsize : sizeCatches (.mk o target body :: rest) = sizeBlock body + 3 + sizeCatches rest := by
    simp only [sizeCatches]
  have hfirst : .handler ⟨⟨pc, pc + sizeBlock body + 1⟩, target⟩ ∈
      catchParts pc (.mk o target body :: rest) := mem_catchParts.mpr (.inl rfl)
  simp only [sitesCatches, List.mem_append, List.mem_cons, List.not_mem_nil, or_false] at hx
  rcases hx with (rfl | hx | rfl | rfl) | hx
  · refine ⟨fun _ => iff_of_true rfl ⟨_, hfirst, rfl⟩,
      fun _ => iff_of_false (by rintro ⟨⟩) ?_, absurd rfl⟩
    rintro ⟨h, hmem, hstop⟩
    have := (far_around_handler hmem (.inl rfl)).2 hstop
    omega
  · have hx' := hbody x hx
    have hstays := reach_block _ _ body x hx
    have hbounds := site_bounds (code_block _ _ body) (fits_block _ body) hx
    refine ⟨fun hplaced => (hx'.begins hplaced).trans ?_, fun hplaced => (hx'.ends hplaced).trans ?_,
      fun hitem p hp => lands_in_handler (hstays.between p hp) (hx'.lands hitem p hp)⟩
    · have := hbounds hplaced
      exact exists_congr fun h => and_congr_left fun hstart =>
        mem_catchParts_body (by omega) (.inl hstart)
    · have := hbounds hplaced
      exact exists_congr fun h => and_congr_left fun hstop =>
        mem_catchParts_body (by omega) (.inr hstop)
  · refine ⟨fun _ => iff_of_false (by rintro ⟨⟩) ?_,
      fun _ => iff_of_true rfl ⟨_, hfirst, rfl⟩, fun _ p hp => ?_⟩
    · rintro ⟨h, hmem, hstart⟩
      have := (far_around_handler hmem (.inr (.inl rfl))).1 hstart
      omega
    · obtain rfl : p = pc + sizeBlock body + 2 := List.mem_singleton.mp hp
      refine .of_far (fun h hmem => ?_) ?_
      · have := far_around_handler hmem (.inr (.inr rfl))
        omega
      · rw [handlersIn, catchParts, covering_around_handler (.inr (.inr rfl))]
        rfl
  · refine .plain ⟨by rintro ⟨⟩, by rintro ⟨⟩⟩ (fun p hp h hmem => ?_) fun p hp => ?_
    · rcases hp with hp | ⟨-, rfl⟩
      · obtain rfl : p = behind := List.mem_singleton.mp hp
        have := handler_in_catches hmem
        omega
      · have := far_around_handler hmem (.inr (.inr rfl))
        dsimp only
        omega
    · obtain rfl : p = behind := List.mem_singleton.mp hp
      rw [handlersIn_none fun h hmem => ?_]
      · rfl
      · have := handler_in_catches hmem
        omega
  · obtain ⟨hstays, henters⟩ := hrest x hx
    have hbounds := site_bounds (code_catches _ _ _ rest) (fits_catches _ behind rest) hx
    refine henters.widen (fun p hp h => mem_catchParts_rest ?_) fun p hp => ?_
    · exact (hstays.near (fun hplaced => by have := hbounds hplaced; omega) hp).1
    · rw [handlersIn, handlersIn, catchParts, catchParts,
        covering_in_rest (hstays.between p hp).1]

end Catch

section Try

variable {around : List Part} {pc : Nat} {o : Origin} {body cleanup : Block} {catches : List Catch}

theorem mem_tryParts {h : Handler} :
    .handler h ∈ partsOf (triesStmt pc (.try o body catches cleanup)) ↔
      .handler h ∈ partsOf (triesBlock pc body) ∨ .handler h ∈ catchParts (behindBody pc body) catches ∨
        .handler h ∈ partsOf (triesBlock (behindCatches pc body catches) cleanup) := by
  have hparts : .handler h ∈ TryAt.parts ⟨pc, body, catches, cleanup⟩ ↔
      .handler h ∈ (handlersAt (behindBody pc body) catches).map Part.handler := by
    simp only [TryAt.parts, List.mem_cons, List.mem_append, List.mem_map]
    constructor
    · rintro (hguarded | hhandler | ⟨R, -, hcleanup⟩)
      · cases hguarded
      · exact hhandler
      · cases hcleanup
    · exact fun hhandler => .inr (.inl hhandler)
  rw [triesStmt, ← List.singleton_append, partsOf_append, partsOf_append, partsOf_append, partsOf,
    List.flatMap_singleton, catchParts]
  simp only [List.mem_append, hparts]
  grind

/-- Where the handlers among the parts of a try stand. -/
theorem tryHandler_cases {h : Handler}
    (hh : .handler h ∈ partsOf (triesStmt pc (.try o body catches cleanup))) :
    (.handler h ∈ partsOf (triesBlock pc body) ∧ pc < h.range.start ∧ h.range.start < h.range.stop ∧
      h.range.stop + 2 ≤ pc + sizeBlock body) ∨
    (.handler h ∈ catchParts (behindBody pc body) catches ∧ behindBody pc body ≤ h.range.start ∧
      h.range.start < h.range.stop ∧ h.range.stop + 2 ≤ behindCatches pc body catches) ∨
    .handler h ∈ partsOf (triesBlock (behindCatches pc body catches) cleanup) ∧
      behindCatches pc body catches < h.range.start ∧ h.range.start < h.range.stop ∧
        h.range.stop + 2 ≤ behindTry pc body catches cleanup := by
  rcases mem_tryParts.mp hh with hh | hh | hh
  · exact .inl ⟨hh, handler_within (tries_block_within body pc) hh⟩
  · exact .inr (.inl ⟨hh, handler_in_catches hh⟩)
  · have hsize := sizeBlock_le_cleanup cleanup
    have := handler_within (tries_block_within cleanup _) hh
    refine .inr (.inr ⟨hh, ?_⟩)
    simp only [behindTry]
    omega

/-- What the sites of a try have to do with its handlers, from the same for its parts. -/
theorem enters_try
    (hbody : ∀ x ∈ sitesBlock (.guarded ⟨pc, body, catches, cleanup⟩ :: around) pc body,
      x.Enters (partsOf (triesBlock pc body)) (.guarded ⟨pc, body, catches, cleanup⟩ :: around))
    (hcatches : ∀ x ∈ sitesCatches around (behindTry pc body catches cleanup) (behindBody pc body)
      catches, x.Enters (catchParts (behindBody pc body) catches) around)
    (hcleanup : ∀ x ∈ sitesCleanup around (behindCatches pc body catches) cleanup,
      x.Enters (partsOf (triesBlock (behindCatches pc body catches) cleanup)) around) :
    ∀ x ∈ sitesStmt around pc (.try o body catches cleanup),
      x.Enters (partsOf (triesStmt pc (.try o body catches cleanup))) around := by
  intro x hx
  have hpc : pc + sizeBlock body + 1 = behindBody pc body := rfl
  have hmiddle : behindBody pc body ≤ behindCatches pc body catches := Nat.le_add_right _ _
  have hbehind : behindCatches pc body catches ≤ behindTry pc body catches cleanup :=
    Nat.le_add_right _ _
  have hstop : ∀ h, .handler h ∈ partsOf (triesStmt pc (.try o body catches cleanup)) →
      h.range.stop ≤ behindTry pc body catches cleanup := by
    intro h hmem
    rcases tryHandler_cases hmem with ⟨-, hfar⟩ | ⟨-, hfar⟩ | ⟨-, hfar⟩ <;> omega
  simp only [sitesStmt, List.mem_append, List.mem_singleton] at hx
  rcases hx with ((hx | rfl) | hx) | hx
  · have hstays := reach_block _ pc body x hx
    have hbounds := site_bounds (code_block _ pc body) (fits_block pc body) hx
    refine (hbody x hx).widen (fun p hp h hends => ?_) fun p hp => ?_
    · have hnear := hstays.near (fun hplaced => by have := hbounds hplaced; omega) hp
      refine ⟨fun hmem => mem_tryParts.mpr (.inl hmem), fun hmem => ?_⟩
      rcases tryHandler_cases hmem with ⟨hmem, -⟩ | ⟨-, hfar⟩ | ⟨-, hfar⟩
      · exact hmem
      · omega
      · omega
    · rw [handlersIn, handlersIn, covering_in_body (hstays.between p hp), List.filterMap_append]
      exact congrArg (· ++ _) (List.append_nil _).symm
  · refine .plain ⟨by rintro ⟨⟩, by rintro ⟨⟩⟩ (fun p hp h hmem => ?_) fun p hp => ?_
    · obtain rfl | rfl : p = behindTry pc body catches cleanup ∨ p = pc + sizeBlock body :=
        hp.imp List.mem_singleton.mp And.right
      · rcases tryHandler_cases hmem with ⟨-, hfar⟩ | ⟨-, hfar⟩ | ⟨-, hfar⟩ <;> omega
      · rcases tryHandler_cases hmem with ⟨-, hfar⟩ | ⟨-, hfar⟩ | ⟨-, hfar⟩ <;> omega
    · obtain rfl : p = behindTry pc body catches cleanup := List.mem_singleton.mp hp
      rw [handlersIn_none fun h hmem => .inr (hstop h hmem)]
      rfl
  · obtain ⟨hbetween, hstays⟩ := reach_catches around _ _ catches hbehind x hx
    have hbounds := site_bounds (code_catches _ _ _ catches) (fits_catches _ _ catches) hx
    refine (hcatches x hx).widen (fun p hp h hends => ?_) fun p hp => ?_
    · have hnear : behindBody pc body ≤ p ∧
          (p < behindCatches pc body catches ∨ p = behindTry pc body catches cleanup) := by
        rcases hp with hp | ⟨hplaced, rfl⟩
        · exact hbetween p hp
        · exact ⟨(hbounds hplaced).1, .inl (hbounds hplaced).2⟩
      refine ⟨fun hmem => mem_tryParts.mpr (.inr (.inl hmem)), fun hmem => ?_⟩
      rcases tryHandler_cases hmem with ⟨-, hfar⟩ | ⟨hmem, -⟩ | ⟨-, hfar⟩
      · omega
      · exact hmem
      · omega
    · obtain ⟨hge, hlt | rfl⟩ := hbetween p hp
      · rw [handlersIn, handlersIn, catchParts, covering_in_catches ⟨hge, hlt⟩]
      · have hnone : handlersIn (catchParts (behindBody pc body) catches)
            (behindTry pc body catches cleanup) = [] := by
          refine handlersIn_none fun h hmem => .inr ?_
          exact hstop h (mem_tryParts.mpr (.inr (.inl hmem)))
        rw [hnone, handlersIn_none fun h hmem => .inr (hstop h hmem)]
  · have hstays := reach_cleanup around _ cleanup x hx
    have hbounds := site_bounds (code_cleanup _ _ cleanup) (fits_cleanup _ cleanup) hx
    refine (hcleanup x hx).widen (fun p hp h hends => ?_) fun p hp => ?_
    · have hnear : behindCatches pc body catches ≤ p := by
        rcases hp with hp | ⟨hplaced, rfl⟩
        · exact (hstays.between p hp).1
        · exact (hbounds hplaced).1
      refine ⟨fun hmem => mem_tryParts.mpr (.inr (.inr hmem)), fun hmem => ?_⟩
      rcases tryHandler_cases hmem with ⟨-, hfar⟩ | ⟨-, hfar⟩ | ⟨hmem, -⟩
      · omega
      · omega
      · exact hmem
    · have hfinally : handlersIn ((cleanupRange (behindCatches pc body catches) cleanup).toList.map
          Part.cleanup) p = [] := by
        refine handlersIn_none fun h hmem => ?_
        obtain ⟨R, -, heq⟩ := List.mem_map.mp hmem
        cases heq
      have hin : handlersIn (partsOf (triesStmt pc (.try o body catches cleanup))) p =
          handlersIn (partsOf (triesBlock (behindCatches pc body catches) cleanup)) p := by
        rw [handlersIn, covering_in_cleanup (hstays.between p hp).1, ← handlersIn, handlersIn_append,
          hfinally, List.append_nil]
      rw [hin]

end Try

mutual

theorem enters_stmt (around : List Part) (pc : Nat) : ∀ s : Stmt, ∀ x ∈ sitesStmt around pc s,
    x.Enters (partsOf (triesStmt pc s)) around
  | .block b, x, hx => enters_block around pc b x hx
  | .list _ ss, x, hx => enters_stmts around pc ss x hx
  | .label o l, x, hx => by
    obtain rfl := List.mem_singleton.mp hx
    exact .stmt around pc _
  | .try o body catches cleanup, x, hx =>
    enters_try (enters_block _ pc body)
      (enters_catches _ _ _ catches (Nat.le_add_right _ _)) (enters_cleanup _ _ cleanup) x hx
  | .absent, x, hx | .sequencePoint .., x, hx | .noOp .., x, hx | .localDeclaration .., x, hx
  | .expression .., x, hx | .return .., x, hx | .yieldReturn .., x, hx | .yieldBreak .., x, hx
  | .throw .., x, hx | .if .., x, hx | .while .., x, hx | .break .., x, hx | .continue .., x, hx
  | .goto .., x, hx | .conditionalGoto .., x, hx | .dispatch .., x, hx | .foreign .., x, hx => by
    rw [sitesStmt_leaf rfl, List.mem_singleton] at hx
    subst hx
    exact .stmt around pc _

theorem enters_stmts (around : List Part) (pc : Nat) : ∀ ss : List Stmt,
    ∀ x ∈ sitesStmts around pc ss, x.Enters (partsOf (triesStmts pc ss)) around
  | [], _, hx => nomatch hx
  | s :: rest, x, hx => by
    rw [triesStmts, partsOf_append]
    rcases List.mem_append.mp hx with hx | hx
    · have hstays := reach_stmt around pc s x hx
      have hbounds := site_bounds (code_stmt around pc s) (fits_stmt pc s) hx
      have hrest := tries_stmts_within rest (pc + sizeStmt s)
      refine (enters_stmt around pc s x hx).widen (fun p hp h hend => ?_) fun p hp => ?_
      · have hnear := hstays.near (fun hplaced => by have := hbounds hplaced; omega) hp
        rw [List.mem_append, or_iff_left]
        intro hmem
        have := far_of_within hrest (.inl hnear.2) hmem
        omega
      · rw [handlersIn_append, handlersIn_outside hrest (.inl (hstays.between p hp).2),
          List.nil_append]
    · have hstays := reach_stmts around _ rest x hx
      have hbounds := site_bounds (code_stmts around _ rest) (fits_stmts _ rest) hx
      have hs := tries_stmt_within s pc
      refine (enters_stmts around _ rest x hx).widen (fun p hp h hend => ?_) fun p hp => ?_
      · have hnear := hstays.near (fun hplaced => by have := hbounds hplaced; omega) hp
        rw [List.mem_append, or_iff_right]
        intro hmem
        have := far_of_within hs (.inr hnear.1) hmem
        omega
      · rw [handlersIn_append, handlersIn_outside hs (.inr (hstays.between p hp).1), List.append_nil]

/-- What the sites of a block have to do with its handlers. -/
theorem enters_block (around : List Part) (pc : Nat) : ∀ b : Block,
    ∀ x ∈ sitesBlock around pc b, x.Enters (partsOf (triesBlock pc b)) around
  | .absent, _, hx => nomatch hx
  | .mk _ _ ss, x, hx => enters_stmts around pc ss x hx

theorem enters_cleanup (around : List Part) (pc : Nat) : ∀ b : Block,
    ∀ x ∈ sitesCleanup around pc b, x.Enters (partsOf (triesBlock pc b)) around
  | .absent, _, hx => nomatch hx
  | .mk o ls ss, x, hx => by
    simp only [sitesCleanup, List.mem_append, List.mem_singleton] at hx
    rcases hx with hx | rfl
    · exact (enters_stmts _ pc ss x hx).widen (fun _ _ _ _ => Iff.rfl) fun _ _ => rfl
    · refine .plain ⟨by rintro ⟨⟩, by rintro ⟨⟩⟩ (fun p hp h hmem => ?_) nofun
      obtain rfl : p = pc + sizeStmts ss := hp.resolve_left nofun |>.2
      exact far_of_within (tries_stmts_within ss pc) (.inr (Nat.le_refl _)) hmem

theorem enters_catches (around : List Part) (behind pc : Nat) : ∀ cs : List Catch,
    pc + sizeCatches cs ≤ behind → ∀ x ∈ sitesCatches around behind pc cs,
      x.Enters (catchParts pc cs) around
  | [], _, _, hx => nomatch hx
  | .mk o target body :: rest, hbehind, x, hx => by
    have hsize : sizeCatches (.mk o target body :: rest) = sizeBlock body + 3 + sizeCatches rest := by
      simp only [sizeCatches]
    refine enters_catch hbehind (enters_block _ _ body) (fun y hy => ?_) x hx
    exact ⟨(reach_catches around behind _ rest (by omega) y hy).2,
      enters_catches around behind _ rest (by omega) y hy⟩

end

end Resumable.Machine
