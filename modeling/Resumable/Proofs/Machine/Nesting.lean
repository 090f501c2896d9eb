import Resumable.Proofs.Machine.Sites

/-!
# Nesting of tries and nesting of ranges

The regions at an instruction are the tries around its place, innermost first, and those of a finally
alone are the tries inside of that finally (`regions_nested`).  A region is shorter than one around
it, so the order is the one by length, and nothing else sorts the regions by length.
-/

set_option autoImplicit false

namespace Resumable.Machine

open Resumable.Symbol Resumable.Tree

/-- How many instructions a range has. -/
def Range.length (r : Range) : Nat := r.stop - r.start

theorem Range.isWithin_iff {r outer : Range} :
    r.isWithin outer = true ↔ outer.start ≤ r.start ∧ r.stop ≤ outer.stop := by
  simp only [isWithin, Bool.and_eq_true, decide_eq_true_eq]

/-- The routine of a body that can be flattened. -/
theorem flatten_eq {method : Method} {b : Block} {r : Routine}
    (h : flatten { symbol := method, body := b } = .ok r) : r = routineOf method b := by
  cases b with
  | absent => cases h
  | mk o ls ss =>
    obtain ⟨_, -, h⟩ := bind_ok_iff.mp h
    obtain ⟨_, -, h⟩ := bind_ok_iff.mp h
    obtain ⟨_, -, h⟩ := bind_ok_iff.mp h
    cases h
    rfl

theorem routineOf_regions (method : Method) (b : Block) :
    (routineOf method b).regions = (triesBlock 0 b).map TryAt.region := by
  rw [← regions_block]
  exact List.append_nil _

section Sites

variable {method : Method} {b : Block} {x : Site}

/-- The instruction of a site stands at its position. -/
theorem instr_of_site (method : Method) (hx : x ∈ sitesBlock [] 0 b) {i : Instr Target}
    (hi : x.item.instr? = some i) :
    (routineOf method b).instrs[x.pc]? = some (i.map (bodyFragment b).resolve) := by
  have hmem : (i, x.pc) ∈ (flattenBlock 0 b).instrs.zipIdx 0 := by
    rw [← code_block [] 0 b]
    exact List.mem_filterMap.mpr ⟨x, hx, by rw [Site.code?, hi, Option.map_some]⟩
  have hinstr := List.mem_zipIdx_iff_getElem?.mp hmem
  have hlt := (List.getElem?_eq_some_iff.mp hinstr).1
  simp only [routineOf, List.getElem?_toArray, List.getElem?_map, bodyFragment,
    Fragment.append_instrs, List.getElem?_append_left hlt, hinstr, Option.map_some,
    Fragment.resolveInstr_eq]

theorem parts_of_site (hx : x ∈ sitesBlock [] 0 b) (hplaced : x.item.instr?.isSome = true) :
    x.parts = covering (partsOf (triesBlock 0 b)) x.pc := by
  rw [covering_block [] 0 b x hx hplaced, List.append_nil]

/-- The regions at a site are those of the tries whose try block it stands in. -/
theorem regionsAt_of_site (method : Method) (hx : x ∈ sitesBlock [] 0 b)
    (hplaced : x.item.instr?.isSome = true) (scope : Range) : (routineOf method b).regionsAt x.pc scope =
      (x.tries.filter fun t => t.region.guarded.isWithin scope).map TryAt.region := by
  rw [Site.tries, parts_of_site hx hplaced, covering_tries, Routine.regionsAt, routineOf_regions,
    List.filter_map, ← List.map_reverse, List.filter_reverse, List.filter_filter]
  refine congrArg (fun ts => (List.reverse ts).map TryAt.region) (List.filter_congr fun t _ => ?_)
  exact Bool.and_comm _ _

end Sites

/-! ## Ranges inside each other -/

/-- What the regions at a site are: the tries around it. -/
structure Site.Nested (x : Site) (r : Routine) : Prop where
  /-- In the whole routine they are all the tries whose try block the site stands in. -/
  whole : r.regionsAt x.pc r.range = x.tries.map TryAt.region
  /-- In a finally they are those of them that stand in the finally. -/
  finallys : ∀ inner R outer, x.parts = inner ++ .cleanup R :: outer →
    r.regionsAt x.pc R = (inner.filterMap Part.guarded?).map TryAt.region
  /-- Each is shorter than those around it. -/
  growing : ∀ scope, (r.regionsAt x.pc scope).Pairwise fun g g' =>
    g.guarded.length < g'.guarded.length
  /-- Sorting them by length gives nothing else. -/
  sorted : ∀ scope gs, gs.Perm (r.regions.filter fun g =>
      g.guarded.covers x.pc && g.guarded.isWithin scope) →
    (gs.Pairwise fun g g' => g.guarded.length ≤ g'.guarded.length) → gs = r.regionsAt x.pc scope
  /-- Handlers and finally of a try around the site stand behind its try block, inside of the parts
  around the try. -/
  rest : ∀ inner t outer, x.parts = inner ++ .guarded t :: outer →
    ∀ range ∈ t.region.handlers.map Handler.range ++ t.region.cleanup.toList,
      t.region.guarded.stop ≤ range.start ∧ ∀ p ∈ outer, range.isWithin p.range = true

/-- The handlers and the finally of a try stand between its try block and its end. -/
theorem TryAt.rest_bounds {t : TryAt} {range : Range}
    (h : range ∈ t.region.handlers.map Handler.range ++ t.region.cleanup.toList) :
    t.region.guarded.stop ≤ range.start ∧ range.stop ≤ t.behind := by
  have hle := behindCatches_le (t := t)
  have hge := behindCatches_ge (t := t)
  rcases List.mem_append.mp h with h | h
  · obtain ⟨handler, hh, rfl⟩ := List.mem_map.mp h
    have := handler_bounds hh
    omega
  · have := cleanup_bounds (Option.mem_toList.mp h)
    omega

section Nested

variable {method : Method} {b : Block} {x : Site}

/-- The parts of a site lie inside each other, and they are parts of tries of the body that cover the
site. -/
theorem parts_nested (hx : x ∈ sitesBlock [] 0 b) (hplaced : x.item.instr?.isSome = true) :
    x.parts.Pairwise Part.Inside ∧
      ∀ p ∈ x.parts, (∃ t ∈ triesBlock 0 b, p ∈ t.parts) ∧ p.range.covers x.pc = true := by
  rw [parts_of_site hx hplaced]
  refine ⟨covering_nested (tries_block_nested b 0) x.pc, fun p hp => ?_⟩
  obtain ⟨hmem, hcovers⟩ := mem_covering.mp hp
  exact ⟨List.mem_flatMap.mp hmem, hcovers⟩

theorem Part.Inside.length_lt {t u : TryAt} (h : (Part.guarded t).Inside (.guarded u)) :
    t.region.guarded.length < u.region.guarded.length := by
  have hstart := h.start
  have hstop := h.strict rfl
  simp only [Part.range, TryAt.guarded_eq] at hstart hstop
  simp only [Range.length, TryAt.guarded_eq]
  omega

/-- The parts of a site are nested as the tries of the body are. -/
theorem site_nested (hx : x ∈ sitesBlock [] 0 b) (hplaced : x.item.instr?.isSome = true) :
    x.Nested (routineOf method b) := by
  obtain ⟨hinside, hparts⟩ := parts_nested hx hplaced
  have hregions := regionsAt_of_site method hx hplaced
  have htries : ∀ t ∈ x.tries, .guarded t ∈ x.parts := by
    intro t ht
    obtain ⟨p, hp, htry⟩ := List.mem_filterMap.mp ht
    cases p with
    | guarded u =>
      cases htry
      exact hp
    | handler h => cases htry
    | cleanup R => cases htry
  have hgrowing : ∀ scope, ((routineOf method b).regionsAt x.pc scope).Pairwise fun g g' =>
      g.guarded.length < g'.guarded.length := by
    intro scope
    rw [hregions, List.pairwise_map]
    refine .filter _ (hinside.filterMap _ ?_)
    intro p q hpq t ht u hu
    cases p <;> cases ht
    cases q <;> cases hu
    exact hpq.length_lt
  refine ⟨?_, fun inner R outer hsplit => ?_, hgrowing, fun scope gs hperm hsorted => ?_,
    fun inner t outer hsplit range hrange => ?_⟩
  · rw [hregions, List.filter_eq_self.mpr]
    intro t ht
    obtain ⟨⟨u, hu, hpart⟩, -⟩ := hparts _ (htries t ht)
    have hbounds := TryAt.part_bounds hpart
    have hwithin := tries_block_within b 0 u hu
    simp only [Part.range] at hbounds
    rw [Range.isWithin_iff, routineOf_range]
    dsimp only
    omega
  · rw [hsplit] at hinside
    obtain ⟨-, houter, hinner⟩ := List.pairwise_append.mp hinside
    have hfirst : ∀ t ∈ inner.filterMap Part.guarded?, t.region.guarded.isWithin R = true := by
      intro t ht
      obtain ⟨p, hp, htry⟩ := List.mem_filterMap.mp ht
      cases p <;> cases htry
      have := hinner _ hp _ List.mem_cons_self
      exact Range.isWithin_iff.mpr ⟨this.start, this.stop⟩
    have hsecond : ∀ t ∈ outer.filterMap Part.guarded?, t.region.guarded.isWithin R = false := by
      intro t ht
      obtain ⟨p, hp, htry⟩ := List.mem_filterMap.mp ht
      cases p <;> cases htry
      have := ((List.pairwise_cons.mp houter).1 _ hp).strict rfl
      refine Bool.eq_false_iff.mpr fun hwithin => ?_
      have := (Range.isWithin_iff.mp hwithin).2
      simp only [Part.range] at *
      omega
    rw [hregions, Site.tries, hsplit, List.filterMap_append, List.filter_append,
      List.filter_eq_self.mpr hfirst, List.filterMap_cons_none rfl,
      List.filter_eq_nil_iff.mpr fun t ht => by simp [hsecond t ht], List.append_nil]
  · have hperm' : gs.Perm ((routineOf method b).regionsAt x.pc scope) :=
      hperm.trans (List.reverse_perm _).symm
    refine hperm'.eq_of_pairwise (fun g g' hg hg' hle hge => ?_) hsorted
      ((hgrowing scope).imp Nat.le_of_lt)
    let differ := fun g g' : Region => g.guarded.length ≠ g'.guarded.length
    have hsymm : Std.Symm differ := ⟨fun _ _ h => h.symm⟩
    refine Classical.byContradiction fun hne => ?_
    exact ((hgrowing scope).imp (S := differ) Nat.ne_of_lt).forall (hperm'.mem_iff.mp hg) hg' hne
      (Nat.le_antisymm hle hge)
  · obtain ⟨hstart, hstop⟩ := TryAt.rest_bounds hrange
    refine ⟨hstart, fun p hp => ?_⟩
    rw [hsplit] at hinside hparts
    have hbetween : (Part.guarded t).Inside p :=
      (List.pairwise_cons.mp (List.pairwise_append.mp hinside).2.1).1 p hp
    obtain ⟨⟨t', ht', hguarded⟩, hcovers⟩ := hparts (.guarded t) (by simp)
    obtain ⟨⟨u, hu, hpart⟩, hcovers'⟩ := hparts p (by simp [hp])
    obtain rfl : t' = t := by
      rcases TryAt.mem_parts.mp hguarded with h | ⟨h, -, heq⟩ | ⟨R, -, heq⟩
      · exact (Part.guarded.inj h).symm
      · cases heq
      · cases heq
    have hroom := try_in_room (tries_block_nested b 0) ht' hu hpart hcovers hcovers' hbetween
    have hwithin := p.room_within
    have hguard := t'.guarded_le_behind
    simp only [TryAt.guarded_eq] at hstart
    rw [Range.isWithin_iff]
    omega

end Nested

/-- In a routine, one instruction after the other belongs to a site of the body, and the last one
returns.  The regions at a site are the tries around it, as the body nests them, innermost first;
in a finally those that stand in the finally.  Handlers and finallys stand outside of their own try
block, inside of all that is around their try. -/
theorem regions_nested {method : Method} {b : Block} {r : Routine}
    (h : flatten { symbol := method, body := b } = .ok r) :
    ((sitesBlock [] 0 b).filterMap Site.code?).map Prod.snd = List.range (sizeBlock b) ∧
    r.instrs.size = sizeBlock b + 1 ∧
    ∀ x ∈ sitesBlock [] 0 b, ∀ i, x.item.instr? = some i →
      r.instrs[x.pc]? = some (i.map (bodyFragment b).resolve) ∧ x.Nested r := by
  obtain rfl := flatten_eq h
  refine ⟨?_, routineOf_size method b, fun x hx i hi => ⟨instr_of_site method hx hi, site_nested hx ?_⟩⟩
  · rw [code_block, List.zipIdx_map_snd, (fits_block 0 b).length, List.range_eq_range']
  · rw [hi]
    rfl

/-- A try whose try block is a try with nothing in it, and whose finally has a try of its own. -/
def nestedBody : Block :=
  .mk {} [] [.try {} (.mk {} [] [.try {} (.mk {} [] []) [.mk {} none (.mk {} [] [])] .absent]) []
    (.mk {} [] [.try {} (.mk {} [] [.sequencePoint {} {}]) [] (.mk {} [] [])])]

theorem regions_nested_empty : ∃ r, flatten { symbol := default, body := nestedBody } = .ok r ∧
    (r.regionsAt 0 r.range).map Region.guarded = [⟨0, 1⟩, ⟨0, 5⟩] ∧
    (r.regionsAt 5 ⟨5, 9⟩).map Region.guarded = [⟨5, 7⟩] := by
  have hflatten : flatten { symbol := default, body := nestedBody } =
      .ok (routineOf default nestedBody) := rfl
  obtain ⟨-, -, hsites⟩ := regions_nested hflatten
  -- The jump out of the empty try block, and the statement inside of the finally.
  have hexit := (hsites _ (List.mem_of_getElem? (i := 0) rfl) _ rfl).2
  have hinside := (hsites _ (List.mem_of_getElem? (i := 5) rfl) _ rfl).2
  exact ⟨_, hflatten, congrArg (List.map Region.guarded) hexit.whole,
    congrArg (List.map Region.guarded) (hinside.finallys [_] ⟨5, 9⟩ [] rfl)⟩

end Resumable.Machine
