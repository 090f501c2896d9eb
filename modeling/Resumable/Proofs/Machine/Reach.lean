import Resumable.Proofs.Machine.Nesting

/-!
# Where control goes from a site

Apart from jumps to labels, control goes from a site to the instruction behind it or behind a try
(`Site.reach`).  These positions are in the same finallys as the site is (`reach_block`).  A handler
starts in the finallys around its try block (`finally_at_handler`), and a finally in itself and those
around it (`finally_at_cleanup`).
-/

set_option autoImplicit false

namespace Resumable.Machine

open Resumable.Symbol Resumable.Tree

/-! ## Statements at sites -/

/-- The statement at a site, with its position. -/
def Site.place? (x : Site) : Option (Nat × Stmt) :=
  match x.item with
  | .stmt s => some (x.pc, s)
  | _ => none

mutual

theorem places_of_sites_stmt (around : List Part) (pc : Nat) : ∀ s : Stmt,
    (sitesStmt around pc s).filterMap Site.place? = placesStmt pc s
  | .block b => places_of_sites around pc b
  | .list _ ss => places_of_sites_stmts around pc ss
  | .label .. => rfl
  | .try o body catches cleanup => by
    simp only [sitesStmt, placesStmt, List.filterMap_append, places_of_sites,
      places_of_sites_catches, places_of_sites_cleanup]
    simp [Site.place?]
  | .absent | .sequencePoint .. | .noOp .. | .localDeclaration .. | .expression .. | .return ..
  | .yieldReturn .. | .yieldBreak .. | .throw .. | .if .. | .while .. | .break .. | .continue ..
  | .goto .. | .conditionalGoto .. | .dispatch .. | .foreign .. => by
    rw [sitesStmt_leaf rfl, placesStmt_leaf rfl]
    rfl

theorem places_of_sites_stmts (around : List Part) (pc : Nat) : ∀ ss : List Stmt,
    (sitesStmts around pc ss).filterMap Site.place? = placesStmts pc ss
  | [] => rfl
  | s :: rest => by
    rw [sitesStmts, placesStmts, List.filterMap_append, places_of_sites_stmt,
      places_of_sites_stmts]

/-- The statements at the sites of a block are those of the block, where they stand. -/
theorem places_of_sites (around : List Part) (pc : Nat) : ∀ b : Block,
    (sitesBlock around pc b).filterMap Site.place? = placesBlock pc b
  | .absent => rfl
  | .mk _ _ ss => places_of_sites_stmts around pc ss

theorem places_of_sites_cleanup (around : List Part) (pc : Nat) : ∀ b : Block,
    (sitesCleanup around pc b).filterMap Site.place? = placesBlock pc b
  | .absent => rfl
  | .mk _ _ ss => by
    simp only [sitesCleanup, placesBlock, List.filterMap_append, places_of_sites_stmts]
    exact List.append_nil _

theorem places_of_sites_catches (around : List Part) (behind pc : Nat) : ∀ cs : List Catch,
    (sitesCatches around behind pc cs).filterMap Site.place? = placesCatches pc cs
  | [] => rfl
  | .mk _ _ body :: rest => by
    simp only [sitesCatches, placesCatches, List.filterMap_append, List.filterMap_cons,
      places_of_sites, places_of_sites_catches]
    simp [Site.place?]

end

/-! ## Positions that are reached -/

/-- Where control goes from a site, apart from jumps to labels; for a label, where it is. -/
def Site.reach (x : Site) : List Nat :=
  match x.item with
  | .stmt (.label ..) => [x.pc]
  | .stmt _ | .enterCatch | .endCatch => [x.pc + 1]
  | .exit behind | .exitCatch behind => [behind]
  | .endFinally => []

theorem reach_leaf {s : Stmt} (h : isLeaf s = true) (pc : Nat) (parts : List Part) :
    Site.reach ⟨pc, .stmt s, parts⟩ = [pc + 1] := by
  cases s with
  | block | list | label | «try» => cases h
  | _ => simp [Site.reach]

/-- The finallys of tries that cover a position, innermost first. -/
def finallysAt (ts : List TryAt) (pc : Nat) : List Range :=
  (covering (partsOf ts) pc).filterMap Part.cleanup?

theorem finallysAt_append (ts us : List TryAt) (pc : Nat) :
    finallysAt (ts ++ us) pc = finallysAt us pc ++ finallysAt ts pc := by
  rw [finallysAt, partsOf_append, covering_append, List.filterMap_append]
  rfl

theorem mem_finallysAt {ts : List TryAt} {pc : Nat} {R : Range} : R ∈ finallysAt ts pc ↔
    (∃ t ∈ ts, t.region.cleanup = some R) ∧ R.covers pc = true := by
  simp only [finallysAt, List.mem_filterMap, mem_covering, partsOf, List.mem_flatMap,
    TryAt.mem_parts]
  constructor
  · rintro ⟨p, ⟨⟨t, ht, hpart⟩, hcovers⟩, hp⟩
    rcases hpart with rfl | ⟨h, -, rfl⟩ | ⟨R', hR', rfl⟩
    · cases hp
    · cases hp
    · cases hp
      exact ⟨⟨t, ht, hR'⟩, hcovers⟩
  · rintro ⟨⟨t, ht, hR⟩, hcovers⟩
    exact ⟨.cleanup R, ⟨⟨t, ht, .inr (.inr ⟨R, hR, rfl⟩)⟩, hcovers⟩, rfl⟩

/-- Tries have no finallys at the position where they begin, nor at the one behind them. -/
theorem finallysAt_outside {ts : List TryAt} {start stop pc : Nat}
    (hts : ∀ t ∈ ts, start ≤ t.pc ∧ t.behind ≤ stop) (hpc : pc ≤ start ∨ stop ≤ pc) :
    finallysAt ts pc = [] := by
  refine List.eq_nil_iff_forall_not_mem.mpr fun R hR => ?_
  obtain ⟨⟨t, ht, hcleanup⟩, hcovers⟩ := mem_finallysAt.mp hR
  have := hts t ht
  have := TryAt.cleanup_bounds hcleanup
  have hge := TryAt.behindCatches_ge (t := t)
  simp only [TryAt.guarded_eq] at hge
  rw [Range.covers_eq_true] at hcovers
  omega

/-- The finally of one try, if it covers the position. -/
theorem finallysAt_one {t : TryAt} {pc : Nat} {R : Range} (hR : t.region.cleanup = some R)
    (hcovers : R.covers pc = true) : finallysAt [t] pc = [R] := by
  have hfinally : covering [.cleanup R] pc = [.cleanup R] := covering_single hcovers
  have hrest : (covering (.guarded t :: t.region.handlers.map .handler) pc).filterMap
      Part.cleanup? = [] := by
    refine List.filterMap_eq_nil_iff.mpr fun p hp => ?_
    rcases List.mem_cons.mp (mem_covering.mp hp).1 with rfl | hmem
    · rfl
    · obtain ⟨h, -, rfl⟩ := List.mem_map.mp hmem
      rfl
  rw [finallysAt, partsOf, List.flatMap_singleton, TryAt.parts, hR, ← List.cons_append,
    covering_append, List.filterMap_append, hrest, List.append_nil, Option.toList_some,
    List.map_singleton, hfinally]
  rfl

/-- A try has no finally at a position before its finally or behind it. -/
theorem finallysAt_single {t : TryAt} {pc : Nat}
    (hpc : pc < behindCatches t.pc t.body t.catches ∨ t.behind ≤ pc) : finallysAt [t] pc = [] := by
  refine List.eq_nil_iff_forall_not_mem.mpr fun R hR => ?_
  obtain ⟨⟨u, hu, hcleanup⟩, hcovers⟩ := mem_finallysAt.mp hR
  obtain rfl := List.mem_singleton.mp hu
  have := TryAt.cleanup_bounds hcleanup
  rw [Range.covers_eq_true] at hcovers
  omega

/-- A site of code between two positions, in the finallys of the tries and those around: where
control goes from it is between the positions too and in the same finallys, and the end of a finally
is the last instruction of the innermost one. -/
structure Site.Stays (x : Site) (start stop : Nat) (ts : List TryAt) (around : List Part) : Prop where
  between : ∀ p ∈ x.reach, start ≤ p ∧ p ≤ stop
  finallys : ∀ p ∈ x.reach, x.cleanups = finallysAt ts p ++ around.filterMap Part.cleanup?
  ends : x.item = .endFinally → ∃ first outer, x.parts = .cleanup ⟨first, x.pc + 1⟩ :: outer

/-- A site of a piece of code is one of the code, if the rest of it has no finallys where control
goes from the site. -/
theorem Site.Stays.widen {x : Site} {start stop start' stop' : Nat} {ts ts' : List TryAt}
    {around around' : List Part} (h : x.Stays start stop ts around) (hstart : start' ≤ start)
    (hstop : stop ≤ stop')
    (hsame : ∀ p ∈ x.reach, finallysAt ts p ++ around.filterMap Part.cleanup? =
      finallysAt ts' p ++ around'.filterMap Part.cleanup?) : x.Stays start' stop' ts' around' := by
  refine ⟨fun p hp => ?_, fun p hp => (h.finallys p hp).trans (hsame p hp), h.ends⟩
  have := h.between p hp
  omega

/-- A site from which control goes to one position, outside of all the finallys of the tries. -/
theorem Site.Stays.one {x : Site} {start stop target : Nat} {ts : List TryAt} {around : List Part}
    (hreach : x.reach = [target]) (hstart : start ≤ target) (hstop : target ≤ stop)
    (hts : finallysAt ts target = []) (hparts : x.cleanups = around.filterMap Part.cleanup?)
    (hitem : x.item ≠ .endFinally) : x.Stays start stop ts around := by
  refine ⟨fun p hp => ?_, fun p hp => ?_, fun h => absurd h hitem⟩ <;>
    rw [hreach, List.mem_singleton] at hp <;> subst hp
  · exact ⟨hstart, hstop⟩
  · rw [hts, hparts, List.nil_append]

mutual

theorem reach_stmt (around : List Part) (pc : Nat) : ∀ s : Stmt, ∀ x ∈ sitesStmt around pc s,
    x.Stays pc (pc + sizeStmt s) (triesStmt pc s) around
  | .block b, x, hx => reach_block around pc b x hx
  | .list _ ss, x, hx => reach_stmts around pc ss x hx
  | .label o l, x, hx => by
    obtain rfl := List.mem_singleton.mp hx
    exact .one rfl (Nat.le_refl _) (Nat.le_refl _) rfl rfl nofun
  | .try o body catches cleanup, x, hx => by
    let t : TryAt := ⟨pc, body, catches, cleanup⟩
    have hsize : pc + sizeStmt (.try o body catches cleanup) = t.behind := by
      simp only [sizeStmt, t, TryAt.behind, behindTry, behindCatches, behindBody]
      omega
    have hpc : pc + sizeBlock body + 1 = behindBody pc body := rfl
    have hcatches : behindBody pc body ≤ behindCatches pc body catches := Nat.le_add_right _ _
    have hbehind : behindCatches pc body catches ≤ t.behind := Nat.le_add_right _ _
    have hall : ∀ p, finallysAt (triesStmt pc (.try o body catches cleanup)) p =
        finallysAt (triesBlock (behindCatches pc body catches) cleanup) p ++
          (finallysAt (triesCatches (behindBody pc body) catches) p ++
            (finallysAt (triesBlock pc body) p ++ finallysAt [t] p)) := fun p => by
      rw [triesStmt, ← List.singleton_append, finallysAt_append, finallysAt_append,
        finallysAt_append, List.append_assoc, List.append_assoc]
    have hF : ∀ p, p ≤ behindCatches pc body catches ∨
        behindCatches pc body catches + sizeBlock cleanup ≤ p →
        finallysAt (triesBlock (behindCatches pc body catches) cleanup) p = [] := fun p =>
      finallysAt_outside (tries_block_within cleanup _)
    have hC : ∀ p, p ≤ behindBody pc body ∨ behindCatches pc body catches ≤ p →
        finallysAt (triesCatches (behindBody pc body) catches) p = [] := fun p =>
      finallysAt_outside (tries_catches_within catches _)
    have hB : ∀ p, p ≤ pc ∨ pc + sizeBlock body ≤ p → finallysAt (triesBlock pc body) p = [] :=
      fun p => finallysAt_outside (tries_block_within body pc)
    have ht : ∀ p, p < behindCatches pc body catches ∨ t.behind ≤ p → finallysAt [t] p = [] :=
      fun p => finallysAt_single (t := t)
    have hexit : finallysAt (triesStmt pc (.try o body catches cleanup)) t.behind = [] :=
      finallysAt_outside (tries_stmt_within _ pc) (.inr (Nat.le_of_eq hsize))
    rw [hsize]
    simp only [sitesStmt, List.mem_append, List.mem_singleton] at hx
    rcases hx with ((hx | rfl) | hx) | hx
    · have hbody := reach_block _ pc body x hx
      refine hbody.widen (Nat.le_refl _) (by omega) fun p hp => ?_
      have := (hbody.between p hp).2
      rw [hall, hF p (.inl (by omega)), hC p (.inl (by omega)),
        ht p (.inl (by omega)), List.nil_append, List.nil_append, List.append_nil]
      rfl
    · have hle : pc ≤ t.behind := by omega
      exact .one rfl hle (Nat.le_refl _) hexit rfl nofun
    · obtain ⟨hbetween, hcatch⟩ := reach_catches around t.behind _ catches hbehind x hx
      refine hcatch.widen (by omega) (Nat.le_refl _) fun p hp => ?_
      obtain ⟨hge, hlt | rfl⟩ := hbetween p hp
      · have hlt : p < behindCatches pc body catches := hlt
        rw [hall, hF p (.inl (by omega)), hB p (.inr (by omega)), ht p (.inl hlt),
          List.nil_append, List.nil_append, List.append_nil]
      · rw [hexit, hC _ (.inr hbehind)]
    · have hfinally := reach_cleanup around _ cleanup x hx
      cases cleanup with
      | absent => cases hx
      | mk o' ls ss =>
        have hstop : behindCatches pc body catches + sizeStmts ss + 1 = t.behind := rfl
        refine hfinally.widen (by omega) (Nat.le_of_succ_le (Nat.le_of_eq hstop)) fun p hp => ?_
        obtain ⟨hge, hle⟩ := hfinally.between p hp
        rw [hall, hC p (.inr hge), hB p (.inr (by omega)), finallysAt_one (t := t) rfl
          (Range.covers_eq_true.mpr ⟨hge, Nat.lt_succ_of_le hle⟩), List.append_assoc]
        rfl
  | .absent, x, hx | .sequencePoint .., x, hx | .noOp .., x, hx | .localDeclaration .., x, hx
  | .expression .., x, hx | .return .., x, hx | .yieldReturn .., x, hx | .yieldBreak .., x, hx
  | .throw .., x, hx | .if .., x, hx | .while .., x, hx | .break .., x, hx | .continue .., x, hx
  | .goto .., x, hx | .conditionalGoto .., x, hx | .dispatch .., x, hx | .foreign .., x, hx => by
    rw [sitesStmt_leaf rfl, List.mem_singleton] at hx
    subst hx
    exact .one (reach_leaf rfl pc around) (Nat.le_succ _) (Nat.le_refl _) rfl rfl nofun

theorem reach_stmts (around : List Part) (pc : Nat) : ∀ ss : List Stmt,
    ∀ x ∈ sitesStmts around pc ss, x.Stays pc (pc + sizeStmts ss) (triesStmts pc ss) around
  | [], _, hx => nomatch hx
  | s :: rest, x, hx => by
    rw [triesStmts, sizeStmts]
    rcases List.mem_append.mp hx with hx | hx
    · have hs := reach_stmt around pc s x hx
      refine hs.widen (Nat.le_refl _) (by omega) fun p hp => ?_
      rw [finallysAt_append, finallysAt_outside (tries_stmts_within rest _)
        (.inl (hs.between p hp).2), List.nil_append]
    · have hs := reach_stmts around _ rest x hx
      refine hs.widen (by omega) (by omega) fun p hp => ?_
      rw [finallysAt_append, finallysAt_outside (tries_stmt_within s pc)
        (.inr (hs.between p hp).1), List.append_nil]

/-- From the sites of a block control does not leave the block, apart from jumps, and it goes to
positions that are in the same finallys. -/
theorem reach_block (around : List Part) (pc : Nat) : ∀ b : Block, ∀ x ∈ sitesBlock around pc b,
    x.Stays pc (pc + sizeBlock b) (triesBlock pc b) around
  | .absent, _, hx => nomatch hx
  | .mk _ _ ss, x, hx => reach_stmts around pc ss x hx

theorem reach_cleanup (around : List Part) (pc : Nat) : ∀ b : Block,
    ∀ x ∈ sitesCleanup around pc b, x.Stays pc (pc + sizeBlock b) (triesBlock pc b)
      ((cleanupRange pc b).toList.map Part.cleanup ++ around)
  | .absent, _, hx => nomatch hx
  | .mk o ls ss, x, hx => by
    simp only [sitesCleanup, List.mem_append, List.mem_singleton] at hx
    rcases hx with hx | rfl
    · exact reach_stmts _ pc ss x hx
    · exact ⟨nofun, nofun, fun _ => ⟨pc, around, rfl⟩⟩

theorem reach_catches (around : List Part) (behind pc : Nat) : ∀ cs : List Catch,
    pc + sizeCatches cs ≤ behind → ∀ x ∈ sitesCatches around behind pc cs,
      (∀ p ∈ x.reach, pc ≤ p ∧ (p < pc + sizeCatches cs ∨ p = behind)) ∧
        x.Stays pc behind (triesCatches pc cs) around
  | [], _, _, hx => nomatch hx
  | .mk o target body :: rest, hbehind, x, hx => by
    have hsize : sizeCatches (.mk o target body :: rest) = sizeBlock body + 3 + sizeCatches rest := by
      simp only [sizeCatches]
    have hall : ∀ p, finallysAt (triesCatches pc (.mk o target body :: rest)) p =
        finallysAt (triesCatches (pc + sizeBlock body + 3) rest) p ++
          finallysAt (triesBlock (pc + 1) body) p := fun p => finallysAt_append _ _ p
    have hR : ∀ p, p ≤ pc + sizeBlock body + 3 ∨ pc + sizeBlock body + 3 + sizeCatches rest ≤ p →
        finallysAt (triesCatches (pc + sizeBlock body + 3) rest) p = [] := fun p =>
      finallysAt_outside (tries_catches_within rest _)
    have hB : ∀ p, p ≤ pc + 1 ∨ pc + 1 + sizeBlock body ≤ p →
        finallysAt (triesBlock (pc + 1) body) p = [] := fun p =>
      finallysAt_outside (tries_block_within body _)
    have hnone : ∀ p, p = pc + 1 ∨ p = pc + sizeBlock body + 2 ∨ p = behind →
        finallysAt (triesCatches pc (.mk o target body :: rest)) p = [] := fun p hp => by
      rw [hall, hR p (by omega), hB p (by omega), List.append_nil]
    simp only [sitesCatches, List.mem_append, List.mem_cons, List.not_mem_nil, or_false] at hx
    rcases hx with (rfl | hx | rfl | rfl) | hx
    · refine ⟨fun p hp => ?_, .one rfl (Nat.le_succ pc) ?_ (hnone _ (.inl rfl)) rfl nofun⟩
      · rw [List.mem_singleton.mp hp]
        dsimp only
        omega
      · dsimp only
        omega
    · have hbody := reach_block _ _ body x hx
      refine ⟨fun p hp => ?_, hbody.widen (by omega) (by omega) fun p hp => ?_⟩
      · have := hbody.between p hp
        omega
      · have := (hbody.between p hp).2
        rw [hall, hR p (.inl (by omega)), List.nil_append]
        rfl
    · refine ⟨fun p hp => ?_, .one rfl ?_ ?_ (hnone _ (.inr (.inl rfl))) rfl nofun⟩
      · rw [List.mem_singleton.mp hp]
        dsimp only
        omega
      · dsimp only
        omega
      · dsimp only
        omega
    · refine ⟨fun p hp => ?_, .one rfl (by omega) (Nat.le_refl _) (hnone _ (.inr (.inr rfl))) rfl nofun⟩
      rw [List.mem_singleton.mp hp]
      omega
    · obtain ⟨hbetween, hrest⟩ := reach_catches around behind _ rest (by omega) x hx
      refine ⟨fun p hp => ?_, hrest.widen (by omega) (Nat.le_refl _) fun p hp => ?_⟩
      · have := hbetween p hp
        omega
      · rw [hall, hB p (.inr _), List.append_nil]
        have := hbetween p hp
        omega

end

/-! ## Finallys at the parts of a try -/

section Around

variable {ts : List TryAt} {t u : TryAt} {R : Range}

/-- The finally of a try stands behind the position where the try begins. -/
theorem TryAt.cleanup_behind (hR : t.region.cleanup = some R) : t.pc < R.start := by
  have hge := TryAt.behindCatches_ge (t := t)
  have := TryAt.cleanup_bounds hR
  simp only [TryAt.guarded_eq] at hge
  omega

/-- A handler or a finally of one try covers a position of another try if that try stands in it;
unless the position is inside of a part of that other try. -/
theorem part_around (hts : ts.Pairwise TryAt.Precedes) (ht : t ∈ ts) (hu : u ∈ ts) {q : Part}
    (hq : q ∈ u.parts) (hbehind : u.pc < q.range.start) {p : Nat} (hpc : t.pc ≤ p ∧ p < t.behind)
    (hroom : ∀ q' ∈ t.parts, p ≤ q'.room.start ∨ q'.room.stop ≤ p)
    (hself : t = u → q.range.covers p = false) :
    q.range.covers p = true ↔ q.room.start ≤ t.pc ∧ t.behind ≤ q.room.stop := by
  have hbounds := TryAt.part_bounds hq
  have hwithin := q.room_within
  rcases tries_related hts ht hu with rfl | htu | hut
  · rw [hself rfl]
    exact iff_of_false nofun (by omega)
  · rw [Range.covers_eq_true]
    rcases htu with hafter | ⟨q', hq', hstart, hstop⟩
    · omega
    · have hwithin' := q'.room_within
      have := TryAt.part_bounds hq'
      have := hroom q' hq'
      omega
  · rcases hut with hbefore | ⟨q', hq', hstart, hstop⟩
    · rw [Range.covers_eq_true]
      omega
    · have hwithin' := q'.room_within
      -- Parts of one try have no position in common.
      have hsame : ∀ p', t.pc ≤ p' → p' < t.behind → q.range.covers p' = true → q' = q := by
        intro p' hge hlt hcovers
        have hcovers' : q'.range.covers p' = true := Range.covers_eq_true.mpr (by omega)
        exact TryAt.part_unique hq' hq hcovers' hcovers
      constructor
      · intro hcovers
        obtain rfl := hsame p hpc.1 hpc.2 hcovers
        exact ⟨hstart, hstop⟩
      · rintro ⟨hstart', hstop'⟩
        rw [Range.covers_eq_true]
        omega

/-- A finally of one try covers a position of another try if it covers the whole of that try; unless
the position is inside of a part of that other try. -/
theorem finally_around (hts : ts.Pairwise TryAt.Precedes) (ht : t ∈ ts) (hu : u ∈ ts)
    (hR : u.region.cleanup = some R) {p : Nat} (hpc : t.pc ≤ p ∧ p < t.behind)
    (hroom : ∀ q ∈ t.parts, p ≤ q.room.start ∨ q.room.stop ≤ p) (hself : t = u → p < R.start) :
    R.covers p = true ↔ R.start ≤ t.pc ∧ t.behind < R.stop := by
  have hpart : .cleanup R ∈ u.parts := TryAt.mem_parts.mpr (.inr (.inr ⟨R, hR, rfl⟩))
  have hne := (TryAt.cleanup_bounds hR).2.2
  refine (part_around hts ht hu hpart (TryAt.cleanup_behind hR) hpc hroom fun htu => ?_).trans ?_
  · exact Range.covers_eq_false.mpr (.inl (hself htu))
  · simp only [Part.room]
    omega

/-- A finally is around a try if it is around the try block. -/
theorem finally_around_guarded (hts : ts.Pairwise TryAt.Precedes) (ht : t ∈ ts) (hu : u ∈ ts)
    (hR : u.region.cleanup = some R) :
    t.region.guarded.isWithin R = true ↔ R.start ≤ t.pc ∧ t.behind < R.stop := by
  have hle := t.guarded_le_behind
  have hstart : R.covers t.pc = true ↔ R.start ≤ t.pc ∧ t.behind < R.stop := by
    refine finally_around hts ht hu hR ⟨Nat.le_refl _, ?_⟩ (fun q hq => .inl ?_) fun htu => ?_
    · simp only [TryAt.guarded_eq] at hle
      omega
    · exact Nat.le_trans (TryAt.part_bounds hq).1 q.room_within.1
    · rw [htu]
      exact TryAt.cleanup_behind hR
  constructor
  · intro hwithin
    refine hstart.mp ?_
    rw [Range.isWithin_iff, TryAt.guarded_eq] at hwithin
    rw [Range.covers_eq_true]
    dsimp only at hwithin
    omega
  · rintro ⟨hge, hlt⟩
    rw [Range.isWithin_iff]
    exact ⟨hge, by omega⟩

/-- A handler starts outside of where tries can stand in the parts of its try. -/
theorem TryAt.handler_rooms {h : Handler} (hh : h ∈ t.region.handlers) :
    ∀ q ∈ t.parts, h.body.start ≤ q.room.start ∨ q.room.stop ≤ h.body.start := by
  intro q hq
  have hbounds := TryAt.handler_bounds hh
  simp only [TryAt.guarded_eq] at hbounds
  have hbody : h.body.start = h.range.start + 1 := rfl
  rcases TryAt.mem_parts.mp hq with rfl | ⟨h', hh', rfl⟩ | ⟨R', hR', rfl⟩
  · refine .inr ?_
    simp only [Part.room]
    omega
  · simp only [Part.room, Handler.body]
    let apart := fun h h' : Handler =>
      h.range.stop + 2 ≤ h'.range.start ∨ h'.range.stop + 2 ≤ h.range.start
    have hsymm : Std.Symm apart := ⟨fun _ _ h => h.symm⟩
    have hapart := (handlersAt_ordered.imp (S := apart) .inl).forall hh hh'
    by_cases hsame : h = h'
    · rw [hsame]
      exact .inl (Nat.le_refl _)
    · have := TryAt.handler_bounds hh'
      have := hapart hsame
      simp only [apart] at this
      omega
  · have := TryAt.cleanup_bounds hR'
    simp only [Part.room]
    omega

/-- So does a finally. -/
theorem TryAt.cleanup_rooms {C : Range} (hC : t.region.cleanup = some C) :
    ∀ q ∈ t.parts, C.start ≤ q.room.start ∨ q.room.stop ≤ C.start := by
  intro q hq
  have hbounds := TryAt.cleanup_bounds hC
  rcases TryAt.mem_parts.mp hq with rfl | ⟨h, hh, rfl⟩ | ⟨R', hR', rfl⟩
  · have hge := TryAt.behindCatches_ge (t := t)
    simp only [TryAt.guarded_eq] at hge
    simp only [Part.room]
    omega
  · have := TryAt.handler_bounds hh
    simp only [Part.room, Handler.body]
    omega
  · obtain rfl : C = R' := Option.some.inj (hC.symm.trans hR')
    exact .inl (Nat.le_refl _)

/-- A handler starts in the finallys around its try block. -/
theorem finally_at_handler (hts : ts.Pairwise TryAt.Precedes) (ht : t ∈ ts) (hu : u ∈ ts)
    (hR : u.region.cleanup = some R) {h : Handler} (hh : h ∈ t.region.handlers) :
    R.covers h.body.start = true ↔ t.region.guarded.isWithin R = true := by
  rw [finally_around_guarded hts ht hu hR]
  have hle := TryAt.behindCatches_le (t := t)
  have hbounds := TryAt.handler_bounds hh
  simp only [TryAt.guarded_eq] at hbounds
  have hbody : h.body.start = h.range.start + 1 := rfl
  refine finally_around hts ht hu hR (by omega) (TryAt.handler_rooms hh) fun htu => ?_
  subst htu
  have := TryAt.cleanup_bounds hR
  omega

/-- A finally starts in itself and in the finallys around it. -/
theorem finally_at_cleanup (hts : ts.Pairwise TryAt.Precedes) (ht : t ∈ ts) (hu : u ∈ ts)
    (hR : u.region.cleanup = some R) {C : Range} (hC : t.region.cleanup = some C) :
    R.covers C.start = true ↔ C.isWithin R = true := by
  have hstart := TryAt.cleanup_behind hC
  have hbounds := TryAt.cleanup_bounds hC
  rw [Range.isWithin_iff]
  constructor
  · by_cases hself : t = u
    · subst hself
      obtain rfl : C = R := Option.some.inj (hC.symm.trans hR)
      exact fun _ => ⟨Nat.le_refl _, Nat.le_refl _⟩
    · intro hcovers
      have := (finally_around hts ht hu hR (by omega) (TryAt.cleanup_rooms hC)
        (absurd · hself)).mp hcovers
      omega
  · intro hwithin
    rw [Range.covers_eq_true]
    omega

end Around

end Resumable.Machine
