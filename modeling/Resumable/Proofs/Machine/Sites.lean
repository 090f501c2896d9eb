import Resumable.Proofs.Machine.Tries

/-!
# Where the instructions of a routine come from

Each instruction of a routine was made for a place in its body (`Site`), which stands in certain parts
of tries, in the order in which the body nests them.  The sites of a body are those of its
instructions one after the other, and of its labels (`code_block`), and the parts that a site stands
in are the ones whose ranges cover its instruction (`covering_block`).
-/

set_option autoImplicit false

namespace Resumable.Machine

open Resumable.Symbol Resumable.Tree

/-! ## Sites -/

/-- What stands at a site: a statement of one instruction, a label, or what a try adds. -/
inductive Item where
  | stmt (s : Stmt)
  /-- The jump that completes a try block and goes behind the try. -/
  | exit (behind : Nat)
  | enterCatch
  | endCatch
  /-- The jump behind the end of a handler. -/
  | exitCatch (behind : Nat)
  | endFinally

/-- The instruction of an item; a label has none. -/
def Item.instr? : Item → Option (Instr Target)
  | stmt (.label ..) => none
  | stmt s => some (leafInstr s)
  | exit behind => some (.jump (.position behind))
  | enterCatch => some .enterCatch
  | endCatch => some .endCatch
  | exitCatch behind => some (.jump (.position behind))
  | endFinally => some .endFinally

/-- An item at its position, with the parts of tries that it stands in, innermost first. -/
structure Site where
  pc : Nat
  item : Item
  parts : List Part

namespace Site

/-- The tries whose try block the site stands in. -/
def tries (x : Site) : List TryAt := x.parts.filterMap Part.guarded?

/-- The finallys that the site stands in. -/
def cleanups (x : Site) : List Range := x.parts.filterMap Part.cleanup?

/-- The instruction of a site, and its position. -/
def code? (x : Site) : Option (Instr Target × Nat) := x.item.instr?.map fun i => (i, x.pc)

end Site

mutual

/-- The sites of a statement that begins at `pc` and stands in the parts `around`. -/
def sitesStmt (around : List Part) (pc : Nat) : Stmt → List Site
  | .block b => sitesBlock around pc b
  | .list _ ss => sitesStmts around pc ss
  | .try _ body catches cleanup =>
    let t : TryAt := ⟨pc, body, catches, cleanup⟩
    sitesBlock (.guarded t :: around) pc body ++
      [⟨pc + sizeBlock body, .exit t.behind, .guarded t :: around⟩] ++
      sitesCatches around t.behind (behindBody pc body) catches ++
      sitesCleanup around (behindCatches pc body catches) cleanup
  | s => [⟨pc, .stmt s, around⟩]

/-- The sites of statements. -/
def sitesStmts (around : List Part) (pc : Nat) : List Stmt → List Site
  | [] => []
  | s :: rest => sitesStmt around pc s ++ sitesStmts around (pc + sizeStmt s) rest

/-- The sites of a block. -/
def sitesBlock (around : List Part) (pc : Nat) : Block → List Site
  | .absent => []
  | .mk _ _ ss => sitesStmts around pc ss

/-- The sites of a finally. -/
def sitesCleanup (around : List Part) (pc : Nat) : Block → List Site
  | .absent => []
  | .mk _ _ ss =>
    let part : Part := .cleanup ⟨pc, pc + sizeStmts ss + 1⟩
    sitesStmts (part :: around) pc ss ++ [⟨pc + sizeStmts ss, .endFinally, part :: around⟩]

/-- The sites of handlers of a try that ends at `behind`. -/
def sitesCatches (around : List Part) (behind pc : Nat) : List Catch → List Site
  | [] => []
  | .mk _ target body :: rest =>
    let part : Part := .handler ⟨⟨pc, pc + sizeBlock body + 1⟩, target⟩
    ⟨pc, .enterCatch, around⟩ :: (sitesBlock (part :: around) (pc + 1) body ++
      [⟨pc + sizeBlock body + 1, .endCatch, around⟩,
        ⟨pc + sizeBlock body + 2, .exitCatch behind, around⟩]) ++
      sitesCatches around behind (pc + sizeBlock body + 3) rest

end

theorem sitesStmt_leaf {s : Stmt} (h : isLeaf s = true) (around : List Part) (pc : Nat) :
    sitesStmt around pc s = [⟨pc, .stmt s, around⟩] := by
  cases s with
  | block | list | label | «try» => cases h
  | _ => simp [sitesStmt]

theorem instr?_leaf {s : Stmt} (h : isLeaf s = true) :
    (Item.stmt s).instr? = some (leafInstr s) := by
  cases s with
  | block | list | label | «try» => cases h
  | _ => simp [Item.instr?]

/-! ## The instructions of sites -/

theorem zipIdx_append_of_fits {a b : Fragment} {pc pc' m : Nat} {ls : List (Option Label)}
    (ha : a.Fits pc m ls) (hpc : pc' = pc + m) :
    (a ++ b).instrs.zipIdx pc = a.instrs.zipIdx pc ++ b.instrs.zipIdx pc' := by
  rw [Fragment.append_instrs, List.zipIdx_append, ha.length, hpc]

open Fragment (Fits)

mutual

theorem code_stmt (around : List Part) (pc : Nat) : ∀ s : Stmt,
    (sitesStmt around pc s).filterMap Site.code? = (flattenStmt pc s).instrs.zipIdx pc
  | .block b => code_block around pc b
  | .list _ ss => code_stmts around pc ss
  | .label .. => rfl
  | .try o body catches cleanup => by
    have hbody := (fits_block pc body).append (.one (pc + sizeBlock body)
      (.jump (.position (behindTry pc body catches cleanup)))) rfl
    have hcatches := fits_catches (behindBody pc body) (behindTry pc body catches cleanup) catches
    have hblock := hbody.region (g := regionAt pc body catches cleanup) (Nat.le_refl _)
      (Nat.le_refl _)
    rw [flattenStmt_try, zipIdx_append_of_fits hblock (show behindBody pc body = _ from rfl),
      zipIdx_append_of_fits hcatches rfl, Fragment.append_instrs, List.nil_append,
      zipIdx_append_of_fits (fits_block pc body) rfl]
    simp only [sitesStmt, List.filterMap_append, code_block, code_catches, code_cleanup,
      TryAt.behind, List.append_assoc]
    rfl
  | .absent | .sequencePoint .. | .noOp .. | .localDeclaration .. | .expression .. | .return ..
  | .yieldReturn .. | .yieldBreak .. | .throw .. | .if .. | .while .. | .break .. | .continue ..
  | .goto .. | .conditionalGoto .. | .dispatch .. | .foreign .. => by
    rw [(flattenStmt_leaf rfl pc).1, sitesStmt_leaf rfl, List.filterMap_cons, Site.code?,
      instr?_leaf rfl]
    rfl

theorem code_stmts (around : List Part) (pc : Nat) : ∀ ss : List Stmt,
    (sitesStmts around pc ss).filterMap Site.code? = (flattenStmts pc ss).instrs.zipIdx pc
  | [] => rfl
  | s :: rest => by
    rw [sitesStmts, flattenStmts, List.filterMap_append, code_stmt, code_stmts,
      zipIdx_append_of_fits (fits_stmt pc s) rfl]

/-- The sites of a block are those of its instructions, in their order, and of its labels. -/
theorem code_block (around : List Part) (pc : Nat) : ∀ b : Block,
    (sitesBlock around pc b).filterMap Site.code? = (flattenBlock pc b).instrs.zipIdx pc
  | .absent => rfl
  | .mk _ _ ss => code_stmts around pc ss

theorem code_cleanup (around : List Part) (pc : Nat) : ∀ b : Block,
    (sitesCleanup around pc b).filterMap Site.code? = (flattenCleanup pc b).instrs.zipIdx pc
  | .absent => rfl
  | .mk _ _ ss => by
    simp only [sitesCleanup, flattenCleanup, List.filterMap_append, code_stmts]
    rw [zipIdx_append_of_fits (fits_stmts pc ss) rfl]
    rfl

theorem code_catches (around : List Part) (behind pc : Nat) : ∀ cs : List Catch,
    (sitesCatches around behind pc cs).filterMap Site.code? =
      (flattenCatches pc behind cs).instrs.zipIdx pc
  | [] => rfl
  | .mk _ _ body :: rest => by
    have f1 := (Fits.one pc .enterCatch).append (fits_block (pc + 1) body) rfl
    have f2 := f1.append (.one _ .endCatch) rfl
    have f3 := f2.append (.one _ (.jump (.position behind))) rfl
    rw [flattenCatches, zipIdx_append_of_fits f3 (show pc + sizeBlock body + 3 = _ by omega),
      zipIdx_append_of_fits f2 (show pc + sizeBlock body + 2 = _ by omega),
      zipIdx_append_of_fits f1 (show pc + sizeBlock body + 1 = _ by omega),
      zipIdx_append_of_fits (Fits.one pc .enterCatch) rfl]
    simp only [sitesCatches, List.filterMap_append, List.filterMap_cons, code_block, code_catches]
    simp [Site.code?, Item.instr?]

end

/-! ## The parts of sites -/

/-- An instruction stands where the fragment does. -/
theorem site_bounds {xs : List Site} {f : Fragment} {pc size : Nat} {ls : List (Option Label)}
    (hcode : xs.filterMap Site.code? = f.instrs.zipIdx pc) (hfits : f.Fits pc size ls) {x : Site}
    (hx : x ∈ xs) (hplaced : x.item.instr?.isSome = true) : pc ≤ x.pc ∧ x.pc < pc + size := by
  obtain ⟨i, hi⟩ := Option.isSome_iff_exists.mp hplaced
  have hmem : (i, x.pc) ∈ f.instrs.zipIdx pc := by
    rw [← hcode]
    exact List.mem_filterMap.mpr ⟨x, hx, by rw [Site.code?, hi, Option.map_some]⟩
  have hbounds := List.mem_zipIdx hmem
  rw [hfits.length] at hbounds
  exact ⟨hbounds.1, hbounds.2.1⟩

/-- The bodies of handlers stand where the handlers do. -/
theorem handlers_within (pc : Nat) (cs : List Catch) : ∀ p ∈ (handlersAt pc cs).map Part.handler,
    pc + 1 ≤ p.range.start ∧ p.range.stop ≤ pc + sizeCatches cs := by
  intro p hp
  obtain ⟨h, hh, rfl⟩ := List.mem_map.mp hp
  have := handlersAt_bounds hh
  simp only [Part.range, Handler.body]
  omega

section Try

variable {pc p : Nat} {o : Origin} {body cleanup : Block} {catches : List Catch}

/-- The parts of a try and of the tries inside of it that cover a position. -/
theorem covering_try : covering (partsOf (triesStmt pc (.try o body catches cleanup))) p =
    covering (partsOf (triesBlock (behindCatches pc body catches) cleanup)) p ++
      (covering (partsOf (triesCatches (behindBody pc body) catches)) p ++
        (covering (partsOf (triesBlock pc body)) p ++
          covering (TryAt.parts ⟨pc, body, catches, cleanup⟩) p)) := by
  rw [triesStmt, ← List.singleton_append, partsOf_append, covering_append, partsOf_append,
    covering_append, partsOf_append, covering_append, List.append_assoc, List.append_assoc]
  simp [partsOf]

/-- The try block covers no position behind it. -/
theorem covering_behindBody {t : TryAt} (h : t.region.guarded.stop ≤ p) :
    covering [.guarded t] p = [] := by
  refine covering_none fun q hq => .inr ?_
  rw [List.mem_singleton.mp hq]
  exact h

theorem covering_parts (t : TryAt) : covering t.parts p =
    covering (t.region.cleanup.toList.map .cleanup) p ++
      (covering (t.region.handlers.map .handler) p ++ covering [.guarded t] p) := by
  rw [TryAt.parts, ← List.singleton_append, covering_append, covering_append, List.append_assoc]

/-- In a try block, the parts are those of the tries in it, and the try block. -/
theorem covering_in_body (hp : pc ≤ p ∧ p ≤ pc + sizeBlock body) :
    covering (partsOf (triesStmt pc (.try o body catches cleanup))) p =
      covering (partsOf (triesBlock pc body)) p ++ [.guarded ⟨pc, body, catches, cleanup⟩] := by
  let t : TryAt := ⟨pc, body, catches, cleanup⟩
  have hbehind : p < behindBody pc body := Nat.lt_succ_of_le hp.2
  have hcatches : behindBody pc body ≤ behindCatches pc body catches := Nat.le_add_right _ _
  have hcovers : t.region.guarded.covers p = true := Range.covers_eq_true.mpr ⟨hp.1, hbehind⟩
  rw [covering_try, covering_elsewhere (tries_block_within cleanup _) (.inl (by omega)),
    covering_elsewhere (tries_catches_within catches _) (.inl (by omega)),
    covering_guarded t hcovers, List.nil_append, List.nil_append]

/-- In the handlers, the parts are their bodies and those of the tries in them. -/
theorem covering_in_catches (hp : behindBody pc body ≤ p ∧ p < behindCatches pc body catches) :
    covering (partsOf (triesStmt pc (.try o body catches cleanup))) p =
      covering ((handlersAt (behindBody pc body) catches).map .handler ++
        partsOf (triesCatches (behindBody pc body) catches)) p := by
  let t : TryAt := ⟨pc, body, catches, cleanup⟩
  have hbody : pc + sizeBlock body + 1 = behindBody pc body := rfl
  have hfinally : covering (t.region.cleanup.toList.map .cleanup) p = [] := by
    refine covering_none fun q hq => .inl ?_
    obtain ⟨R, hR, rfl⟩ := List.mem_map.mp hq
    exact Nat.lt_of_lt_of_eq hp.2 (TryAt.cleanup_bounds (Option.mem_toList.mp hR)).1.symm
  rw [covering_try, covering_elsewhere (tries_block_within cleanup _) (.inl hp.2),
    covering_elsewhere (tries_block_within body pc) (.inr (by omega)), covering_parts, hfinally,
    covering_behindBody hp.1, List.append_nil, List.nil_append, List.nil_append, List.nil_append,
    ← covering_append]
  rfl

/-- In the finally, the parts are the finally and those of the tries in it. -/
theorem covering_in_cleanup (hp : behindCatches pc body catches ≤ p) :
    covering (partsOf (triesStmt pc (.try o body catches cleanup))) p =
      covering ((cleanupRange (behindCatches pc body catches) cleanup).toList.map .cleanup ++
        partsOf (triesBlock (behindCatches pc body catches) cleanup)) p := by
  let t : TryAt := ⟨pc, body, catches, cleanup⟩
  have hbody : pc + sizeBlock body + 1 = behindBody pc body := rfl
  have hbehind : behindBody pc body ≤ p := Nat.le_trans (Nat.le_add_right _ _) hp
  have hhandlers : covering (t.region.handlers.map .handler) p = [] :=
    covering_outside (handlers_within _ catches) (.inr hp)
  rw [covering_try, covering_elsewhere (tries_catches_within catches _) (.inr hp),
    covering_elsewhere (tries_block_within body pc) (.inr (by omega)), covering_parts,
    hhandlers, covering_behindBody hbehind, List.append_nil, List.append_nil, List.nil_append,
    List.nil_append, ← covering_append]
  rfl

end Try

section Catch

variable {pc p : Nat} {o : Origin} {target : Option Local} {body : Block} {rest : List Catch}

/-- The parts of handlers that cover a position. -/
theorem covering_catch : covering ((handlersAt pc (.mk o target body :: rest)).map Part.handler ++
    partsOf (triesCatches pc (.mk o target body :: rest))) p =
    covering (partsOf (triesCatches (pc + sizeBlock body + 3) rest)) p ++
      (covering (partsOf (triesBlock (pc + 1) body)) p ++
        (covering ((handlersAt (pc + sizeBlock body + 3) rest).map .handler) p ++
          covering [.handler ⟨⟨pc, pc + sizeBlock body + 1⟩, target⟩] p)) := by
  rw [handlersAt, triesCatches, List.map_cons, ← List.singleton_append, covering_append,
    partsOf_append, covering_append, covering_append, List.append_assoc]

/-- A handler covers no position that is not in its body. -/
theorem covering_handler {h : Handler} (hp : p ≤ h.range.start ∨ h.range.stop ≤ p) :
    covering [.handler h] p = [] := by
  refine covering_none fun q hq => ?_
  rw [List.mem_singleton.mp hq]
  simp only [Part.range, Handler.body]
  omega

/-- In the body of a handler, the parts are those of the tries in it, and the body. -/
theorem covering_in_handler (hp : pc < p ∧ p ≤ pc + sizeBlock body) :
    covering ((handlersAt pc (.mk o target body :: rest)).map Part.handler ++
      partsOf (triesCatches pc (.mk o target body :: rest))) p =
      covering (partsOf (triesBlock (pc + 1) body)) p ++
        [.handler ⟨⟨pc, pc + sizeBlock body + 1⟩, target⟩] := by
  have hcovers : (Part.handler ⟨⟨pc, pc + sizeBlock body + 1⟩, target⟩).range.covers p = true :=
    Range.covers_eq_true.mpr ⟨hp.1, Nat.lt_succ_of_le hp.2⟩
  rw [covering_catch, covering_elsewhere (tries_catches_within rest _) (.inl (by omega)),
    covering_outside (handlers_within _ rest) (.inl (by omega)), covering_single hcovers,
    List.nil_append, List.nil_append]

/-- The instructions around the body of a handler are in no part of it. -/
theorem covering_around_handler (hp : p = pc ∨ p = pc + sizeBlock body + 1 ∨ p = pc + sizeBlock body + 2) :
    covering ((handlersAt pc (.mk o target body :: rest)).map Part.handler ++
      partsOf (triesCatches pc (.mk o target body :: rest))) p = [] := by
  have hhandler : covering [.handler ⟨⟨pc, pc + sizeBlock body + 1⟩, target⟩] p = [] := by
    refine covering_handler ?_
    dsimp only
    omega
  rw [covering_catch, covering_elsewhere (tries_catches_within rest _) (.inl (by omega)),
    covering_elsewhere (tries_block_within body _) (by omega),
    covering_outside (handlers_within _ rest) (.inl (by omega)), hhandler]
  rfl

/-- Behind a handler, the parts are those of the further ones. -/
theorem covering_in_rest (hp : pc + sizeBlock body + 3 ≤ p) :
    covering ((handlersAt pc (.mk o target body :: rest)).map Part.handler ++
      partsOf (triesCatches pc (.mk o target body :: rest))) p =
      covering ((handlersAt (pc + sizeBlock body + 3) rest).map Part.handler ++
        partsOf (triesCatches (pc + sizeBlock body + 3) rest)) p := by
  have hhandler : covering [.handler ⟨⟨pc, pc + sizeBlock body + 1⟩, target⟩] p = [] := by
    refine covering_handler ?_
    dsimp only
    omega
  rw [covering_catch, covering_elsewhere (tries_block_within body _) (.inr (by omega)), hhandler,
    List.append_nil, List.nil_append, ← covering_append]

end Catch

mutual

theorem covering_stmt (around : List Part) (pc : Nat) : ∀ s : Stmt, ∀ x ∈ sitesStmt around pc s,
    x.item.instr?.isSome = true → x.parts = covering (partsOf (triesStmt pc s)) x.pc ++ around
  | .block b, x, hx, hplaced => covering_block around pc b x hx hplaced
  | .list _ ss, x, hx, hplaced => covering_stmts around pc ss x hx hplaced
  | .label .., x, hx, hplaced => by
    rw [List.mem_singleton.mp hx] at hplaced
    cases hplaced
  | .try o body catches cleanup, x, hx, hplaced => by
    simp only [sitesStmt, List.mem_append, List.mem_singleton] at hx
    rcases hx with ((hx | rfl) | hx) | hx
    · have hbounds := site_bounds (code_block _ pc body) (fits_block pc body) hx hplaced
      rw [covering_in_body ⟨hbounds.1, Nat.le_of_lt hbounds.2⟩, List.append_assoc]
      exact covering_block _ pc body x hx hplaced
    · rw [covering_in_body ⟨Nat.le_add_right _ _, Nat.le_refl _⟩,
        covering_elsewhere (tries_block_within body pc) (.inr (Nat.le_refl _))]
      rfl
    · have hbounds := site_bounds (code_catches _ _ _ catches) (fits_catches _ _ catches) hx hplaced
      rw [covering_in_catches hbounds]
      exact covering_catches _ _ _ catches x hx hplaced
    · have hbounds := site_bounds (code_cleanup _ _ cleanup) (fits_cleanup _ cleanup) hx hplaced
      rw [covering_in_cleanup hbounds.1]
      exact covering_cleanup _ _ cleanup x hx hplaced
  | .absent, x, hx, _ | .sequencePoint .., x, hx, _ | .noOp .., x, hx, _
  | .localDeclaration .., x, hx, _ | .expression .., x, hx, _ | .return .., x, hx, _
  | .yieldReturn .., x, hx, _ | .yieldBreak .., x, hx, _ | .throw .., x, hx, _ | .if .., x, hx, _
  | .while .., x, hx, _ | .break .., x, hx, _ | .continue .., x, hx, _ | .goto .., x, hx, _
  | .conditionalGoto .., x, hx, _ | .dispatch .., x, hx, _ | .foreign .., x, hx, _ => by
    rw [sitesStmt_leaf rfl, List.mem_singleton] at hx
    rw [hx]
    rfl

theorem covering_stmts (around : List Part) (pc : Nat) : ∀ ss : List Stmt,
    ∀ x ∈ sitesStmts around pc ss, x.item.instr?.isSome = true →
      x.parts = covering (partsOf (triesStmts pc ss)) x.pc ++ around
  | [], _, hx, _ => nomatch hx
  | s :: rest, x, hx, hplaced => by
    rw [triesStmts, partsOf_append, covering_append]
    rcases List.mem_append.mp hx with hx | hx
    · have hbounds := site_bounds (code_stmt around pc s) (fits_stmt pc s) hx hplaced
      rw [covering_elsewhere (tries_stmts_within rest _) (.inl hbounds.2), List.nil_append]
      exact covering_stmt around pc s x hx hplaced
    · have hbounds := site_bounds (code_stmts around _ rest) (fits_stmts _ rest) hx hplaced
      rw [covering_elsewhere (tries_stmt_within s pc) (.inr hbounds.1), List.append_nil]
      exact covering_stmts around _ rest x hx hplaced

/-- The parts of a site are those that cover it. -/
theorem covering_block (around : List Part) (pc : Nat) : ∀ b : Block,
    ∀ x ∈ sitesBlock around pc b, x.item.instr?.isSome = true →
      x.parts = covering (partsOf (triesBlock pc b)) x.pc ++ around
  | .absent, _, hx, _ => nomatch hx
  | .mk _ _ ss, x, hx, hplaced => covering_stmts around pc ss x hx hplaced

theorem covering_cleanup (around : List Part) (pc : Nat) : ∀ b : Block,
    ∀ x ∈ sitesCleanup around pc b, x.item.instr?.isSome = true →
      x.parts = covering ((cleanupRange pc b).toList.map Part.cleanup ++
        partsOf (triesBlock pc b)) x.pc ++ around
  | .absent, _, hx, _ => nomatch hx
  | .mk o ls ss, x, hx, hplaced => by
    have hbounds := site_bounds (code_cleanup around pc (.mk o ls ss))
      (fits_cleanup pc (.mk o ls ss)) hx hplaced
    have hpart : covering ((cleanupRange pc (.mk o ls ss)).toList.map Part.cleanup) x.pc =
        [.cleanup ⟨pc, pc + sizeStmts ss + 1⟩] :=
      covering_single (Range.covers_eq_true.mpr hbounds)
    rw [covering_append, hpart, List.append_assoc, List.singleton_append, triesBlock]
    simp only [sitesCleanup, List.mem_append, List.mem_singleton] at hx
    rcases hx with hx | rfl
    · exact covering_stmts _ pc ss x hx hplaced
    · rw [covering_elsewhere (tries_stmts_within ss pc) (.inr (Nat.le_refl _))]
      rfl

theorem covering_catches (around : List Part) (behind pc : Nat) : ∀ cs : List Catch,
    ∀ x ∈ sitesCatches around behind pc cs, x.item.instr?.isSome = true →
      x.parts = covering ((handlersAt pc cs).map Part.handler ++
        partsOf (triesCatches pc cs)) x.pc ++ around
  | [], _, hx, _ => nomatch hx
  | .mk o target body :: rest, x, hx, hplaced => by
    simp only [sitesCatches, List.mem_append, List.mem_cons, List.not_mem_nil, or_false] at hx
    rcases hx with (rfl | hx | rfl | rfl) | hx
    · rw [covering_around_handler (.inl rfl), List.nil_append]
    · have hbounds := site_bounds (code_block _ _ body) (fits_block _ body) hx hplaced
      rw [covering_in_handler (by omega), List.append_assoc]
      exact covering_block _ _ body x hx hplaced
    · rw [covering_around_handler (.inr (.inl rfl)), List.nil_append]
    · rw [covering_around_handler (.inr (.inr rfl)), List.nil_append]
    · have hbounds := site_bounds (code_catches _ _ _ rest) (fits_catches _ _ rest) hx hplaced
      rw [covering_in_rest hbounds.1]
      exact covering_catches _ _ _ rest x hx hplaced

end

end Resumable.Machine
