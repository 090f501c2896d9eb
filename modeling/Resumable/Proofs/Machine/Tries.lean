import Mathlib.Data.List.Pairwise
import Resumable.Proofs.Machine.Flattened

/-!
# Where the tries of a body stand

The tries of a body with the positions where they begin, outer ones first (`triesBlock`).  Their
regions are the regions of the routine, in this order (`regions_block`).  Of two tries the later one
stands in a part of the earlier one (its try block, the body of one of its handlers, or its finally)
or behind it (`tries_block_nested`), so the parts that cover a position lie inside each other
(`covering_nested`).
-/

set_option autoImplicit false

namespace Resumable.Machine

open Resumable.Symbol Resumable.Tree

/-- A try of a body, with the position where it begins. -/
structure TryAt where
  pc : Nat
  body : Block
  catches : List Catch
  cleanup : Block

namespace TryAt

/-- What the try becomes. -/
def region (t : TryAt) : Region := regionAt t.pc t.body t.catches t.cleanup

/-- The position behind the try. -/
def behind (t : TryAt) : Nat := behindTry t.pc t.body t.catches t.cleanup

end TryAt

/-- A part of a try: the try block with the jump that completes it, the body of a handler, or the
finally. -/
inductive Part where
  | guarded (t : TryAt)
  | handler (h : Handler)
  | cleanup (range : Range)

namespace Part

/-- The instructions of a part. -/
def range : Part → Range
  | guarded t => t.region.guarded
  | handler h => h.body
  | cleanup range => range

/-- Where tries can stand in a part: before the instruction that completes a try block or a
finally. -/
def room : Part → Range
  | guarded t => ⟨t.pc, t.pc + sizeBlock t.body⟩
  | handler h => h.body
  | cleanup range => ⟨range.start, range.stop - 1⟩

/-- The try whose try block the part is. -/
def guarded? : Part → Option TryAt
  | guarded t => some t
  | _ => none

/-- The handler whose body the part is. -/
def handler? : Part → Option Handler
  | handler h => some h
  | _ => none

/-- The range of the finally that the part is. -/
def cleanup? : Part → Option Range
  | cleanup range => some range
  | _ => none

end Part

namespace TryAt

/-- The parts of a try, as they stand. -/
def parts (t : TryAt) : List Part :=
  .guarded t :: (t.region.handlers.map .handler ++ t.region.cleanup.toList.map .cleanup)

/-- The later one of two tries stands in a part of the earlier one, or behind it. -/
def Precedes (t u : TryAt) : Prop :=
  t.behind ≤ u.pc ∨ ∃ p ∈ t.parts, p.room.start ≤ u.pc ∧ u.behind ≤ p.room.stop

end TryAt

mutual

/-- The tries of a statement that begins at `pc`, outer ones first. -/
def triesStmt (pc : Nat) : Stmt → List TryAt
  | .block b => triesBlock pc b
  | .list _ ss => triesStmts pc ss
  | .try _ body catches cleanup =>
    ⟨pc, body, catches, cleanup⟩ :: (triesBlock pc body ++
      triesCatches (behindBody pc body) catches ++
      triesBlock (behindCatches pc body catches) cleanup)
  | _ => []

/-- The tries of statements. -/
def triesStmts (pc : Nat) : List Stmt → List TryAt
  | [] => []
  | s :: rest => triesStmt pc s ++ triesStmts (pc + sizeStmt s) rest

/-- The tries of a block. -/
def triesBlock (pc : Nat) : Block → List TryAt
  | .absent => []
  | .mk _ _ ss => triesStmts pc ss

/-- The tries of handlers. -/
def triesCatches (pc : Nat) : List Catch → List TryAt
  | [] => []
  | .mk _ _ body :: rest => triesBlock (pc + 1) body ++ triesCatches (pc + sizeBlock body + 3) rest

end

/-! ## Handlers and finallys of a try -/

/-- The handlers of a try stand between its try block and its finally. -/
theorem handlersAt_bounds : ∀ {cs : List Catch} {pc : Nat} {h : Handler}, h ∈ handlersAt pc cs →
    pc ≤ h.range.start ∧ h.range.start + 1 ≤ h.range.stop ∧ h.range.stop + 2 ≤ pc + sizeCatches cs
  | [], _, _, hh => nomatch hh
  | .mk _ target body :: rest, pc, h, hh => by
    rw [sizeCatches]
    rcases List.mem_cons.mp hh with rfl | hh
    · dsimp only
      omega
    · have : pc + sizeBlock body + 3 ≤ h.range.start ∧ h.range.start + 1 ≤ h.range.stop ∧
          h.range.stop + 2 ≤ pc + sizeBlock body + 3 + sizeCatches rest := handlersAt_bounds hh
      omega

/-- The handlers of a try stand one behind the other. -/
theorem handlersAt_ordered : ∀ {cs : List Catch} {pc : Nat},
    (handlersAt pc cs).Pairwise fun h h' => h.range.stop + 2 ≤ h'.range.start
  | [], _ => .nil
  | .mk _ target body :: rest, pc => by
    refine .cons (fun h' hh' => ?_) handlersAt_ordered
    have := handlersAt_bounds hh'
    dsimp only
    omega

theorem cleanupRange_eq_some {pc : Nat} {cleanup : Block} {R : Range}
    (h : cleanupRange pc cleanup = some R) :
    R.start = pc ∧ R.stop = pc + sizeCleanup cleanup ∧ R.start < R.stop := by
  cases cleanup with
  | absent => cases h
  | mk o ls ss =>
    cases h
    refine ⟨rfl, ?_, ?_⟩ <;> simp only [sizeCleanup] <;> omega

/-- A block that stands as a finally is in the room of the finally. -/
theorem sizeBlock_le_cleanup (cleanup : Block) : sizeBlock cleanup ≤ sizeCleanup cleanup := by
  cases cleanup with
  | absent => exact Nat.le_refl _
  | mk o ls ss => exact Nat.le_succ _

namespace TryAt

variable (t : TryAt)

theorem guarded_eq : t.region.guarded = ⟨t.pc, t.pc + sizeBlock t.body + 1⟩ := rfl

theorem guarded_le_behind : t.region.guarded.stop ≤ t.behind := by
  simp only [guarded_eq, behind, behindTry, behindCatches, behindBody]
  omega

variable {t}

/-- The handlers stand behind the try block and before the end of the try. -/
theorem handler_bounds {h : Handler} (hh : h ∈ t.region.handlers) :
    t.region.guarded.stop ≤ h.range.start ∧ h.range.start + 1 ≤ h.range.stop ∧
      h.range.stop + 2 ≤ behindCatches t.pc t.body t.catches := by
  have := handlersAt_bounds hh
  simp only [guarded_eq, behindCatches, behindBody]
  omega

theorem behindCatches_le : behindCatches t.pc t.body t.catches ≤ t.behind := Nat.le_add_right _ _

/-- The finally stands behind the handlers, up to the end of the try. -/
theorem cleanup_bounds {R : Range} (hR : t.region.cleanup = some R) :
    R.start = behindCatches t.pc t.body t.catches ∧ R.stop = t.behind ∧ R.start < R.stop :=
  cleanupRange_eq_some hR

theorem behindCatches_ge : t.region.guarded.stop ≤ behindCatches t.pc t.body t.catches := by
  simp only [guarded_eq, behindCatches, behindBody]
  omega

theorem mem_parts {p : Part} : p ∈ t.parts ↔ p = .guarded t ∨
    (∃ h ∈ t.region.handlers, p = .handler h) ∨
      ∃ R, t.region.cleanup = some R ∧ p = .cleanup R := by
  simp only [parts, List.mem_append, List.mem_cons, List.mem_map, Option.mem_toList,
    eq_comm (b := p)]

/-- The parts of a try stand in the try. -/
theorem part_bounds {p : Part} (hp : p ∈ t.parts) :
    t.pc ≤ p.range.start ∧ p.range.stop ≤ t.behind := by
  have hguarded := t.guarded_le_behind
  have hcatches := behindCatches_le (t := t)
  rcases mem_parts.mp hp with rfl | ⟨h, hh, rfl⟩ | ⟨R, hR, rfl⟩
  · exact ⟨Nat.le_refl _, hguarded⟩
  · have := handler_bounds hh
    simp only [guarded_eq] at this
    simp only [Part.range, Handler.body]
    omega
  · have := cleanup_bounds hR
    have := behindCatches_ge (t := t)
    simp only [guarded_eq] at this
    simp only [Part.range]
    omega

/-- The parts of a try stand one behind the other. -/
theorem parts_ordered (t : TryAt) :
    t.parts.Pairwise fun p q => p.range.stop ≤ q.range.start := by
  have hge := behindCatches_ge (t := t)
  refine .cons (fun q hq => ?_) (List.pairwise_append.mpr ⟨?_, ?_, ?_⟩)
  · rcases List.mem_append.mp hq with hq | hq
    · obtain ⟨h, hh, rfl⟩ := List.mem_map.mp hq
      exact Nat.le_succ_of_le (handler_bounds hh).1
    · obtain ⟨R, hR, rfl⟩ := List.mem_map.mp hq
      simp only [Part.range, (cleanup_bounds (Option.mem_toList.mp hR)).1]
      exact hge
  · refine List.pairwise_map.mpr (handlersAt_ordered.imp fun h => ?_)
    simp only [Part.range, Handler.body]
    omega
  · cases t.region.cleanup with
    | none => exact .nil
    | some R => exact List.pairwise_singleton _ _
  · intro p hp q hq
    obtain ⟨h, hh, rfl⟩ := List.mem_map.mp hp
    obtain ⟨R, hR, rfl⟩ := List.mem_map.mp hq
    have := handler_bounds hh
    have := cleanup_bounds (Option.mem_toList.mp hR)
    simp only [Part.range, Handler.body]
    omega

/-- Only one part of a try covers a position. -/
theorem part_unique {p q : Part} (hp : p ∈ t.parts) (hq : q ∈ t.parts) {pc : Nat}
    (hcovers : p.range.covers pc = true) (hcovers' : q.range.covers pc = true) : p = q := by
  refine Classical.byContradiction fun hne => ?_
  let apart := fun p q : Part => p.range.stop ≤ q.range.start ∨ q.range.stop ≤ p.range.start
  have hsymm : Std.Symm apart := ⟨fun _ _ h => h.symm⟩
  have := ((parts_ordered t).imp (S := apart) .inl).forall hp hq hne
  rw [Range.covers_eq_true] at hcovers hcovers'
  omega

end TryAt

/-! ## Tries inside of a part -/

mutual

theorem tries_stmt_within : ∀ (s : Stmt) (pc : Nat), ∀ t ∈ triesStmt pc s,
    pc ≤ t.pc ∧ t.behind ≤ pc + sizeStmt s
  | .block b, pc, t, ht => tries_block_within b pc t ht
  | .list _ ss, pc, t, ht => tries_stmts_within ss pc t ht
  | .try o body catches cleanup, pc, t, ht => by
    have hsize : pc + sizeStmt (.try o body catches cleanup) =
        behindTry pc body catches cleanup := by
      simp only [sizeStmt, behindTry, behindCatches, behindBody]
      omega
    rw [hsize]
    simp only [triesStmt, List.mem_cons, List.mem_append] at ht
    have hcleanup := sizeBlock_le_cleanup cleanup
    rcases ht with rfl | (ht | ht) | ht
    · exact ⟨Nat.le_refl _, Nat.le_refl _⟩
    · have := tries_block_within body pc t ht
      simp only [behindTry, behindCatches, behindBody]
      omega
    · have := tries_catches_within catches _ t ht
      simp only [behindTry, behindCatches, behindBody] at this ⊢
      omega
    · have := tries_block_within cleanup _ t ht
      simp only [behindTry, behindCatches, behindBody] at this ⊢
      omega
  | .absent, _, _, ht | .sequencePoint .., _, _, ht | .noOp .., _, _, ht
  | .localDeclaration .., _, _, ht | .expression .., _, _, ht | .return .., _, _, ht
  | .yieldReturn .., _, _, ht | .yieldBreak .., _, _, ht | .throw .., _, _, ht | .if .., _, _, ht
  | .while .., _, _, ht | .break .., _, _, ht | .continue .., _, _, ht | .label .., _, _, ht
  | .goto .., _, _, ht | .conditionalGoto .., _, _, ht | .dispatch .., _, _, ht
  | .foreign .., _, _, ht => nomatch ht

theorem tries_stmts_within : ∀ (ss : List Stmt) (pc : Nat), ∀ t ∈ triesStmts pc ss,
    pc ≤ t.pc ∧ t.behind ≤ pc + sizeStmts ss
  | [], _, _, ht => nomatch ht
  | s :: rest, pc, t, ht => by
    rw [sizeStmts]
    rcases List.mem_append.mp ht with ht | ht
    · have := tries_stmt_within s pc t ht
      omega
    · have := tries_stmts_within rest _ t ht
      omega

/-- The tries of a block stand where the block does. -/
theorem tries_block_within : ∀ (b : Block) (pc : Nat), ∀ t ∈ triesBlock pc b,
    pc ≤ t.pc ∧ t.behind ≤ pc + sizeBlock b
  | .absent, _, _, ht => nomatch ht
  | .mk _ _ ss, pc, t, ht => tries_stmts_within ss pc t ht

theorem tries_catches_within : ∀ (cs : List Catch) (pc : Nat), ∀ t ∈ triesCatches pc cs,
    pc ≤ t.pc ∧ t.behind ≤ pc + sizeCatches cs
  | [], _, _, ht => nomatch ht
  | .mk _ _ body :: rest, pc, t, ht => by
    rw [sizeCatches]
    rcases List.mem_append.mp ht with ht | ht
    · have := tries_block_within body _ t ht
      omega
    · have := tries_catches_within rest _ t ht
      omega

end

/-- The tries of handlers stand in the bodies of the handlers. -/
theorem tries_in_handlers : ∀ {cs : List Catch} {pc : Nat}, ∀ t ∈ triesCatches pc cs,
    ∃ h ∈ handlersAt pc cs, h.body.start ≤ t.pc ∧ t.behind ≤ h.body.stop
  | [], _, _, ht => nomatch ht
  | .mk _ target body :: rest, pc, t, ht => by
    rcases List.mem_append.mp ht with ht | ht
    · refine ⟨_, List.mem_cons_self, ?_⟩
      have := tries_block_within body _ t ht
      simp only [Handler.body]
      omega
    · obtain ⟨h, hh, hbounds⟩ := tries_in_handlers t ht
      exact ⟨h, List.mem_cons_of_mem _ hh, hbounds⟩

open TryAt (Precedes)

/-- Tries that stand one behind the other. -/
theorem precedes_append {ts us : List TryAt} {p : Nat} (hts : ts.Pairwise Precedes)
    (hus : us.Pairwise Precedes) (hbefore : ∀ t ∈ ts, t.behind ≤ p) (hbehind : ∀ u ∈ us, p ≤ u.pc) :
    (ts ++ us).Pairwise Precedes :=
  List.pairwise_append.mpr ⟨hts, hus, fun t ht u hu =>
    .inl (Nat.le_trans (hbefore t ht) (hbehind u hu))⟩

mutual

theorem tries_stmt_nested : ∀ (s : Stmt) (pc : Nat), (triesStmt pc s).Pairwise Precedes
  | .block b, pc => tries_block_nested b pc
  | .list _ ss, pc => tries_stmts_nested ss pc
  | .try _ body catches cleanup, pc => by
    have hbody := tries_block_within body pc
    have hcatches := tries_catches_within catches (behindBody pc body)
    have hcleanup := tries_block_within cleanup (behindCatches pc body catches)
    refine .cons (fun u hu => ?_) ?_
    · refine .inr ?_
      rw [List.mem_append, List.mem_append] at hu
      rcases hu with (hu | hu) | hu
      · exact ⟨_, TryAt.mem_parts.mpr (.inl rfl), hbody u hu⟩
      · obtain ⟨h, hh, hbounds⟩ := tries_in_handlers u hu
        exact ⟨_, TryAt.mem_parts.mpr (.inr (.inl ⟨h, hh, rfl⟩)), hbounds⟩
      · cases cleanup with
        | absent => cases hu
        | mk o ls ss =>
          refine ⟨_, TryAt.mem_parts.mpr (.inr (.inr ⟨_, rfl, rfl⟩)), ?_⟩
          exact hcleanup u hu
    · refine precedes_append (precedes_append (tries_block_nested body pc)
        (tries_catches_nested catches _) (p := behindBody pc body) (fun t ht => ?_) fun u hu => ?_)
        (tries_block_nested cleanup _) (p := behindCatches pc body catches) (fun t ht => ?_)
        fun u hu => (hcleanup u hu).1
      · have := hbody t ht
        simp only [behindBody]
        omega
      · exact (hcatches u hu).1
      · rcases List.mem_append.mp ht with ht | ht
        · have := hbody t ht
          simp only [behindCatches, behindBody]
          omega
        · exact (hcatches t ht).2
  | .absent, _ | .sequencePoint .., _ | .noOp .., _ | .localDeclaration .., _ | .expression .., _
  | .return .., _ | .yieldReturn .., _ | .yieldBreak .., _ | .throw .., _ | .if .., _
  | .while .., _ | .break .., _ | .continue .., _ | .label .., _ | .goto .., _
  | .conditionalGoto .., _ | .dispatch .., _ | .foreign .., _ => .nil

theorem tries_stmts_nested : ∀ (ss : List Stmt) (pc : Nat), (triesStmts pc ss).Pairwise Precedes
  | [], _ => .nil
  | s :: rest, pc => precedes_append (tries_stmt_nested s pc) (tries_stmts_nested rest _)
      (fun t ht => (tries_stmt_within s pc t ht).2)
      fun u hu => (tries_stmts_within rest _ u hu).1

/-- Of two tries of a block the later one stands in a part of the earlier one, or behind it. -/
theorem tries_block_nested : ∀ (b : Block) (pc : Nat), (triesBlock pc b).Pairwise Precedes
  | .absent, _ => .nil
  | .mk _ _ ss, pc => tries_stmts_nested ss pc

theorem tries_catches_nested : ∀ (cs : List Catch) (pc : Nat),
    (triesCatches pc cs).Pairwise Precedes
  | [], _ => .nil
  | .mk _ _ body :: rest, pc => by
    refine precedes_append (tries_block_nested body _) (tries_catches_nested rest _)
      (p := pc + sizeBlock body + 3) (fun t ht => ?_) fun u hu =>
      (tries_catches_within rest _ u hu).1
    have := tries_block_within body _ t ht
    omega

end

/-! ## Regions -/

mutual

theorem regions_stmt : ∀ (s : Stmt) (pc : Nat),
    (flattenStmt pc s).regions = (triesStmt pc s).map TryAt.region
  | .block b, pc => regions_block b pc
  | .list _ ss, pc => regions_stmts ss pc
  | .try o body catches cleanup, pc => by
    rw [flattenStmt_try, triesStmt]
    simp [regions_block, regions_catches, regions_cleanup, TryAt.region]
  | .label .., _ => rfl
  | .absent, pc | .sequencePoint .., pc | .noOp .., pc | .localDeclaration .., pc
  | .expression .., pc | .return .., pc | .yieldReturn .., pc | .yieldBreak .., pc | .throw .., pc
  | .if .., pc | .while .., pc | .break .., pc | .continue .., pc | .goto .., pc
  | .conditionalGoto .., pc | .dispatch .., pc | .foreign .., pc => by
    rw [(flattenStmt_leaf rfl pc).1]
    rfl

theorem regions_stmts : ∀ (ss : List Stmt) (pc : Nat),
    (flattenStmts pc ss).regions = (triesStmts pc ss).map TryAt.region
  | [], _ => rfl
  | s :: rest, pc => by
    rw [flattenStmts, triesStmts, Fragment.append_regions, List.map_append, regions_stmt,
      regions_stmts]

/-- The regions of a block are those of its tries. -/
theorem regions_block : ∀ (b : Block) (pc : Nat),
    (flattenBlock pc b).regions = (triesBlock pc b).map TryAt.region
  | .absent, _ => rfl
  | .mk _ _ ss, pc => regions_stmts ss pc

theorem regions_cleanup : ∀ (b : Block) (pc : Nat),
    (flattenCleanup pc b).regions = (triesBlock pc b).map TryAt.region
  | .absent, _ => rfl
  | .mk _ _ ss, pc => by
    rw [flattenCleanup, Fragment.append_regions, regions_stmts]
    exact List.append_nil _

theorem regions_catches : ∀ (cs : List Catch) (pc behind : Nat),
    (flattenCatches pc behind cs).regions = (triesCatches pc cs).map TryAt.region
  | [], _, _ => rfl
  | .mk _ _ body :: rest, pc, behind => by
    simp [flattenCatches, triesCatches, regions_block, regions_catches]

end

/-! ## Parts that cover a position -/

/-- The parts of tries. -/
def partsOf (ts : List TryAt) : List Part := ts.flatMap TryAt.parts

/-- The parts that cover a position, the last one first. -/
def covering (ps : List Part) (pc : Nat) : List Part :=
  (ps.filter fun p => p.range.covers pc).reverse

theorem partsOf_append (ts us : List TryAt) : partsOf (ts ++ us) = partsOf ts ++ partsOf us :=
  List.flatMap_append

theorem covering_append (ps qs : List Part) (pc : Nat) :
    covering (ps ++ qs) pc = covering qs pc ++ covering ps pc := by
  simp only [covering, List.filter_append, List.reverse_append]

theorem mem_covering {ps : List Part} {pc : Nat} {p : Part} :
    p ∈ covering ps pc ↔ p ∈ ps ∧ p.range.covers pc = true := by
  simp only [covering, List.mem_reverse, List.mem_filter]

theorem covering_none {ps : List Part} {pc : Nat}
    (h : ∀ p ∈ ps, pc < p.range.start ∨ p.range.stop ≤ pc) : covering ps pc = [] := by
  refine List.eq_nil_iff_forall_not_mem.mpr fun p hp => ?_
  obtain ⟨hmem, hcovers⟩ := mem_covering.mp hp
  rw [Range.covers_eq_false.mpr (h p hmem)] at hcovers
  cases hcovers

/-- Parts that stand elsewhere do not cover a position. -/
theorem covering_outside {ps : List Part} {start stop pc : Nat}
    (hps : ∀ p ∈ ps, start ≤ p.range.start ∧ p.range.stop ≤ stop) (hpc : pc < start ∨ stop ≤ pc) :
    covering ps pc = [] := by
  refine covering_none fun p hp => ?_
  have := hps p hp
  omega

theorem covering_elsewhere {ts : List TryAt} {start stop pc : Nat}
    (hts : ∀ t ∈ ts, start ≤ t.pc ∧ t.behind ≤ stop) (hpc : pc < start ∨ stop ≤ pc) :
    covering (partsOf ts) pc = [] := by
  refine covering_outside (fun p hp => ?_) hpc
  obtain ⟨t, ht, hpart⟩ := List.mem_flatMap.mp hp
  have := hts t ht
  have := TryAt.part_bounds hpart
  omega

theorem covering_single {p : Part} {pc : Nat} (h : p.range.covers pc = true) :
    covering [p] pc = [p] := by
  simp [covering, h]

/-- Of the parts of a try, the try block covers the positions up to the first handler. -/
theorem covering_guarded (t : TryAt) {pc : Nat} (h : t.region.guarded.covers pc = true) :
    covering t.parts pc = [.guarded t] := by
  have hrest : covering (t.region.handlers.map .handler ++ t.region.cleanup.toList.map .cleanup)
      pc = [] := by
    refine List.eq_nil_iff_forall_not_mem.mpr fun q hq => ?_
    obtain ⟨hmem, hcovers⟩ := mem_covering.mp hq
    cases TryAt.part_unique (List.mem_cons_of_mem _ hmem) List.mem_cons_self hcovers h
    rcases List.mem_append.mp hmem with hmem | hmem <;> simp at hmem
  have hfirst : covering [.guarded t] pc = [.guarded t] := covering_single h
  rw [TryAt.parts, ← List.singleton_append, covering_append, hrest, hfirst, List.nil_append]

namespace Part

/-- The one part lies inside the other, and it ends before the other does unless that is the body of
a handler. -/
structure Inside (p q : Part) : Prop where
  start : q.range.start ≤ p.range.start
  stop : p.range.stop ≤ q.range.stop
  strict : q.handler? = none → p.range.stop < q.range.stop

/-- A part that stands in the room of another one lies inside of it. -/
theorem Inside.of_room {p q : Part} (hstart : q.room.start ≤ p.range.start)
    (hstop : p.range.stop ≤ q.room.stop) (hne : p.range.start < p.range.stop) : p.Inside q := by
  cases q with
  | guarded t => exact ⟨hstart, Nat.le_succ_of_le hstop, fun _ => Nat.lt_succ_of_le hstop⟩
  | handler h => exact ⟨hstart, hstop, fun h => nomatch h⟩
  | cleanup R =>
    simp only [room] at hstart hstop
    have hlt : p.range.stop < R.stop := by omega
    exact ⟨hstart, Nat.le_of_lt hlt, fun _ => hlt⟩

theorem room_within (p : Part) : p.range.start ≤ p.room.start ∧ p.room.stop ≤ p.range.stop := by
  cases p with
  | guarded t => exact ⟨Nat.le_refl _, Nat.le_succ _⟩
  | handler h => exact ⟨Nat.le_refl _, Nat.le_refl _⟩
  | cleanup R => exact ⟨Nat.le_refl _, Nat.sub_le _ _⟩

end Part

/-- Of two tries of a list one stands before the other. -/
theorem tries_related {ts : List TryAt} (h : ts.Pairwise Precedes) {t u : TryAt} (ht : t ∈ ts)
    (hu : u ∈ ts) : t = u ∨ t.Precedes u ∨ u.Precedes t := by
  refine Classical.or_iff_not_imp_left.mpr fun hne => ?_
  let related := fun t u : TryAt => t.Precedes u ∨ u.Precedes t
  have hsymm : Std.Symm related := ⟨fun _ _ h => h.symm⟩
  exact (h.imp (S := related) .inl).forall ht hu hne

/-- A part of a later try that covers a position lies inside the part of an earlier one that covers
it. -/
theorem TryAt.Precedes.inside {t u : TryAt} (h : t.Precedes u) {p q : Part} (hq : q ∈ t.parts)
    (hp : p ∈ u.parts) {pc : Nat} (hcovers : q.range.covers pc = true)
    (hcovers' : p.range.covers pc = true) : p.Inside q := by
  have hpbounds := part_bounds hp
  have hqbounds := part_bounds hq
  have hpc := Range.covers_eq_true.mp hcovers
  have hpc' := Range.covers_eq_true.mp hcovers'
  rcases h with hbehind | ⟨q', hq', hstart, hstop⟩
  · omega
  · have hwithin := q'.room_within
    obtain rfl : q' = q := by
      refine part_unique hq' hq ?_ hcovers
      rw [Range.covers_eq_true]
      omega
    exact .of_room (by omega) (by omega) (by omega)

/-- The parts of tries that cover a position lie inside each other, the innermost first. -/
theorem covering_nested {ts : List TryAt} (h : ts.Pairwise Precedes) (pc : Nat) :
    (covering (partsOf ts) pc).Pairwise Part.Inside := by
  rw [covering, List.pairwise_reverse, partsOf, List.filter_flatMap, List.pairwise_flatMap]
  refine ⟨fun t _ => ?_, h.imp fun htu q hq p hp => ?_⟩
  · refine (t.parts_ordered.filter _).imp_of_mem fun {q p} hq hp hle => ?_
    rw [List.mem_filter, Range.covers_eq_true] at hq hp
    omega
  · rw [List.mem_filter] at hq hp
    exact htu.inside hq.1 hp.1 hq.2 hp.2

/-- A try whose try block covers a position in a part of another try, inside of which it lies, stands
in the room of that part. -/
theorem try_in_room {ts : List TryAt} (hts : ts.Pairwise Precedes) {t u : TryAt} (ht : t ∈ ts)
    (hu : u ∈ ts) {p : Part} (hp : p ∈ u.parts) {pc : Nat}
    (hcovers : t.region.guarded.covers pc = true) (hcovers' : p.range.covers pc = true)
    (hinside : (Part.guarded t).Inside p) : p.room.start ≤ t.pc ∧ t.behind ≤ p.room.stop := by
  have hguarded : Part.guarded t ∈ t.parts := List.mem_cons_self
  have hirrefl : ¬ p.Inside (.guarded t) := fun h => by
    have := h.strict rfl
    have := hinside.stop
    omega
  rcases tries_related hts ht hu with rfl | htu | hut
  · obtain rfl := TryAt.part_unique hp hguarded hcovers' hcovers
    exact absurd hinside hirrefl
  · exact absurd (htu.inside hguarded hp hcovers hcovers') hirrefl
  · rcases hut with hbehind | ⟨q, hq, hstart, hstop⟩
    · have := TryAt.part_bounds hp
      have hpc := Range.covers_eq_true.mp hcovers
      have hpc' := Range.covers_eq_true.mp hcovers'
      simp only [TryAt.guarded_eq] at hpc
      omega
    · have hwithin := q.room_within
      have hguard := t.guarded_le_behind
      obtain rfl : q = p := by
        refine TryAt.part_unique hq hp ?_ hcovers'
        rw [Range.covers_eq_true, TryAt.guarded_eq] at hcovers
        rw [TryAt.guarded_eq] at hguard
        rw [Range.covers_eq_true]
        dsimp only at hcovers hguard
        omega
      exact ⟨hstart, hstop⟩

/-- The regions of tries that guard a position are those of the parts that cover it. -/
theorem covering_tries (ts : List TryAt) (pc : Nat) : (covering (partsOf ts) pc).filterMap Part.guarded? =
    (ts.filter fun t => t.region.guarded.covers pc).reverse := by
  have hone : ∀ t : TryAt, (covering t.parts pc).filterMap Part.guarded? =
      if t.region.guarded.covers pc then [t] else [] := by
    intro t
    split
    · rename_i hcovers
      rw [covering_guarded t hcovers]
      rfl
    · rename_i hcovers
      refine List.filterMap_eq_nil_iff.mpr fun p hp => ?_
      obtain ⟨hmem, hp⟩ := mem_covering.mp hp
      rcases TryAt.mem_parts.mp hmem with rfl | ⟨h, -, rfl⟩ | ⟨R, -, rfl⟩
      · exact absurd hp hcovers
      · rfl
      · rfl
  induction ts with
  | nil => rfl
  | cons t rest ih =>
    rw [partsOf, List.flatMap_cons, covering_append, List.filterMap_append, hone, List.filter_cons]
    refine (congrArg (· ++ _) ih).trans ?_
    split
    · rw [List.reverse_cons]
    · rw [List.append_nil]

end Resumable.Machine
