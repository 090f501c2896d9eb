import Resumable.Proofs.Machine.Catches
import Resumable.Proofs.Machine.Held

/-!
# What is held at a position

In a run of a scope, the failures of the handlers in the scope that control is in are held, the
innermost first (`HeldAt`), above those that were held when the run began (`HeldAbove`).  Each way in
which control goes on preserves this, if it enters no handler and does not end one by a jump.
-/

set_option autoImplicit false

namespace Resumable.Machine

open Resumable.Symbol Resumable.Tree

/-! ## Handlers around a position -/

section Around

variable {ts : List TryAt} {t u : TryAt} {h h' : Handler} {p : Nat}

/-- Of the handlers of one try only one has a given position between its first and its last
instruction. -/
theorem TryAt.handler_unique (hh : h ∈ t.region.handlers) (hh' : h' ∈ t.region.handlers)
    (hp : h.range.start ≤ p ∧ p ≤ h.range.stop) (hp' : h'.range.start ≤ p ∧ p ≤ h'.range.stop) :
    h = h' := by
  refine Classical.byContradiction fun hne => ?_
  let apart := fun h h' : Handler =>
    h.range.stop + 2 ≤ h'.range.start ∨ h'.range.stop + 2 ≤ h.range.start
  have hsymm : Std.Symm apart := ⟨fun _ _ h => h.symm⟩
  have := (handlersAt_ordered.imp (S := apart) .inl).forall hh hh' hne
  simp only [apart] at this
  omega

/-- A handler with a position of a try, outside of where tries can stand in its parts, is one of this
try, or the try stands in the handler. -/
theorem handler_around (hts : ts.Pairwise TryAt.Precedes) (ht : t ∈ ts) (hu : u ∈ ts)
    (hh : h ∈ u.region.handlers) (hpc : t.pc ≤ p ∧ p < t.behind)
    (hroom : ∀ q ∈ t.parts, p ≤ q.room.start ∨ q.room.stop ≤ p)
    (hp : h.range.start ≤ p ∧ p ≤ h.range.stop) :
    h ∈ t.region.handlers ∨ (h.body.start ≤ t.pc ∧ t.behind ≤ h.body.stop) := by
  have hbounds := TryAt.handler_bounds hh
  have hle := TryAt.behindCatches_le (t := u)
  simp only [TryAt.guarded_eq] at hbounds
  rcases tries_related hts ht hu with rfl | htu | hut
  · exact .inl hh
  · rcases htu with hafter | ⟨q, hq, hstart, hstop⟩
    · omega
    · have := hroom q hq
      omega
  · rcases hut with hbefore | ⟨q, hq, hstart, hstop⟩
    · omega
    · rcases TryAt.mem_parts.mp hq with rfl | ⟨h', hh', rfl⟩ | ⟨R, hR, rfl⟩
      · simp only [Part.room] at hstop
        omega
      · simp only [Part.room, Handler.body] at hstart hstop
        obtain rfl := TryAt.handler_unique hh hh' hp (by omega)
        exact .inr ⟨hstart, hstop⟩
      · have := TryAt.cleanup_bounds hR
        simp only [Part.room] at hstart
        omega

/-- Where a handler starts, the only handlers are this one and those that its try stands in. -/
theorem handler_at_start (hts : ts.Pairwise TryAt.Precedes) (ht : t ∈ ts)
    (hh : h ∈ t.region.handlers) (hh' : .handler h' ∈ partsOf ts)
    (hp : h'.range.start ≤ h.body.start ∧ h.body.start ≤ h'.range.stop) :
    h' = h ∨ (h'.body.start ≤ t.pc ∧ t.behind ≤ h'.body.stop) := by
  obtain ⟨u, hu, hh'⟩ := handler_mem_partsOf.mp hh'
  have hbounds := TryAt.handler_bounds hh
  have hle := TryAt.behindCatches_le (t := t)
  simp only [TryAt.guarded_eq] at hbounds
  have hbody : h.body.start = h.range.start + 1 := rfl
  refine (handler_around hts ht hu hh' (by omega) (TryAt.handler_rooms hh) hp).imp_left fun hh' => ?_
  exact TryAt.handler_unique hh' hh hp (by omega)

/-- So it is where a finally starts, and there the tries of all the handlers stand in them. -/
theorem handler_at_cleanup (hts : ts.Pairwise TryAt.Precedes) (ht : t ∈ ts) {C : Range}
    (hC : t.region.cleanup = some C) (hh : .handler h ∈ partsOf ts)
    (hp : h.range.start ≤ C.start ∧ C.start ≤ h.range.stop) :
    h.body.start ≤ t.pc ∧ t.behind ≤ h.body.stop := by
  obtain ⟨u, hu, hh⟩ := handler_mem_partsOf.mp hh
  have hbounds := TryAt.cleanup_bounds hC
  have hstart := TryAt.cleanup_behind hC
  refine (handler_around hts ht hu hh (by omega) (TryAt.cleanup_rooms hC) hp).resolve_left fun hh => ?_
  have := TryAt.handler_bounds hh
  omega

end Around

/-! ## What is held at a position -/

/-- The one range lies inside the other, and it begins later and ends earlier. -/
def Range.Inside (r outer : Range) : Prop := outer.start < r.start ∧ r.stop < outer.stop

/-- The handlers of tries that cover a position lie inside each other, the innermost first. -/
theorem handlersIn_nested {ts : List TryAt} (hts : ts.Pairwise TryAt.Precedes) (pc : Nat) :
    ((handlersIn (partsOf ts) pc).map Handler.body).Pairwise Range.Inside := by
  rw [List.pairwise_map, handlersIn, List.pairwise_filterMap, covering, List.pairwise_reverse, partsOf,
    List.filter_flatMap, List.pairwise_flatMap]
  refine ⟨fun t _ => ?_, hts.imp fun {t u} htu q hq p hp h hh h' hh' => ?_⟩
  · refine (t.parts_ordered.filter _).imp_of_mem fun {q p} hq hp hle => ?_
    rw [List.mem_filter, Range.covers_eq_true] at hq hp
    omega
  · rw [List.mem_filter] at hq hp
    obtain rfl : p = .handler h := by
      cases p <;> cases hh
      rfl
    obtain rfl : q = .handler h' := by
      cases q <;> cases hh'
      rfl
    have hbounds := TryAt.handler_bounds (TryAt.handler_mem_parts.mp hp.1)
    have hle := TryAt.behindCatches_le (t := u)
    have hcovers := Range.covers_eq_true.mp hp.2
    have hcovers' := Range.covers_eq_true.mp hq.2
    have hq' := TryAt.part_bounds hq.1
    simp only [TryAt.guarded_eq] at hbounds
    simp only [Part.range, Handler.body] at hcovers hcovers' hq'
    rcases htu with hbehind | ⟨q', hq'', hstart, hstop⟩
    · omega
    · have hwithin := q'.room_within
      have hcovers'' : q'.range.covers pc = true := Range.covers_eq_true.mpr (by omega)
      obtain rfl := TryAt.part_unique hq'' hq.1 hcovers'' hq.2
      simp only [Part.room, Handler.body] at hstart hstop
      exact ⟨by simp only [Handler.body]; omega, by simp only [Handler.body]; omega⟩

/-- The position is in the body of the handler or directly behind it, and the handler with the
instruction that ends it is in the scope. -/
structure Handler.Holds (h : Handler) (scope : Range) (pc : Nat) : Prop where
  position : h.body.start ≤ pc ∧ pc ≤ h.body.stop
  scope : scope.start ≤ h.range.start ∧ h.range.stop < scope.stop

/-- The bodies of the handlers in the scope that control is in, the innermost first.  No handler
begins at the position. -/
structure HeldAt (ts : List TryAt) (scope : Range) (pc : Nat) (held : List Range) : Prop where
  nested : held.Pairwise Range.Inside
  mem : ∀ R, R ∈ held ↔ ∃ h, .handler h ∈ partsOf ts ∧ h.body = R ∧ h.Holds scope pc
  outside : ∀ h, .handler h ∈ partsOf ts → h.range.start ≠ pc

namespace HeldAt

variable {ts : List TryAt} {scope : Range} {pc p : Nat} {held : List Range}

/-- There is only one such list. -/
theorem unique {held' : List Range} (h : HeldAt ts scope pc held) (hnested : held'.Pairwise Range.Inside)
    (hmem : ∀ R, R ∈ held' ↔ R ∈ held) : held' = held := by
  have hnodup : ∀ rs : List Range, rs.Pairwise Range.Inside → rs.Nodup := fun rs hrs =>
    hrs.imp fun {r outer} hinside heq => by
      subst heq
      exact Nat.lt_irrefl _ hinside.1
  have hperm := (List.perm_ext_iff_of_nodup (hnodup _ hnested) (hnodup _ h.nested)).mpr hmem
  exact hperm.eq_of_pairwise (fun r r' _ _ hr hr' => absurd hr.1 (Nat.lt_asymm hr'.1)) hnested h.nested

/-- Where a scope begins, control is in none of its handlers. -/
theorem start (houtside : ∀ h, .handler h ∈ partsOf ts → h.range.start ≠ scope.start) :
    HeldAt ts scope scope.start [] := by
  refine ⟨.nil, fun R => ⟨nofun, ?_⟩, houtside⟩
  rintro ⟨h, -, rfl, hposition, hscope⟩
  simp only [Handler.body] at hposition
  omega

/-- Control moves to a position in the same handlers. -/
theorem move (h : HeldAt ts scope pc held)
    (hsame : ∀ h, .handler h ∈ partsOf ts → h.Holds scope p → h.Holds scope pc)
    (hsame' : ∀ h, .handler h ∈ partsOf ts → h.Holds scope pc → h.Holds scope p)
    (houtside : ∀ h, .handler h ∈ partsOf ts → h.range.start ≠ p) : HeldAt ts scope p held := by
  refine ⟨h.nested, fun R => (h.mem R).trans ⟨?_, ?_⟩, houtside⟩
  · rintro ⟨handler, hmem, rfl, hholds⟩
    exact ⟨handler, hmem, rfl, hsame' handler hmem hholds⟩
  · rintro ⟨handler, hmem, rfl, hholds⟩
    exact ⟨handler, hmem, rfl, hsame handler hmem hholds⟩

/-- Control jumps to a position where no handler ends, and out of handlers only. -/
theorem jump (h : HeldAt ts scope pc held)
    (hsub : ∀ h, .handler h ∈ partsOf ts → h.Holds scope p → h.Holds scope pc)
    (houtside : ∀ h, .handler h ∈ partsOf ts → h.range.start ≠ p ∧ h.range.stop ≠ p) :
    HeldAt ts scope p (held.filter fun R => R.covers p) := by
  refine ⟨h.nested.filter _, fun R => ?_, fun h hmem => (houtside h hmem).1⟩
  rw [List.mem_filter, h.mem, Range.covers_eq_true]
  constructor
  · rintro ⟨⟨handler, hmem, rfl, hholds⟩, hcovers⟩
    exact ⟨handler, hmem, rfl, ⟨hcovers.1, Nat.le_of_lt hcovers.2⟩, hholds.scope⟩
  · rintro ⟨handler, hmem, rfl, hholds⟩
    refine ⟨⟨handler, hmem, rfl, hsub handler hmem hholds⟩, hholds.position.1, ?_⟩
    exact Nat.lt_of_le_of_ne hholds.position.2 fun hstop => (houtside handler hmem).2 hstop.symm

/-- A handler of a try around the position takes a failure. -/
theorem handle (h : HeldAt ts scope pc held) (hts : ts.Pairwise TryAt.Precedes) {t : TryAt} (ht : t ∈ ts)
    (hcovers : t.region.guarded.covers pc = true) (hscope : scope.start ≤ t.pc ∧ t.behind < scope.stop)
    {handler : Handler} (hh : handler ∈ t.region.handlers) : HeldAt ts scope handler.body.start
      (handler.body :: held.filter fun R => R.covers handler.body.start) := by
  have hbounds := TryAt.handler_bounds hh
  have hle := TryAt.behindCatches_le (t := t)
  have hbody : handler.body.start = handler.range.start + 1 := rfl
  have hstop : handler.body.stop = handler.range.stop := rfl
  simp only [TryAt.guarded_eq, Range.covers_eq_true] at hbounds hcovers
  have haround : ∀ h', .handler h' ∈ partsOf ts → h'.range.start ≤ handler.body.start ∧
      handler.body.start ≤ h'.range.stop → h' = handler ∨ (h'.body.start ≤ t.pc ∧ t.behind ≤ h'.body.stop) :=
    fun _ => handler_at_start hts ht hh
  refine ⟨.cons (fun R hR => ?_) (h.nested.filter _), fun R => ?_, fun h' hmem hstart => ?_⟩
  · obtain ⟨hheld, hR⟩ := List.mem_filter.mp hR
    obtain ⟨h', hmem, rfl, hholds⟩ := (h.mem R).mp hheld
    have hposition := hholds.position
    rw [Range.covers_eq_true] at hR
    simp only [Handler.body] at hR hposition
    rcases haround h' hmem (by omega) with rfl | ⟨hstart, hstop'⟩
    · omega
    · exact ⟨by omega, by omega⟩
  · rw [List.mem_cons, List.mem_filter, h.mem, Range.covers_eq_true]
    constructor
    · rintro (rfl | ⟨⟨h', hmem, rfl, hholds⟩, hcovers'⟩)
      · refine ⟨handler, handler_mem_partsOf.mpr ⟨t, ht, hh⟩, rfl, ⟨Nat.le_refl _, ?_⟩, ?_⟩
        · omega
        · omega
      · exact ⟨h', hmem, rfl, ⟨hcovers'.1, Nat.le_of_lt hcovers'.2⟩, hholds.scope⟩
    · rintro ⟨h', hmem, rfl, hposition, hscope'⟩
      have hposition' := hposition
      simp only [Handler.body] at hposition'
      rcases haround h' hmem (by simp only [Handler.body]; omega) with rfl | ⟨hstart, hstop'⟩
      · exact .inl rfl
      · exact .inr ⟨⟨h', hmem, rfl, ⟨by omega, by omega⟩, hscope'⟩, by omega, by omega⟩
  · obtain ⟨u, -, hu⟩ := handler_mem_partsOf.mp hmem
    have := TryAt.handler_bounds hu
    rcases haround h' hmem (by omega) with rfl | ⟨hstart', -⟩
    · omega
    · simp only [Handler.body] at hstart'
      omega

/-- Control is at the end of a handler, which is the innermost one, and goes on behind it. -/
theorem tail (h : HeldAt ts scope pc held) {handler : Handler}
    (hmem : .handler handler ∈ partsOf ts) (hstop : handler.range.stop = pc)
    (hholds : handler.Holds scope pc)
    (hsub : ∀ h, .handler h ∈ partsOf ts → h.Holds scope (pc + 1) → h.body.covers pc = true)
    (houtside : ∀ h, .handler h ∈ partsOf ts → h.range.start ≠ pc + 1) :
    HeldAt ts scope (pc + 1) held.tail := by
  have hheld : handler.body ∈ held := (h.mem _).mpr ⟨handler, hmem, rfl, hholds⟩
  -- A handler inside of this one has ended before.
  have hinner : ∀ R ∈ held, ¬ R.Inside handler.body := by
    intro R hR hinside
    obtain ⟨h', -, rfl, hholds'⟩ := (h.mem R).mp hR
    have hlt : h'.body.stop < pc := hstop ▸ hinside.2
    exact Nat.not_le_of_lt hlt hholds'.position.2
  obtain ⟨first, rest, rfl⟩ := List.exists_cons_of_ne_nil (List.ne_nil_of_mem hheld)
  obtain ⟨hfirst, hrest⟩ := List.pairwise_cons.mp h.nested
  obtain rfl : handler.body = first := by
    rcases List.mem_cons.mp hheld with heq | hmem'
    · exact heq
    · exact absurd (hfirst _ hmem') (hinner first List.mem_cons_self)
  refine ⟨hrest, fun R => ?_, houtside⟩
  constructor
  · intro hR
    obtain ⟨h', hmem', rfl, hholds'⟩ := (h.mem R).mp (List.mem_cons_of_mem _ hR)
    have hlt : handler.range.stop < h'.body.stop := (hfirst _ hR).2
    have hposition := hholds'.position
    exact ⟨h', hmem', rfl, ⟨by omega, by omega⟩, hholds'.scope⟩
  · rintro ⟨h', hmem', rfl, hholds'⟩
    have hcovers := Range.covers_eq_true.mp (hsub h' hmem' hholds')
    have hin : h'.body ∈ handler.body :: rest :=
      (h.mem _).mpr ⟨h', hmem', rfl, ⟨hcovers.1, Nat.le_of_lt hcovers.2⟩, hholds'.scope⟩
    refine (List.mem_cons.mp hin).resolve_left fun heq => ?_
    rw [heq] at hcovers
    exact Nat.lt_irrefl _ (hstop ▸ hcovers.2)

end HeldAt

/-! ## Failures that are dropped -/

/-- Control goes from a position in handlers of the scope: what those held is dropped that do not
cover the target, and what is held below is kept. -/
theorem dropWhile_left {own base : List Caught} {scope : Range} {pc : Nat} (target : Option Nat)
    (hnested : (own.map Caught.body).Pairwise Range.Inside)
    (hown : ∀ x ∈ own, x.body.covers pc = true ∧ x.body.isWithin scope = true)
    (hbase : ∀ x ∈ base, x.body.isWithin scope = false) :
    (own ++ base).dropWhile (fun x => x.isLeft scope pc target) =
      own.filter (fun x => (target.map x.body.covers).getD false) ++ base := by
  induction own with
  | nil =>
    cases base with
    | nil => rfl
    | cons x rest =>
      refine List.dropWhile_cons_of_neg ?_
      rw [Caught.isLeft, hbase x List.mem_cons_self, Bool.and_false]
      exact Bool.false_ne_true
  | cons x rest ih =>
    rw [List.map_cons, List.pairwise_cons] at hnested
    obtain ⟨hx, hrest⟩ := List.forall_mem_cons.mp hown
    have hleft : x.isLeft scope pc target = !(target.map x.body.covers).getD false := by
      rw [Caught.isLeft, hx.1, hx.2, Bool.true_and, Bool.and_true]
    rw [List.cons_append, List.dropWhile_cons, hleft, List.filter_cons]
    cases hcovers : (target.map x.body.covers).getD false with
    | false => exact ih hnested.2 hrest
    | true =>
      -- The target is in the handlers around this one too.
      cases target with
      | none => cases hcovers
      | some p =>
        have hall : ∀ y ∈ rest, y.body.covers p = true := by
          intro y hy
          have hinside := hnested.1 y.body (List.mem_map_of_mem hy)
          have hcovers : x.body.covers p = true := hcovers
          rw [Range.covers_eq_true] at hcovers ⊢
          exact ⟨by have := hinside.1; omega, by have := hinside.2; omega⟩
        exact congrArg (x :: · ++ base) (List.filter_eq_self.mpr hall).symm

/-- What is held in a run of a scope: the failures of the handlers that control is in, above those
that were held when the run began; none of those belongs to a handler in the scope. -/
structure HeldAbove (ts : List TryAt) (scope : Range) (base : List Caught) (pc : Nat)
    (caught : List Caught) : Prop where
  split : ∃ own, caught = own ++ base ∧ HeldAt ts scope pc (own.map Caught.body)
  apart : ∀ x ∈ base, x.body.isWithin scope = false

namespace HeldAbove

variable {ts : List TryAt} {scope : Range} {base caught : List Caught} {pc p : Nat}

/-- A run begins. -/
theorem start (houtside : ∀ h, .handler h ∈ partsOf ts → h.range.start ≠ scope.start)
    (hbase : ∀ x ∈ base, x.body.isWithin scope = false) : HeldAbove ts scope base scope.start base :=
  ⟨⟨[], rfl, .start houtside⟩, hbase⟩

/-- Control leaves handlers at a position where none of them ends. -/
theorem dropWhile (h : HeldAbove ts scope base pc caught)
    (hends : ∀ h, .handler h ∈ partsOf ts → h.range.stop ≠ pc) (target : Option Nat) :
    ∃ own : List Caught, HeldAt ts scope pc (own.map Caught.body) ∧
      (caught.dropWhile fun x => x.isLeft scope pc target) =
        own.filter (fun x => (target.map x.body.covers).getD false) ++ base := by
  obtain ⟨⟨own, rfl, hown⟩, hbase⟩ := h
  refine ⟨own, hown, dropWhile_left target hown.nested (fun x hx => ?_) hbase⟩
  obtain ⟨h, hmem, hbody, hholds⟩ := (hown.mem x.body).mp (List.mem_map_of_mem hx)
  have hposition := hholds.position
  have hscope := hholds.scope
  have hstop := hends h hmem
  rw [← hbody, Range.covers_eq_true, Range.isWithin_iff]
  simp only [Handler.body] at hposition ⊢
  omega

/-- Control leaves every handler of the scope. -/
theorem left (h : HeldAbove ts scope base pc caught)
    (hends : ∀ h, .handler h ∈ partsOf ts → h.range.stop ≠ pc) :
    (caught.dropWhile fun x => x.isLeft scope pc none) = base := by
  obtain ⟨own, -, hown⟩ := h.dropWhile hends none
  exact hown.trans (by simp)

/-- Control falls behind an instruction. -/
theorem move (h : HeldAbove ts scope base pc caught)
    (hsame : ∀ h, .handler h ∈ partsOf ts → (h.Holds scope p ↔ h.Holds scope pc))
    (houtside : ∀ h, .handler h ∈ partsOf ts → h.range.start ≠ p) : HeldAbove ts scope base p caught := by
  obtain ⟨⟨own, hcaught, hown⟩, hbase⟩ := h
  exact ⟨⟨own, hcaught, hown.move (fun h hmem => (hsame h hmem).mp)
    (fun h hmem => (hsame h hmem).mpr) houtside⟩, hbase⟩

/-- Control jumps out of handlers, to a position where none of them ends. -/
theorem jump (h : HeldAbove ts scope base pc caught)
    (hends : ∀ h, .handler h ∈ partsOf ts → h.range.stop ≠ pc)
    (hsub : ∀ h, .handler h ∈ partsOf ts → h.Holds scope p → h.Holds scope pc)
    (houtside : ∀ h, .handler h ∈ partsOf ts → h.range.start ≠ p ∧ h.range.stop ≠ p) :
    HeldAbove ts scope base p (caught.dropWhile fun x => x.isLeft scope pc (some p)) := by
  obtain ⟨own, hown, hleft⟩ := h.dropWhile hends (some p)
  refine ⟨⟨_, hleft, ?_⟩, h.apart⟩
  have hjump := hown.jump hsub houtside
  rwa [List.filter_map] at hjump

/-- A handler of a try around the position takes a failure. -/
theorem handle (h : HeldAbove ts scope base pc caught)
    (hends : ∀ h, .handler h ∈ partsOf ts → h.range.stop ≠ pc) (hts : ts.Pairwise TryAt.Precedes)
    {t : TryAt} (ht : t ∈ ts) (hcovers : t.region.guarded.covers pc = true)
    (hscope : scope.start ≤ t.pc ∧ t.behind < scope.stop) {handler : Handler}
    (hh : handler ∈ t.region.handlers) (f : Failure) :
    HeldAbove ts scope base handler.body.start (⟨f, handler.body⟩ ::
      caught.dropWhile fun x => x.isLeft scope pc (some handler.body.start)) := by
  obtain ⟨own, hown, hleft⟩ := h.dropWhile hends (some handler.body.start)
  refine ⟨⟨⟨f, handler.body⟩ :: own.filter fun x => x.body.covers handler.body.start,
    congrArg (List.cons _) hleft, ?_⟩, h.apart⟩
  have hhandle := hown.handle hts ht hcovers hscope hh
  rwa [List.filter_map] at hhandle

/-- Control comes to the end of a handler, whose failure is dropped. -/
theorem tail (h : HeldAbove ts scope base pc caught) {handler : Handler}
    (hmem : .handler handler ∈ partsOf ts) (hstop : handler.range.stop = pc)
    (hholds : handler.Holds scope pc)
    (hsub : ∀ h, .handler h ∈ partsOf ts → h.Holds scope (pc + 1) → h.body.covers pc = true)
    (houtside : ∀ h, .handler h ∈ partsOf ts → h.range.start ≠ pc + 1) :
    HeldAbove ts scope base (pc + 1) caught.tail := by
  obtain ⟨⟨own, rfl, hown⟩, hbase⟩ := h
  obtain ⟨first, rest, rfl⟩ : ∃ first rest, own = first :: rest := by
    refine List.exists_cons_of_ne_nil ?_
    rintro rfl
    exact nomatch (hown.mem _).mpr ⟨handler, hmem, rfl, hholds⟩
  exact ⟨⟨rest, rfl, hown.tail hmem hstop hholds hsub houtside⟩, hbase⟩

end HeldAbove

end Resumable.Machine
