import Resumable.Proofs.Machine.Mirrored

/-!
# What is thrown again

A throw of what is held raises the failure with which the handler that it stands in was entered last
(`rethrow_raises_own`), in the method's own code and in the finallys.  From its entry on, control has
been in the handler, whatever other handlers were entered and left inside (`Walks.entered`).  This
needs that the failure leaves the handler: one that is caught inside of it is no longer held there
(`rethrow_caught_inside`).
-/

set_option autoImplicit false

namespace Resumable.Machine

open Resumable.Symbol Resumable.Tree
open Resumable.Lowering (verify verify_block_iff)

variable {σ : Type}

/-! ## The steps of one run -/

/-- A run comes from one moment to another one by steps of its own, and all the moments on the way are
as said. -/
inductive Walks (ctx : Context σ) (r : Routine) (P : Moment σ → Prop) (start : Moment σ) :
    Moment σ → Prop where
  | here (h : P start) : Walks ctx r P start start
  | next {m : Moment σ} {i : Instr Nat} {steps p : Nat} {d : Config σ}
    (hm : Walks ctx r P start m) (hi : r.instrs[m.pc]? = some i)
    (hstep : step ctx r (finallysWithin ctx r steps) m.scope m.pc i m.config = some (.ok (.goto p), d))
    (h : P ⟨m.scope, p, d⟩) : Walks ctx r P start ⟨m.scope, p, d⟩

/-- The step from the one moment to the other gives `x` to its handler, whose try is around the
instruction. -/
structure Enters (ctx : Context σ) (r : Routine) (x : Caught) (m m' : Moment σ) : Prop where
  step : ∃ i steps, r.instrs[m.pc]? = some i ∧
    Machine.step ctx r (finallysWithin ctx r steps) m.scope m.pc i m.config =
      some (.ok (.goto m'.pc), m'.config)
  scope : m'.scope = m.scope
  guarded : ∃ g ∈ r.regionsAt m.pc m.scope, ∃ h ∈ g.handlers, h.body = x.body
  start : m'.pc = x.body.start
  held : ∃ rest, m'.config.activation.caught = x :: rest ∧ rest <:+ m.config.activation.caught

/-- Control is in the handler that holds `x`, or at its end, and this is held above `rest`. -/
structure Moment.Holding (x : Caught) (rest : List Caught) (m : Moment σ) : Prop where
  position : x.body.start ≤ m.pc ∧ m.pc ≤ x.body.stop
  held : x :: rest <:+ m.config.activation.caught

section Runs

variable {b : Block} {method : Method} {ctx : Context σ} {start m : Moment σ} {base : List Caught}
  {P : Moment σ → Prop}

/-- In the steps of a run those failures are held that are to be held. -/
theorem Walks.heldAbove (hb : Executable b) (hstructured : WellStructured b)
    (hrespects : RespectsHandlers b (routineOf method b))
    (hscope : InScope (triesBlock 0 b) (routineOf method b).range start.scope start.pc)
    (hstart : HeldAbove (triesBlock 0 b) start.scope base start.pc start.config.activation.caught)
    (hm : Walks ctx (routineOf method b) P start m) :
    InScope (triesBlock 0 b) (routineOf method b).range m.scope m.pc ∧
      HeldAbove (triesBlock 0 b) m.scope base m.pc m.config.activation.caught := by
  induction hm with
  | here => exact ⟨hscope, hstart⟩
  | @next m i steps p d hm hi hstep _ ih =>
    obtain ⟨hinside, hheld⟩ := ih
    have hnext := hheld.step (run_restores hb hstructured hrespects ctx) hrespects hinside hi m.config _
      d rfl hstep
    exact ⟨hinside.step hb hstructured hi (step_follows _ _ _ _ _ _ _ _ _ hstep),
      hheld.goto hb hrespects hinside hi hnext⟩

/-- Control is in the handlers whose failures the run has added. -/
theorem HeldAbove.position {ts : List TryAt} {scope : Range} {pc : Nat} {caught rest : List Caught}
    {x : Caught} (h : HeldAbove ts scope base pc caught) (hx : x :: rest <:+ caught)
    (hbase : base <:+ rest) : x.body.start ≤ pc ∧ pc ≤ x.body.stop := by
  obtain ⟨own, rfl, hown⟩ := h.split
  obtain ⟨inner, hinner⟩ := hx
  obtain ⟨outer, rfl⟩ := hbase
  have hsplit : own = inner ++ x :: outer := by
    refine (List.append_left_inj base).mp ?_
    rw [← hinner, List.append_assoc, List.cons_append]
  have hmem : x.body ∈ own.map Caught.body := List.mem_map_of_mem (by rw [hsplit]; simp)
  obtain ⟨handler, -, hbody, hholds⟩ := (hown.mem x.body).mp hmem
  exact hbody ▸ hholds.position

/-- A failure that the run has added and that is still held was given to its handler by a step of the
run, and control has been in the handler since then. -/
theorem Walks.entered (hb : Executable b) (hstructured : WellStructured b)
    (hrespects : RespectsHandlers b (routineOf method b))
    (hscope : InScope (triesBlock 0 b) (routineOf method b).range start.scope start.pc)
    (hstart : HeldAbove (triesBlock 0 b) start.scope start.config.activation.caught start.pc
      start.config.activation.caught)
    (hm : Walks ctx (routineOf method b) (fun _ => True) start m) {x : Caught} {rest : List Caught}
    (hx : x :: rest <:+ m.config.activation.caught)
    (hbase : start.config.activation.caught <:+ rest) :
    ∃ before entry, Walks ctx (routineOf method b) (fun _ => True) start before ∧
      Enters ctx (routineOf method b) x before entry ∧
      Walks ctx (routineOf method b) (Moment.Holding x rest) entry m := by
  induction hm with
  | here =>
    -- Nothing has been added yet.
    have hlength := (hx.trans hbase).length_le
    exact absurd hlength (Nat.not_succ_le_self _)
  | @next m i steps p d hm hi hstep _ ih =>
    obtain ⟨hinside, hheld⟩ := hm.heldAbove hb hstructured hrespects hscope hstart
    have hnext := hheld.step (run_restores hb hstructured hrespects ctx) hrespects hinside hi m.config _
      d rfl hstep
    have hposition := (hheld.goto hb hrespects hinside hi hnext).position hx hbase
    have hbefore : x :: rest <:+ m.config.activation.caught →
        ∃ before entry, Walks ctx (routineOf method b) (fun _ => True) start before ∧
          Enters ctx (routineOf method b) x before entry ∧
          Walks ctx (routineOf method b) (Moment.Holding x rest) entry ⟨m.scope, p, d⟩ := by
      intro hx'
      obtain ⟨before, entry, hwalks, henters, hsince⟩ := ih hx'
      exact ⟨before, entry, hwalks, henters, hsince.next hi hstep ⟨hposition, hx⟩⟩
    generalize hd : d.activation.caught = held' at hnext
    cases hnext with
    | falls =>
      exact hbefore (hd ▸ hx)
    | endCatch =>
      exact hbefore ((hd ▸ hx).trans (List.tail_suffix _))
    | jumps =>
      exact hbefore ((hd ▸ hx).trans (List.dropWhile_suffix _))
    | @handled g h hend hg hh f =>
      rcases List.suffix_cons_iff.mp (hd ▸ hx) with heq | hsuffix
      · obtain ⟨rfl, rfl⟩ := List.cons.inj heq
        exact ⟨m, ⟨m.scope, h.body.start, d⟩, hm,
          ⟨⟨i, steps, hi, hstep⟩, rfl, ⟨g, hg, h, hh, rfl⟩, rfl, _, hd, List.dropWhile_suffix _⟩,
          .here ⟨hposition, hx⟩⟩
      · exact hbefore (hsuffix.trans (List.dropWhile_suffix _))

end Runs

/-- **A throw again raises what its handler was entered with.**  The body passes verification and is
flattened, its finallys stand apart, its jumps respect handlers, and each failure that is thrown again
leaves the handler that the throw stands in.  A run of the method, or of one of its finallys, begins
with failures held that belong to no handler in it.  Where it comes to a throw of what is held, it
raises the failure with which the handler around the throw was entered last: from then on control has
been in the handler, and the failure has been held above the same others, whatever has been entered
and left inside. -/
theorem rethrow_raises_own {method : Method} {b : Block} {r : Routine}
    (hverify : verify false (.stmt (.block b)) = .ok ())
    (hflatten : flatten { symbol := method, body := b } = .ok r) (hstructured : WellStructured b)
    (hrespects : RespectsHandlers b r) (ctx : Context σ) {scope : Range}
    (hscope : scope = r.range ∨ ∃ g ∈ r.regions, g.cleanup = some scope) {c : Config σ}
    (hc : ∀ x ∈ c.activation.caught, x.body.isWithin scope = false) {m : Moment σ}
    (hm : Walks ctx r (fun _ => True) ⟨scope, scope.start, c⟩ m)
    (hi : r.instrs[m.pc]? = some .rethrow) :
    ∃ x ∈ sitesBlock [] 0 b, x.pc = m.pc ∧ ∃ h f rest before entry, x.leaves? = some h ∧
      Walks ctx r (fun _ => True) ⟨scope, scope.start, c⟩ before ∧
      Enters ctx r ⟨f, h.body⟩ before entry ∧
      Walks ctx r (Moment.Holding ⟨f, h.body⟩ rest) entry m ∧
      ∀ clean, step ctx r clean m.scope m.pc .rethrow m.config =
        (do return Next.goto (← raise r clean m.scope m.pc f) : Act σ Next) (m.config.withHeld rest) := by
  have htargets := (verify_block_iff.mp hverify).2.2
  obtain ⟨hb, rfl⟩ := executable_of_flatten hflatten fun l hl => (htargets l hl).2
  have hentry : InScope (triesBlock 0 b) (routineOf method b).range scope scope.start := by
    rcases hscope with rfl | ⟨g, hg, hcleanup⟩
    · exact .entry b method
    · rw [routineOf_regions] at hg
      obtain ⟨t, ht, rfl⟩ := List.mem_map.mp hg
      exact .cleanup (tries_block_nested b 0) ht hcleanup
  have hstart : HeldAbove (triesBlock 0 b) scope c.activation.caught scope.start
      c.activation.caught := .start hentry.outside hc
  obtain ⟨hinside, hheld⟩ := hm.heldAbove hb hstructured hrespects hentry hstart
  obtain ⟨x, hx, hpc, hplaced, h, hleaves⟩ := hrespects.leaves_of_rethrow hi
  obtain ⟨f, rest, hcaught, hbase⟩ := hheld.top hinside hi hx hplaced hpc hleaves
  obtain ⟨before, entry, hwalks, henters, hsince⟩ :=
    hm.entered hb hstructured hrespects hentry hstart ⟨[], hcaught.symm⟩ hbase
  exact ⟨x, hx, hpc, h, f, rest, before, entry, hleaves, hwalks, henters, hsince,
    fun clean => step_rethrow ctx hcaught⟩

/-- A handler with a try that catches what is thrown again in it, and then throws again itself. -/
def rethrowingHandler : Block :=
  let block (statements : List Stmt) : Block := .mk {} [] statements
  block [.try {} (block [.throw {} (.literal {} (.int 1) (some .int))])
    [.mk {} none (block
      [.try {} (block [.throw {} .absent]) [.mk {} none (block [])] .absent, .throw {} .absent])]
    .absent]

/-- Where a failure that is thrown again is caught inside of its handler, the handler holds nothing
any more, although control is still in it: to throw once more fails, since nothing is held. -/
theorem rethrow_caught_inside :
    let r := routineOf default rethrowingHandler
    let ctx : Context Unit :=
      { machine := { hosts := fun _ => none }, call := fun _ _ _ => throw default, method := default }
    let c : Config Unit := ⟨{ this := none, args := [] }, { hosts := () }⟩
    verify false (.stmt (.block rethrowingHandler)) = .ok () ∧
      flatten { symbol := default, body := rethrowingHandler } = .ok r ∧
      WellStructured rethrowingHandler ∧
      Walks ctx r (fun _ => True) ⟨r.range, 0, c⟩ ⟨r.range, 8, c⟩ ∧
      r.instrs[8]? = some .rethrow ∧ (∃ h ∈ handlersIn (partsOf (triesBlock 0 rethrowingHandler)) 8,
        h.body = ⟨3, 9⟩) ∧
      ∀ clean, step ctx r clean r.range 8 .rethrow c =
        some (.error (.single (.rethrowOutsideCatch (default : Method).fullName)), c) := by
  intro r ctx c
  have hhandler : Walks ctx r (fun _ => True) ⟨r.range, 0, c⟩
      ⟨r.range, 3, c.withHeld [⟨.single (.thrown (.int 1)), ⟨3, 9⟩⟩]⟩ :=
    @Walks.next _ ctx r _ _ _ _ 0 _ _ (.here trivial) rfl rfl trivial
  have hcaught : Walks ctx r (fun _ => True) ⟨r.range, 0, c⟩
      ⟨r.range, 6, c.withHeld [⟨.single (.thrown (.int 1)), ⟨6, 6⟩⟩]⟩ :=
    @Walks.next _ ctx r _ _ _ _ 0 _ _ hhandler rfl rfl trivial
  have hend : Walks ctx r (fun _ => True) ⟨r.range, 0, c⟩ ⟨r.range, 7, c⟩ :=
    @Walks.next _ ctx r _ _ _ _ 0 _ _ hcaught rfl rfl trivial
  refine ⟨rfl, rfl, ⟨by decide, by decide⟩,
    @Walks.next _ ctx r _ _ _ _ 0 _ _ hend rfl rfl trivial, rfl, ?_, fun clean => rfl⟩
  exact ⟨_, List.mem_of_getElem? (i := 0) rfl, rfl⟩

end Resumable.Machine
