import Resumable.Proofs.Machine.Simulation

/-!
# Runs and structured executions agree

A statement that stands in a routine is executed by the machine exactly as its structured
execution says: the run from its first instruction, or from one of its labels, is the flow of the
statement followed by what its outcome leads to.  The proof goes along the tree; each statement of
one instruction is one step, lists make rounds, and a try hands the outcomes of its block to its
handlers and its finally.
-/

set_option autoImplicit false

namespace Resumable.Machine

open Resumable.Symbol Resumable.Tree

variable {σ : Type}

/-! ## One instruction -/

/-- A statement that becomes one instruction. -/
def isLeaf : Stmt → Bool
  | .block .. | .list .. | .label .. | .try .. => false
  | _ => true

/-- The instruction of a statement of one instruction. -/
def leafInstr : Stmt → Instr Target
  | .expression _ e => .exec e
  | .return _ e => .return e
  | .throw _ e => throwInstr e
  | .goto _ l => .jump (jumpTarget l)
  | .conditionalGoto _ c whenTrue l => .branch c whenTrue (jumpTarget l)
  | .dispatch _ e cases l =>
    .dispatch e (cases.map fun c => (c.value, .label c.label)) (jumpTarget l)
  | _ => .mark

theorem flattenStmt_leaf {s : Stmt} (h : isLeaf s = true) (pc : Nat) :
    flattenStmt pc s = .one (leafInstr s) ∧ sizeStmt s = 1 ∧ labelsStmt s = [] := by
  cases s with
  | block | list | label | «try» => cases h
  | _ => simp [flattenStmt, sizeStmt, labelsStmt, leafInstr]

/-- An attempt and what is done with its result. -/
theorem Act.attempt_bind_apply {α β : Type} (x : Act σ α) (k : Except Failure α → Act σ β)
    (c : Config σ) : (Act.attempt x >>= k) c = (x c).bind fun p => k p.1 p.2 := by
  rw [Act.bind_apply, Act.attempt_apply]
  cases x c <;> rfl

theorem dispatchTarget_eq (S : Setting σ) (cases : List DispatchCase) (otherwise : Option Label)
    (n : Int) :
    dispatchTarget (cases.map fun c => (c.value, S.label c.label)) (S.label otherwise) n =
      S.label (Setting.caseLabel cases otherwise n) := by
  unfold dispatchTarget Setting.caseLabel
  induction cases with
  | nil => rfl
  | cons first rest ih =>
    simp only [List.map_cons, List.lookup_cons]
    cases n == first.value with
    | true => rfl
    | false => exact ih

theorem position_jumpTarget (S : Setting σ) {l : Option Label} (h : l ≠ none) :
    S.position (jumpTarget l) = S.label l := by
  cases l with
  | none => exact absurd rfl h
  | some l => rfl

section Leaf

variable {S : Setting σ} {r : Routine} {scope : Range} {around : List Region} {pc n : Nat}

/-- A step whose expression fails, or whose value is used for an outcome. -/
theorem step_effect {α : Type} (x : Act σ α) (k : α → Outcome) (next : α → Act σ Going)
    (hregions : r.regionsAt pc scope = around)
    (hnext : ∀ a, next a = S.exits r scope around (pc + 1) n (k a)) (d : Config σ) :
    (do
      match ← Act.attempt x with
      | .ok a => next a
      | .error f => return Going.goto (← raise r (S.clean r n) scope pc f) : Act σ Going) d =
      (Flow.effect pc x k d).bind fun p => S.exits r scope around (pc + 1) n p.1 p.2 := by
  rw [Act.attempt_bind_apply]
  unfold Flow.effect
  cases x d with
  | none => rfl
  | some p =>
    obtain ⟨result, d'⟩ := p
    cases result with
    | ok a =>
      dsimp only [Option.map_some, Option.bind_some]
      rw [hnext a]
    | error f =>
      dsimp only [Option.map_some, Option.bind_some, raise]
      rw [hregions]
      rfl

/-- A step of the machine is the flow of its statement and where the outcome leads. -/
theorem step_leaf {s : Stmt} (hs : isLeaf s = true) (hmethod : r.method = S.method)
    (hregions : r.regionsAt pc scope = around) (htargets : ∀ l ∈ targetsStmt s, l ≠ none)
    (d : Config σ) :
    S.observer.step S.ctx r (S.clean r n) scope pc ((leafInstr s).map S.position) d =
      (S.leaf pc s d).bind fun p => S.exits r scope around (pc + 1) n p.1 p.2 := by
  have jumps : ∀ l : Option Label, (do
      return (← Machine.step.go r (S.clean r n) scope pc (S.label l)).going : Act σ Going) =
      S.exits r scope around (pc + 1) n (.jump pc l) := by
    intro l
    unfold Machine.step.go Setting.exits
    rw [hregions, bind_assoc]
    refine bind_congr (m := Act σ) fun reached => ?_
    cases reached <;> rfl
  cases s with
  | block | list | label | «try» => cases hs
  | expression o e =>
    unfold Observer.step
    simp only [leafInstr, Instr.map, Observer.elementOf?, Setting.leaf]
    cases S.observer.element? e with
    | some element =>
      refine Eq.trans ?_ (step_effect (eval S.ctx element) (.suspend pc)
        (fun v => return .halt (.suspended v (pc + 1))) hregions (fun _ => rfl) d)
      refine congrFun (a := d) ?_
      refine bind_congr (m := Act σ) fun result => ?_
      cases result <;> rfl
    | none =>
      refine Eq.trans ?_ (step_effect (eval S.ctx e) (fun _ => .normal)
        (fun _ => return .goto (pc + 1)) hregions (fun _ => rfl) d)
      refine congrFun (a := d) ?_
      simp only [Machine.step, bind_assoc]
      refine bind_congr (m := Act σ) fun result => ?_
      cases result <;> simp [Next.going]
  | «return» o e =>
    refine Eq.trans ?_ (step_effect (evalReturned S.ctx e) (.ret pc) _ hregions
      (fun _ => rfl) d)
    refine congrFun (a := d) ?_
    simp only [Observer.step, leafInstr, Instr.map, Observer.elementOf?, Machine.step, bind_assoc]
    refine bind_congr (m := Act σ) fun result => ?_
    cases result with
    | ok v =>
      simp only [Setting.exits, bind_assoc, hregions]
      refine bind_congr (m := Act σ) fun reached => ?_
      cases reached <;> rfl
    | error f => simp [Next.going]
  | throw o e =>
    by_cases he : e = .absent
    · subst he
      simp only [Observer.step, leafInstr, throwInstr, Instr.map, Observer.elementOf?,
        Machine.step, Setting.leaf, Setting.rethrow, takeCaught, hmethod, bind_assoc]
      rw [Act.bind_apply, Act.activation_apply]
      dsimp only
      cases hcaught : d.activation.caught with
      | nil => simp only [Act.bind_apply, Act.fail_apply]; rfl
      | cons held rest =>
        simp only [pure_bind, Act.bind_apply, Act.modifyActivation_apply, Act.pure_apply,
          raise, hregions, Option.bind_some, Setting.exits]
        rfl
    · have hinstr : throwInstr e = .throw e := by cases e <;> first | rfl | exact absurd rfl he
      have hleaf : S.leaf pc (.throw o e) =
          .effect pc (eval S.ctx e) fun v => .fail pc (.single (.thrown v)) := by
        cases e <;> first | rfl | exact absurd rfl he
      rw [hleaf]
      refine Eq.trans ?_ (step_effect (eval S.ctx e) _ (fun v => do
        return Going.goto (← raise r (S.clean r n) scope pc (.single (.thrown v)))) hregions
        (fun v => by simp only [raise, hregions]; rfl) d)
      refine congrFun (a := d) ?_
      simp only [Observer.step, leafInstr, hinstr, Instr.map, Observer.elementOf?, Machine.step,
        bind_assoc]
      refine bind_congr (m := Act σ) fun result => ?_
      cases result <;> simp [Next.going]
  | goto o l =>
    have hl := htargets l (by simp [targetsStmt])
    simp only [Observer.step, leafInstr, Instr.map, Observer.elementOf?, Machine.step,
      position_jumpTarget S hl, jumps]
    rfl
  | conditionalGoto o condition whenTrue l =>
    have hl := htargets l (by simp [targetsStmt])
    refine Eq.trans ?_ (step_effect (do Act.ofExcept (← eval S.ctx condition).asBool)
      (fun b => if b = whenTrue then .jump pc l else .normal) _ hregions (fun _ => rfl) d)
    refine congrFun (a := d) ?_
    simp only [Observer.step, leafInstr, Instr.map, Observer.elementOf?, Machine.step,
      position_jumpTarget S hl, bind_assoc]
    refine bind_congr (m := Act σ) fun result => ?_
    cases result with
    | ok b =>
      dsimp only
      by_cases hb : b = whenTrue
      · simp only [hb, if_true]
        exact jumps l
      · simp [hb, Setting.exits, Next.going]
    | error f => simp [Next.going]
  | dispatch o e cases l =>
    have hl := htargets l (by simp [targetsStmt])
    refine Eq.trans ?_ (step_effect (do Act.ofExcept (← eval S.ctx e).asInt)
      (fun k => .jump pc (Setting.caseLabel cases l k)) _ hregions (fun _ => rfl) d)
    refine congrFun (a := d) ?_
    simp only [Observer.step, leafInstr, Instr.map, Observer.elementOf?, Machine.step,
      position_jumpTarget S hl, List.map_map, bind_assoc]
    refine bind_congr (m := Act σ) fun result => ?_
    cases result with
    | ok k =>
      have htarget := dispatchTarget_eq S cases l k
      exact (congrArg (fun t => (do
        return (← Machine.step.go r (S.clean r n) scope pc t).going : Act σ Going)) htarget).trans
        (jumps _)
    | error f => simp [Next.going]
  | _ => rfl

/-- A dispatch goes to one of its labels. -/
theorem caseLabel_mem (cases : List DispatchCase) (otherwise : Option Label) (n : Int) :
    Setting.caseLabel cases otherwise n ∈ cases.map DispatchCase.label ++ [otherwise] := by
  rw [List.mem_append, List.mem_singleton, Setting.caseLabel]
  cases hlookup : (cases.map fun c => (c.value, c.label)).lookup n with
  | none => exact .inr rfl
  | some l =>
    obtain ⟨before, after, hsplit, -⟩ := List.lookup_eq_some_iff.mp hlookup
    have hmem : (n, l) ∈ cases.map fun c => (c.value, c.label) := by
      rw [hsplit]
      simp
    obtain ⟨c, hc, heq⟩ := List.mem_map.mp hmem
    cases heq
    exact .inl (List.mem_map.mpr ⟨c, hc, rfl⟩)

theorem leaf_jump {s : Stmt} {p : Nat} {l : Option Label} {c d : Config σ}
    (h : S.leaf pc s c = some (.jump p l, d)) : l ∈ targetsStmt s := by
  have effect_jump : ∀ {α : Type} (x : Act σ α) (k : α → Outcome),
      Flow.effect pc x k c = some (.jump p l, d) → ∃ a, k a = .jump p l := by
    intro α x k h
    obtain ⟨⟨result, d'⟩, -, hresult⟩ := Option.map_eq_some_iff.mp h
    cases result with
    | ok a => exact ⟨a, congrArg Prod.fst hresult⟩
    | error f => cases hresult
  cases s with
  | goto o l' =>
    cases h
    simp [targetsStmt]
  | conditionalGoto o condition whenTrue l' =>
    obtain ⟨b, hb⟩ := effect_jump _ _ h
    split at hb
    · cases hb
      simp [targetsStmt]
    · cases hb
  | dispatch o e cases l' =>
    obtain ⟨n, hn⟩ := effect_jump _ _ h
    cases hn
    exact caseLabel_mem cases l' n
  | expression o e =>
    simp only [Setting.leaf] at h
    cases hel : S.observer.element? e <;> rw [hel] at h <;>
      obtain ⟨_, h'⟩ := effect_jump _ _ h <;> cases h'
  | «return» o e =>
    obtain ⟨_, h'⟩ := effect_jump _ _ h
    cases h'
  | throw o e =>
    cases e with
    | absent =>
      simp only [Setting.leaf, Setting.rethrow] at h
      split at h <;> cases h
    | _ =>
      obtain ⟨_, h'⟩ := effect_jump _ _ h
      cases h'
  | _ => cases h

/-- A statement of one instruction. -/
theorem Implements.leaf {defined : List (Option Label)} {s : Stmt} (hs : isLeaf s = true)
    (hmethod : r.method = S.method) (hscope : scope.covers pc = true)
    (hcode : r.instrs[pc]? = some ((leafInstr s).map S.position))
    (hregions : r.regionsAt pc scope = around)
    (htargets : ∀ l ∈ targetsStmt s, l ∈ defined ∧ l ≠ none) :
    Implements S r defined scope True (S.run r scope pc) (S.noting pc (S.leaf pc s)) around
      (pc + 1) := by
  have hstep : ∀ n c, S.run r scope pc (n + 1) c =
      (S.noting pc (S.leaf pc s) c).bind fun p => S.after r scope around (pc + 1) n p.1 p.2 := by
    intro n c
    rw [Setting.run_succ hscope hcode, Act.bind_apply,
      step_leaf hs hmethod hregions fun l hl => (htargets l hl).2]
    unfold Setting.noting
    cases S.leaf pc s (S.observer.note pc c) with
    | none => rfl
    | some p => exact (Act.bind_apply _ _ _).symm
  refine ⟨?_, ?_, ?_⟩
  · intro n c z h
    cases n with
    | zero => cases h
    | succ n =>
      rw [hstep] at h
      obtain ⟨⟨o, d⟩, hflow, hafter⟩ := Option.bind_eq_some_iff.mp h
      exact ⟨o, d, n, hflow, Nat.le_succ n, fun _ _ => Nat.lt_succ_self n, hafter⟩
  · intro c o d n z hflow hafter
    refine ⟨n + 1, ?_⟩
    rw [hstep, hflow]
    exact hafter
  · intro c p l d h
    exact (htargets l (leaf_jump h)).1

end Leaf

/-! ## Ways out of a try -/

/-- A finally on its way out: what is done behind it, and what if it fails. -/
def sweep {α : Type} (clean : Option (Act σ Unit)) (ok : Act σ α) (failed : Failure → Act σ α) :
    Act σ α := do
  match ← Act.attempt (clean.getD (pure ())) with
  | .ok _ => ok
  | .error f => failed f

/-- A step is what the machine does to run a finally. -/
structure Cleans (S : Setting σ) (r : Routine) (range : Range) (act : Act σ Unit) : Prop where
  sound : ∀ n c z, S.clean r n range c = some z → act c = some z
  complete : ∀ c z, act c = some z → ∃ n, S.clean r n range c = some z

section Ways

variable {S : Setting σ} {r : Routine} {scope : Range} {around : List Region} {g : Region}
  {behind behind' n pc : Nat}

theorem sweep_bind {α β : Type} (clean : Option (Act σ Unit)) (ok : Act σ α)
    (failed : Failure → Act σ α) (k : α → Act σ β) :
    sweep clean ok failed >>= k = sweep clean (ok >>= k) fun f => failed f >>= k := by
  unfold sweep
  rw [bind_assoc]
  refine bind_congr (m := Act σ) fun result => ?_
  cases result <;> rfl

theorem sweep_apply {α : Type} (clean : Option (Act σ Unit)) (ok : Act σ α)
    (failed : Failure → Act σ α) (c : Config σ) :
    sweep clean ok failed c = (clean.getD (pure ()) c).bind fun p => match p with
      | (.ok _, d) => ok d
      | (.error f, d) => failed f d := by
  unfold sweep
  rw [Act.attempt_bind_apply]
  refine congrArg (Option.bind _) (funext fun p => ?_)
  obtain ⟨result, d⟩ := p
  cases result <;> rfl

theorem cleaning_apply (clean : Option (Act σ Unit)) (o : Outcome) (failed : Failure → Outcome)
    (c : Config σ) :
    Setting.cleaning clean o failed c = (clean.getD (pure ()) c).map fun p => match p with
      | (.ok _, d) => (o, d)
      | (.error f, d) => (failed f, d) := by
  cases clean <;> rfl

/-- The way through a region that is left. -/
theorem transfer_left {clean : Cleaner σ} {target : Option Nat} (h : g.isLeft target = true) :
    transfer clean scope pc target (g :: around) =
      sweep (g.cleanup.map clean) (transfer clean scope pc target around) fun f => do
        return some (← unwind clean scope pc f around) := by
  rw [transfer, if_pos h]
  cases g.cleanup with
  | none =>
    funext c
    rw [sweep_apply]
    rfl
  | some range =>
    refine bind_congr (m := Act σ) fun result => ?_
    cases result <;> rfl

/-- The way of a failure through a region without handlers. -/
theorem unwind_left {clean : Cleaner σ} {f : Failure} (h : g.handlers = []) :
    unwind clean scope pc f (g :: around) =
      sweep (g.cleanup.map clean) (unwind clean scope pc f around) fun f' =>
        unwind clean scope pc (f.append f') around := by
  obtain ⟨guarded, handlers, cleanup⟩ := g
  subst h
  cases cleanup with
  | none =>
    funext c
    rw [sweep_apply]
    rfl
  | some range =>
    refine bind_congr (m := Act σ) fun result => ?_
    cases result <;> rfl

theorem after_jump_left {l : Option Label} (h : g.guarded.covers (S.label l) = false) :
    S.after r scope (g :: around) behind n (.jump pc l) =
      sweep (g.cleanup.map (S.clean r n)) (S.after r scope around behind' n (.jump pc l))
        fun f => S.after r scope around behind' n (.fail pc f) := by
  have hleft : g.isLeft (some (S.label l)) = true := by simp [Region.isLeft, h]
  simp only [Setting.after, Setting.exits, transfer_left hleft, sweep_bind, bind_assoc, pure_bind]

theorem after_ret_left {v : Value} :
    S.after r scope (g :: around) behind n (.ret pc v) =
      sweep (g.cleanup.map (S.clean r n)) (S.after r scope around behind' n (.ret pc v))
        fun f => S.after r scope around behind' n (.fail pc f) := by
  have hleft : g.isLeft none = true := rfl
  simp only [Setting.after, Setting.exits, transfer_left hleft, sweep_bind, bind_assoc, pure_bind]

theorem after_fail_left {f : Failure} (h : g.handlers = []) :
    S.after r scope (g :: around) behind n (.fail pc f) =
      sweep (g.cleanup.map (S.clean r n)) (S.after r scope around behind' n (.fail pc f))
        fun f' => S.after r scope around behind' n (.fail pc (f.append f')) := by
  simp only [Setting.after, Setting.exits, unwind_left h, sweep_bind, bind_assoc]

/-- A failure goes to the first handler of the region. -/
theorem after_fail_handled {f : Failure} {h : Handler} {rest : List Handler}
    (hh : g.handlers = h :: rest) (c : Config σ) :
    S.after r scope (g :: around) behind n (.fail pc f) c =
      S.run r scope h.body.start n (c.handle scope pc f h) := by
  obtain ⟨guarded, handlers, cleanup⟩ := g
  subst hh
  simp only [Setting.after, Setting.exits, unwind, bind_assoc, pure_bind]
  rw [Act.bind_apply, handle_apply]
  rfl

theorem Cleans.getD_sound {act : Range → Act σ Unit}
    (hclean : ∀ range, g.cleanup = some range → Cleans S r range (act range)) {c : Config σ}
    {z : Except Failure Unit × Config σ}
    (h : (g.cleanup.map (S.clean r n)).getD (pure ()) c = some z) :
    (g.cleanup.map act).getD (pure ()) c = some z := by
  cases hrange : g.cleanup with
  | none => simpa [hrange] using h
  | some range =>
    rw [hrange] at h
    exact (hclean range hrange).sound n c z h

theorem Cleans.getD_complete {act : Range → Act σ Unit}
    (hclean : ∀ range, g.cleanup = some range → Cleans S r range (act range)) {c : Config σ}
    {z : Except Failure Unit × Config σ}
    (h : (g.cleanup.map act).getD (pure ()) c = some z) (n : Nat) :
    ∃ m, n ≤ m ∧ (g.cleanup.map (S.clean r m)).getD (pure ()) c = some z := by
  cases hrange : g.cleanup with
  | none =>
    refine ⟨n, Nat.le_refl n, ?_⟩
    simpa [hrange] using h
  | some range =>
    rw [hrange] at h
    obtain ⟨k, hk⟩ := (hclean range hrange).complete c z h
    exact ⟨max n k, Nat.le_max_left .., Setting.clean_mono (Nat.le_max_right ..) range c z hk⟩

/-- An outcome that leaves a region, with the region's finally on its way. -/
theorem Implements.swept {defined : List (Option Label)} {strict : Prop} {x : Nat → Act σ Halt}
    {o : Outcome} {failed : Failure → Outcome} {act : Range → Act σ Unit}
    (hx : ∀ n, x n = sweep (g.cleanup.map (S.clean r n)) (S.after r scope around behind n o)
      fun f => S.after r scope around behind n (failed f))
    (hclean : ∀ range, g.cleanup = some range → Cleans S r range (act range)) (hstrict : ¬ strict)
    (haims : ∀ pc l, o = .jump pc l ∨ (∃ f, failed f = .jump pc l) → l ∈ defined) :
    Implements S r defined scope strict x
      (Setting.cleaning (g.cleanup.map act) o failed) around behind := by
  refine ⟨?_, ?_, ?_⟩
  · intro n c z h
    rw [hx, sweep_apply] at h
    obtain ⟨⟨result, d⟩, hd, hz⟩ := Option.bind_eq_some_iff.mp h
    have hact := Cleans.getD_sound hclean hd
    cases result with
    | ok _ =>
      refine ⟨o, d, n, ?_, Nat.le_refl n, fun h => absurd h hstrict, hz⟩
      rw [cleaning_apply, hact]
      rfl
    | error f =>
      refine ⟨failed f, d, n, ?_, Nat.le_refl n, fun h => absurd h hstrict, hz⟩
      rw [cleaning_apply, hact]
      rfl
  · intro c o' d' n z hflow hafter
    rw [cleaning_apply] at hflow
    obtain ⟨⟨result, d⟩, hd, heq⟩ := Option.map_eq_some_iff.mp hflow
    -- The finally and what comes behind it each have their steps; the larger number is enough.
    obtain ⟨m, hm, hw⟩ := Cleans.getD_complete hclean hd n
    refine ⟨m, ?_⟩
    rw [hx, sweep_apply, hw]
    cases result with
    | ok _ =>
      cases heq
      exact Setting.after_mono hm o _ _ hafter
    | error f =>
      cases heq
      exact Setting.after_mono hm (failed f) _ _ hafter
  · intro c pc l d hflow
    rw [cleaning_apply] at hflow
    obtain ⟨⟨result, d'⟩, -, heq⟩ := Option.map_eq_some_iff.mp hflow
    cases result with
    | ok _ => exact haims pc l (.inl (congrArg Prod.fst heq))
    | error f => exact haims pc l (.inr ⟨f, congrArg Prod.fst heq⟩)

/-- A try block that comes to its end runs the finally and leaves the try. -/
theorem exitTry_normal (handlers : List Handler) (handler : Flow σ) (clean : Option (Act σ Unit))
    (last : Nat) (c : Config σ) :
    S.exitTry scope handlers handler clean last behind .normal c =
      (clean.getD (pure ()) (S.observer.note last c)).map fun p => match p with
        | (.ok _, d) => (.normal, d.leave scope last (some behind))
        | (.error f, d) => (.fail last f, d) := by
  simp only [Setting.exitTry, Setting.noting, Flow.andThen, cleaning_apply]
  cases clean.getD (pure ()) (S.observer.note last c) with
  | none => rfl
  | some p =>
    obtain ⟨result, d⟩ := p
    cases result <;> rfl

/-- What becomes of the outcomes of a try block. -/
theorem Implements.exitTry {defined : List (Option Label)} {handler : Flow σ} {last : Nat}
    (act : Range → Act σ Unit) {o : Outcome} (hscope : scope.covers last = true)
    (hcode : r.instrs[last]? = some (.jump behind))
    (hregions : r.regionsAt last scope = g :: around)
    (hleft : g.guarded.covers behind = false)
    (hstay : ∀ g ∈ around, g.guarded.covers behind = true)
    (hhandler : ∀ h rest, g.handlers = h :: rest →
      Implements S r defined scope True (S.run r scope h.body.start) handler around behind)
    (hclean : ∀ range, g.cleanup = some range → Cleans S r range (act range))
    (haims : ∀ pc l, o = .jump pc l → l ∈ defined ∧ g.guarded.covers (S.label l) = false) :
    Implements S r defined scope (o = .normal) (fun n => S.after r scope (g :: around) last n o)
      (S.exitTry scope g.handlers handler (g.cleanup.map act) last behind o) around behind := by
  cases o with
  | normal =>
    -- The jump at the end of the block leaves the region like any other.
    have hleft' : g.isLeft (some behind) = true := by simp [Region.isLeft, hleft]
    have hrun : ∀ n c, S.run r scope last (n + 1) c =
        sweep (g.cleanup.map (S.clean r n))
          (fun d => S.run r scope behind n (d.leave scope last (some behind)))
          (fun f => S.after r scope around behind n (.fail last f)) (S.observer.note last c) := by
      intro n c
      rw [Setting.run_succ hscope hcode]
      simp only [Observer.step, Observer.elementOf?, Machine.step, Machine.step.go, hregions,
        transfer_left hleft', sweep_bind, bind_assoc, pure_bind]
      rw [sweep_apply, sweep_apply]
      refine congrArg (Option.bind _) (funext fun p => ?_)
      obtain ⟨result, d⟩ := p
      cases result with
      | ok _ =>
        dsimp only
        rw [Act.bind_apply, transfer_stay hstay]
        rfl
      | error f =>
        simp only [Setting.after, Setting.exits, bind_assoc, pure_bind]
        rfl
    simp only [Setting.after_normal]
    refine ⟨?_, ?_, ?_⟩
    · intro n c z h
      cases n with
      | zero => cases h
      | succ n =>
        rw [hrun, sweep_apply] at h
        obtain ⟨⟨result, d⟩, hd, hz⟩ := Option.bind_eq_some_iff.mp h
        rw [exitTry_normal, Cleans.getD_sound hclean hd]
        cases result with
        | ok _ =>
          refine ⟨_, _, n, rfl, Nat.le_succ n, fun _ _ => Nat.lt_succ_self n, ?_⟩
          rw [Setting.after_normal]
          exact hz
        | error f =>
          exact ⟨_, _, n, rfl, Nat.le_succ n, fun _ _ => Nat.lt_succ_self n, hz⟩
    · intro c o' d' n z hflow hafter
      rw [exitTry_normal] at hflow
      obtain ⟨⟨result, d⟩, hd, heq⟩ := Option.map_eq_some_iff.mp hflow
      obtain ⟨m, hm, hw⟩ := Cleans.getD_complete hclean hd n
      refine ⟨m + 1, ?_⟩
      rw [hrun, sweep_apply, hw]
      cases result with
      | ok _ =>
        cases heq
        rw [Setting.after_normal] at hafter
        exact Setting.run_mono hm _ _ hafter
      | error f =>
        cases heq
        exact Setting.after_mono hm (.fail last f) _ _ hafter
    · intro c pc l d hflow
      rw [exitTry_normal] at hflow
      obtain ⟨⟨result, d'⟩, -, heq⟩ := Option.map_eq_some_iff.mp hflow
      cases result <;> cases heq
  | jump pc l =>
    obtain ⟨hl, hcovers⟩ := haims pc l rfl
    refine .swept (fun n => after_jump_left hcovers) hclean (by simp) ?_
    rintro pc' l' (h | ⟨_, h⟩) <;> cases h
    exact hl
  | ret pc v =>
    refine .swept (fun n => after_ret_left) hclean (by simp) ?_
    rintro pc' l' (h | ⟨_, h⟩) <;> cases h
  | fail pc f =>
    cases hh : g.handlers with
    | nil =>
      refine .swept (fun n => after_fail_left hh) hclean (by simp) ?_
      rintro pc' l' (h | ⟨_, h⟩) <;> cases h
    | cons h rest =>
      have hnext := hhandler h rest hh
      refine ⟨?_, ?_, ?_⟩
      · intro n c z hz
        rw [after_fail_handled hh] at hz
        obtain ⟨o, d, m, hd, hm, -, hafter⟩ := hnext.sound n _ z hz
        exact ⟨o, d, m, hd, hm, by simp, hafter⟩
      · intro c o d n z hflow hafter
        obtain ⟨m, hm⟩ := hnext.complete _ o d n z hflow hafter
        refine ⟨m, ?_⟩
        rw [after_fail_handled hh]
        exact hm
      · intro c pc' l d hflow
        exact hnext.aims _ pc' l d hflow
  | suspend pc v =>
    show Implements S r defined scope _
      (fun n => S.after r scope around last n (.suspend pc v)) (.done (.suspend pc v)) around behind
    exact .done (by simp) (by simp)
  | stop result =>
    show Implements S r defined scope _
      (fun n => S.after r scope around last n (.stop result)) (.done (.stop result)) around behind
    exact .done (by simp) (by simp)

/-- What becomes of the outcomes of a handler. -/
theorem Implements.exitCatch {defined : List (Option Label)} {last : Nat} {o : Outcome}
    (hscope : scope.covers last = true) (hscope' : scope.covers (last + 1) = true)
    (hcode : r.instrs[last]? = some .endCatch)
    (hcode' : r.instrs[last + 1]? = some (.jump behind))
    (hregions : r.regionsAt (last + 1) scope = around)
    (hstay : ∀ g ∈ around, g.guarded.covers behind = true)
    (haims : ∀ pc l, o = .jump pc l → l ∈ defined) :
    Implements S r defined scope (o = .normal) (fun n => S.after r scope around last n o)
      (S.exitCatch scope last behind o) around behind := by
  cases o with
  | normal =>
    have hrun : ∀ n c, ∃ d, S.exitCatch scope last behind .normal c = some (.normal, d) ∧
        S.run r scope last (n + 2) c = S.run r scope behind n d := by
      intro n c
      refine ⟨_, rfl, ?_⟩
      rw [Setting.run_succ hscope hcode]
      simp only [Observer.step, Observer.elementOf?, Machine.step, Act.bind_apply,
        Act.modifyActivation_apply, Act.pure_apply, Next.going, Setting.goOn]
      rw [Setting.run_succ hscope' hcode']
      simp only [Observer.step, Observer.elementOf?, Machine.step, Machine.step.go, hregions,
        Act.bind_apply, transfer_stay hstay, Act.pure_apply, Next.going, Setting.goOn]
    have hshort : ∀ c, S.run r scope last 1 c = none := by
      intro c
      rw [Setting.run_succ hscope hcode]
      rfl
    simp only [Setting.after_normal]
    refine ⟨?_, ?_, ?_⟩
    · intro n c z h
      rcases n with _ | _ | n
      · cases h
      · simp [hshort] at h
      · obtain ⟨d, hd, heq⟩ := hrun n c
        rw [heq] at h
        refine ⟨_, d, n, hd, by omega, fun _ _ => by omega, ?_⟩
        rwa [Setting.after_normal]
    · intro c o' d' n z hflow hafter
      obtain ⟨d, hd, heq⟩ := hrun n c
      rw [hd] at hflow
      cases hflow
      rw [Setting.after_normal] at hafter
      exact ⟨n + 2, by rw [heq, hafter]⟩
    · intro c pc l d hflow
      cases hflow
  | jump pc l => exact .done (o := .jump pc l) (by simp) (fun _ _ h => haims _ _ h)
  | ret pc v => exact .done (o := .ret pc v) (by simp) (by simp)
  | fail pc f => exact .done (o := .fail pc f) (by simp) (by simp)
  | suspend pc v => exact .done (o := .suspend pc v) (by simp) (by simp)
  | stop result => exact .done (o := .stop result) (by simp) (by simp)

/-- The last instruction of a finally. -/
theorem run_endFinally {last : Nat} (hscope : scope.covers last = true)
    (hcode : r.instrs[last]? = some .endFinally) (c : Config σ) :
    S.run r scope last (n + 1) c = some (.ok .ended, S.observer.note last c) := by
  rw [Setting.run_succ hscope hcode]
  rfl

/-- What becomes of the outcomes of a finally that a jump has entered. -/
theorem Implements.exitCleanup {defined : List (Option Label)} {last : Nat} {o : Outcome}
    (hscope : scope.covers last = true) (hcode : r.instrs[last]? = some .endFinally)
    (haims : ∀ pc l, o = .jump pc l → l ∈ defined) :
    Implements S r defined scope (o = .normal) (fun n => S.after r scope around last n o)
      (S.exitCleanup last o) around behind := by
  cases o with
  | normal =>
    simp only [Setting.after_normal]
    refine ⟨?_, ?_, ?_⟩
    · intro n c z h
      cases n with
      | zero => cases h
      | succ n =>
        rw [run_endFinally hscope hcode] at h
        exact ⟨_, _, n, rfl, Nat.le_succ n, fun _ _ => Nat.lt_succ_self n, h⟩
    · intro c o' d' n z hflow hafter
      cases hflow
      refine ⟨1, ?_⟩
      rw [run_endFinally hscope hcode]
      exact hafter
    · intro c pc l d hflow
      cases hflow
  | jump pc l => exact .done (o := .jump pc l) (by simp) (fun _ _ h => haims _ _ h)
  | ret pc v => exact .done (o := .ret pc v) (by simp) (by simp)
  | fail pc f => exact .done (o := .fail pc f) (by simp) (by simp)
  | suspend pc v => exact .done (o := .suspend pc v) (by simp) (by simp)
  | stop result => exact .done (o := .stop result) (by simp) (by simp)

/-- Behind an outcome that no region of the scope is in the way of, the run of the scope
closes. -/
theorem after_nil {last : Nat} {o : Outcome} (hmethod : r.method = S.method)
    (hnormal : o = .normal → scope.covers last = true ∧ r.instrs[last]? = some .endFinally)
    (haims : ∀ pc l, o = .jump pc l → scope.covers (S.label l) = false) (d : Config σ) :
    S.after r scope [] last (n + 1) o d = S.close scope last o d := by
  cases o with
  | normal =>
    obtain ⟨hscope, hcode⟩ := hnormal rfl
    rw [Setting.after_normal, run_endFinally hscope hcode]
    rfl
  | jump pc l =>
    rw [Setting.after_jump_stay (by simp), Setting.run_outside (haims pc l rfl), hmethod]
    rfl
  | ret pc v => rfl
  | fail pc f => rfl
  | suspend pc v => rfl
  | stop result => cases result <;> rfl

/-- A run of a whole scope closes behind the outcome of its flow. -/
theorem Implements.closes {defined : List (Option Label)} {x : Nat → Act σ Halt} {flow : Flow σ}
    {last : Nat} (h : Implements S r defined scope True x flow [] last)
    (hmethod : r.method = S.method)
    (hnormal : ∀ c d, flow c = some (.normal, d) →
      scope.covers last = true ∧ r.instrs[last]? = some .endFinally)
    (haims : ∀ c d pc l, flow c = some (.jump pc l, d) → scope.covers (S.label l) = false)
    (c : Config σ) (z : Except Failure Halt × Config σ) :
    (∃ n, x n c = some z) ↔ ∃ o d, flow c = some (o, d) ∧ S.close scope last o d = some z := by
  have hclose : ∀ o d, flow c = some (o, d) → ∀ n, S.after r scope [] last (n + 1) o d =
      S.close scope last o d :=
    fun o d hd n => after_nil hmethod (fun ho => hnormal c d (ho ▸ hd))
      (fun pc l ho => haims c d pc l (ho ▸ hd)) d
  constructor
  · rintro ⟨n, hn⟩
    obtain ⟨o, d, m, hd, -, -, hafter⟩ := h.sound n c z hn
    refine ⟨o, d, hd, ?_⟩
    rw [← hclose o d hd m]
    exact Setting.after_mono (Nat.le_succ m) o d z hafter
  · rintro ⟨o, d, hd, hz⟩
    rw [← hclose o d hd 0] at hz
    exact h.complete c o d 1 z hd hz

/-- A finally as a scope of its own. -/
theorem Implements.cleans {defined : List (Option Label)} (range : Range) {flow : Flow σ}
    (h : Implements S r defined range True (S.run r range range.start) flow [] (range.stop - 1))
    (hmethod : r.method = S.method) (hscope : range.covers (range.stop - 1) = true)
    (hcode : r.instrs[range.stop - 1]? = some .endFinally)
    (haims : ∀ c d pc l, flow c = some (.jump pc l, d) → range.covers (S.label l) = false) :
    Cleans S r range (S.settle range flow) := by
  have hclose := h.closes hmethod (fun _ _ _ => ⟨hscope, hcode⟩) haims
  refine ⟨?_, ?_⟩
  · intro n c z hz
    unfold Setting.clean cleaner at hz
    rw [Act.bind_apply] at hz
    cases hrun : S.run r range range.start n c with
    | none => simp [hrun] at hz
    | some p =>
      obtain ⟨result, e⟩ := p
      obtain ⟨o, d, hd, hp⟩ := (hclose c (result, e)).mp ⟨n, hrun⟩
      simp only [Setting.settle, hd, Option.bind_some, Act.bind_apply, hp, ← hmethod]
      simpa only [hrun] using hz
  · intro c z hz
    obtain ⟨⟨o, d⟩, hd, hrest⟩ := Option.bind_eq_some_iff.mp hz
    rw [Act.bind_apply] at hrest
    cases hp : S.close range (range.stop - 1) o d with
    | none => simp [hp] at hrest
    | some p =>
      obtain ⟨n, hn⟩ := (hclose c p).mpr ⟨o, d, hd, hp⟩
      refine ⟨n, ?_⟩
      unfold Setting.clean cleaner
      rw [Act.bind_apply]
      simp only [hn, hmethod]
      simpa only [hp] using hrest

end Ways

/-! ## Trees -/

theorem behindTry_eq (pc : Nat) (o : Origin) (body : Block) (catches : List Catch)
    (cleanup : Block) :
    behindTry pc body catches cleanup = pc + sizeStmt (.try o body catches cleanup) := by
  simp only [behindTry, behindCatches, behindBody, sizeStmt, Nat.add_assoc]

section Trees

open Fragment (Fits append_assoc)

variable {S : Setting σ} {r : Routine} {defined : List (Option Label)}

/-- A finally that stands in a routine, run as a scope of its own. -/
theorem Placed.cleans {scope : Range} {pc : Nat} {around : List Region} {cleanup : Block}
    {range : Range} (hmethod : r.method = S.method)
    (h : Placed S r defined scope (flattenCleanup pc cleanup) pc (sizeCleanup cleanup)
      (labelsBlock cleanup) [] around)
    (hrange : cleanupRange pc cleanup = some range)
    (hbody : Placed S r defined range (flattenBlock pc cleanup) pc (sizeBlock cleanup)
        (labelsBlock cleanup) [] [] →
      ∀ e : Entry, e.enters (labelsBlock cleanup) = true →
        Implements S r defined range True (S.run r range (S.entry pc e))
          (S.passBlock range pc [] cleanup e) [] (pc + sizeBlock cleanup))
    (hstart : ∀ g ∈ around, g.guarded.start < pc) :
    Cleans S r range (S.settle range (S.rounds range [] (labelsBlock cleanup)
      (S.passBlock range pc [] cleanup) .start)) := by
  cases cleanup with
  | absent => cases hrange
  | mk o locals ss =>
    simp only [flattenCleanup, sizeCleanup, labelsBlock, sizeBlock, flattenBlock] at h hbody ⊢
    cases hrange
    have hfits := fits_stmts pc ss
    have hend : (Fragment.one .endFinally).Fits (pc + sizeStmts ss) 1 [] := .one _ _
    have hleft := h.left hfits hend rfl rfl (by simp)
    have hright := h.right hfits (follows_stmts pc [] ss) hend rfl rfl (by simp)
    have hown := hleft.own hfits hstart
    have hcode := hright.code 0 Nat.zero_lt_one
    have hpart := hbody hown
    have hrounds := Implements.rounds [] hpart (by simp) (by simp) .start rfl
    refine Implements.cleans ⟨pc, pc + sizeStmts ss + 1⟩ hrounds hmethod ?_ hcode ?_
    · rw [Range.covers_eq_true]
      dsimp only
      omega
    · intro c d p l hflow
      have hl := (Setting.rounds_jump hflow).1
      have houtside := h.outside l (hrounds.aims c p l d hflow) hl
      rw [Range.covers_eq_false]
      dsimp only
      rcases houtside with h' | ⟨-, h' | h'⟩ | h'
      · omega
      · cases h'
      · omega
      · omega

theorem exec_leaf {s : Stmt} (hs : isLeaf s = true) (scope : Range) (pc : Nat)
    (near : List (Option Label)) (e : Entry) :
    S.exec scope pc near s e = S.noting pc (S.leaf pc s) := by
  cases s with
  | block | list | label | «try» => cases hs
  | _ => rw [Setting.exec] <;> simp

theorem implements_leaf (hmethod : r.method = S.method) {s : Stmt} (hs : isLeaf s = true)
    {scope : Range} {pc : Nat} {near : List (Option Label)} {around : List Region}
    (h : Placed S r defined scope (flattenStmt pc s) pc (sizeStmt s) (labelsStmt s) near around)
    (ht : ∀ l ∈ targetsStmt s, l ∈ defined ∧ l ≠ none) {e : Entry}
    (he : e.enters (labelsStmt s) = true) :
    Implements S r defined scope True (S.run r scope (S.entry pc e))
      (S.exec scope pc near s e) around (pc + sizeStmt s) := by
  obtain ⟨hflat, hsize, hlabels⟩ := flattenStmt_leaf hs pc
  rw [hflat, hsize, hlabels] at h
  rw [hlabels] at he
  cases e with
  | seek l => simp [Entry.enters] at he
  | start =>
    rw [exec_leaf hs, hsize, Setting.entry]
    have hcode := h.code 0 Nat.zero_lt_one
    refine .leaf hs hmethod (h.scope_covers (Nat.le_refl _) (by omega)) (by simpa using hcode) ?_ ht
    simpa using h.regions pc (Nat.le_refl _) (by omega)

mutual

/-- A statement in a routine does what its structured execution says. -/
theorem implements_stmt (hmethod : r.method = S.method) :
    ∀ (s : Stmt) (scope : Range) (pc : Nat) (near : List (Option Label)) (around : List Region),
      Placed S r defined scope (flattenStmt pc s) pc (sizeStmt s) (labelsStmt s) near around →
      (∀ l ∈ targetsStmt s, l ∈ defined ∧ l ≠ none) →
      ∀ e : Entry, e.enters (labelsStmt s) = true →
        Implements S r defined scope True (S.run r scope (S.entry pc e))
          (S.exec scope pc near s e) around (pc + sizeStmt s)
  | .block b, scope, pc, near, around, h, ht, e, he => by
    simp only [flattenStmt, sizeStmt, labelsStmt, targetsStmt] at h ht he ⊢
    rw [Setting.exec]
    exact .rounds [] (implements_block hmethod b scope pc near around h ht)
      (fun l hl g hg => h.covers_label (fits_block pc b) hl hg) (by simp) e he
  | .list o ss, scope, pc, near, around, h, ht, e, he => by
    simp only [flattenStmt, sizeStmt, labelsStmt, targetsStmt] at h ht he ⊢
    rw [Setting.exec]
    exact .rounds [] (implements_stmts hmethod ss scope pc near around h ht)
      (fun l hl g hg => h.covers_label (fits_stmts pc ss) hl hg) (by simp) e he
  | .label o l, scope, pc, near, around, h, ht, e, he => by
    have hentry : S.entry pc e = pc := by
      cases e with
      | start => rfl
      | seek l' =>
        have hl : l' = l := by simpa [Entry.enters, labelsStmt] using he
        rw [hl]
        exact h.label (l, pc) (by simp [flattenStmt])
    rw [Setting.exec, hentry, sizeStmt]
    exact .skip
  | .try o body catches cleanup, scope, pc, near, around, h, ht, e, he => by
    obtain ⟨hbody, hcode, hregions⟩ := h.tryBlock
    obtain ⟨hcatches, hcleanup⟩ := h.tryRest
    have fbody := fits_block pc body
    have fcatches := fits_catches (behindBody pc body) (behindTry pc body catches cleanup) catches
    have fcleanup := fits_cleanup (behindCatches pc body catches) cleanup
    have hbehind := behindTry_eq pc o body catches cleanup
    have hstay : ∀ g ∈ around, g.guarded.covers (behindTry pc body catches cleanup) = true := by
      intro g hg
      have := h.guarded g hg
      rw [Range.covers_eq_true]
      omega
    have ht' : (∀ l ∈ targetsBlock body, l ∈ defined ∧ l ≠ none) ∧
        (∀ l ∈ targetsCatches catches, l ∈ defined ∧ l ≠ none) ∧
        (∀ l ∈ targetsBlock cleanup, l ∈ defined ∧ l ≠ none) := by
      simp only [targetsStmt, List.mem_append] at ht
      exact ⟨fun l hl => ht l (.inl (.inl hl)), fun l hl => ht l (.inl (.inr hl)),
        fun l hl => ht l (.inr hl)⟩
    have handlers : catches ≠ [] → ∀ e : Entry, e.enters (labelsCatches catches) = true →
        Implements S r defined scope True (S.run r scope (S.entry (behindBody pc body + 1) e))
          (S.execCatches scope (behindBody pc body) (behindTry pc body catches cleanup) catches e)
          around (behindTry pc body catches cleanup) :=
      implements_catches hmethod catches scope _ _ around hcatches ht'.2.1 hstay
    rw [Setting.exec, ← hbehind]
    by_cases hb : e.enters (labelsBlock body) = true
    · rw [if_pos hb]
      have hrounds := Implements.rounds near
        (implements_block hmethod body scope pc near _ hbody ht'.1)
        (fun l hl g hg => hbody.covers_label fbody hl hg)
        (fun l hl => by
          refine ⟨hbody.before l hl, fun g hg => ?_⟩
          have hguarded := hbody.guarded g hg
          rw [hbody.before l hl, Range.covers_eq_true]
          omega) e hb
      refine hrounds.andThen fun c o' d hd => ?_
      refine .exitTry (g := regionAt pc body catches cleanup)
        (fun range => S.settle range (S.rounds range [] (labelsBlock cleanup)
          (S.passBlock range (behindCatches pc body catches) [] cleanup) .start))
        (hbody.scope_covers (by omega) (Nat.le_refl _)) hcode hregions ?_ hstay ?_ ?_ ?_
      · rw [Range.covers_eq_false, regionAt_guarded]
        simp only [behindTry, behindCatches, behindBody]
        omega
      · intro first rest hfirst
        cases catches with
        | nil => cases hfirst
        | cons c cs =>
          obtain ⟨co, target, cbody⟩ := c
          cases hfirst
          exact handlers (by simp) .start rfl
      · intro range hrange
        refine hcleanup.cleans hmethod hrange (fun hown => ?_) ?_
        · exact implements_block hmethod cleanup range _ [] [] hown ht'.2.2
        · intro g hg
          have := h.guarded g hg
          simp only [behindCatches, behindBody]
          omega
      · rintro p l rfl
        obtain ⟨hl, hnear⟩ := Setting.rounds_jump hd
        refine ⟨hrounds.aims c p l d hd, ?_⟩
        rw [Range.covers_eq_false, regionAt_guarded]
        dsimp only
        by_cases hlc : l ∈ labelsCatches catches
        · have := fcatches.label_range hcatches.label hlc
          simp only [behindBody] at this
          omega
        by_cases hlf : l ∈ labelsBlock cleanup
        · have := fcleanup.label_range hcleanup.label hlf
          simp only [behindCatches, behindBody] at this
          omega
        have houtside := h.outside l (hrounds.aims c p l d hd)
          (by simp [labelsStmt, hl, hlc, hlf])
        simp only [sizeStmt] at houtside
        rcases houtside with h' | ⟨-, h' | h'⟩ | h'
        · omega
        · exact absurd h' hnear
        · omega
        · omega
    · rw [if_neg hb]
      by_cases hc : e.enters (labelsCatches catches) = true
      · rw [if_pos hc]
        cases e with
        | start => exact absurd rfl hb
        | seek l =>
          refine handlers ?_ (.seek l) hc
          rintro rfl
          simp [Entry.enters, labelsCatches] at hc
      · rw [if_neg hc]
        cases e with
        | start => exact absurd rfl hb
        | seek l =>
          have hf : (Entry.seek l).enters (labelsBlock cleanup) = true := by
            simp only [Entry.enters, decide_eq_true_eq, labelsStmt, List.mem_append] at he hb hc ⊢
            rcases he with (he | he) | he
            · exact absurd he hb
            · exact absurd he hc
            · exact he
          cases cleanup with
          | absent => simp [Entry.enters, labelsBlock] at hf
          | mk fo locals ss =>
            simp only [flattenCleanup, sizeCleanup, labelsBlock] at hcleanup hf ⊢
            have hss := fits_stmts (behindCatches pc body catches) ss
            have hend : (Fragment.one .endFinally).Fits
                (behindCatches pc body catches + sizeStmts ss) 1 [] := .one _ _
            have hleft := hcleanup.left hss hend rfl rfl (by simp)
            have hright := hcleanup.right hss (follows_stmts _ [] ss) hend rfl rfl (by simp)
            have hrounds := Implements.rounds []
              (implements_block hmethod (.mk fo locals ss) scope _ [] around
                (by simpa only [flattenBlock, sizeBlock, labelsBlock] using hleft) ht'.2.2)
              (fun l hl g hg => hleft.covers_label hss (by simpa only [labelsBlock] using hl) hg)
              (by simp) (.seek l) (by simpa only [labelsBlock] using hf)
            simp only [labelsBlock] at hrounds
            refine hrounds.andThen fun c o' d hd => ?_
            refine .exitCleanup (hright.scope_covers (by simp [sizeBlock]) (by simp [sizeBlock])) ?_
              (fun p l ho => hrounds.aims c p l d (ho ▸ hd))
            have hcode' := hright.code 0 Nat.zero_lt_one
            simp only [sizeBlock]
            exact hcode'
  | .absent, scope, pc, near, around, h, ht, e, he
  | .sequencePoint .., scope, pc, near, around, h, ht, e, he
  | .noOp .., scope, pc, near, around, h, ht, e, he
  | .localDeclaration .., scope, pc, near, around, h, ht, e, he
  | .expression .., scope, pc, near, around, h, ht, e, he
  | .return .., scope, pc, near, around, h, ht, e, he
  | .yieldReturn .., scope, pc, near, around, h, ht, e, he
  | .yieldBreak .., scope, pc, near, around, h, ht, e, he
  | .throw .., scope, pc, near, around, h, ht, e, he
  | .if .., scope, pc, near, around, h, ht, e, he
  | .while .., scope, pc, near, around, h, ht, e, he
  | .break .., scope, pc, near, around, h, ht, e, he
  | .continue .., scope, pc, near, around, h, ht, e, he
  | .goto .., scope, pc, near, around, h, ht, e, he
  | .conditionalGoto .., scope, pc, near, around, h, ht, e, he
  | .dispatch .., scope, pc, near, around, h, ht, e, he
  | .foreign .., scope, pc, near, around, h, ht, e, he =>
    implements_leaf hmethod rfl h ht he

theorem implements_stmts (hmethod : r.method = S.method) :
    ∀ (ss : List Stmt) (scope : Range) (pc : Nat) (near : List (Option Label))
      (around : List Region),
      Placed S r defined scope (flattenStmts pc ss) pc (sizeStmts ss) (labelsStmts ss) near
        around →
      (∀ l ∈ targetsStmts ss, l ∈ defined ∧ l ≠ none) →
      ∀ e : Entry, e.enters (labelsStmts ss) = true →
        Implements S r defined scope True (S.run r scope (S.entry pc e))
          (S.pass scope pc near ss e) around (pc + sizeStmts ss)
  | [], scope, pc, near, around, h, ht, e, he => by
    cases e with
    | seek l => simp [Entry.enters, labelsStmts] at he
    | start =>
      rw [Setting.pass, sizeStmts]
      exact .skip
  | s :: rest, scope, pc, near, around, h, ht, e, he => by
    simp only [flattenStmts, sizeStmts, labelsStmts, targetsStmts, List.mem_append] at h ht he ⊢
    have hs := fits_stmt pc s
    have hrest := fits_stmts (pc + sizeStmt s) rest
    have first := implements_stmt hmethod s scope pc near around (h.left hs hrest rfl rfl rfl)
      fun l hl => ht l (.inl hl)
    have others := implements_stmts hmethod rest scope (pc + sizeStmt s) (follow near s) around
      (h.right hs (follows_stmt pc near s) hrest rfl rfl rfl) fun l hl => ht l (.inr hl)
    rw [Setting.pass, ← Nat.add_assoc]
    by_cases hfirst : e.enters (labelsStmt s) = true
    · rw [if_pos hfirst]
      exact (first e hfirst).onNormal (others .start rfl)
    · rw [if_neg hfirst]
      cases e with
      | start => exact absurd rfl hfirst
      | seek l =>
        refine others (.seek l) ?_
        simp only [Entry.enters, decide_eq_true_eq, List.mem_append] at he hfirst ⊢
        exact he.resolve_left hfirst

theorem implements_block (hmethod : r.method = S.method) :
    ∀ (b : Block) (scope : Range) (pc : Nat) (near : List (Option Label)) (around : List Region),
      Placed S r defined scope (flattenBlock pc b) pc (sizeBlock b) (labelsBlock b) near around →
      (∀ l ∈ targetsBlock b, l ∈ defined ∧ l ≠ none) →
      ∀ e : Entry, e.enters (labelsBlock b) = true →
        Implements S r defined scope True (S.run r scope (S.entry pc e))
          (S.passBlock scope pc near b e) around (pc + sizeBlock b)
  | .absent, scope, pc, near, around, h, ht, e, he => by
    cases e with
    | seek l => simp [Entry.enters, labelsBlock] at he
    | start =>
      rw [Setting.passBlock, sizeBlock]
      exact .skip
  | .mk o locals ss, scope, pc, near, around, h, ht, e, he => by
    simp only [flattenBlock, sizeBlock, labelsBlock, targetsBlock] at h ht he ⊢
    rw [Setting.passBlock]
    exact implements_stmts hmethod ss scope pc near around h ht e he

theorem implements_catches (hmethod : r.method = S.method) :
    ∀ (cs : List Catch) (scope : Range) (pc behind : Nat) (around : List Region),
      Placed S r defined scope (flattenCatches pc behind cs) pc (sizeCatches cs)
        (labelsCatches cs) [] around →
      (∀ l ∈ targetsCatches cs, l ∈ defined ∧ l ≠ none) →
      (∀ g ∈ around, g.guarded.covers behind = true) → cs ≠ [] →
      ∀ e : Entry, e.enters (labelsCatches cs) = true →
        Implements S r defined scope True (S.run r scope (S.entry (pc + 1) e))
          (S.execCatches scope pc behind cs e) around behind
  | [], scope, pc, behind, around, h, ht, hstay, hne, e, he => absurd rfl hne
  | .mk o target body :: rest, scope, pc, behind, around, h, ht, hstay, hne, e, he => by
    simp only [flattenCatches, sizeCatches, labelsCatches, targetsCatches, List.mem_append,
      append_assoc] at h ht he
    have fbody := fits_block (pc + 1) body
    have frest := fits_catches (pc + sizeBlock body + 3) behind rest
    have fjump := (Fits.one (pc + 1 + sizeBlock body + 1) (.jump (.position behind))).append frest
      (by omega)
    have fend := (Fits.one (pc + 1 + sizeBlock body) .endCatch).append fjump rfl
    -- The handler's own code: what enters it, its body, and the two instructions behind it.
    have h1 := h.tail (fbody.append fend rfl) rfl (by omega)
    have hbody := h1.left fbody fend rfl rfl rfl
    have h2 := h1.right fbody (follows_block (pc + 1) [] body) fend rfl rfl rfl
    have h3 := h2.tail fjump rfl rfl
    have hrest := h3.tail frest (by omega) rfl
    rw [Setting.execCatches]
    by_cases hb : e.enters (labelsBlock body) = true
    · rw [if_pos hb]
      have hrounds := Implements.rounds []
        (implements_block hmethod body scope (pc + 1) [] around hbody fun l hl => ht l (.inl hl))
        (fun l hl g hg => hbody.covers_label fbody hl hg) (by simp) e hb
      refine hrounds.andThen fun c o' d hd => ?_
      refine .exitCatch (h2.scope_covers (Nat.le_refl _) (by omega))
        (h3.scope_covers (Nat.le_refl _) (by omega)) (h2.head_code (by omega))
        (h3.head_code (by omega)) (h3.head_regions frest (by omega) (by omega)) hstay
        fun p l ho => hrounds.aims c p l d (ho ▸ hd)
    · rw [if_neg hb]
      cases e with
      | start => exact absurd rfl hb
      | seek l =>
        have hl : l ∈ labelsCatches rest := by
          simp only [Entry.enters, decide_eq_true_eq, List.mem_append] at he hb
          exact he.resolve_left hb
        refine implements_catches hmethod rest scope _ behind around hrest
          (fun l hl => ht l (.inr hl)) hstay ?_ (.seek l) (by simp [Entry.enters, hl])
        rintro rfl
        simp [labelsCatches] at hl

end

end Trees

end Resumable.Machine
