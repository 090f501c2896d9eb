import Resumable.Proofs.Machine.Contained

/-!
# Ways through dispatches

A dispatch goes to where the label of its case stands and changes nothing, if no try is left on the
way (`Executable.dispatch_advances`), and so does a jump (`Executable.jump_advances`).  `Threads`
are ways that lead through dispatches only.
-/

set_option autoImplicit false

namespace Resumable.Machine

open Resumable.Symbol Resumable.Tree

variable {σ : Type}

/-! ## Single instructions -/

/-- The instruction at `pc` goes on at `next`, and makes the configuration `c` into `d`, whatever is
done about finallys. -/
def Advances (ctx : Context σ) (r : Routine) (pc : Nat) (c : Config σ) (next : Nat) (d : Config σ) :
    Prop :=
  ∃ i, r.instrs[pc]? = some i ∧
    ∀ clean, step ctx r clean r.range pc i c = some (.ok (.goto next), d)

section Advances

variable {ctx : Context σ} {r : Routine} {pc next : Nat} {c d : Config σ}

/-- A run goes on where the instruction does. -/
theorem Advances.run (h : Advances ctx r pc c next d) (steps : Nat) :
    run ctx r (steps + 1) r.range pc c = run ctx r steps r.range next d := by
  obtain ⟨i, hi, hstep⟩ := h
  have hcovers : r.range.covers pc = true :=
    Range.covers_eq_true.mpr ⟨Nat.zero_le _, (Array.getElem?_eq_some_iff.mp hi).1⟩
  rw [run_succ hcovers hi, Act.bind_apply, hstep]

/-- The instruction of an expression goes on at the next one, if its evaluation does not fail. -/
theorem exec_advances {e : Expr} {v : Value} (hi : r.instrs[pc]? = some (.exec e))
    (heval : eval ctx e c = some (.ok v, d)) : Advances ctx r pc c (pc + 1) d := by
  refine ⟨_, hi, fun clean => ?_⟩
  rw [step, Act.attempt_bind_apply, heval]
  rfl

end Advances

/-! ## Dispatches -/

/-- From `p`, control goes through the instructions at the positions in order and then on at `q`.
Each of them is a dispatch over the expression, and none changes the configuration. -/
inductive Threads (ctx : Context σ) (r : Routine) (e : Expr) (c : Config σ) :
    Nat → List Nat → Nat → Prop where
  | done (p : Nat) : Threads ctx r e c p [] p
  | dispatch {p next q : Nat} {ps : List Nat} {cases : List (Int × Nat)} {otherwise : Nat}
    (hinstr : r.instrs[p]? = some (.dispatch e cases otherwise))
    (hadvances : Advances ctx r p c next c) (hrest : Threads ctx r e c next ps q) :
    Threads ctx r e c p (p :: ps) q

/-- A run goes on where the way ends. -/
theorem Threads.run {ctx : Context σ} {r : Routine} {e : Expr} {c : Config σ} {p q : Nat}
    {ps : List Nat} (h : Threads ctx r e c p ps q) (steps : Nat) :
    run ctx r (steps + ps.length) r.range p c = run ctx r steps r.range q c := by
  induction h with
  | done => rfl
  | dispatch _ hadvances _ ih =>
    rw [List.length_cons, ← Nat.add_assoc, hadvances.run, ih]

/-- From the start, control goes through the dispatches at the positions `ps` and then through the
instruction at `q`, which goes on at `next` with the configuration `d`. -/
structure GoesOn (ctx : Context σ) (r : Routine) (e : Expr) (c : Config σ) (ps : List Nat)
    (q next : Nat) (d : Config σ) : Prop where
  threads : Threads ctx r e c 0 ps q
  advances : Advances ctx r q c next d
  /-- A run from the start is then one from there. -/
  run : ∀ steps, run ctx r (steps + 1 + ps.length) r.range 0 c = run ctx r steps r.range next d

theorem GoesOn.of_threads {ctx : Context σ} {r : Routine} {e : Expr} {c d : Config σ}
    {ps : List Nat} {q next : Nat} (h : Threads ctx r e c 0 ps q) (hadvances : Advances ctx r q c next d) :
    GoesOn ctx r e c ps q next d :=
  ⟨h, hadvances, fun steps => by rw [h.run, hadvances.run]⟩

/-! ## Sites -/

theorem sitesStmts_append (around : List Part) (pc : Nat) (ss ts : List Stmt) :
    sitesStmts around pc (ss ++ ts) =
      sitesStmts around pc ss ++ sitesStmts around (pc + sizeStmts ss) ts := by
  induction ss generalizing pc with
  | nil => rfl
  | cons s rest ih =>
    rw [List.cons_append, sitesStmts, sitesStmts, ih, List.append_assoc, sizeStmts, Nat.add_assoc]

/-- The sites of a part of statements are together among those of all of them. -/
theorem sitesStmts_inside {ss ts : List Stmt} (h : ss <:+: ts) (around : List Part) (pc : Nat) :
    ∃ pc', sitesStmts around pc' ss <:+: sitesStmts around pc ts := by
  obtain ⟨before, behind, rfl⟩ := h
  exact ⟨pc + sizeStmts before, sitesStmts around pc before, _, by
    rw [sitesStmts_append, sitesStmts_append]⟩

section Sites

/-- Only dispatches become instructions that dispatch, with a case for each of their numbers. -/
theorem Site.dispatch_of_instr {x : Site} {i : Instr Target} (hi : x.item.instr? = some i)
    {f : Target → Nat} {e : Expr} {targets : List (Int × Nat)} {otherwise : Nat}
    (he : i.map f = .dispatch e targets otherwise) : ∃ o cases l,
      x.item = .stmt (.dispatch o e cases l) ∧
        targets.map Prod.fst = cases.map DispatchCase.value := by
  obtain ⟨pc, item, parts⟩ := x
  cases item with
  | stmt s =>
    cases s with
    | label => cases hi
    | dispatch o e' cases l =>
      cases hi
      cases he
      refine ⟨o, cases, l, rfl, ?_⟩
      simp only [List.map_map]
      rfl
    | throw o e' =>
      cases hi
      cases e' <;> cases he
    | _ =>
      cases hi
      cases he
  | _ =>
    cases hi
    cases he

variable {b : Block} {pc : Nat} {parts : List Part}

theorem mem_placesBlock_of_site {around : List Part} {start : Nat} {s : Stmt}
    (hx : ⟨pc, .stmt s, parts⟩ ∈ sitesBlock around start b) : (pc, s) ∈ placesBlock start b := by
  rw [← places_of_sites around start b]
  exact List.mem_filterMap.mpr ⟨_, hx, rfl⟩

/-- The position of the site of a label is recorded for the label. -/
theorem Executable.recorded_of_site (h : Executable b) {o : Origin} {l : Option Label}
    (hx : ⟨pc, .stmt (.label o l), parts⟩ ∈ sitesBlock [] 0 b) : recorded? b l = some pc := by
  have hmem : (l, pc) ∈ labelPlaces b :=
    List.mem_filterMap.mpr ⟨_, mem_placesBlock_of_site hx, rfl⟩
  have hnodup : ((labelPlaces b).map Prod.fst).Nodup := by
    rw [labelPlaces_labels]
    exact h.nodup
  rw [recorded?, ← labelPlaces_eq]
  exact lookup_of_nodup hnodup hmem

/-- A label has a site at the position that is recorded for it. -/
theorem site_of_recorded {l : Option Label} (h : recorded? b l = some pc) :
    ∃ o parts, ⟨pc, .stmt (.label o l), parts⟩ ∈ sitesBlock [] 0 b := by
  obtain ⟨before, behind, hplaces, -⟩ := List.lookup_eq_some_iff.mp h
  have hmem : (l, pc) ∈ labelPlaces b := by
    rw [labelPlaces_eq, hplaces]
    exact List.mem_append_right _ List.mem_cons_self
  obtain ⟨⟨i, s⟩, hplace, hlabel⟩ := List.mem_filterMap.mp hmem
  rw [← places_of_sites [] 0 b] at hplace
  obtain ⟨⟨i', item, parts⟩, hx, hsite⟩ := List.mem_filterMap.mp hplace
  cases item with
  | stmt s' =>
    cases hsite
    cases s with
    | label o k =>
      cases hlabel
      exact ⟨o, parts, hx⟩
    | _ => cases hlabel
  | _ => cases hsite

variable {ctx : Context σ} {method : Method} {o : Origin} {e : Expr} {cases : List DispatchCase}
  {l : Option Label} {c : Config σ}

/-- The instruction of a dispatch. -/
theorem Executable.dispatch_instr (h : Executable b) (method : Method)
    (hx : ⟨pc, .stmt (.dispatch o e cases l), parts⟩ ∈ sitesBlock [] 0 b) (ctx : Context σ) :
    let S := Setting.ofBody ctx .silent method b
    (routineOf method b).instrs[pc]? =
      some (.dispatch e (cases.map fun x => (x.value, S.label x.label)) (S.label l)) := by
  intro S
  have hl : l ≠ none := (h.targets l (targets_of_place (mem_placesBlock_of_site hx)
    (List.mem_append_right _ List.mem_cons_self))).2
  have hinstr := instr_of_site method hx rfl
  rw [← position_jumpTarget S hl]
  refine hinstr.trans ?_
  have hresolve : (bodyFragment b).resolve = S.position := by
    funext t
    cases t with
    | label l =>
      rw [Fragment.resolve, bodyFragment_labels]
      rfl
    | position pc => rfl
  rw [hresolve, leafInstr, Instr.map, List.map_map]
  rfl

/-- A jump that leaves none of the try blocks around it changes nothing. -/
theorem go_stays {item : Item} (hx : ⟨pc, item, parts⟩ ∈ sitesBlock [] 0 b)
    (hi : item.instr?.isSome = true) {q : Nat}
    (hinside : ∀ t ∈ parts.filterMap Part.guarded?, t.region.guarded.covers q = true)
    (hcaught : c.activation.caught = []) (clean : Cleaner σ) :
    step.go (routineOf method b) clean (routineOf method b).range pc q c =
      some (.ok (.goto q), c) := by
  have hregions : ∀ g ∈ (routineOf method b).regionsAt pc (routineOf method b).range,
      g.guarded.covers q = true := by
    rw [regionsAt_of_site method hx hi]
    intro g hg
    obtain ⟨t, ht, rfl⟩ := List.mem_map.mp hg
    exact hinside t (List.mem_filter.mp ht).1
  have hleave : c.leave (routineOf method b).range pc (some q) = c := by
    obtain ⟨⟨this, args, locals, caught⟩, w⟩ := c
    obtain rfl : caught = [] := hcaught
    rfl
  simp only [step.go, Act.bind_apply, transfer_stay hregions, hleave]
  rfl

/-- A dispatch goes to the label for the number that it finds, if that stands in all try blocks that
the dispatch stands in. -/
theorem Executable.dispatch_advances (h : Executable b)
    (hx : ⟨pc, .stmt (.dispatch o e cases l), parts⟩ ∈ sitesBlock [] 0 b) {n : Int} {q : Nat}
    (heval : eval ctx e c = some (.ok (.int n), c))
    (hq : recorded? b (Setting.caseLabel cases l n) = some q)
    (hinside : ∀ t ∈ parts.filterMap Part.guarded?, t.region.guarded.covers q = true)
    (hcaught : c.activation.caught = []) : Advances ctx (routineOf method b) pc c q c := by
  refine ⟨_, h.dispatch_instr method hx ctx, fun clean => ?_⟩
  have htarget : dispatchTarget (cases.map fun x =>
      (x.value, (Setting.ofBody ctx .silent method b).label x.label))
      ((Setting.ofBody ctx .silent method b).label l) n = q := by
    rw [dispatchTarget_eq]
    rw [recorded?, bodyFragment_labels] at hq
    exact congrArg (fun x => x.getD 0) hq
  have hscrutinee : (do Act.ofExcept (← eval ctx e).asInt : Act σ Int) c = some (.ok n, c) := by
    rw [Act.bind_apply, heval]
    rfl
  rw [step, Act.attempt_bind_apply, hscrutinee]
  simp only [Option.bind_some, htarget]
  exact go_stays hx rfl hinside hcaught clean

/-- The instruction of a jump goes to where its label stands. -/
theorem Executable.jump_instr (h : Executable b)
    (hx : ⟨pc, .stmt (.goto o l), parts⟩ ∈ sitesBlock [] 0 b) {q : Nat}
    (hq : recorded? b l = some q) :
    (routineOf method b).instrs[pc]? = some (.jump q) := by
  obtain ⟨p, hp, hinstr⟩ := (h.resolves method).goto pc o l (mem_placesBlock_of_site hx)
  rw [hq] at hp
  cases hp
  exact hinstr

/-- A jump to a label that stands in all try blocks that the jump stands in changes nothing. -/
theorem Executable.jump_advances (h : Executable b)
    (hx : ⟨pc, .stmt (.goto o l), parts⟩ ∈ sitesBlock [] 0 b) {q : Nat} (hq : recorded? b l = some q)
    (hinside : ∀ t ∈ parts.filterMap Part.guarded?, t.region.guarded.covers q = true)
    (hcaught : c.activation.caught = []) : Advances ctx (routineOf method b) pc c q c :=
  ⟨_, h.jump_instr hx hq, go_stays hx rfl hinside hcaught⟩

end Sites

end Resumable.Machine
