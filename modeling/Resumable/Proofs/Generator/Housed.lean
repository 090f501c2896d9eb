import Resumable.Proofs.Lowering.Variables
import Resumable.Proofs.Machine.Endless
import Resumable.Proofs.Session.Cleanup

/-!
# Variables and their fields

Two activations side by side: one of a resumable method, which keeps its variables, and one of a
method of its state machine, which has fields for them.  `Represents` says when the second one stands
for the first one.  Evaluating an expression in the one and the expression that it is hoisted to in
the other has the same result, and the second one still stands for the first one
(`eval_effect_agree`), if this holds of the calls of host methods (`callHost_agree`).
-/

set_option autoImplicit false

namespace Resumable.Machine

open Resumable.Symbol Resumable.Tree Resumable.Source Resumable.StateMachine Resumable.Lowering

variable {σ α β : Type}

/-! ## Steps that agree -/

/-- From related configurations the steps end alike in related configurations, or neither ends. -/
def Act.Agree (R : Config σ → Config σ → Prop) (x y : Act σ α) : Prop :=
  ∀ a d, R a d → Mirrored R (x a) (y d)

namespace Act.Agree

variable {R : Config σ → Config σ → Prop}

theorem pure (v : α) : Agree R (Pure.pure v : Act σ α) (Pure.pure v) := fun _ _ h => .ended h

theorem ofExcept (x : Except Failure α) : Agree R (Act.ofExcept x : Act σ α) (.ofExcept x) := by
  intro a d h
  rw [Act.ofExcept_apply, Act.ofExcept_apply]
  exact .ended h

theorem bind {x y : Act σ α} {f g : α → Act σ β} (h : Agree R x y) (hfg : ∀ v, Agree R (f v) (g v)) :
    Agree R (x >>= f) (y >>= g) := by
  intro a d had
  rw [Act.bind_apply, Act.bind_apply]
  have hxy := h a d had
  generalize x a = p, y d = q at hxy
  cases hxy with
  | unended => exact .unended
  | @ended result a' d' h' =>
    cases result with
    | ok v => exact hfg v a' d' h'
    | error f => exact .ended h'

/-- Steps that change the configuration, each in its own way. -/
theorem change {x y : Act σ Unit} {f g : Config σ → Config σ}
    (hx : ∀ a d, R a d → x a = some (.ok (), f a)) (hy : ∀ a d, R a d → y d = some (.ok (), g d))
    (h : ∀ a d, R a d → R (f a) (g d)) : Agree R x y := by
  intro a d had
  rw [hx a d had, hy a d had]
  exact .ended (h a d had)

end Act.Agree

theorem Mirrored.cases {S : Type} {P : S → S → Prop} {x y : Option (Except Failure α × S)}
    (h : Mirrored P x y) : x = none ∧ y = none ∨
      ∃ result s s', x = some (result, s) ∧ y = some (result, s') ∧ P s s' := by
  cases h with
  | unended => exact .inl ⟨rfl, rfl⟩
  | ended h => exact .inr ⟨_, _, _, rfl, rfl, h⟩

/-! ## Two worlds -/

/-- The worlds differ in what the object holds at most. -/
structure World.Beside (r : Ref) (w v : World σ) : Prop where
  hosts : v.hosts = w.hosts
  apart : World.Apart r w v

namespace World.Beside

variable {r : Ref} {w v : World σ}

theorem put (h : World.Beside r w v) (f : Field) (x : Value) : World.Beside r w (v.put r f x) :=
  ⟨h.hosts, h.apart.trans (World.put_apart r v f x)⟩

theorem withHosts (h : World.Beside r w v) (s : σ) :
    World.Beside r { w with hosts := s } { v with hosts := s } := ⟨rfl, h.apart⟩

end World.Beside

/-! ## Variables in their fields -/

/-- Where the variables of a method are: its parameters, the fields that they and the locals have, and
the two fields of the machine itself. -/
structure House where
  params : List Param
  last : Hoisted
  state : Field
  current : Field

namespace House

/-- No two of the fields are the same, they have the types of the variables, and the parameters are
numbered as they come. -/
structure Sound (H : House) : Prop where
  named : Named [H.state, H.current] H.last
  length : H.last.params.length = H.params.length
  ordinals : ∀ (i : Nat) (p : Param), H.params[i]? = some p → p.ordinal = i

/-- The expression is one of the method's, it is hoisted to the other one, and each local in it that
has no field is among those given. -/
structure Moves (H : House) (strays : List Local) (e e' : Expr) : Prop where
  hoisted : hoistExpr H.last e = .ok e'
  bound : BoundIn H.params e
  strays : ∀ v ∈ (homeless H.last).expr e, ∃ l ∈ strays, v = .ofLocal l

end House

/-- The second configuration, inside a method of the machine's instance in the state `s`, stands for
the first one, inside the method itself: the fields have the values of the variables, the locals
without a field are the same, and so is everything outside of the instance.  Failures that handlers
hold do not matter. -/
structure Represents (H : House) (r : Ref) (strays : List Local) (s : Int) (a d : Config σ) :
    Prop where
  this : d.activation.this = some r
  state : d.world.Reads r H.state (.int s)
  beside : World.Beside r a.world d.world
  params : ∀ (i : Nat) (f : Field), H.last.params[i]? = some f →
    a.activation.args[i]? = some (d.world.get r f)
  locals : ∀ (l : Local) (f : Field), H.last.locals.lookup l = some f →
    (a.activation.locals.get? l).getD (Value.zero l.type) = d.world.get r f
  strays : ∀ l ∈ strays, H.last.locals.lookup l = none ∧
    a.activation.locals.get? l = d.activation.locals.get? l

namespace Represents

variable {H : House} {r : Ref} {strays : List Local} {s : Int} {a d : Config σ}

/-- A failure that is held or dropped does not matter. -/
theorem of_caught (h : Represents H r strays s a d) (xs ys : List Caught) :
    Represents H r strays s { a with activation := { a.activation with caught := xs } }
      { d with activation := { d.activation with caught := ys } } :=
  ⟨h.this, h.state, h.beside, h.params, h.locals, h.strays⟩

theorem leave (h : Represents H r strays s a d) (scope scope' : Range) (p p' : Nat)
    (target target' : Option Nat) :
    Represents H r strays s (a.leave scope p target) (d.leave scope' p' target') :=
  h.of_caught _ _

/-- Fewer locals without a field are looked at. -/
theorem fewer (h : Represents H r strays s a d) {strays' : List Local}
    (hsub : ∀ l ∈ strays', l ∈ strays) : Represents H r strays' s a d :=
  ⟨h.this, h.state, h.beside, h.params, h.locals, fun l hl => h.strays l (hsub l hl)⟩

/-- The method of the machine is in another activation, on the same instance. -/
theorem activate (h : Represents H r [] s a d) {x : Activation} (hx : x.this = some r) :
    Represents H r [] s a { d with activation := x } :=
  ⟨hx, h.state, h.beside, h.params, h.locals, fun _ hl => nomatch hl⟩

end Represents

/-! ## Assignments -/

namespace House

variable {H : House}

theorem param_mem {i : Nat} {f : Field} (hf : H.last.params[i]? = some f) :
    f ∈ H.last.params ++ H.last.locals.map Prod.snd :=
  List.mem_append_left _ (List.mem_of_getElem? hf)

theorem local_mem {l : Local} {f : Field} (hf : H.last.locals.lookup l = some f) :
    f ∈ H.last.params ++ H.last.locals.map Prod.snd :=
  List.mem_append_right _ (List.mem_map.mpr ⟨(l, f), mem_of_lookup hf, rfl⟩)

end House

namespace House.Sound

variable {H : House} (hH : H.Sound)

include hH

/-- The field of a variable is neither of those of the machine itself. -/
theorem ne_of_mem {f : Field} (hf : f ∈ H.last.params ++ H.last.locals.map Prod.snd) :
    f ≠ H.state ∧ f ≠ H.current := by
  have hapart := (List.nodup_append.mp hH.named.fields_nodup).2.2
  exact ⟨fun h => hapart H.state (by simp) f hf h.symm,
    fun h => hapart H.current (by simp) f hf h.symm⟩

/-- A parameter and a local do not share a field. -/
theorem param_ne_local {i : Nat} {l : Local} {f g : Field} (hf : H.last.params[i]? = some f)
    (hg : H.last.locals.lookup l = some g) : f ≠ g :=
  (List.nodup_append.mp (List.nodup_append.mp hH.named.fields_nodup).2.1).2.2 f
    (List.mem_of_getElem? hf) g (List.mem_map.mpr ⟨(l, g), mem_of_lookup hg, rfl⟩)

/-- Nor do two parameters. -/
theorem param_inj {i j : Nat} {f : Field} (hi : H.last.params[i]? = some f)
    (hj : H.last.params[j]? = some f) : i = j :=
  (List.getElem?_inj (List.getElem?_eq_some_iff.mp hi).1
    (List.nodup_append.mp (List.nodup_append.mp hH.named.fields_nodup).2.1).1).mp (hi.trans hj.symm)

/-- Nor do two locals. -/
theorem local_inj {l l' : Local} {f : Field} (hl : H.last.locals.lookup l = some f)
    (hl' : H.last.locals.lookup l' = some f) : l = l' :=
  (Prod.mk.inj (List.inj_on_of_nodup_map
    (List.nodup_append.mp (List.nodup_append.mp hH.named.fields_nodup).2.1).2.1
    (mem_of_lookup hl) (mem_of_lookup hl') rfl)).1

end House.Sound

namespace Represents

variable {H : House} {r : Ref} {strays : List Local} {s : Int} {a d : Config σ}

/-- A field of the instance that is no variable's is assigned. -/
theorem putFixed (h : Represents H r strays s a d) (hH : H.Sound) {f : Field}
    (hf : f = H.state ∨ f = H.current) {x : Value} {s' : Int}
    (hs : (d.world.put r f x).Reads r H.state (.int s')) :
    Represents H r strays s' a { d with world := d.world.put r f x } where
  this := h.this
  state := hs
  beside := h.beside.put f x
  params i g hg := by
    have hne := hH.ne_of_mem (House.param_mem hg)
    show _ = some ((d.world.put r f x).get r g)
    rw [World.get_put_of_ne (by rcases hf with rfl | rfl <;> simp [hne])]
    exact h.params i g hg
  locals l g hg := by
    have hne := hH.ne_of_mem (House.local_mem hg)
    show _ = (d.world.put r f x).get r g
    rw [World.get_put_of_ne (by rcases hf with rfl | rfl <;> simp [hne])]
    exact h.locals l g hg
  strays := h.strays

/-- The machine goes into another state. -/
theorem setState (h : Represents H r strays s a d) (hH : H.Sound) (s' : Int) :
    Represents H r strays s' a { d with world := d.world.put r H.state (.int s') } :=
  h.putFixed hH (.inl rfl) (.put_self h.state.present)

/-- The machine gives out an element. -/
theorem setCurrent (h : Represents H r strays s a d) (hH : H.Sound) (x : Value)
    (hne : H.current ≠ H.state) :
    Represents H r strays s a { d with world := d.world.put r H.current x } :=
  h.putFixed hH (.inr rfl) (h.state.put_of_ne hne)

/-- A local is assigned that has a field. -/
theorem assignHoused (h : Represents H r strays s a d) (hH : H.Sound) {l : Local} {f : Field}
    (hl : H.last.locals.lookup l = some f) (x : Value) :
    Represents H r strays s
      { a with activation := { a.activation with locals := a.activation.locals.put l x } }
      { d with world := d.world.put r f x } where
  this := h.this
  state := h.state.put_of_ne (hH.ne_of_mem (House.local_mem hl)).1
  beside := h.beside.put f x
  params i g hg := by
    show _ = some ((d.world.put r f x).get r g)
    rw [World.get_put_of_ne (hH.param_ne_local hg hl)]
    exact h.params i g hg
  locals l' g hg := by
    show ((a.activation.locals.put l x).get? l').getD _ = (d.world.put r f x).get r g
    by_cases heq : l' = l
    · subst heq
      obtain rfl : f = g := Option.some.inj (hl.symm.trans hg)
      rw [Bindings.get?_put_self, World.get_put_self h.state.present, Option.getD_some]
    · have hne : g ≠ f := fun hgf => heq (hH.local_inj (hgf ▸ hg) hl)
      rw [Bindings.get?_put_of_ne heq, World.get_put_of_ne hne]
      exact h.locals l' g hg
  strays l' hl' := by
    obtain ⟨hnone, heq⟩ := h.strays l' hl'
    refine ⟨hnone, ?_⟩
    have hne : l' ≠ l := by
      rintro rfl
      rw [hnone] at hl
      cases hl
    exact (Bindings.get?_put_of_ne hne x _).trans heq

/-- A local is assigned that has no field. -/
theorem assignStray (h : Represents H r strays s a d) {l : Local}
    (hl : H.last.locals.lookup l = none) (x : Value) :
    Represents H r (l :: strays) s
      { a with activation := { a.activation with locals := a.activation.locals.put l x } }
      { d with activation := { d.activation with locals := d.activation.locals.put l x } } where
  this := h.this
  state := h.state
  beside := h.beside
  params := h.params
  locals l' g hg := by
    have hne : l' ≠ l := by
      rintro rfl
      rw [hl] at hg
      cases hg
    show ((a.activation.locals.put l x).get? l').getD _ = d.world.get r g
    rw [Bindings.get?_put_of_ne hne]
    exact h.locals l' g hg
  strays l' hl' := by
    show _ ∧ (a.activation.locals.put l x).get? l' = (d.activation.locals.put l x).get? l'
    by_cases heq : l' = l
    · subst heq
      exact ⟨hl, by rw [Bindings.get?_put_self, Bindings.get?_put_self]⟩
    · rcases List.mem_cons.mp hl' with rfl | hmem
      · exact absurd rfl heq
      · rw [Bindings.get?_put_of_ne heq, Bindings.get?_put_of_ne heq]
        exact h.strays l' hmem

/-- A parameter is assigned. -/
theorem assignParam (h : Represents H r strays s a d) (hH : H.Sound) {i : Nat} {f : Field}
    (hf : H.last.params[i]? = some f) (x : Value) :
    Represents H r strays s
      { a with activation := { a.activation with args := a.activation.args.set i x } }
      { d with world := d.world.put r f x } where
  this := h.this
  state := h.state.put_of_ne (hH.ne_of_mem (House.param_mem hf)).1
  beside := h.beside.put f x
  params j g hg := by
    show (a.activation.args.set i x)[j]? = some ((d.world.put r f x).get r g)
    by_cases heq : j = i
    · subst heq
      obtain rfl : f = g := Option.some.inj (hf.symm.trans hg)
      have hlt := (List.getElem?_eq_some_iff.mp (h.params j f hf)).1
      rw [List.getElem?_set_self hlt, World.get_put_self h.state.present]
    · have hne : g ≠ f := fun hgf => heq (hH.param_inj (hgf ▸ hg) hf)
      rw [List.getElem?_set_ne (Ne.symm heq), World.get_put_of_ne hne]
      exact h.params j g hg
  locals l g hg := by
    show _ = (d.world.put r f x).get r g
    rw [World.get_put_of_ne (hH.param_ne_local hf hg).symm]
    exact h.locals l g hg
  strays := h.strays

end Represents

/-! ## Expressions -/

section Eval

variable {H : House} {r : Ref} {strays : List Local} {s : Int} {ctx ctx' : Context σ}

/-- A field of the instance is read. -/
theorem eval_inPlace (ctx : Context σ) (o : Origin) (f : Field) {d : Config σ}
    (hthis : d.activation.this = some r) :
    eval ctx (inPlace o f) d = some (.ok (d.world.get r f), d) := by
  simp only [inPlace, Made.this, eval, readThis, Act.bind_apply, Act.activation_apply, hthis,
    Act.pure_apply, Act.ofExcept_apply, Act.world_apply, Value.asRef]

/-- A field of the instance is written. -/
theorem store_inPlace (ctx : Context σ) (x : Value) (o : Origin) (f : Field) {d : Config σ}
    (hthis : d.activation.this = some r) :
    store ctx x (inPlace o f) d = some (.ok (), { d with world := d.world.put r f x }) := by
  simp only [inPlace, Made.this, store, eval, readThis, Act.bind_apply, Act.activation_apply, hthis,
    Act.pure_apply, Act.ofExcept_apply, Act.modifyWorld_apply, Value.asRef]

theorem argIndex?_of_ordinal {args : List Value} {p : Param} {i : Nat} (hi : p.ordinal = i)
    {x : Value} (hx : args[i]? = some x) : argIndex? args p = some i := by
  have hlt := (List.getElem?_eq_some_iff.mp hx).1
  unfold argIndex?
  rw [if_pos ⟨by omega, by omega⟩]
  simp [hi]

theorem House.field_of_param {i : Nat} {p : Param} {f : Field} (hi : p.ordinal = i)
    (hf : H.last.param? p = some f) : H.last.params[i]? = some f := by
  unfold Hoisted.param? at hf
  rw [if_neg (by omega)] at hf
  simpa [hi] using hf

/-- The position of a parameter of the method. -/
theorem House.Sound.ordinal_of_mem (hH : H.Sound) {p : Param} (hp : p ∈ H.params) :
    ∃ i : Nat, p.ordinal = i := by
  obtain ⟨i, hi⟩ := List.mem_iff_getElem?.mp hp
  exact ⟨i, hH.ordinals i p hi⟩

/-- Calls of host methods agree. -/
def HostsAgree (ctx ctx' : Context σ) (R : Config σ → Config σ → Prop) : Prop :=
  ∀ name args, (callHost ctx name args).Agree R (callHost ctx' name args)

mutual

theorem eval_agree (hH : H.Sound) (hhost : HostsAgree ctx ctx' (Represents H r strays s)) :
    ∀ {e e' : Expr}, boundExpr H.params e = true →
    hoistExpr H.last e = .ok e' → (∀ v ∈ (homeless H.last).expr e, ∃ l ∈ strays, v = .ofLocal l) →
    (eval ctx e).Agree (Represents H r strays s) (eval ctx' e')
  | .literal .., _, _, hoist, _ => by
    cases hoist
    simp only [eval]
    exact .pure _
  | .localRef o l, _, _, hoist, hstrays => by
    rw [hoistExpr] at hoist
    split at hoist
    · rename_i f hf
      cases hoist
      intro a d h
      rw [eval_inPlace ctx' o f h.this, ← h.locals l f hf]
      exact .ended h
    · rename_i hnone
      cases hoist
      obtain ⟨l', hl', heq⟩ := hstrays (.ofLocal l) (by simp [Tally.expr, homeless, hnone])
      cases heq
      intro a d h
      have hsame := (h.strays l hl').2
      simp only [eval, readLocal, Act.bind_apply, Act.activation_apply, Act.pure_apply]
      rw [hsame]
      exact .ended h
  | .parameterRef o p, _, hbound, hoist, _ => by
    rw [hoistExpr] at hoist
    split at hoist
    · rename_i f hf
      cases hoist
      obtain ⟨i, hi⟩ := hH.ordinal_of_mem (by simpa [boundExpr] using hbound)
      intro a d h
      have hvalue := h.params i f (House.field_of_param hi hf)
      rw [eval_inPlace ctx' o f h.this]
      simp only [eval, readParam, Act.bind_apply, Act.activation_apply,
        argIndex?_of_ordinal hi hvalue, Option.bind_some, hvalue, Act.pure_apply]
      exact .ended h
    · cases hoist
  | .unary _ _ e, _, hbound, hoist, hstrays => by
    obtain ⟨e', he, hpure⟩ := bind_ok_iff.mp hoist
    cases hpure
    simp only [eval]
    exact .bind (eval_agree hH hhost hbound he hstrays) fun _ => .ofExcept _
  | .binary _ op x y, _, hbound, hoist, hstrays => by
    simp only [boundExpr, Bool.and_eq_true] at hbound
    obtain ⟨x', hx, hrest⟩ := bind_ok_iff.mp hoist
    obtain ⟨y', hy, hpure⟩ := bind_ok_iff.mp hrest
    cases hpure
    have hfirst := eval_agree hH hhost hbound.1 hx fun v hv => hstrays v (List.mem_append_left _ hv)
    have hsecond := eval_agree hH hhost hbound.2 hy fun v hv => hstrays v (List.mem_append_right _ hv)
    simp only [eval]
    refine .bind hfirst fun first => ?_
    split
    · refine .bind (.ofExcept _) fun b => ?_
      split
      · exact .pure _
      · exact .bind hsecond fun _ => .bind (.ofExcept _) fun _ => .pure _
    · exact .bind hsecond fun _ => .ofExcept _
  | .call o r m args, _, hbound, hoist, hstrays => by
    simp only [boundExpr, Bool.and_eq_true] at hbound
    cases r with
    | absent =>
      rw [hoistExpr] at hoist
      obtain ⟨args', hargs, hpure⟩ := bind_ok_iff.mp hoist
      cases hpure
      simp only [eval, hbound.1.2, if_true]
      exact .bind (evalAll_agree hH hhost hbound.2 hargs fun v hv =>
        hstrays v (List.mem_append_right _ hv)) fun _ => hhost _ _
    | _ => cases hbound.1.1
  | .absent, _, he, _, _ | .fieldRef .., _, he, _, _ | .this .., _, he, _, _
  | .assignment .., _, he, _, _ | .foreign .., _, he, _, _ => nomatch he

theorem evalAll_agree (hH : H.Sound) (hhost : HostsAgree ctx ctx' (Represents H r strays s)) :
    ∀ {es es' : List Expr}, boundExprs H.params es = true →
    hoistExprs H.last es = .ok es' →
    (∀ v ∈ (homeless H.last).exprs es, ∃ l ∈ strays, v = .ofLocal l) →
    (evalAll ctx es).Agree (Represents H r strays s) (evalAll ctx' es')
  | [], _, _, hoist, _ => by
    cases hoist
    simp only [evalAll]
    exact .pure _
  | e :: rest, _, hbound, hoist, hstrays => by
    simp only [boundExprs, Bool.and_eq_true] at hbound
    obtain ⟨e', he, hrest⟩ := bind_ok_iff.mp hoist
    obtain ⟨rest', hrest', hpure⟩ := bind_ok_iff.mp hrest
    cases hpure
    simp only [evalAll]
    exact .bind (eval_agree hH hhost hbound.1 he fun v hv => hstrays v (List.mem_append_left _ hv))
      fun _ => .bind (evalAll_agree hH hhost hbound.2 hrest' fun v hv =>
        hstrays v (List.mem_append_right _ hv)) fun _ => .pure _

end

/-- A variable is assigned where it is and in its field. -/
theorem store_agree (hH : H.Sound) (x : Value) {target target' : Expr}
    (hvariable : isVariable target = true) (hbound : boundExpr H.params target = true)
    (hoist : hoistExpr H.last target = .ok target')
    (hstrays : ∀ v ∈ (homeless H.last).expr target, ∃ l ∈ strays, v = .ofLocal l) :
    (store ctx x target).Agree (Represents H r strays s) (store ctx' x target') := by
  cases target with
  | localRef o l =>
    rw [hoistExpr] at hoist
    split at hoist
    · rename_i f hf
      cases hoist
      refine .change (fun a d _ => by simp only [store]; rfl)
        (fun a d h => store_inPlace ctx' x o f h.this) fun a d h => h.assignHoused hH hf x
    · rename_i hnone
      cases hoist
      obtain ⟨l', hl', heq⟩ := hstrays (.ofLocal l) (by simp [Tally.expr, homeless, hnone])
      cases heq
      refine .change (fun a d _ => by simp only [store]; rfl) (fun a d _ => by simp only [store]; rfl)
        fun a d h => (h.assignStray hnone x).fewer fun l' hl' => List.mem_cons_of_mem _ hl'
  | parameterRef o p =>
    rw [hoistExpr] at hoist
    split at hoist
    · rename_i f hf
      cases hoist
      obtain ⟨i, hi⟩ := hH.ordinal_of_mem (by simpa [boundExpr] using hbound)
      have hfield := House.field_of_param hi hf
      refine .change (fun a d h => ?_) (fun a d h => store_inPlace ctx' x o f h.this)
        fun a d h => h.assignParam hH hfield x
      simp only [store, writeParam, Act.bind_apply, Act.activation_apply,
        argIndex?_of_ordinal hi (h.params i f hfield)]
      rfl
    · cases hoist
  | _ => cases hvariable

/-- An expression of the method and the one that it is hoisted to have the same result. -/
theorem House.Moves.agree (hH : H.Sound)
    (hhost : HostsAgree ctx ctx' (Represents H r strays s)) {e e' : Expr}
    (he : H.Moves strays e e') :
    (eval ctx e).Agree (Represents H r strays s) (eval ctx' e') := by
  obtain ⟨hoist, hbound, hstrays⟩ := he
  cases e with
  | assignment o target value =>
    simp only [BoundIn, boundEffect, Bool.and_eq_true] at hbound
    obtain ⟨target', htarget, hrest⟩ := bind_ok_iff.mp hoist
    obtain ⟨value', hvalue, hpure⟩ := bind_ok_iff.mp hrest
    cases hpure
    simp only [eval]
    exact .bind (eval_agree hH hhost hbound.2 hvalue fun v hv =>
        hstrays v (List.mem_append_right _ hv)) fun x =>
      .bind (store_agree hH x hbound.1.1 hbound.1.2 htarget fun v hv =>
        hstrays v (List.mem_append_left _ hv)) fun _ => .pure _
  | _ => exact eval_agree hH hhost hbound hoist hstrays

end Eval

/-! ## Host methods -/

/-- What the host methods call does the same whatever the instance holds, and also with up to two
levels of calls fewer. -/
def Unaware (m : Machine σ) (r : Ref) : Prop :=
  ∀ name host, m.hosts name = some host → ∀ args s method this args' s',
    host args s = (.call method this args', s') →
    ∀ depth, maxDepth ≤ depth + 3 → depth < maxDepth → ∀ w v, World.Beside r w v → ∀ z,
      (∀ steps w', callWithin m steps (maxDepth - 1) method this args' w = some (z, w') →
        ∃ steps v', callWithin m steps depth method this args' v = some (z, v') ∧
          World.Beside r w' v') ∧
      (∀ steps v', callWithin m steps depth method this args' v = some (z, v') →
        ∃ steps w', callWithin m steps (maxDepth - 1) method this args' w = some (z, w') ∧
          World.Beside r w' v')

section Hosts

variable {m : Machine σ} {H : House} {r : Ref} {strays : List Local} {s : Int}

/-- Something happens outside of the instance. -/
theorem Represents.outside {a d : Config σ} (h : Represents H r strays s a d) {w v : World σ}
    (hbeside : World.Beside r w v)
    (hobject : v.objects[r.number]? = d.world.objects[r.number]?) :
    Represents H r strays s { a with world := w } { d with world := v } := by
  have hget : ∀ f, v.get r f = d.world.get r f := fun f => by simp only [World.get, hobject]
  exact ⟨h.this, h.state.of_object hobject, hbeside, fun i f hf => by rw [hget]; exact h.params i f hf,
    fun l f hl => by rw [hget]; exact h.locals l f hl, h.strays⟩

/-- The host methods do the same for the method and for the methods of its machine. -/
theorem callHost_agree (hundisturbed : Undisturbed m r) (hunaware : Unaware m r) {depth : Nat}
    (hleast : maxDepth ≤ depth + 3) (hless : depth < maxDepth) (method method' : Method) :
    HostsAgree (contextEndless m (maxDepth - 1) method) (contextEndless m depth method')
      (Represents H r strays s) := by
  intro name args a d h
  simp only [callHost, contextEndless]
  cases hname : m.host? name with
  | none => exact .ended h
  | some host =>
    simp only [Act.bind_apply, Act.world_apply, Act.modifyWorld_apply]
    rw [h.beside.hosts]
    have hafter : Represents H r strays s
        { a with world := { a.world with hosts := (host args a.world.hosts).2 } }
        { d with world := { d.world with hosts := (host args a.world.hosts).2 } } :=
      h.outside (h.beside.withHosts _) rfl
    cases hreply : (host args a.world.hosts).1 with
    | value x => exact .ended hafter
    | failure f => exact .ended hafter
    | call method this args' =>
      have hcall : host args a.world.hosts =
          (.call method this args', (host args a.world.hosts).2) := Prod.ext hreply rfl
      have hhost := hosts_of_call hname hreply
      have hsame := hunaware name host hhost _ _ _ _ _ _ hcall depth hleast hless _ _
        (h.beside.withHosts (host args a.world.hosts).2)
      have hkeeps := hundisturbed name host hhost _ _ _ _ _ _ hcall
      simp only [Act.outside_apply]
      cases hx : endless m (maxDepth - 1) method this args'
          { a.world with hosts := (host args a.world.hosts).2 } with
      | none =>
        cases hy : endless m depth method this args'
            { d.world with hosts := (host args a.world.hosts).2 } with
        | none => exact .unended
        | some q =>
          obtain ⟨steps, hq⟩ := endless_iff.mp hy
          obtain ⟨steps', w', hw', -⟩ := (hsame q.1).2 steps q.2 hq
          rw [endless_iff.mpr ⟨steps', hw'⟩] at hx
          cases hx
      | some p =>
        obtain ⟨steps, hp⟩ := endless_iff.mp hx
        obtain ⟨steps', v', hv', hbeside⟩ := (hsame p.1).1 steps p.2 hp
        rw [endless_iff.mpr ⟨steps', hv'⟩]
        exact .ended (hafter.outside hbeside (hkeeps steps' depth _ _ _ hv'))

end Hosts

end Resumable.Machine
