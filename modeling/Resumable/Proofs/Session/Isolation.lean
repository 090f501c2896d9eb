import Resumable.Proofs.Source.Places
import Resumable.Proofs.StateMachine.Confined
import Resumable.Session.Enumerator

/-!
# Enumerators on one machine

Enumerators of one program share a machine: its routines, which every start loads anew, its objects
and its host methods.  Nevertheless they do not influence each other (`enumerators_isolated`).  What
is seen of an enumerator among others is what is seen of it on a machine of its own, and a request
to one enumerator leaves the objects of the others as they are.
-/

set_option autoImplicit false

namespace Resumable.Machine

open Resumable.Symbol Resumable.Tree Resumable.StateMachine

variable {σ : Type}

/-! ## What is loaded -/

/-- The routines of bodies, in the order in which they are looked up. -/
def entries (bodies : List MethodBody) : List Loaded :=
  (bodies.map fun b => (b.symbol, flatten b)).reverse

theorem load_routines (m : Machine σ) (bodies : List MethodBody) :
    (m.load bodies).routines = entries bodies ++ m.routines := by
  have hfold : ∀ (bodies : List MethodBody) (rs : List Loaded),
      bodies.foldl (fun rs b => (b.symbol, flatten b) :: rs) rs = entries bodies ++ rs := by
    intro bodies
    induction bodies with
    | nil => exact fun _ => rfl
    | cons b rest ih =>
      intro rs
      rw [List.foldl_cons, ih]
      simp [entries]
  exact hfold bodies m.routines

/-- What is found for a method is the routine of a body of the method. -/
theorem lookup_entries {bodies : List MethodBody} {method : Method}
    {loaded : Except FlattenError Routine} (h : (entries bodies).lookup method = some loaded) :
    ∃ b ∈ bodies, b.symbol = method ∧ flatten b = loaded := by
  obtain ⟨front, back, hsplit, -⟩ := List.lookup_eq_some_iff.mp h
  have hmem : (method, loaded) ∈ entries bodies := by
    rw [hsplit]
    exact List.mem_append_right _ List.mem_cons_self
  obtain ⟨b, hb, heq⟩ := List.mem_map.mp (List.mem_reverse.mp hmem)
  obtain ⟨hsymbol, hflatten⟩ := Prod.mk.inj heq
  exact ⟨b, hb, hsymbol, hflatten⟩

/-- Something is found for the method of each body. -/
theorem lookup_entries_isSome {bodies : List MethodBody} {b : MethodBody} (h : b ∈ bodies) :
    ((entries bodies).lookup b.symbol).isSome = true := by
  cases hlookup : (entries bodies).lookup b.symbol with
  | some loaded => rfl
  | none =>
    have hmem : (b.symbol, flatten b) ∈ entries bodies :=
      List.mem_reverse.mpr (List.mem_map_of_mem h)
    have hne := List.lookup_eq_none_iff.mp hlookup _ hmem
    simp at hne

/-- The machines of a program: each consists of code of its own, and no two have one type. -/
structure Distinct (made : StateMachine → Prop) : Prop where
  confined : ∀ sm, made sm → Confined sm
  eq_of_owner : ∀ sm sm', made sm → made sm' → sm.state.owner = sm'.state.owner → sm = sm'

/-- What is loaded for the methods of machines of the program are methods that these have. -/
def Stocked (made : StateMachine → Prop) (m : Machine σ) : Prop :=
  ∀ sm, made sm → ∀ method loaded, method.owner = some sm.state.owner →
    m.routines.lookup method = some loaded → ∃ x ∈ sm.methods, x.symbol = method

/-- The methods of the machine are loaded, as they are. -/
def Holding (sm : StateMachine) (m : Machine σ) : Prop :=
  ∀ method, method.owner = some sm.state.owner →
    m.routines.lookup method = (entries sm.methods).lookup method

section Loading

variable {made : StateMachine → Prop} {m : Machine σ} {sm sm' : StateMachine}

theorem Stocked.load (hmade : Distinct made) (h : Stocked made m) (hsm : made sm) :
    Stocked made (m.load sm.methods) := by
  intro sm' hsm' method loaded howner hlookup
  rw [load_routines, List.lookup_append, Option.or_eq_some_iff] at hlookup
  rcases hlookup with hlookup | ⟨-, hlookup⟩
  · obtain ⟨x, hx, rfl, -⟩ := lookup_entries hlookup
    have hsame : sm.state.owner = sm'.state.owner :=
      Option.some.inj (((hmade.confined sm hsm).owner x hx).symm.trans howner)
    rw [← hmade.eq_of_owner sm sm' hsm hsm' hsame]
    exact ⟨x, hx, rfl⟩
  · exact h sm' hsm' method loaded howner hlookup

/-- Loading the machine makes it held, whatever was loaded before. -/
theorem Stocked.holding (h : Stocked made m) (hsm : made sm) :
    Holding sm (m.load sm.methods) := by
  intro method howner
  rw [load_routines, List.lookup_append]
  cases hown : (entries sm.methods).lookup method with
  | some loaded => rfl
  | none =>
    cases hlookup : m.routines.lookup method with
    | none => rfl
    | some loaded =>
      obtain ⟨x, hx, rfl⟩ := h sm hsm method loaded howner hlookup
      have hfound := lookup_entries_isSome hx
      rw [hown] at hfound
      cases hfound

/-- Loading any machine of the program leaves those that are held. -/
theorem Holding.load (hmade : Distinct made) (h : Holding sm m) (hsm : made sm)
    (hsm' : made sm') : Holding sm (m.load sm'.methods) := by
  intro method howner
  rw [load_routines, List.lookup_append, h method howner]
  cases hlookup : (entries sm'.methods).lookup method with
  | none => rfl
  | some loaded =>
    obtain ⟨x, hx, rfl, -⟩ := lookup_entries hlookup
    have hsame : sm'.state.owner = sm.state.owner :=
      Option.some.inj (((hmade.confined sm' hsm').owner x hx).symm.trans howner)
    rw [← hmade.eq_of_owner sm' sm hsm' hsm hsame, hlookup]
    rfl

/-- Machines that hold a state machine are the same for it. -/
theorem Holding.twins {m' : Machine σ} (hconfined : Confined sm) (h : Holding sm m)
    (h' : Holding sm m') (hhosts : m'.hosts = m.hosts) (hplain : Hosts.Plain m.hosts) :
    Twins sm.state.owner m m' where
  hosts := hhosts
  plain := hplain
  routine method howner := by
    unfold routine
    rw [h method howner, h' method howner]
  confined method routine howner hroutine := by
    unfold Machine.routine at hroutine
    rw [h method howner] at hroutine
    split at hroutine
    · rename_i hlookup
      obtain ⟨x, hx, -, hflatten⟩ := lookup_entries hlookup
      cases hroutine
      exact holds_flatten (hconfined.body x hx) hflatten
    · cases hroutine
    · cases hroutine

end Loading

end Resumable.Machine

namespace Resumable.Session

open Resumable.Machine Resumable.Symbol Resumable.Tree Resumable.Source Resumable.Lowering
open Resumable.StateMachine (Confined confined_of_lowered)

variable {ι σ : Type}

/-! ## Requests -/

/-- What an enumerator is asked for. -/
inductive Call where
  | moveNext
  | dispose
  deriving DecidableEq, Repr, Inhabited

/-- Make the call; disposal gives nothing. -/
def Call.run (m : Machine σ) (steps : Nat) (e : Enumerator) : Call → Exec σ (Option Bool)
  | moveNext => do return some (← e.moveNext m steps)
  | dispose => do
    e.dispose m steps
    return none

/-- Make calls one after the other; what each of them gives is listed with the world behind it. -/
def Call.runAll (m : Machine σ) (steps : Nat) (e : Enumerator) :
    List Call → World σ → Option (List (Except Failure (Option Bool) × World σ))
  | [], _ => some []
  | c :: rest, w => do
    let (result, w) ← c.run m steps e w
    let others ← Call.runAll m steps e rest w
    return (result, w) :: others

/-- What is asked of a machine: to start an enumerator under a name, or to call one by its name. -/
inductive Request (ι : Type) where
  | start (name : ι) (sm : StateMachine) (args : List Value)
  | call (name : ι) (c : Call)
  deriving Inhabited

/-- The enumerator that a request is about. -/
def Request.name : Request ι → ι
  | start name _ _ => name
  | call name _ => name

/-- What is seen of an enumerator behind a request to it. -/
inductive Sight where
  /-- It could not be started. -/
  | refused (t : Trap)
  /-- There is none of the name. -/
  | unknown
  /-- The request has failed or has come to a result; behind it, the enumerator has the state and
  the current element. -/
  | failed (f : Failure) (state : Int) (current : Value)
  | shown (result : Option Bool) (state : Int) (current : Value)
  deriving DecidableEq, Repr, Inhabited

/-- What is seen of an enumerator in a world. -/
def Sight.ofResult (e : Enumerator) (world : World σ) : Except Failure (Option Bool) → Sight
  | .ok result => .shown result (e.state world) (e.current world)
  | .error f => .failed f (e.state world) (e.current world)

/-- A machine with its world, and the enumerators that were started, by their names. -/
structure State (ι σ : Type) where
  machine : Machine σ
  world : World σ
  enumerators : ι → Option Enumerator := fun _ => none

namespace State

variable [DecidableEq ι]

/-- The state with an enumerator under a name. -/
def bind (s : State ι σ) (name : ι) (e : Enumerator) : State ι σ :=
  { s with enumerators := fun other => if other = name then some e else s.enumerators other }

/-- Answer a request; there is no answer if a call does not end within the steps. -/
def step (steps : Nat) (s : State ι σ) : Request ι → Option (Sight × State ι σ)
  | .start name sm args =>
    match Enumerator.start s.machine s.world sm args with
    | .ok (e, machine, world) =>
      some (.ofResult e world (.ok none), { s with machine, world }.bind name e)
    | .error t => some (.refused t, s)
  | .call name c =>
    match s.enumerators name with
    | none => some (.unknown, s)
    | some e =>
      match c.run s.machine steps e s.world with
      | none => none
      | some (result, world) => some (.ofResult e world result, { s with world })

/-- Answer requests in order; what is seen is listed with the names of the enumerators. -/
def run (steps : Nat) (s : State ι σ) :
    List (Request ι) → Option (List (ι × Sight) × State ι σ)
  | [] => some ([], s)
  | r :: rest =>
    match s.step steps r with
    | none => none
    | some (sight, s) =>
      match s.run steps rest with
      | none => none
      | some (log, s) => some ((r.name, sight) :: log, s)

end State

/-! ## Starts and calls -/

/-- The fields of a new instance. -/
def newFields (sm : StateMachine) (args : List Value) : Bindings Field :=
  (sm.params.zip args).foldl (fun o (f, v) => Bindings.put f v o)
    (Bindings.put sm.state (.int StateMachine.stateCreated) [])

/-- The world with one more object. -/
def grown (w : World σ) (o : Bindings Field) : World σ := { w with objects := w.objects ++ [o] }

/-- The enumerator of the object that comes next. -/
def newest (w : World σ) (sm : StateMachine) : Enumerator :=
  ⟨sm, ⟨w.objects.length, sm.members.owner⟩⟩

/-- Giving a field of the last object a value. -/
theorem put_grown (w : World σ) (o : Bindings Field) (sm : StateMachine) (f : Field) (v : Value) :
    World.put (grown w o) (newest w sm).object f v = grown w (Bindings.put f v o) := by
  have hmodify : ∀ objects : List (Bindings Field),
      (objects ++ [o]).modify objects.length (Bindings.put f v) =
        objects ++ [Bindings.put f v o] := by
    intro objects
    induction objects with
    | nil => rfl
    | cons first rest ih => simp [ih]
  simp only [World.put, grown, newest, hmodify]

/-- A start adds an object with the arguments and loads the machine. -/
theorem start_eq (m : Machine σ) (w : World σ) (sm : StateMachine) (args : List Value) :
    Enumerator.start m w sm args =
      if args.length = sm.params.length then
        .ok (newest w sm, m.load sm.methods, grown w (newFields sm args))
      else .error (.argumentCount sm.iterator.fullName sm.params.length args.length) := by
  have hfold : ∀ (pairs : List (Field × Value)) (o : Bindings Field),
      pairs.foldl (fun v (f, a) => World.put v (newest w sm).object f a) (grown w o) =
        grown w (pairs.foldl (fun o (f, a) => Bindings.put f a o) o) := by
    intro pairs
    induction pairs with
    | nil => exact fun _ => rfl
    | cons pair rest ih =>
      intro o
      simp only [List.foldl_cons, put_grown]
      exact ih _
  have hnew : (sm.params.zip args).foldl
      (fun v (f, a) => World.put v (newest w sm).object f a)
      (World.put (grown w []) (newest w sm).object sm.state (.int StateMachine.stateCreated)) =
        grown w (newFields sm args) := by
    rw [put_grown, hfold]
    rfl
  unfold Enumerator.start
  split
  · rw [← hnew]
    rfl
  · rfl

theorem getElem?_grown_newest (w : World σ) (o : Bindings Field) (sm : StateMachine) :
    (grown w o).objects[(newest w sm).object.number]? = some o := by
  simp [grown, newest]

/-- The objects that are there stay as they are. -/
theorem getElem?_grown {w : World σ} {k : Nat} (h : (w.objects[k]?).isSome = true)
    (o : Bindings Field) : (grown w o).objects[k]? = w.objects[k]? := by
  have hless : k < w.objects.length := by simpa using h
  simp [grown, List.getElem?_append_left hless]

/-- The method that is called. -/
def Call.symbol (sm : StateMachine) : Call → Method
  | moveNext => sm.moveNext.symbol
  | dispose => sm.dispose.symbol

/-- What the call makes of what the method gives. -/
def Call.outcome (c : Call) (result : Except Failure Value) : Except Failure (Option Bool) :=
  result.bind fun v => match c with
    | moveNext => v.asBool.map some
    | dispose => .ok none

theorem bind_apply {α β : Type} (x : Exec σ α) (f : α → Exec σ β) (w : World σ) :
    (x >>= f) w = match x w with
      | none => none
      | some (.ok a, v) => f a v
      | some (.error e, v) => some (.error e, v) := by
  show StateT.bind x _ w = _
  unfold StateT.bind
  cases x w with
  | none => rfl
  | some p =>
    obtain ⟨result, v⟩ := p
    cases result <;> rfl

theorem Call.run_apply (c : Call) (m : Machine σ) (steps : Nat) (e : Enumerator) (w : World σ) :
    c.run m steps e w = (m.call steps (c.symbol e.machine) (some e.object) [] w).map
      fun p => (c.outcome p.1, p.2) := by
  cases c with
  | moveNext =>
    simp only [Call.run, Enumerator.moveNext, bind_apply, Call.symbol]
    cases m.call steps e.machine.moveNext.symbol (some e.object) [] w with
    | none => rfl
    | some p =>
      obtain ⟨result, v⟩ := p
      cases result with
      | error f => rfl
      | ok value =>
        simp only [Option.map_some, Call.outcome, Except.bind]
        cases value.asBool <;> rfl
  | dispose =>
    simp only [Call.run, Enumerator.dispose, bind_apply, Call.symbol]
    cases m.call steps e.machine.dispose.symbol (some e.object) [] w with
    | none => rfl
    | some p =>
      obtain ⟨result, v⟩ := p
      cases result <;> rfl

/-- Calls on machines that hold the state machine mirror each other. -/
theorem Call.run_mirrors (c : Call) {m m' : Machine σ} {sm : StateMachine} (hconfined : Confined sm)
    (h : Holding sm m) (h' : Holding sm m') (hhosts : m'.hosts = m.hosts)
    (hplain : Hosts.Plain m.hosts) (steps : Nat) {r r' : Ref} {w w' : World σ}
    (hpaired : World.Paired r r' w w') :
    Mirrored (fun v v' => World.Paired r r' v v' ∧ World.Apart r w v)
      (c.run m steps ⟨sm, r⟩ w) (c.run m' steps ⟨sm, r'⟩ w') := by
  have howner : (c.symbol sm).owner = some sm.state.owner := by
    cases c with
    | moveNext => exact hconfined.owner _ List.mem_cons_self
    | dispose => exact hconfined.owner _ (List.mem_cons_of_mem _ List.mem_cons_self)
  have hcall := callWithin_mirrors (h.twins hconfined h' hhosts hplain) steps maxDepth howner []
    w w' hpaired
  rw [Call.run_apply, Call.run_apply]
  simp only [Machine.call]
  revert hcall
  generalize callWithin m steps maxDepth (c.symbol sm) (some r) [] w = x
  generalize callWithin m' steps maxDepth (c.symbol sm) (some r') [] w' = x'
  intro hcall
  cases hcall with
  | unended => exact .unended
  | ended hv => exact .ended hv

/-- What is seen of two instances with the same fields is the same. -/
theorem Sight.ofResult_paired (sm : StateMachine) {r r' : Ref} {w w' : World σ}
    (h : World.Paired r r' w w') (result : Except Failure (Option Bool)) :
    Sight.ofResult ⟨sm, r⟩ w result = Sight.ofResult ⟨sm, r'⟩ w' result := by
  have hstate : Enumerator.state w ⟨sm, r⟩ = Enumerator.state w' ⟨sm, r'⟩ := by
    simp only [Enumerator.state, h.get]
  have hcurrent : Enumerator.current w ⟨sm, r⟩ = Enumerator.current w' ⟨sm, r'⟩ := by
    simp only [Enumerator.current, h.get]
  cases result <;> simp only [Sight.ofResult, hstate, hcurrent]

/-! ## What requests keep -/

/-- The machines that the request starts are made from the program. -/
def Request.Of (made : StateMachine → Prop) : Request ι → Prop
  | .start _ sm _ => made sm
  | .call .. => True

/-- Each enumerator is an instance of a machine of the program that is held, with an object of its
own. -/
structure State.Sane (made : StateMachine → Prop) (s : State ι σ) : Prop where
  plain : Hosts.Plain s.machine.hosts
  stocked : Stocked made s.machine
  made : ∀ name e, s.enumerators name = some e → made e.machine ∧ Holding e.machine s.machine
  present : ∀ name e, s.enumerators name = some e →
    (s.world.objects[e.object.number]?).isSome = true
  apart : ∀ name name' e e', s.enumerators name = some e → s.enumerators name' = some e' →
    name ≠ name' → e.object.number ≠ e'.object.number

theorem State.Sane.initial {made : StateMachine → Prop} {m : Machine σ}
    (hplain : Hosts.Plain m.hosts) (hstocked : Stocked made m) (w : World σ) :
    State.Sane made ({ machine := m, world := w } : State ι σ) where
  plain := hplain
  stocked := hstocked
  made _ _ h := nomatch h
  present _ _ h := nomatch h
  apart _ _ _ _ h := nomatch h

/-- The enumerator of the name is the same in both states, and so is its object. -/
def State.Keeps (s s' : State ι σ) (name : ι) : Prop :=
  s'.enumerators name = s.enumerators name ∧ ∀ e, s.enumerators name = some e →
    s'.world.objects[e.object.number]? = s.world.objects[e.object.number]?

section Steps

variable [DecidableEq ι] {made : StateMachine → Prop} {s s' : State ι σ} {sight : Sight}
  {steps : Nat}

/-- The state behind the start of an enumerator. -/
def State.started (s : State ι σ) (name : ι) (sm : StateMachine) (args : List Value) :
    State ι σ :=
  State.bind ⟨s.machine.load sm.methods, grown s.world (newFields sm args), s.enumerators⟩ name
    (newest s.world sm)

theorem State.step_start {name : ι} {sm : StateMachine} {args : List Value} :
    s.step steps (.start name sm args) =
      if args.length = sm.params.length then
        some (.ofResult (newest s.world sm) (grown s.world (newFields sm args)) (.ok none),
          s.started name sm args)
      else
        some (.refused (.argumentCount sm.iterator.fullName sm.params.length args.length), s) := by
  simp only [State.step, start_eq]
  by_cases hcount : args.length = sm.params.length
  · simp only [if_pos hcount]
    rfl
  · simp only [if_neg hcount]

theorem State.started_enumerators (name : ι) (sm : StateMachine) (args : List Value) (other : ι) :
    (s.started name sm args).enumerators other =
      if other = name then some (newest s.world sm) else s.enumerators other := rfl

/-- A start keeps the enumerators of other names with their objects. -/
theorem State.Sane.keeps_started (h : s.Sane made) (name : ι) (sm : StateMachine)
    (args : List Value) {other : ι} (hother : other ≠ name) :
    s.Keeps (s.started name sm args) other := by
  constructor
  · rw [State.started_enumerators, if_neg hother]
  · intro e he
    exact getElem?_grown (h.present other e he) _

/-- A start keeps the state sane. -/
theorem State.Sane.started (hmade : Distinct made) (h : s.Sane made) (name : ι)
    {sm : StateMachine} (hsm : made sm) (args : List Value) :
    (s.started name sm args).Sane made where
  plain := h.plain
  stocked := h.stocked.load hmade hsm
  made other e he := by
    rw [State.started_enumerators] at he
    split at he
    · cases he
      exact ⟨hsm, h.stocked.holding hsm⟩
    · obtain ⟨hmachine, hholding⟩ := h.made other e he
      exact ⟨hmachine, hholding.load hmade hmachine hsm⟩
  present other e he := by
    rw [State.started_enumerators] at he
    split at he
    · cases he
      exact Option.isSome_of_eq_some (getElem?_grown_newest _ _ _)
    · have hthere := h.present other e he
      exact (congrArg Option.isSome (getElem?_grown hthere _)).trans hthere
  apart := by
    -- The new object has the first number behind those of the others.
    have hnew : ∀ other e, s.enumerators other = some e →
        e.object.number ≠ (newest s.world sm).object.number := by
      intro other e he heq
      have hthere := h.present other e he
      rw [heq] at hthere
      simp [newest] at hthere
    intro other other' e e' he he' hne
    rw [State.started_enumerators] at he he'
    split at he
    · rename_i hname
      cases he
      rw [if_neg fun hname' => hne (hname.trans hname'.symm)] at he'
      exact (hnew other' e' he').symm
    · split at he'
      · cases he'
        exact hnew other e he
      · exact h.apart other other' e e' he he' hne

omit [DecidableEq ι] in
/-- A call changes nothing but the object of the enumerator and what host methods keep. -/
theorem State.Sane.call (hmade : Distinct made) (h : s.Sane made) {name : ι} {c : Call}
    {e : Enumerator} (he : s.enumerators name = some e) {result : Except Failure (Option Bool)}
    {w : World σ} (hrun : c.run s.machine steps e s.world = some (result, w)) :
    World.Apart e.object s.world w ∧ (w.objects[e.object.number]?).isSome = true := by
  obtain ⟨hmachine, hholding⟩ := h.made name e he
  obtain ⟨o, ho⟩ := Option.isSome_iff_exists.mp (h.present name e he)
  have hmirror := c.run_mirrors (hmade.confined _ hmachine) hholding hholding rfl h.plain steps
    (⟨o, ho, ho⟩ : World.Paired e.object e.object s.world s.world)
  obtain ⟨sm, r⟩ := e
  rw [hrun] at hmirror
  cases hmirror with
  | ended hv =>
    obtain ⟨⟨o', ho', -⟩, happart⟩ := hv
    exact ⟨happart, Option.isSome_of_eq_some ho'⟩

/-- An answer to a request keeps the state sane, and the enumerators of other names with their
objects. -/
theorem State.Sane.step (hmade : Distinct made) (h : s.Sane made) {r : Request ι}
    (hr : r.Of made) (hstep : s.step steps r = some (sight, s')) :
    s'.Sane made ∧ s'.machine.hosts = s.machine.hosts ∧
      ∀ name, name ≠ r.name → s.Keeps s' name := by
  have hnothing : s.Sane made ∧ s.machine.hosts = s.machine.hosts ∧
      ∀ name, name ≠ r.name → s.Keeps s name := ⟨h, rfl, fun _ _ => ⟨rfl, fun _ _ => rfl⟩⟩
  cases r with
  | start name sm args =>
    rw [State.step_start] at hstep
    split at hstep
    · cases hstep
      exact ⟨h.started hmade name hr args, rfl, fun _ hother => h.keeps_started name sm args hother⟩
    · cases hstep
      exact hnothing
  | call name c =>
    simp only [State.step] at hstep
    split at hstep
    · cases hstep
      exact hnothing
    · rename_i e he
      split at hstep
      · cases hstep
      · rename_i result w hrun
        cases hstep
        obtain ⟨hapart, hpresent⟩ := h.call hmade he hrun
        have hothers : ∀ other e', s.enumerators other = some e' → other ≠ name →
            w.objects[e'.object.number]? = s.world.objects[e'.object.number]? :=
          fun other e' he' hother => hapart _ (h.apart other name e' e he' he hother)
        refine ⟨⟨h.plain, h.stocked, h.made, fun other e' he' => ?_, h.apart⟩, rfl,
          fun other hother => ⟨rfl, fun e' he' => hothers other e' he' hother⟩⟩
        by_cases hother : other = name
        · subst hother
          rw [he] at he'
          cases he'
          exact hpresent
        · exact (congrArg Option.isSome (hothers other e' he' hother)).trans
            (h.present other e' he')

/-! ## An enumerator on a machine of its own -/

/-- Neither is there, or both are instances of one machine with the same fields. -/
inductive Opposite (w w' : World σ) : Option Enumerator → Option Enumerator → Prop where
  | absent : Opposite w w' none none
  | present {r r' : Ref} (sm : StateMachine) (h : World.Paired r r' w w') :
    Opposite w w' (some ⟨sm, r⟩) (some ⟨sm, r'⟩)

/-- The states are the same for the enumerator of the name. -/
structure State.Mirrors (name : ι) (s t : State ι σ) : Prop where
  hosts : t.machine.hosts = s.machine.hosts
  opposite : Opposite s.world t.world (s.enumerators name) (t.enumerators name)

variable {t : State ι σ}

omit [DecidableEq ι] in
/-- Requests to others have no part in it. -/
theorem State.Mirrors.keeps {name : ι} (h : s.Mirrors name t)
    (hhosts : s'.machine.hosts = s.machine.hosts) (hkeeps : s.Keeps s' name) :
    s'.Mirrors name t := by
  refine ⟨h.hosts.trans hhosts.symm, ?_⟩
  have hopposite := h.opposite
  obtain ⟨henumerator, hobject⟩ := hkeeps
  rw [henumerator]
  generalize s.enumerators name = x at hopposite hobject ⊢
  generalize t.enumerators name = y at hopposite ⊢
  cases hopposite with
  | absent => exact .absent
  | present sm hpaired =>
    obtain ⟨o, ho, ho'⟩ := hpaired
    exact .present sm ⟨o, (hobject _ rfl).trans ho, ho'⟩

/-- Requests to the enumerator are answered alike. -/
theorem State.Mirrors.step (steps : Nat) (hmade : Distinct made) (hs : s.Sane made)
    (ht : t.Sane made) {r : Request ι} (h : s.Mirrors r.name t) :
    (s.step steps r = none ∧ t.step steps r = none) ∨ ∃ sight s' t',
      s.step steps r = some (sight, s') ∧ t.step steps r = some (sight, t') ∧
        s'.Mirrors r.name t' := by
  cases r with
  | start name sm args =>
    right
    rw [State.step_start, State.step_start]
    by_cases hcount : args.length = sm.params.length
    · simp only [if_pos hcount]
      have hpaired : World.Paired (newest s.world sm).object (newest t.world sm).object
          (grown s.world (newFields sm args)) (grown t.world (newFields sm args)) :=
        ⟨_, getElem?_grown_newest _ _ _, getElem?_grown_newest _ _ _⟩
      have hsight := Sight.ofResult_paired sm hpaired (.ok none)
      refine ⟨_, _, _, rfl, congrArg some (Prod.ext hsight.symm rfl), h.hosts, ?_⟩
      show Opposite _ _ ((s.started name sm args).enumerators name)
        ((t.started name sm args).enumerators name)
      rw [State.started_enumerators, State.started_enumerators, if_pos rfl, if_pos rfl]
      exact .present sm hpaired
    · simp only [if_neg hcount]
      exact ⟨_, _, _, rfl, rfl, h⟩
  | call name c =>
    have hopposite : Opposite s.world t.world (s.enumerators name) (t.enumerators name) :=
      h.opposite
    simp only [State.step]
    cases he : s.enumerators name with
    | none =>
      rw [he] at hopposite
      cases he' : t.enumerators name with
      | none => exact .inr ⟨_, _, _, rfl, rfl, h⟩
      | some e =>
        rw [he'] at hopposite
        cases hopposite
    | some e =>
      cases he' : t.enumerators name with
      | none =>
        rw [he, he'] at hopposite
        cases hopposite
      | some e' =>
        rw [he, he'] at hopposite
        obtain ⟨hmachine, hholding⟩ := hs.made name e he
        obtain ⟨-, hholding'⟩ := ht.made name e' he'
        cases hopposite with
        | @present r r' sm hpaired =>
          have hmirror := c.run_mirrors (hmade.confined sm hmachine) hholding hholding' h.hosts
            hs.plain steps hpaired
          dsimp only
          revert hmirror
          generalize c.run s.machine steps ⟨sm, r⟩ s.world = x
          generalize c.run t.machine steps ⟨sm, r'⟩ t.world = x'
          intro hmirror
          cases hmirror with
          | unended => exact .inl ⟨rfl, rfl⟩
          | @ended result v v' hv =>
            refine .inr ⟨_, _, _, rfl, congrArg some (Prod.ext
              (Sight.ofResult_paired sm hv.1 result).symm rfl), h.hosts, ?_⟩
            show Opposite v v' (s.enumerators name) (t.enumerators name)
            rw [he, he']
            exact .present sm hv.1

/-! ## Runs -/

/-- Requests are all answered if the first one is and then the others are. -/
theorem State.run_cons {r : Request ι} {rs : List (Request ι)} {log : List (ι × Sight)} :
    s.run steps (r :: rs) = some (log, s') ↔ ∃ sight s₁ later,
      s.step steps r = some (sight, s₁) ∧ s₁.run steps rs = some (later, s') ∧
        log = (r.name, sight) :: later := by
  rw [State.run]
  cases hstep : s.step steps r with
  | none => simp
  | some p =>
    obtain ⟨sight, s₁⟩ := p
    cases hlater : s₁.run steps rs with
    | none => simp [hlater]
    | some q =>
      obtain ⟨later, s₂⟩ := q
      constructor
      · intro h
        simp only [hlater, Option.some.injEq, Prod.mk.injEq] at h
        obtain ⟨rfl, rfl⟩ := h
        exact ⟨sight, s₁, later, rfl, hlater, rfl⟩
      · rintro ⟨_, _, _, hp, hq, rfl⟩
        cases hp
        rw [hlater] at hq
        cases hq
        simp only [hlater]

/-- What is seen of one enumerator is what is seen of it if it is alone. -/
theorem State.run_purged (hmade : Distinct made) {name : ι} :
    ∀ {rs : List (Request ι)} {s t s' : State ι σ} {log : List (ι × Sight)}, s.Sane made →
      t.Sane made → s.Mirrors name t → (∀ r ∈ rs, r.Of made) →
      s.run steps rs = some (log, s') →
      ∃ t', t.run steps (rs.filter fun r => r.name = name) =
        some (log.filter fun p => p.1 = name, t')
  | [], _, t, _, _, _, _, _, _, hrun => by
    cases hrun
    exact ⟨t, rfl⟩
  | r :: rs, s, t, s', log, hs, ht, h, hrs, hrun => by
    obtain ⟨hr, hrest⟩ := List.forall_mem_cons.mp hrs
    obtain ⟨sight, s₁, later, hstep, hlater, rfl⟩ := State.run_cons.mp hrun
    obtain ⟨hs₁, hhosts, hkeeps⟩ := hs.step hmade hr hstep
    by_cases hname : r.name = name
    · subst hname
      obtain ⟨hnone, -⟩ | ⟨_, _, t₁, hstep', htstep, hmirrors⟩ := h.step steps hmade hs ht
      · rw [hstep] at hnone
        cases hnone
      · rw [hstep] at hstep'
        cases hstep'
        obtain ⟨ht₁, -, -⟩ := ht.step hmade hr htstep
        obtain ⟨t', ht'⟩ := State.run_purged hmade hs₁ ht₁ hmirrors hrest hlater
        refine ⟨t', ?_⟩
        rw [List.filter_cons_of_pos (by simp), List.filter_cons_of_pos (by simp)]
        exact State.run_cons.mpr ⟨sight, t₁, _, htstep, ht', rfl⟩
    · obtain ⟨t', ht'⟩ := State.run_purged hmade hs₁ ht
        (h.keeps hhosts (hkeeps name (Ne.symm hname))) hrest hlater
      refine ⟨t', ?_⟩
      rwa [List.filter_cons_of_neg (by simpa using hname),
        List.filter_cons_of_neg (by simpa using hname)]

/-- If the requests to each enumerator are all answered while it is alone, then all of them are
answered together. -/
theorem State.run_ends (hmade : Distinct made) : ∀ {rs : List (Request ι)} {s : State ι σ}
    {t : ι → State ι σ}, s.Sane made → (∀ name, (t name).Sane made) →
      (∀ name, s.Mirrors name (t name)) → (∀ r ∈ rs, r.Of made) →
      (∀ name, ((t name).run steps (rs.filter fun r => r.name = name)).isSome = true) →
      (s.run steps rs).isSome = true
  | [], _, _, _, _, _, _, _ => rfl
  | r :: rs, s, t, hs, ht, h, hrs, halone => by
    obtain ⟨hr, hrest⟩ := List.forall_mem_cons.mp hrs
    obtain ⟨⟨log, t'⟩, hown⟩ := Option.isSome_iff_exists.mp (halone r.name)
    rw [List.filter_cons_of_pos (by simp)] at hown
    obtain ⟨sight, t₁, later, htstep, htlater, -⟩ := State.run_cons.mp hown
    obtain ⟨-, hnone⟩ | ⟨_, s₁, _, hstep, htstep', hmirrors⟩ :=
      (h r.name).step steps hmade hs (ht r.name)
    · rw [htstep] at hnone
      cases hnone
    · rw [htstep] at htstep'
      cases htstep'
      obtain ⟨hs₁, hhosts, hkeeps⟩ := hs.step hmade hr hstep
      obtain ⟨ht₁, -, -⟩ := (ht r.name).step hmade hr htstep
      have hrun : (s₁.run steps rs).isSome = true := by
        refine State.run_ends hmade (t := fun name => if name = r.name then t₁ else t name) hs₁
          (fun name => ?_) (fun name => ?_) hrest fun name => ?_
        · split
          · exact ht₁
          · exact ht name
        · split
          · rename_i hname
            rw [hname]
            exact hmirrors
          · rename_i hname
            exact (h name).keeps hhosts (hkeeps name hname)
        · split
          · rename_i hname
            rw [hname, htlater]
            rfl
          · rename_i hname
            have hother := halone name
            rwa [List.filter_cons_of_neg (by simpa using Ne.symm hname)] at hother
      obtain ⟨⟨later, s₂⟩, hlater⟩ := Option.isSome_iff_exists.mp hrun
      exact Option.isSome_of_eq_some (State.run_cons.mpr ⟨_, s₁, later, hstep, hlater, rfl⟩)

theorem State.Sane.run (hmade : Distinct made) : ∀ {rs : List (Request ι)} {s s' : State ι σ}
    {log : List (ι × Sight)}, s.Sane made → (∀ r ∈ rs, r.Of made) →
      s.run steps rs = some (log, s') → s'.Sane made
  | [], _, _, _, hs, _, hrun => by
    cases hrun
    exact hs
  | _ :: _, _, _, _, hs, hrs, hrun => by
    obtain ⟨hr, hrest⟩ := List.forall_mem_cons.mp hrs
    obtain ⟨_, _, _, hstep, hlater, -⟩ := State.run_cons.mp hrun
    exact State.Sane.run hmade (hs.step hmade hr hstep).1 hrest hlater

end Steps

/-! ## Programs -/

/-- Lowering the program makes the machine of one of its resumable methods. -/
def Makes (markers : Bool) (program : Program) (sm : StateMachine) : Prop :=
  some (.machine sm) ∈ (LoweredProgram.ofMethods markers false program.methods).results

section Programs

variable {file source : String} {program : Program} {markers : Bool}

theorem mem_results {l : Lowered} :
    some l ∈ (LoweredProgram.ofMethods markers false program.methods).results ↔
      ∃ m ∈ program.methods, lowerMethod markers m = .ok l := by
  have hresult : ∀ m, (outcomeOf markers m).result? = some l ↔ lowerMethod markers m = .ok l := by
    intro m
    unfold outcomeOf
    cases lowerMethod markers m <;> simp [Outcome.result?]
  simp [LoweredProgram.results, LoweredProgram.ofMethods, hresult]

/-- The machines of a program have code and types of their own. -/
theorem distinct_of_read (hread : read file source = .ok program) :
    Distinct (Makes markers program) where
  confined sm hsm := by
    obtain ⟨m, hm, hlower⟩ := mem_results.mp hsm
    exact (confined_of_lowered hread hm hlower).2
  eq_of_owner sm sm' hsm hsm' howner := by
    obtain ⟨m, hm, hlower⟩ := mem_results.mp hsm
    obtain ⟨m', hm', hlower'⟩ := mem_results.mp hsm'
    rw [(confined_of_lowered hread hm hlower).1,
      (confined_of_lowered hread hm' hlower').1] at howner
    have hplace : m.symbol.locations = m'.symbol.locations := congrArg TypeDecl.locations howner
    rw [eq_of_locations hread hm hm' hplace, hlower'] at hlower
    cases hlower
    rfl

/-- A method that is not resumable is lowered to its lowered body. -/
theorem walked_of_plain (hread : read file source = .ok program) {m x : MethodBody}
    (hm : m ∈ program.methods) (hlower : lowerMethod markers m = .ok (.plain x)) :
    x.symbol = m.symbol ∧ WalkedBlock markers m.body x.body ∧
      verify false (.stmt (.block x.body)) = .ok () := by
  obtain ⟨b, k, hwalk, -, hverify⟩ := walkBody_ok (bound_methods hread hm) markers
  cases hiterator : m.symbol.isIterator with
  | false =>
    rw [lowerMethod_of_walk hiterator hwalk] at hlower
    split at hlower
    · rename_i hverify'
      cases hlower
      exact ⟨rfl, walkedBlock_of_ok hwalk, hverify'⟩
    · cases hlower
  | true =>
    rw [StateMachine.lowerMethod_of_build hiterator hwalk hverify] at hlower
    split at hlower
    · rename_i machine _
      cases hcheck : machine.methods.forM checkMade <;> rw [hcheck] at hlower <;> cases hlower
    · cases hlower

/-- A method that is not resumable stays a method of its class. -/
theorem symbol_of_plain (hread : read file source = .ok program) {m x : MethodBody}
    (hm : m ∈ program.methods) (hlower : lowerMethod markers m = .ok (.plain x)) :
    x.symbol = m.symbol :=
  (walked_of_plain hread hm hlower).1

/-- Bodies of the program are methods of its class or of its machines. -/
theorem stocked_of_bodies (hread : read file source = .ok program) {bodies : List MethodBody}
    (hbodies : ∀ b ∈ bodies,
      b ∈ (LoweredProgram.ofMethods markers false program.methods).bodies) (hosts : Hosts σ) :
    Stocked (Makes markers program) (Machine.load { hosts } bodies) := by
  have hdistinct : Distinct (Makes markers program) := distinct_of_read hread
  intro sm hsm method loaded howner hlookup
  rw [load_routines, List.append_nil] at hlookup
  obtain ⟨b, hb, rfl, -⟩ := lookup_entries hlookup
  obtain ⟨r, hr, hb⟩ := List.mem_flatMap.mp (hbodies b hb)
  cases r with
  | none => cases hb
  | some l =>
    cases l with
    | machine sm' =>
      have howner' := (hdistinct.confined sm' hr).owner b hb
      have hsame : sm'.state.owner = sm.state.owner := Option.some.inj (howner'.symm.trans howner)
      rw [← hdistinct.eq_of_owner sm' sm hr hsm hsame]
      exact ⟨b, hb, rfl⟩
    | plain x =>
      -- The type of a machine is not a class.
      obtain ⟨m, hm, hlower⟩ := mem_results.mp hr
      obtain ⟨m', hm', hlower'⟩ := mem_results.mp hsm
      obtain ⟨⟨hclass, hmember⟩, -⟩ := methods_placed hread
      rw [List.mem_singleton.mp hb, symbol_of_plain hread hm hlower, hmember m hm,
        (confined_of_lowered hread hm' hlower').1] at howner
      rw [Option.some.inj howner] at hclass
      cases hclass

end Programs

/-- Enumerators on one machine do not influence each other.  The requests are about enumerators of
a program, by their names, and the host methods answer by their arguments alone.  If all of them are
answered, then what is seen of an enumerator is what is seen of it if its own requests are made on a
fresh machine; they are all answered if each enumerator's are there; and a request to one enumerator
leaves the object of every other one as it is. -/
theorem enumerators_isolated [DecidableEq ι] {file source : String} {program : Program}
    (hread : read file source = .ok program) (markers : Bool) {bodies : List MethodBody}
    (hbodies : ∀ b ∈ bodies, b ∈ (LoweredProgram.ofMethods markers false program.methods).bodies)
    {hosts : Hosts σ} (hplain : Hosts.Plain hosts) {requests : List (Request ι)}
    (hrequests : ∀ r ∈ requests, r.Of (Makes markers program)) (world : World σ) (kept : σ)
    (steps : Nat) :
    let shared : State ι σ := { machine := Machine.load { hosts } bodies, world }
    let fresh : State ι σ := { machine := { hosts }, world := { hosts := kept } }
    (∀ log s, shared.run steps requests = some (log, s) → ∀ name, ∃ t,
      fresh.run steps (requests.filter fun r => r.name = name) =
        some (log.filter fun p => p.1 = name, t)) ∧
    ((∀ name, (fresh.run steps (requests.filter fun r => r.name = name)).isSome = true) →
      (shared.run steps requests).isSome = true) ∧
    ∀ before r after log s sight s', requests = before ++ r :: after →
      shared.run steps before = some (log, s) → s.step steps r = some (sight, s') →
      ∀ name e, name ≠ r.name → s.enumerators name = some e →
        s'.enumerators name = some e ∧
          s'.world.objects[e.object.number]? = s.world.objects[e.object.number]? := by
  intro shared fresh
  have hdistinct : Distinct (Makes markers program) := distinct_of_read hread
  have hshared : shared.Sane (Makes markers program) :=
    .initial hplain (stocked_of_bodies hread hbodies hosts) world
  have hnone : ∀ b ∈ ([] : List MethodBody),
      b ∈ (LoweredProgram.ofMethods markers false program.methods).bodies := by simp
  have hfresh : fresh.Sane (Makes markers program) :=
    .initial hplain (stocked_of_bodies hread hnone hosts) { hosts := kept }
  have hmirrors : ∀ name, shared.Mirrors name fresh := fun _ => ⟨rfl, .absent⟩
  refine ⟨fun log s hrun name => ?_, fun halone => ?_, ?_⟩
  · exact State.run_purged hdistinct hshared hfresh (hmirrors name) hrequests hrun
  · exact State.run_ends hdistinct hshared (fun _ => hfresh) hmirrors hrequests halone
  · intro before r after log s sight s' hsplit hrun hstep name e hname he
    subst hsplit
    have hs : s.Sane (Makes markers program) := State.Sane.run hdistinct hshared
      (fun r' hr' => hrequests r' (List.mem_append_left _ hr')) hrun
    have hr : r.Of (Makes markers program) :=
      hrequests r (List.mem_append_right _ List.mem_cons_self)
    obtain ⟨-, -, hkeeps⟩ := hs.step hdistinct hr hstep
    obtain ⟨henumerator, hobject⟩ := hkeeps name hname
    exact ⟨henumerator.trans he, hobject e he⟩

/-- A method that counts down by the values of a host method and cleans up behind it. -/
def countingSource : String :=
  "class C \x7b extern int F(int n); iterator int M(int n) \x7b try \x7b while (n > 0) \x7b " ++
    "yield return F(n); n = n - 1; \x7d \x7d finally \x7b F(0); \x7d \x7d \x7d"

/-- Every host method gives its argument back, and counts the calls. -/
def echo : Hosts Nat := fun _ => some fun args count => (.value (args.headD .null), count + 1)

/-- Two countings in turn, and the start of a third one. -/
def countings (sm : StateMachine) : List (Request Nat) :=
  [.start 0 sm [.int 2], .start 1 sm [.int 1], .call 0 .moveNext, .call 1 .moveNext,
    .start 2 sm [.int 5], .call 1 .moveNext, .call 0 .dispose, .call 0 .moveNext]

/-- A machine on which something has been done. -/
def usedMachine : State Nat Nat :=
  { machine := { hosts := echo }, world := { objects := [[]], hosts := 7 } }

/-- A machine on which nothing has been done. -/
def freshMachine : State Nat Nat := { machine := { hosts := echo }, world := { hosts := 0 } }

theorem enumerators_isolated_countings : ∃ program sm log s,
    read "" countingSource = .ok program ∧ Makes true program sm ∧
    usedMachine.run 100 (countings sm) = some (log, s) ∧
    log.filter (fun p => p.1 = 1) = [(1, .shown none 0 (.int 0)),
      (1, .shown (some true) 1 (.int 1)), (1, .shown (some false) (-2) (.int 1))] ∧
    ∀ name, ∃ t, freshMachine.run 100 ((countings sm).filter fun r => r.name = name) =
      some (log.filter fun p => p.1 = name, t) := by
  have hfact : ((read "" countingSource).toOption.map fun p =>
      (LoweredProgram.ofMethods true false p.methods).results.map fun r =>
        (r.bind Lowered.machine?).bind fun sm => (usedMachine.run 100 (countings sm)).map
          fun p => p.1.filter fun p => p.1 = 1) =
      some [some [(1, .shown none 0 (.int 0)), (1, .shown (some true) 1 (.int 1)),
        (1, .shown (some false) (-2) (.int 1))]] := by
    rw [show countingSource = .ofList _ from append_ofList rfl rfl, read_ofList]
    decide +kernel
  have hplain : Hosts.Plain echo := by
    intro name host hhost
    cases hhost
    exact ⟨fun args => .ok (args.headD .null), fun _ _ => rfl⟩
  obtain ⟨program, hread, hresults⟩ := Option.map_eq_some_iff.mp hfact
  have hread : read "" countingSource = .ok program := by
    cases hcase : read "" countingSource with
    | error e =>
      rw [hcase] at hread
      cases hread
    | ok p =>
      rw [hcase] at hread
      cases hread
      rfl
  obtain ⟨r, hr, hmachine⟩ := List.mem_map.mp (hresults ▸ List.mem_singleton_self _)
  obtain ⟨sm, hsm, hmap⟩ := Option.bind_eq_some_iff.mp hmachine
  obtain ⟨⟨log, s⟩, hrun, hlog⟩ := Option.map_eq_some_iff.mp hmap
  obtain ⟨l, rfl, hl⟩ := Option.bind_eq_some_iff.mp hsm
  cases l with
  | plain x => cases hl
  | machine _ =>
    cases hl
    have hof : ∀ r ∈ countings sm, r.Of (Makes true program) := by
      simp [countings, Request.Of, show Makes true program sm from hr]
    have hnone : ∀ b ∈ ([] : List MethodBody),
        b ∈ (LoweredProgram.ofMethods true false program.methods).bodies := by simp
    have hisolated := enumerators_isolated hread true hnone hplain hof
      { objects := [[]], hosts := 7 } 0 100
    exact ⟨program, sm, log, s, hread, hr, hrun, hlog, hisolated.1 log s hrun⟩

end Resumable.Session
