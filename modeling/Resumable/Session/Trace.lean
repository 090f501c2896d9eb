import Resumable.Lowering.Lowered
import Resumable.Session.Enumerator

/-!
# Traces

One method of a lowered program is executed, and what can be seen of it is recorded: its
elements, its calls of host methods, and how it ended.  A resumable method is enumerated; any
other method is called once, and its value is the only element.
-/

set_option autoImplicit false

namespace Resumable.Session

open Resumable.Text Resumable.Symbol Resumable.Lowering Resumable.Machine

variable {σ : Type}

/-! ## Recorded calls -/

/-- The calls recorded so far, and the state of host methods that do not record. -/
structure Record (σ : Type) where
  calls : List Bytes := []
  inner : σ

/-- A call as text. -/
def callText (name : String) (args : List Value) : Bytes :=
  bytes (name ++ "(") ++ List.intercalate (bytes ", ") (args.map Value.text) ++ bytes ")"

/-- A host method that records its calls and gives the zero of its type. -/
def recorder (m : Method) : HostMethod (Record σ) := fun args s =>
  (.value (Value.zero m.returnType), { s with calls := s.calls ++ [callText m.name args] })

/-- The host methods of a program record their calls, except where they are overridden. -/
def recordingHosts (hosts : List Method) (overrides : Hosts σ) : Hosts (Record σ) := fun name =>
  match overrides name with
  | some host => some fun args s =>
    let (reply, inner) := host args s.inner
    (reply, { s with inner })
  | none => (hosts.find? fun m => m.name == name).map recorder

/-! ## Runs -/

/-- When a run is called off.  It looks whether it has been each time before it goes on, so all that
matters is how many elements it has by then. -/
inductive Cancellation where
  | never
  /-- At the latest when there are so many elements. -/
  | after (elements : Nat)
  deriving DecidableEq, Repr, Inhabited

/-- A run that has so many elements has been called off. -/
def Cancellation.reached : Cancellation → Nat → Bool
  | never, _ => false
  | after limit, elements => limit ≤ elements

/-- A run that is called off, or not, before it begins. -/
instance : Coe Bool Cancellation := ⟨fun b => if b then .after 0 else .never⟩

/-- How a run is to go. -/
structure RunOptions where
  args : List Value := []
  /-- Dispose of the enumerator when it has produced this many elements, if positive. -/
  disposeAfter : Int := 0
  cancelled : Cancellation := .never
  deriving Inhabited

/-- What was seen of a run, apart from the calls. -/
structure Observation where
  items : List Value := []
  disposed : Bool := false
  finalState : Option Int := none
  failure : Option Failure := none
  deriving Inhabited

/-- The failure of an execution that gives no value. -/
def failure? {α : Type} : Except Failure α → Option Failure
  | .ok _ => none
  | .error f => some f

/-- Enumerate until the end, a failure, or a disposal; `rounds` bounds how often the enumerator
is resumed.  Before each resumption the run looks whether it has been called off; if so it disposes
of the enumerator, and both are its failure. -/
def enumerate (m : Machine σ) (steps : Nat) (e : Enumerator) (o : RunOptions) :
    Nat → List Value → StateT (World σ) Option Observation
  | 0, _ => fun _ => none
  | rounds + 1, items => do
    if o.cancelled.reached items.length then
      let others := ((failure? (← (e.dispose m steps).run)).map Failure.traps).getD []
      return { items, failure := some (.aggregate (.cancelled :: others)) }
    if 0 < o.disposeAfter ∧ o.disposeAfter ≤ items.length then
      let failure := failure? (← (e.dispose m steps).run)
      return { items, disposed := true, failure }
    match ← (e.moveNext m steps).run with
    | .error f => return { items, failure := some f }
    | .ok false => return { items }
    | .ok true =>
      let item := e.current (← get)
      enumerate m steps e o rounds (items ++ [item])

/-- Call a method once. -/
def callOnce (m : Machine σ) (steps : Nat) (method : Method) (args : List Value) :
    StateT (World σ) Option Observation := do
  if args.length = method.params.length then
    match ← (m.call steps method none args).run with
    | .ok v => return { items := [v] }
    | .error f => return { failure := some f }
  else
    let mismatch := Trap.argumentCount method.fullName method.params.length args.length
    return { failure := some (.single mismatch) }

/-- Execute a lowered method. -/
def observe (m : Machine σ) (steps : Nat) (lowered : Lowered) (o : RunOptions) :
    StateT (World σ) Option Observation := do
  match lowered with
  | .plain method => callOnce m steps method.symbol o.args
  | .machine sm =>
    match Enumerator.start m (← get) sm o.args with
    | .error trap => return { failure := some (.single trap) }
    | .ok (e, m, w) =>
      set w
      let observation ← enumerate m steps e o steps []
      return { observation with finalState := some (e.state (← get)) }

/-- What a run has shown. -/
structure Trace where
  method : String
  observation : Observation
  hostCalls : List Bytes
  deriving Inhabited

/-- More steps than an execution that ends takes: two to the power of 62. -/
def plenty : Nat := 4611686018427387904

/-- Execute the first method of a name; there is none if that was not lowered.  The outcome is
missing if the execution does not end within `steps`. -/
def runMethod (program : LoweredProgram) (hosts : List Method) (name : String) (o : RunOptions)
    (overrides : Hosts σ) (initial : σ) (steps : Nat := plenty) :
    Option (Option (Trace × σ)) := do
  match program.result? name with
  | none => return none
  | some lowered =>
    let blank : Machine (Record σ) := { hosts := recordingHosts hosts overrides }
    let m := blank.load program.bodies
    let (observation, world) ← (observe m steps lowered o).run { hosts := { inner := initial } }
    return some ({ method := name, observation, hostCalls := world.hosts.calls }, world.hosts.inner)

end Resumable.Session
