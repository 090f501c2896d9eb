import Resumable.Lowering.Verify
import Resumable.StateMachine.Build

/-!
# Lowered methods and programs

Lowering a method gives its body in the lowered form, or the state machine that takes its place.
Methods are lowered independently of each other, so one that fails does not stop the others.
-/

set_option autoImplicit false

namespace Resumable.Lowering

open Resumable.Report Resumable.Symbol Resumable.Tree

/-! ## Methods -/

/-- The outcome of lowering a method. -/
inductive Lowered where
  /-- A method that does not suspend, with its lowered body. -/
  | plain (method : MethodBody)
  /-- The state machine of a resumable method. -/
  | machine (machine : StateMachine)
  deriving Inhabited

namespace Lowered

/-- The method that was lowered.  A resumable method has no body any more. -/
def method : Lowered → MethodBody
  | plain m => m
  | machine m => { symbol := m.iterator, body := .absent }

/-- The state machine of a resumable method. -/
def machine? : Lowered → Option StateMachine
  | plain _ => none
  | machine m => some m

/-- The bodies that lowering has made. -/
def bodies : Lowered → List MethodBody
  | plain m => [m]
  | machine m => m.methods

end Lowered

/-- Why a method cannot be lowered: a violation, inside the methods that it was found in, from
the outside inwards. -/
structure Fault where
  methods : List String := []
  violation : Violation
  deriving DecidableEq, Repr, Inhabited

namespace Fault

/-- The fault, seen from a method around it. -/
def within (m : Method) (f : Fault) : Fault := { f with methods := m.fullName :: f.methods }

/-- The fault as text. -/
def message (f : Fault) : String := ": ".intercalate (f.methods ++ [f.violation.text])

end Fault

/-- Lower a method, up to the check of what a state machine consists of. -/
def lowerBody (markers : Bool) (m : MethodBody) : Lower Lowered := do
  let body ← walkBlock markers m.body
  Lower.ofExcept (verify m.symbol.isIterator (.stmt (.block body)))
  if m.symbol.isIterator then
    let owner := TypeDecl.stateMachine m.symbol.name m.symbol.locations
    let machine ← StateMachine.build markers owner m body
    return .machine machine.freeze
  else
    return .plain { m with body }

/-- A body that lowering has made is in the lowered form. -/
def checkMade (m : MethodBody) : Except Fault Unit :=
  (verify false (.stmt (.block m.body))).mapError fun violation =>
    Fault.within m.symbol { violation }

/-- Lower a method. -/
def lowerMethod (markers : Bool) (m : MethodBody) : Except Fault Lowered := do
  let lowered ← (lowerBody markers m).outcome.1.mapError fun violation => { violation }
  match lowered with
  | .plain m => return .plain m
  | .machine machine =>
    machine.methods.forM checkMade
    return .machine machine

/-! ## Programs -/

/-- What became of a method of a program. -/
inductive Outcome where
  | lowered (result : Lowered)
  | faulty (fault : Fault)
  /-- It was no longer wanted when its turn came. -/
  | skipped
  deriving Inhabited

namespace Outcome

/-- The result of lowering, if there is one. -/
def result? : Outcome → Option Lowered
  | lowered result => some result
  | _ => none

/-- Why there is none. -/
def fault? : Outcome → Option Fault
  | faulty fault => some fault
  | _ => none

/-- The method was not looked at. -/
def isSkipped : Outcome → Bool
  | skipped => true
  | _ => false

end Outcome

/-- Why a program was not lowered as a whole. -/
inductive Incomplete where
  | cancelled
  | faults (faults : List Fault)
  deriving DecidableEq, Repr, Inhabited

/-- The methods of a program with what became of each of them. -/
structure LoweredProgram where
  methods : List (MethodBody × Outcome)
  deriving Inhabited

/-- Lower a method of a program; its faults name it. -/
def outcomeOf (markers : Bool) (m : MethodBody) : Outcome :=
  match lowerMethod markers m with
  | .ok result => .lowered result
  | .error fault => .faulty (fault.within m.symbol)

namespace LoweredProgram

/-- Lower every method, or none if lowering was called off before it began. -/
def ofMethods (markers cancelled : Bool) (methods : List MethodBody) : LoweredProgram :=
  ⟨methods.map fun m => (m, if cancelled then .skipped else outcomeOf markers m)⟩

/-- What became of each method, in order. -/
def results (p : LoweredProgram) : List (Option Lowered) :=
  p.methods.map fun (_, outcome) => outcome.result?

/-- The result for the first method of a name. -/
def result? (p : LoweredProgram) (name : String) : Option Lowered :=
  (p.methods.find? fun (m, _) => m.symbol.name == name).bind fun (_, outcome) => outcome.result?

/-- The bodies that lowering has made, in order. -/
def bodies (p : LoweredProgram) : List MethodBody :=
  p.results.flatMap fun r => (r.map Lowered.bodies).getD []

/-- The faults, in the order of the methods. -/
def faults (p : LoweredProgram) : List Fault :=
  p.methods.filterMap fun (_, outcome) => outcome.fault?

/-- Why some method has no result. -/
def incomplete? (p : LoweredProgram) : Option Incomplete :=
  if p.methods.any fun (_, outcome) => outcome.isSkipped then some .cancelled
  else if p.faults.isEmpty then none
  else some (.faults p.faults)

end LoweredProgram

end Resumable.Lowering
