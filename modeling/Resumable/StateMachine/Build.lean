import Resumable.StateMachine.Disposal
import Resumable.StateMachine.Hoist
import Resumable.StateMachine.Representable

/-!
# State machines

The state machine that takes the place of a resumable method: a type whose fields hold the state,
the current element, the parameters and the locals, with a method that resumes it, a method that
ends it from outside, and one method for each finally that had to be extracted.
-/

set_option autoImplicit false

namespace Resumable

open Resumable.Report Resumable.Symbol Resumable.Tree Resumable.Lowering Resumable.StateMachine

/-- The state machine of a resumable method; `params` holds the field of each parameter. -/
structure StateMachine where
  iterator : Method
  members : MemberList
  state : Field
  current : Field
  params : List Field
  moveNext : MethodBody
  dispose : MethodBody
  cleanups : List MethodBody
  deriving Inhabited

namespace StateMachine

/-- Every method of the machine: resumption, disposal, then the finallys in the order of their
frames. -/
def methods (m : StateMachine) : List MethodBody := m.moveNext :: m.dispose :: m.cleanups

/-- The method of a name. -/
def method? (m : StateMachine) (name : String) : Option MethodBody :=
  m.methods.find? fun b => b.symbol.name == name

/-- The machine with its members published. -/
def freeze (m : StateMachine) : StateMachine := { m with members := m.members.freeze }

/-- The field that holds the state. -/
def stateField (owner : TypeDecl) : Field :=
  { name := "$state", type := some .int, owner, synthesized := true }

/-- The field that holds the current element; it is untyped if the elements are. -/
def currentField (owner : TypeDecl) (m : Method) : Field :=
  let type := (m.element?.getD none).getD .object
  { name := "$current", type := some type, owner, synthesized := true }

/-- The members that every machine of a method has, with the fields of its parameters between
the two fixed fields and the two entry points. -/
def declareMembers (owner : TypeDecl) (m : Method) : Except Violation Hoisted := do
  let members : MemberList := { owner }
  let members ← members.add (.field (stateField owner))
  let members ← members.add (.field (currentField owner m))
  let (_, hoisted) ← (m.params.forM Hoist.param).run { members }
  let members ← hoisted.members.add (.method (.moveNext owner))
  let members ← members.add (.method (.dispose owner))
  return { hoisted with members }

/-- Build the state machine of a resumable method from its body, which has to be lowered apart
from its suspensions.  Bodies made on the way are lowered in their turn. -/
def build (markers : Bool) (owner : TypeDecl) (method : MethodBody) (body : Block) :
    Lower StateMachine := do
  let symbol := method.symbol
  let provenance := method.body.origin.provenance
  Lower.ofExcept (Violation.check symbol.isIterator (.notResumable symbol.fullName)
    method.body.origin.span)
  let exit ← Lower.newLabel "exit"
  let hoisted ← Lower.ofExcept (declareMembers owner symbol)
  Lower.ofExcept (checkRepresentable symbol body)
  let (body, hoisted) ← Lower.ofExcept ((hoistBlock body).run hoisted)
  let state := stateField owner
  let analysis : Analysis :=
    { members := hoisted.members, owners := [(some exit, stateRunning)] }
  let (contents, analysis) ← (analyzeBlock state stateRunning body).run analysis
  let current := currentField owner symbol
  let plan : Plan :=
    { method := symbol, provenance, state, current, exit, owners := analysis.owners }
  let dispose := Method.dispose owner
  let moveNextBody ← buildMoveNext plan dispose contents body
  let moveNextBody ← walkBlock markers moveNextBody
  let disposeBody ← walkBlock markers (disposeBody plan contents.children)
  let cleanups ← (Frame.preorderAll contents.children).mapM fun f => do
    let body ← walkBlock markers f.cleanup.body
    return { symbol := f.cleanup.symbol, body : MethodBody }
  return {
    iterator := symbol
    members := analysis.members
    state
    current
    params := hoisted.params
    moveNext := { symbol := .moveNext owner, body := moveNextBody }
    dispose := { symbol := dispose, body := disposeBody }
    cleanups }

end StateMachine

end Resumable
