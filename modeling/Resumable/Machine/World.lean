import Resumable.Machine.Bindings
import Resumable.Machine.Failure

/-!
# Machines and their worlds

A machine knows the routines of the methods that are loaded, and which host methods there are.
What changes while it executes is its world: the objects, and whatever the host methods keep.
-/

set_option autoImplicit false

namespace Resumable.Machine

open Resumable.Symbol Resumable.Tree

/-! ## Hosts -/

/-- How a host method answers a call. -/
inductive Reply where
  | value (v : Value)
  | failure (f : Failure)
  /-- It calls a method in its turn, and answers with what comes of that. -/
  | call (method : Method) (this : Option Ref) (args : List Value)
  deriving Inhabited

/-- A host method: it may keep a state from call to call. -/
abbrev HostMethod (σ : Type) := List Value → σ → Reply × σ

/-- The host methods, by name. -/
abbrev Hosts (σ : Type) := String → Option (HostMethod σ)

/-! ## Worlds -/

/-- The objects, each with the values of its fields, and the state of the host methods. -/
structure World (σ : Type) where
  objects : List (Bindings Field) := []
  hosts : σ
  deriving Inhabited

namespace World

variable {σ : Type}

/-- The value of a field of an object. -/
def get (w : World σ) (r : Ref) (f : Field) : Value :=
  ((w.objects[r.number]?).bind fun o => o.get? f).getD (Value.zero f.type)

/-- Give a field of an object a value. -/
def put (w : World σ) (r : Ref) (f : Field) (v : Value) : World σ :=
  { w with objects := w.objects.modify r.number (Bindings.put f v) }

/-- A new object, with every field at its zero. -/
def newObject (w : World σ) (type : TypeDecl) : Ref × World σ :=
  (⟨w.objects.length, type⟩, { w with objects := w.objects ++ [[]] })

end World

/-! ## Machines -/

/-- The routine of a method, or why it has none. -/
abbrev Loaded := Method × Except FlattenError Routine

end Resumable.Machine

namespace Resumable

/-- What a machine executes with: the routines of the loaded methods, and the host methods. -/
structure Machine (σ : Type) where
  routines : List Machine.Loaded := []
  hosts : Machine.Hosts σ

end Resumable

namespace Resumable.Machine

open Resumable.Symbol Resumable.Tree

variable {σ : Type}

/-- Make the bodies callable.  The body that was loaded last counts. -/
def load (m : Machine σ) (bodies : List MethodBody) : Machine σ :=
  { m with routines := bodies.foldl (fun rs b => (b.symbol, flatten b) :: rs) m.routines }

/-- The routine of a method. -/
def routine (m : Machine σ) (method : Method) : Except Failure Routine :=
  match m.routines.lookup method with
  | some (.ok r) => .ok r
  | some (.error e) => .error (.single (.unusable e))
  | none => .error (.single (.noBodyLoaded method.fullName))

/-- The host method of a name.  The check of resumptions is always there. -/
def host? (m : Machine σ) (name : String) : Option (HostMethod σ) :=
  if name = Method.invalidResumption.name then
    some fun _ s => (.failure (.single .invalidResumption), s)
  else m.hosts name

/-! ## Executions -/

/-- An execution in a world: it ends with a value or a failure, or it does not end within the
steps it was given. -/
abbrev Exec (σ : Type) := ExceptT Failure (StateT (World σ) Option)

/-- How a method is called. -/
abbrev Caller (σ : Type) := Method → Option Ref → List Value → Exec σ Value

end Resumable.Machine
