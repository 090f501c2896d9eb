import Resumable.Symbol.Ty

/-!
# Variables and labels

Fields, locals and parameters hold values; a label is a place to jump to.  Two locals of one
name are told apart by their numbers, as are two fields of one type, and a label of the user's is
never one that the lowering made, whatever they are called.
-/

set_option autoImplicit false

namespace Resumable.Symbol

/-- A data member of a declared type; the number tells fields apart that agree in all else. -/
structure Field where
  name : String
  type : Option Ty
  owner : TypeDecl
  synthesized : Bool
  number : Nat := 0
  deriving DecidableEq, Repr, Inhabited

/-- The name of a field with that of its owner. -/
def Field.fullName (f : Field) : String := s!"{f.owner.name}.{f.name}"

/-- A variable of one activation of a method. -/
structure Local where
  number : Nat
  name : String
  type : Option Ty
  deriving DecidableEq, Repr, Inhabited

/-- A parameter; `ordinal` is the place of its argument. -/
structure Param where
  name : String
  type : Option Ty
  ordinal : Int
  deriving DecidableEq, Repr, Inhabited

/-- A place in a body to jump to. -/
inductive Label where
  /-- A label that the program declares. -/
  | user (name : String)
  /-- A label that the lowering makes; the ordinal tells labels of one stem apart. -/
  | generated (stem : String) (ordinal : Int)
  deriving DecidableEq, Repr, Inhabited

instance : LawfulBEq (Option Label) := inferInstance

namespace Label

/-- The label as it is printed. -/
def name : Label → String
  | user name => name
  | generated stem ordinal => s!"${stem}{ordinal}"

/-- The label was not declared by the program. -/
def isGenerated : Label → Bool
  | user _ => false
  | generated .. => true

end Label

/-- The printed form of a label that may be missing. -/
def labelName : Option Label → String
  | some l => l.name
  | none => "<nil>"

end Resumable.Symbol
