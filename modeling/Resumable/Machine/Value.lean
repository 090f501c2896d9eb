import Resumable.Symbol.Ty
import Resumable.Text.Bytes
import Resumable.Text.Word
import Resumable.Tree.Node

/-!
# Values

What expressions evaluate to: nothing, numbers of 64 bits, truth values, texts of octets, and
references to objects.
-/

set_option autoImplicit false

namespace Resumable.Machine

open Resumable.Text Resumable.Symbol Resumable.Tree

/-- A reference to an object, with the type that the object was made of. -/
structure Ref where
  number : Nat
  type : TypeDecl
  deriving DecidableEq, Repr, Inhabited

/-- A value. -/
inductive Value where
  | null
  | int (n : Int)
  | bool (b : Bool)
  | string (text : Bytes)
  | object (ref : Ref)
  deriving DecidableEq, Repr, Inhabited

namespace Value

/-- The value of a literal. -/
def ofConstant : Constant → Value
  | .null => null
  | .int n => int n
  | .bool b => bool b
  | .string text => string text

/-- What a variable holds before it is assigned to. -/
def zero : Option Ty → Value
  | some (.special .int) => int 0
  | some (.special .bool) => bool false
  | some (.special .string) => string []
  | _ => null

/-- The name of what kind of value it is, for reports. -/
def kindName : Value → String
  | null => "<nil>"
  | int _ => "int"
  | bool _ => "bool"
  | string _ => "string"
  | object _ => "*eval.Object"

/-- The value as text; a text stands for itself. -/
def text : Value → Bytes
  | null => bytes "<nil>"
  | int n => bytes (toString n)
  | bool b => bytes (if b then "true" else "false")
  | string text => text
  | object ref => bytes ref.type.name

end Value

end Resumable.Machine
