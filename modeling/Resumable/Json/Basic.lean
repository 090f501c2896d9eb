import Resumable.Text.Bytes

/-!
# JSON values

The values that configuration files hold and reports are written as.  A number keeps its
spelling, and a text its octets.
-/

set_option autoImplicit false

namespace Resumable

open Resumable.Text

/-- A JSON value. -/
inductive Json where
  | null
  | bool (b : Bool)
  | number (spelling : String)
  | string (text : Bytes)
  | array (items : List Json)
  | object (fields : List (String × Json))
  deriving Inhabited

namespace Json

/-- A whole number. -/
def int (n : Int) : Json := number (toString n)

/-- A text of characters. -/
def text (s : String) : Json := string (bytes s)

end Json

end Resumable
