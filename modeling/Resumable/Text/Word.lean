/-!
# Words

Whole numbers of 64 bits with a sign.  Arithmetic that leaves them comes back from the other end.
-/

set_option autoImplicit false

namespace Resumable.Text

/-- How many numbers 64 bits tell apart. -/
def wordCount : Nat := 18446744073709551616

/-- How many of them are negative if there is a sign. -/
def wordHalf : Nat := 9223372036854775808

/-- The number of 64 bits with a sign that differs from `n` by a multiple of how many there
are. -/
def wrap (n : Int) : Int := n.bmod wordCount

end Resumable.Text
