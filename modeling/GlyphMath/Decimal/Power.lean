/-!
# Powers of two and ten

* `twoTo` -- a power of two.
* `tenTo` -- a power of ten.
-/

set_option autoImplicit false

namespace GlyphMath.Decimal

def twoTo (n : Nat) : Nat := Nat.pow 2 n

def tenTo (n : Nat) : Nat := Nat.pow 10 n

end GlyphMath.Decimal
