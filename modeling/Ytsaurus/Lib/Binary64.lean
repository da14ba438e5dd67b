/-
# The order of 64-bit floating-point patterns

A double is its 64 bits: sign, 11 bits of exponent, 52 bits of fraction. Patterns that are not NaN
are ordered like their sign and magnitude (`key`), so both zeros are equal; a NaN is not less than
anything and nothing is less than it (`less`). `rank` takes all NaNs as one greatest element.
-/
import Mathlib

namespace Ytsaurus.Lib

/-- The bits of a double. -/
abbrev Binary64 := BitVec 64

namespace Binary64

def isNaN (d : Binary64) : Bool := 0x7ff0000000000000 < d.toNat % 2 ^ 63

/-- The value of a pattern that is not NaN, up to a monotone map. -/
def key (d : Binary64) : ℤ :=
  if d.msb then -((d.toNat % 2 ^ 63 : ℕ) : ℤ) else ((d.toNat % 2 ^ 63 : ℕ) : ℤ)

/-- `operator<` of doubles. -/
def less (a b : Binary64) : Bool := !isNaN a && !isNaN b && decide (key a < key b)

/-- The place of a pattern in the order that has NaN last. -/
def rank (d : Binary64) : WithTop ℤ := if isNaN d then ⊤ else key d

/-- The two zeros. -/
example : rank 0 = rank 0x8000000000000000 := by decide

end Binary64

end Ytsaurus.Lib
