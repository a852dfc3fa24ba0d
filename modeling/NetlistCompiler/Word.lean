/-!
# The ranges of machine words
-/

namespace NetlistCompiler

/-- The largest natural number of 32 bits. -/
def maxNat32 : Nat := 4294967295

/-- The largest natural number of 64 bits. -/
def maxNat64 : Nat := 18446744073709551615

/-- The largest integer of 64 bits. -/
def maxInt64 : Int := 9223372036854775807

/-- The least integer of 64 bits. -/
def minInt64 : Int := -9223372036854775808

/-- Whether an integer fits in 64 bits. -/
def fitsInt64 (n : Int) : Bool :=
  minInt64 ≤ n && n ≤ maxInt64

end NetlistCompiler
