import NetlistCompiler.Word

/-!
# Arithmetic of delays

Delays are added in words of 64 bits, where sums wrap around. What the sums are meant to be is said
by exact arithmetic, and the two agree as long as no sum leaves the range of a word.
-/

namespace NetlistCompiler

/-- How delays are added. -/
inductive Arithmetic where
  | exact
  | word
  deriving Repr, DecidableEq

namespace Arithmetic

/-- What becomes of a sum or a difference. -/
def fit : Arithmetic → Int → Int
  | exact, n => n
  | word, n => (Int64.ofInt n).toInt

@[simp] theorem fit_exact (n : Int) : exact.fit n = n := rfl

theorem fit_of_range (a : Arithmetic) {n : Int} (hmin : minInt64 ≤ n) (hmax : n ≤ maxInt64) :
    a.fit n = n := by
  cases a with
  | exact => rfl
  | word =>
    unfold minInt64 at hmin
    unfold maxInt64 at hmax
    exact Int64.toInt_ofInt_of_le (by omega) (by omega)

/-- The range of a word is not symmetric, but what fits and is not negative fits with the other
sign. -/
theorem fit_neg {a : Arithmetic} {n : Int} (hn : 0 ≤ n) (h : a.fit n = n) : a.fit (-n) = -n := by
  cases a with
  | exact => rfl
  | word =>
    have hmax : n < 2 ^ 63 := h ▸ Int64.toInt_lt (Int64.ofInt n)
    exact Int64.toInt_ofInt_of_le (by omega) (by omega)

end Arithmetic

end NetlistCompiler
