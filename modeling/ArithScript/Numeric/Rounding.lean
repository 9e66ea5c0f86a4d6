import ArithScript.Numeric.Binary64

/-!
Rounding of a quotient of naturals to the nearest binary64 magnitude, a half to the even code.

From each power of two to the next, codes grow by one as the magnitude grows by a fixed power of
two of units, and below `2 ^ 53` units the code is the number of units. So rounding a quotient
means to divide by the right power of two, to round to a whole number, and to add the codes of the
steps below.
-/
namespace ArithScript

/-- The natural number nearest to `num / den`, the even one of two that are equally near. -/
def roundHalfEven (num den : Nat) : Nat :=
  let quotient := num / den
  let remainder := num % den
  if 2 * remainder < den then quotient
  else if den < 2 * remainder then quotient + 1
  else quotient + quotient % 2

namespace Binary64

/-- The code of the magnitude nearest to `num / den`; from half a step beyond the largest finite
magnitude on it is that of infinity. -/
def nearestCode (num den : Nat) : Nat :=
  let scaled := num * Nat.pow 2 unitExponent
  let shift := (scaled / den).log2 - 52
  min (shift * Nat.pow 2 52 + roundHalfEven scaled (den * Nat.pow 2 shift)) infinityCode

theorem nearestCode_lt (num den : Nat) : nearestCode num den < Nat.pow 2 63 :=
  Nat.lt_of_le_of_lt (Nat.min_le_right _ _) (by decide)

def nearest (negative : Bool) (num den : Nat) : Binary64 :=
  ⟨negative, nearestCode num den, nearestCode_lt num den⟩

end Binary64
end ArithScript
