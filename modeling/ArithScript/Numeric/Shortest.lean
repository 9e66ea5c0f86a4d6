import ArithScript.Numeric.Decimal

/-!
The shortest decimal that reads back as a given binary64 number.

For one, two, … seventeen significant digits the two neighbours of the magnitude on that decimal
grid are tried, the nearer one first and of two equally near the even one. The first that rounds
to the number is taken. Seventeen digits are enough for every number; the exact decimal ends the
search, so that the result reads back in any case.
-/
namespace ArithScript.Binary64

def digitCount (n : Nat) : Nat := (Nat.toDigits 10 n).length

/-- The power of ten of the leading digit of `num / den`, for positive arguments. -/
def leadingExponent (num den : Nat) : Int :=
  if den ≤ num then (digitCount (num / den) : Int) - 1 else -(digitCount ((den - 1) / num) : Int)

/-- Whether the decimal rounds to the magnitude of `x`. -/
def readsBack (x : Binary64) (d : Decimal) : Bool := (d.nearest x.negative).code = x.code

/-- The neighbours of the magnitude among the multiples of `10 ^ exponent`, nearer one first. -/
def neighbours (x : Binary64) (exponent : Int) : List Decimal :=
  let num := x.units * Nat.pow 10 (-exponent).toNat
  let den := Nat.pow 2 unitExponent * Nat.pow 10 exponent.toNat
  let near := roundHalfEven num den
  let far := if near = num / den then near + 1 else num / den
  [⟨near, exponent⟩, ⟨far, exponent⟩]

/-- The magnitude itself as a decimal: a unit is `5 ^ 1074 * 10 ^ -1074`. -/
def exactDecimal (x : Binary64) : Decimal := ⟨x.units * Nat.pow 5 unitExponent, -unitExponent⟩

/-- The nearest of the shortest decimals that read back as a finite number, zeros at its end left
out. -/
def shortest (x : Binary64) : Decimal :=
  let lead := leadingExponent x.units (Nat.pow 2 unitExponent)
  let found := (List.range 17).findSome? fun (n : Nat) =>
    (x.neighbours (lead - n)).find? x.readsBack
  (found.getD x.exactDecimal).trim

end ArithScript.Binary64
