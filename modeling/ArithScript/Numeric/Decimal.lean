import ArithScript.Numeric.Rounding

/-!
Decimal magnitudes `digits * 10 ^ exponent` and the binary64 numbers nearest to them.

The exponent of a numeral may be as large as its text is long, so magnitudes that are certainly
too large or too small to be told from infinity or zero are decided without computing a power of
ten.
-/
namespace ArithScript

/-- The magnitude `digits * 10 ^ exponent`. -/
structure Decimal where
  digits : Nat
  exponent : Int
  deriving DecidableEq

namespace Decimal

def numerator (d : Decimal) : Nat := d.digits * Nat.pow 10 d.exponent.toNat

def denominator (d : Decimal) : Nat := Nat.pow 10 (-d.exponent).toNat

def isHuge (d : Decimal) : Bool := d.digits ≠ 0 && 400 < d.exponent

/-- The magnitude is below `2 ^ -1075`, as `digits < 2 ^ (log2 digits + 1)` and `8 < 10`. -/
def isTiny (d : Decimal) : Bool := d.digits = 0 || d.digits.log2 + 1 + 3 * d.exponent ≤ -1075

def nearest (negative : Bool) (d : Decimal) : Binary64 :=
  if d.isHuge then Binary64.infinity negative
  else if d.isTiny then Binary64.zero negative
  else Binary64.nearest negative d.numerator d.denominator

def trim (d : Decimal) : Decimal :=
  if h : d.digits ≠ 0 ∧ d.digits % 10 = 0 then trim ⟨d.digits / 10, d.exponent + 1⟩ else d
termination_by d.digits
decreasing_by exact Nat.div_lt_self (Nat.pos_of_ne_zero h.1) (by decide)

end Decimal
end ArithScript
