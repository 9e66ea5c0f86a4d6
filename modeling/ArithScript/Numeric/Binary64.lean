/-!
Binary64 numbers: a sign and a 63-bit code of the magnitude.

Codes grow with the magnitude. The code counts the representable magnitudes from zero up, then
comes infinity, then the codes that stand for no number. A finite magnitude is a whole number of
units of `2 ^ -1074`, the least positive magnitude, so no fraction is needed to state its value.
-/
namespace ArithScript

/-- A binary64 number, infinities and the non-numbers included. -/
structure Binary64 where
  negative : Bool
  code : Nat
  code_lt : code < Nat.pow 2 63
  deriving DecidableEq

namespace Binary64

def infinityCode : Nat := 2047 * Nat.pow 2 52

/-- The exponent of two that turns the value one into units of the least magnitude. -/
def unitExponent : Nat := 1074

/-- The magnitude in units of `2 ^ -1074`, for a finite number. -/
def units (x : Binary64) : Nat :=
  if x.code < Nat.pow 2 52 then x.code
  else (Nat.pow 2 52 + x.code % Nat.pow 2 52) * Nat.pow 2 (x.code / Nat.pow 2 52 - 1)

def isFinite (x : Binary64) : Bool := x.code < infinityCode
def isInfinite (x : Binary64) : Bool := x.code = infinityCode
def isNaN (x : Binary64) : Bool := infinityCode < x.code
def isZero (x : Binary64) : Bool := x.code = 0

/-- A finite number without fractional part. -/
def isWhole (x : Binary64) : Bool := x.isFinite && x.units % Nat.pow 2 unitExponent = 0

/-- The magnitude without its fractional part, for a finite number. -/
def wholePart (x : Binary64) : Nat := x.units / Nat.pow 2 unitExponent

def zero (negative : Bool) : Binary64 := ⟨negative, 0, by decide⟩
def infinity (negative : Bool) : Binary64 := ⟨negative, infinityCode, by decide⟩

/-- The number of the 64 bits `bits`, sign first. -/
def ofBits (bits : Nat) : Binary64 where
  negative := bits / Nat.pow 2 63 % 2 = 1
  code := bits % Nat.pow 2 63
  code_lt := Nat.mod_lt _ (by decide)

def bits (x : Binary64) : Nat := (if x.negative then Nat.pow 2 63 else 0) + x.code

theorem ofBits_bits (x : Binary64) : ofBits x.bits = x := by
  obtain ⟨negative, code, code_lt⟩ := x
  have quotient : code / Nat.pow 2 63 = 0 := Nat.div_eq_of_lt code_lt
  have remainder : code % Nat.pow 2 63 = code := Nat.mod_eq_of_lt code_lt
  have shifted : (Nat.pow 2 63 + code) / Nat.pow 2 63 = code / Nat.pow 2 63 + 1 :=
    Nat.add_div_left code (by decide)
  cases negative with
  | false =>
    have plain : bits ⟨false, code, code_lt⟩ = code := Nat.zero_add code
    simp only [ofBits, plain, quotient, remainder]
    rfl
  | true =>
    have signed : bits ⟨true, code, code_lt⟩ = Nat.pow 2 63 + code := rfl
    simp only [ofBits, signed, shifted, quotient, Nat.add_mod_left, remainder]
    rfl

/-- Equality of values: both zeros are equal, and no non-number equals anything. -/
def sameValue (x y : Binary64) : Bool :=
  !x.isNaN && !y.isNaN && (x = y || x.isZero && y.isZero)

end Binary64
end ArithScript
