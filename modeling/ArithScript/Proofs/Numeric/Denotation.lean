import ArithScript.Proofs.Numeric.Nearest
import ArithScript.Proofs.Numeric.Notation

/-! The numbers that texts denote: a text is read as a number exactly if it is a sign, which may be
missing, and a numeral, and the number is the rational that the numeral denotes, rounded. -/
namespace ArithScript

theorem zpow_ten_eq (exponent : Int) :
    (10 : ℚ) ^ exponent = 10 ^ exponent.toNat / 10 ^ (-exponent).toNat := by
  have hexp : exponent = (exponent.toNat : Int) - ((-exponent).toNat : Int) := by omega
  rw [← zpow_natCast, ← zpow_natCast, ← zpow_sub₀ (by norm_num), ← hexp]

/-- The magnitude as a rational number. -/
def Decimal.toRat (d : Decimal) : ℚ := d.digits * 10 ^ d.exponent

namespace Decimal

theorem toRat_eq (d : Decimal) : d.toRat = d.numerator / d.denominator := by
  rw [toRat, zpow_ten_eq, numerator, denominator, Nat.cast_mul, cast_natPow, cast_natPow,
    Nat.cast_ofNat, mul_div_assoc]

theorem rounds_toRat_iff {x : Binary64} (d : Decimal) (negative : Bool) :
    x.Rounds d.toRat ↔ x.code = (d.nearest negative).code := by
  rw [toRat_eq, Binary64.rounds_iff _ d.denominator_pos, code_nearest]

end Decimal

namespace Numeral

/-- The rational number that a numeral denotes: what stands before the point, and what stands after
it in units of its last place, times the power of ten. -/
def rational (n : Numeral) : ℚ :=
  (digitsValue n.whole +
    digitsValue (n.fraction.getD []) / 10 ^ (n.fraction.getD []).length) *
      10 ^ n.exponent.elim 0 NumeralExponent.value

theorem toRat_value (n : Numeral) : n.value.toRat = n.rational := by
  have hten : (10 : ℚ) ≠ 0 := by norm_num
  simp only [Decimal.toRat, value, rational, digitsValue_append]
  rw [zpow_sub₀ hten, zpow_natCast, Nat.cast_add, Nat.cast_mul, cast_natPow, Nat.cast_ofNat]
  field_simp

/-- The text is the written form of the numeral, with the sign in front if there is one. -/
structure Spells (n : Numeral) (sign : Option Char) (text : String) : Prop where
  isSign : IsSign sign
  wellFormed : n.WellFormed
  toList_eq : text.toList = sign.toList ++ n.chars

end Numeral

theorem Numeral.Spells.readNumber {n : Numeral} {sign : Option Char} {text : String}
    (h : n.Spells sign text) :
    readNumber text = some (n.value.nearest (sign = some '-')) := by
  rw [← readNumber_chars h.isSign h.wellFormed, ← h.toList_eq, String.ofList_toList]

theorem exists_spells_of_readNumber {text : String} {x : Binary64} (h : readNumber text = some x) :
    ∃ sign n, Numeral.Spells n sign text := by
  have hsign := isSign_scanSign text.toList
  have happend := scanSign_append text.toList
  unfold readNumber at h
  generalize scanSign text.toList = front at *
  obtain ⟨sign, unsigned⟩ := front
  simp only at h happend hsign
  split at h
  · rename_i n hscan
    have hchars := Numeral.scan_append hscan
    rw [List.append_nil] at hchars
    exact ⟨sign, n, hsign, Numeral.scan_wellFormed hscan, by rw [hchars, happend]⟩
  · contradiction

theorem exists_rounds_of_readNumber {text : String} {x : Binary64}
    (h : readNumber text = some x) :
    ∃ sign n, Numeral.Spells n sign text ∧ x.Rounds n.rational ∧
      x.negative = decide (sign = some '-') := by
  obtain ⟨sign, n, hspells⟩ := exists_spells_of_readNumber h
  obtain rfl := Option.some.inj (h.symm.trans hspells.readNumber)
  refine ⟨sign, n, hspells, ?_, Decimal.negative_nearest _ _⟩
  rw [← n.toRat_value]
  exact (Decimal.rounds_toRat_iff _ _).mpr rfl

end ArithScript
