import ArithScript.Numeric.Shortest
import ArithScript.Proofs.Numeric.Rounding

/-! Decimals of one value have one nearest number, and the shortest decimal of a number leads back
to it. -/
namespace ArithScript

theorem pow_le_pow_ten (n : Nat) : Nat.pow 2 (3 * n) ≤ Nat.pow 10 n := by
  have h : Nat.pow 2 (3 * n) = Nat.pow 8 n := Nat.pow_mul 2 3 n
  rw [h]
  exact Nat.pow_le_pow_left (by decide) n

theorem scaled_lt {n l e k : Nat} (hn : n < Nat.pow 2 l) (h : l + (e + 1) ≤ 3 * k) :
    2 * (n * Nat.pow 2 e) < Nat.pow 10 k := by
  have hscale : 2 * Nat.pow 2 e = Nat.pow 2 (e + 1) := Nat.mul_comm ..
  calc 2 * (n * Nat.pow 2 e)
      = n * Nat.pow 2 (e + 1) := by rw [Nat.mul_left_comm, hscale]
    _ < Nat.pow 2 l * Nat.pow 2 (e + 1) :=
      Nat.mul_lt_mul_of_pos_right hn (natPow_pos 2 _ (by decide))
    _ = Nat.pow 2 (l + (e + 1)) := (natPow_add 2 _ _).symm
    _ ≤ Nat.pow 2 (3 * k) := Nat.pow_le_pow_right (by decide) h
    _ ≤ Nat.pow 10 k := pow_le_pow_ten k

namespace Decimal

theorem denominator_pos (d : Decimal) : 0 < d.denominator := natPow_pos 10 _ (by decide)

theorem nearestCode_of_isHuge {d : Decimal} (h : d.isHuge = true) :
    Binary64.nearestCode d.numerator d.denominator = Binary64.infinityCode := by
  obtain ⟨hne, hexp⟩ : d.digits ≠ 0 ∧ 400 < d.exponent := by simpa [isHuge] using h
  have hden : d.denominator = 1 := by
    have hzero : (-d.exponent).toNat = 0 := by omega
    unfold denominator
    rw [hzero]
  have hbig : 1025 ≤ 3 * d.exponent.toNat := by omega
  refine Binary64.nearestCode_huge d.denominator_pos hbig ?_
  rw [hden, Nat.one_mul]
  unfold numerator
  calc Nat.pow 2 (3 * d.exponent.toNat)
      ≤ Nat.pow 10 d.exponent.toNat := pow_le_pow_ten _
    _ ≤ d.digits * Nat.pow 10 d.exponent.toNat :=
      Nat.le_mul_of_pos_left _ (Nat.pos_of_ne_zero hne)

theorem nearestCode_of_isTiny {d : Decimal} (h : d.isTiny = true) :
    Binary64.nearestCode d.numerator d.denominator = 0 := by
  refine Binary64.nearestCode_tiny ?_
  by_cases hz : d.digits = 0
  · have hnum : d.numerator = 0 := by
      unfold numerator
      rw [hz, Nat.zero_mul]
    rw [hnum, Nat.zero_mul]
    exact d.denominator_pos
  · have hexp : d.digits.log2 + 1 + 3 * d.exponent ≤ -1075 := by simpa [isTiny, hz] using h
    have hnum : d.numerator = d.digits := by
      have hzero : d.exponent.toNat = 0 := by omega
      unfold numerator
      rw [hzero]
      exact Nat.mul_one _
    have hlog : d.digits < Nat.pow 2 (d.digits.log2 + 1) := Nat.lt_log2_self
    have hunit : Binary64.unitExponent = 1074 := rfl
    have hbound : d.digits.log2 + 1 + (Binary64.unitExponent + 1) ≤ 3 * (-d.exponent).toNat := by
      omega
    rw [hnum]
    exact scaled_lt hlog hbound

/-- The magnitudes that are decided without a power of ten are decided as all others. -/
theorem code_nearest (negative : Bool) (d : Decimal) :
    (d.nearest negative).code = Binary64.nearestCode d.numerator d.denominator := by
  unfold nearest
  split
  · rename_i h
    exact (nearestCode_of_isHuge h).symm
  · split
    · rename_i h
      exact (nearestCode_of_isTiny h).symm
    · rfl

theorem negative_nearest (negative : Bool) (d : Decimal) :
    (d.nearest negative).negative = negative := by
  unfold nearest
  split
  · rfl
  · split <;> rfl

theorem nearest_eq_iff {d : Decimal} {x : Binary64} {negative : Bool} :
    d.nearest negative = x ↔ (d.nearest negative).code = x.code ∧ negative = x.negative := by
  have hnegative := negative_nearest negative d
  generalize d.nearest negative = y at *
  subst hnegative
  constructor
  · rintro rfl
    exact ⟨rfl, rfl⟩
  · intro h
    obtain ⟨hcode, hsign⟩ := h
    cases x
    cases y
    simp_all

def SameValue (d d' : Decimal) : Prop := d.numerator * d'.denominator = d'.numerator * d.denominator

theorem SameValue.code_nearest {d d' : Decimal} (h : d.SameValue d') (negative : Bool) :
    (d.nearest negative).code = (d'.nearest negative).code := by
  rw [Decimal.code_nearest, Decimal.code_nearest]
  exact Binary64.nearestCode_congr d.denominator_pos d'.denominator_pos h

theorem SameValue.trans {d d' d'' : Decimal} (h : d.SameValue d') (h' : d'.SameValue d'') :
    d.SameValue d'' := by
  refine Nat.eq_of_mul_eq_mul_right d'.denominator_pos ?_
  calc d.numerator * d''.denominator * d'.denominator
      = d.numerator * d'.denominator * d''.denominator := Nat.mul_right_comm ..
    _ = d'.numerator * d.denominator * d''.denominator := by rw [h]
    _ = d'.numerator * d''.denominator * d.denominator := Nat.mul_right_comm ..
    _ = d''.numerator * d'.denominator * d.denominator := by rw [h']
    _ = d''.numerator * d.denominator * d'.denominator := Nat.mul_right_comm ..

theorem sameValue_shift (n k : Nat) (exponent : Int) :
    SameValue ⟨n * Nat.pow 10 k, exponent⟩ ⟨n, exponent + k⟩ := by
  have hexp : k + exponent.toNat + (-(exponent + k)).toNat =
      (exponent + k).toNat + (-exponent).toNat := by omega
  unfold SameValue numerator denominator
  simp only
  rw [Nat.mul_assoc, Nat.mul_assoc, ← natPow_add, Nat.mul_assoc, ← natPow_add, ← natPow_add,
    ← Nat.add_assoc, hexp]

theorem trim_eq (d : Decimal) :
    ∃ n k, d.digits = n * Nat.pow 10 k ∧ d.trim = ⟨n, d.exponent + (k : Nat)⟩ := by
  fun_induction trim d with
  | case1 d h ih =>
    obtain ⟨n, k, hdigits, htrim⟩ := ih
    refine ⟨n, k + 1, ?_, ?_⟩
    · have hdiv := Nat.div_mul_cancel (Nat.dvd_of_mod_eq_zero h.2)
      have hpow : Nat.pow 10 (k + 1) = Nat.pow 10 k * 10 := rfl
      rw [← hdiv, hpow, ← Nat.mul_assoc, ← hdigits]
    · rw [htrim]
      simp only [Decimal.mk.injEq, true_and]
      omega
  | case2 d h => exact ⟨d.digits, 0, (Nat.mul_one _).symm, by simp⟩

theorem sameValue_trim (d : Decimal) : d.SameValue d.trim := by
  obtain ⟨n, k, hdigits, htrim⟩ := d.trim_eq
  rw [htrim]
  have h := sameValue_shift n k d.exponent
  rw [← hdigits] at h
  exact h

theorem numerator_of_units (n e : Nat) :
    numerator ⟨n * Nat.pow 5 e, -(e : Int)⟩ * Nat.pow 2 e =
      n * denominator ⟨n * Nat.pow 5 e, -(e : Int)⟩ := by
  have hten : Nat.pow 10 e = Nat.pow 5 e * Nat.pow 2 e := Nat.mul_pow 5 2 e
  have hzero : (-(e : Int)).toNat = 0 := by omega
  have hexp : (- -(e : Int)).toNat = e := by omega
  unfold numerator denominator
  simp only
  have hone : Nat.pow 10 0 = 1 := rfl
  rw [hzero, hexp, hten, hone, Nat.mul_one]
  exact Nat.mul_assoc _ _ _

end Decimal

namespace Binary64

theorem code_nearest_exactDecimal {x : Binary64} (hx : x.isFinite = true) :
    (x.exactDecimal.nearest x.negative).code = x.code := by
  have hexact := Decimal.numerator_of_units x.units unitExponent
  rw [Decimal.code_nearest]
  unfold exactDecimal
  exact nearestCode_exact hx (Decimal.denominator_pos _) hexact

/-- What the search for short decimals finds reads back, and so does what is taken otherwise. -/
theorem code_nearest_shortest {x : Binary64} (hx : x.isFinite = true) :
    (x.shortest.nearest x.negative).code = x.code := by
  unfold shortest
  generalize leadingExponent x.units (Nat.pow 2 unitExponent) = lead
  simp only
  rw [← (Decimal.sameValue_trim _).code_nearest]
  cases hfound : (List.range 17).findSome? fun (n : Nat) =>
    (x.neighbours (lead - n)).find? x.readsBack with
  | none => exact code_nearest_exactDecimal hx
  | some d =>
    obtain ⟨n, -, hn⟩ := List.exists_of_findSome?_eq_some hfound
    have hback : x.readsBack d = true := List.find?_some hn
    rw [readsBack, decide_eq_true_eq] at hback
    exact hback

end Binary64
end ArithScript
