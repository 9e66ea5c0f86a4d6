import ArithScript.Numeric.Decimal

/-! Rounding depends on the value of a quotient alone, and it gives back what is exact. -/
namespace ArithScript

theorem roundHalfEven_mul {k : Nat} (hk : 0 < k) (num den : Nat) :
    roundHalfEven (k * num) (k * den) = roundHalfEven num den := by
  have hlow : 2 * (k * (num % den)) < k * den ↔ 2 * (num % den) < den := by
    rw [Nat.mul_left_comm]
    exact Nat.mul_lt_mul_left hk
  have hhigh : k * den < 2 * (k * (num % den)) ↔ den < 2 * (num % den) := by
    rw [Nat.mul_left_comm]
    exact Nat.mul_lt_mul_left hk
  unfold roundHalfEven
  rw [Nat.mul_div_mul_left num den hk, Nat.mul_mod_mul_left]
  simp only [hlow, hhigh]

theorem roundHalfEven_exact {den : Nat} (hden : 0 < den) (n : Nat) :
    roundHalfEven (n * den) den = n := by
  unfold roundHalfEven
  rw [Nat.mul_div_cancel n hden, Nat.mul_mod_left]
  simp [hden]

theorem roundHalfEven_zero {num den : Nat} (h : 2 * num < den) : roundHalfEven num den = 0 := by
  have hlt : num < den := by omega
  unfold roundHalfEven
  rw [Nat.div_eq_of_lt hlt, Nat.mod_eq_of_lt hlt]
  simp [h]

theorem natPow_pos (b n : Nat) (hb : 0 < b) : 0 < Nat.pow b n := Nat.pow_pos hb

theorem natPow_add (b m n : Nat) : Nat.pow b (m + n) = Nat.pow b m * Nat.pow b n := Nat.pow_add b m n

namespace Binary64

theorem nearestCode_mul {k : Nat} (hk : 0 < k) (num den : Nat) :
    nearestCode (k * num) (k * den) = nearestCode num den := by
  unfold nearestCode
  simp only [Nat.mul_assoc k]
  rw [Nat.mul_div_mul_left _ _ hk, roundHalfEven_mul hk]

theorem nearestCode_congr {num den num' den' : Nat} (hden : 0 < den) (hden' : 0 < den')
    (h : num * den' = num' * den) : nearestCode num den = nearestCode num' den' := by
  calc nearestCode num den
      = nearestCode (den' * num) (den' * den) := (nearestCode_mul hden' num den).symm
    _ = nearestCode (den * num') (den * den') := by
      rw [Nat.mul_comm den' num, Nat.mul_comm den num', h, Nat.mul_comm den' den]
    _ = nearestCode num' den' := nearestCode_mul hden num' den'

theorem log2_normal {m : Nat} (e : Nat) (hm : m < Nat.pow 2 52) :
    ((Nat.pow 2 52 + m) * Nat.pow 2 e).log2 = 52 + e := by
  have hpos := natPow_pos 2 e (by decide)
  have hne : (Nat.pow 2 52 + m) * Nat.pow 2 e ≠ 0 := Nat.ne_of_gt (Nat.mul_pos (by omega) hpos)
  have hpow : Nat.pow 2 (52 + e) = Nat.pow 2 52 * Nat.pow 2 e := natPow_add 2 52 e
  have hnext : Nat.pow 2 (52 + e + 1) = Nat.pow 2 (52 + e) * 2 := rfl
  refine (Nat.log2_eq_iff hne).mpr ⟨?_, ?_⟩
  · change Nat.pow 2 (52 + e) ≤ _
    rw [hpow]
    exact Nat.mul_le_mul_right _ (Nat.le_add_right _ _)
  · change _ < Nat.pow 2 (52 + e + 1)
    rw [hnext, hpow, Nat.mul_right_comm]
    exact Nat.mul_lt_mul_of_pos_right (by omega) hpos

/-- The shift that puts the units of a magnitude on its grid, and what they are there. -/
theorem units_eq (x : Binary64) :
    ∃ shift significand, x.units = significand * Nat.pow 2 shift ∧
      x.units.log2 - 52 = shift ∧ x.code = shift * Nat.pow 2 52 + significand := by
  unfold units
  split
  · rename_i h
    refine ⟨0, x.code, (Nat.mul_one _).symm, ?_, by rw [Nat.zero_mul, Nat.zero_add]⟩
    by_cases hz : x.code = 0
    · rw [hz]
      rfl
    · have hlt : x.code.log2 < 52 := (Nat.log2_lt hz).mpr h
      omega
  · rename_i h
    have hpos : 0 < Nat.pow 2 52 := natPow_pos 2 52 (by decide)
    have hmod := Nat.mod_lt x.code hpos
    have hdiv := Nat.div_add_mod x.code (Nat.pow 2 52)
    have hexp : 1 ≤ x.code / Nat.pow 2 52 :=
      (Nat.one_le_div_iff hpos).mpr (Nat.le_of_not_lt h)
    obtain ⟨e, he⟩ : ∃ e, x.code / Nat.pow 2 52 = e + 1 := ⟨_, (Nat.sub_add_cancel hexp).symm⟩
    rw [he] at hdiv ⊢
    refine ⟨e, Nat.pow 2 52 + x.code % Nat.pow 2 52, rfl, ?_, ?_⟩
    · rw [Nat.add_sub_cancel, log2_normal e hmod]
      omega
    · rw [Nat.mul_add, Nat.mul_one, Nat.mul_comm] at hdiv
      omega

theorem nearestCode_exact {x : Binary64} (hx : x.isFinite = true) {num den : Nat} (hden : 0 < den)
    (h : num * Nat.pow 2 unitExponent = x.units * den) : nearestCode num den = x.code := by
  obtain ⟨shift, significand, hunits, hshift, hcode⟩ := x.units_eq
  have hlt : x.code < infinityCode := of_decide_eq_true hx
  have hpos := natPow_pos 2 shift (by decide)
  unfold nearestCode
  simp only
  rw [h, Nat.mul_div_cancel _ hden, hshift]
  have hround : roundHalfEven (x.units * den) (den * Nat.pow 2 shift) = significand := by
    rw [hunits, Nat.mul_assoc, Nat.mul_comm (Nat.pow 2 shift) den]
    exact roundHalfEven_exact (Nat.mul_pos hden hpos) significand
  rw [hround, ← hcode]
  exact Nat.min_eq_left (Nat.le_of_lt hlt)

theorem nearestCode_le (num den : Nat) : nearestCode num den ≤ infinityCode := Nat.min_le_right _ _

theorem nearestCode_tiny {num den : Nat} (h : 2 * (num * Nat.pow 2 unitExponent) < den) :
    nearestCode num den = 0 := by
  have hlt : num * Nat.pow 2 unitExponent < den := by omega
  unfold nearestCode
  simp only
  have hone : den * Nat.pow 2 (Nat.log2 0 - 52) = den := Nat.mul_one den
  rw [Nat.div_eq_of_lt hlt, hone, roundHalfEven_zero h]
  rfl

theorem pow_le_div {num den k : Nat} (hden : 0 < den) (h : den * Nat.pow 2 k ≤ num) (e : Nat) :
    Nat.pow 2 (k + e) ≤ num * Nat.pow 2 e / den := by
  rw [Nat.le_div_iff_mul_le hden, natPow_add, Nat.mul_right_comm, Nat.mul_comm _ den]
  exact Nat.mul_le_mul_right _ h

theorem nearestCode_huge {num den k : Nat} (hden : 0 < den) (hk : 1025 ≤ k)
    (h : den * Nat.pow 2 k ≤ num) : nearestCode num den = infinityCode := by
  have hunit : unitExponent = 1074 := rfl
  have hquot := pow_le_div hden h unitExponent
  have hne : num * Nat.pow 2 unitExponent / den ≠ 0 :=
    Nat.ne_of_gt (Nat.lt_of_lt_of_le (natPow_pos 2 _ (by decide)) hquot)
  have hlog : k + unitExponent ≤ (num * Nat.pow 2 unitExponent / den).log2 :=
    (Nat.le_log2 hne).mpr hquot
  have hshift : 2047 ≤ (num * Nat.pow 2 unitExponent / den).log2 - 52 := by omega
  unfold nearestCode
  simp only
  refine Nat.min_eq_right ?_
  exact Nat.le_trans (Nat.mul_le_mul_right _ hshift) (Nat.le_add_right _ _)

end Binary64
end ArithScript
