import Mathlib.Algebra.Order.Field.Power
import ArithScript.Proofs.Numeric.Denotation

/-! The shortest decimal of a finite number. Seventeen digits are enough to read the number back, no
decimal with fewer digits than the one found is read back, and none with as few is nearer. -/
namespace ArithScript

namespace Decimal

theorem code_nearest_mono {d d' : Decimal} (h : d.toRat ≤ d'.toRat) (negative : Bool) :
    (d.nearest negative).code ≤ (d'.nearest negative).code := by
  rw [toRat_eq, toRat_eq] at h
  rw [code_nearest, code_nearest]
  exact Binary64.nearestCode_mono d.denominator_pos d'.denominator_pos h

theorem toRat_mk (digits : Nat) (exponent : Int) :
    toRat ⟨digits, exponent⟩ = digits * 10 ^ exponent := rfl

theorem SameValue.toRat_eq {d d' : Decimal} (h : d.SameValue d') : d.toRat = d'.toRat := by
  have hpos : (d.denominator : ℚ) ≠ 0 := Nat.cast_ne_zero.mpr (Nat.ne_of_gt d.denominator_pos)
  have hpos' : (d'.denominator : ℚ) ≠ 0 := Nat.cast_ne_zero.mpr (Nat.ne_of_gt d'.denominator_pos)
  rw [Decimal.toRat_eq, Decimal.toRat_eq, div_eq_div_iff hpos hpos']
  exact_mod_cast h

theorem trim_digits (d : Decimal) : d.trim.digits = 0 ∨ d.trim.digits % 10 ≠ 0 := by
  fun_induction trim d with
  | case1 d h ih => exact ih
  | case2 d h => omega

end Decimal

namespace Binary64

theorem digitCount_le_iff {n k : Nat} (hk : 0 < k) : digitCount n ≤ k ↔ n < 10 ^ k :=
  Nat.length_toDigits_le_iff (by decide) hk

theorem digitCount_pos (n : Nat) : 0 < digitCount n := Nat.length_toDigits_pos

theorem exists_digitCount {n : Nat} (hn : 0 < n) :
    ∃ k, digitCount n = k + 1 ∧ 10 ^ k ≤ n ∧ n < 10 ^ (k + 1) := by
  obtain ⟨k, hk⟩ := Nat.exists_eq_add_one.mpr (digitCount_pos n)
  refine ⟨k, hk, ?_, (digitCount_le_iff (Nat.succ_pos k)).mp hk.le⟩
  rcases Nat.eq_zero_or_pos k with rfl | hpos
  · exact hn
  · by_contra hlt
    have hle := (digitCount_le_iff hpos).mpr (Nat.not_le.mp hlt)
    omega

/-- Trimming does not leave more digits than a bound that the digits only reach with a power of
ten. -/
theorem digitCount_trim_le {d : Decimal} {k : Nat} (hk : 0 < k) (h : d.digits ≤ 10 ^ k) :
    digitCount d.trim.digits ≤ k := by
  obtain ⟨n, j, hdigits, htrim⟩ := d.trim_eq
  have hlast := d.trim_digits
  rw [htrim] at hlast ⊢
  simp only at hlast ⊢
  have hle : n ≤ 10 ^ k := by
    have hpos := natPow_pos 10 j (by decide)
    exact (Nat.le_mul_of_pos_right n hpos).trans (hdigits ▸ h)
  rw [digitCount_le_iff hk]
  refine Nat.lt_of_le_of_ne hle ?_
  rintro rfl
  have hten : 10 ∣ 10 ^ k := dvd_pow_self 10 (by omega)
  have hpos : 0 < 10 ^ k := Nat.pow_pos (by decide)
  omega

theorem leadingExponent_spec {num den : Nat} (hnum : 0 < num) (hden : 0 < den) :
    (10 : ℚ) ^ leadingExponent num den ≤ num / den ∧
      (num : ℚ) / den < 10 ^ (leadingExponent num den + 1) := by
  have hq : (0 : ℚ) < den := Nat.cast_pos.mpr hden
  have hp : (0 : ℚ) < num := Nat.cast_pos.mpr hnum
  unfold leadingExponent
  split
  · rename_i hle
    obtain ⟨k, hk, hlow, hhigh⟩ := exists_digitCount (Nat.div_pos hle hden)
    have hlow' : 10 ^ k * den ≤ num := (Nat.le_div_iff_mul_le hden).mp hlow
    have hhigh' : num < 10 ^ (k + 1) * den := (Nat.div_lt_iff_lt_mul hden).mp hhigh
    rw [hk, Nat.cast_succ, add_sub_cancel_right, ← Nat.cast_succ, zpow_natCast, zpow_natCast,
      le_div_iff₀ hq, div_lt_iff₀ hq]
    exact ⟨by exact_mod_cast hlow', by exact_mod_cast hhigh'⟩
  · rename_i hlt
    obtain ⟨k, hk, hlow, hhigh⟩ :=
      exists_digitCount (n := (den - 1) / num) (Nat.div_pos (by omega) hnum)
    have hlow' : 10 ^ k * num < den := by
      have := (Nat.le_div_iff_mul_le hnum).mp hlow
      omega
    have hhigh' : den ≤ 10 ^ (k + 1) * num := by
      have := (Nat.div_lt_iff_lt_mul hnum).mp hhigh
      omega
    have hexp : -((k + 1 : Nat) : Int) + 1 = -(k : Nat) := by omega
    rw [hk, hexp, zpow_neg, zpow_neg, zpow_natCast, zpow_natCast, le_div_iff₀ hq, div_lt_iff₀ hq,
      inv_mul_le_iff₀ (by positivity), lt_inv_mul_iff₀ (by positivity)]
    exact ⟨by exact_mod_cast hhigh', by exact_mod_cast hlow'⟩

variable {x : Binary64} {d : Decimal}

def lead (x : Binary64) : Int := leadingExponent x.units (Nat.pow 2 unitExponent)

theorem units_pos (hz : x.isZero = false) : 0 < x.units := by
  have hcode : x.code ≠ 0 := of_decide_eq_false hz
  have h := scale_strictMono (Nat.pos_of_ne_zero hcode)
  rw [units_eq_scale]
  omega

theorem unit_pos : 0 < Nat.pow 2 unitExponent := by
  generalize unitExponent = n
  exact natPow_pos 2 n (by decide)

theorem magnitude_eq (x : Binary64) :
    x.magnitude = (x.units : ℚ) / (Nat.pow 2 unitExponent : Nat) := by
  unfold magnitude
  generalize unitExponent = n
  exact congrArg _ (cast_natPow 2 n).symm

theorem lead_spec (hz : x.isZero = false) :
    (10 : ℚ) ^ x.lead ≤ x.magnitude ∧ x.magnitude < 10 ^ (x.lead + 1) := by
  rw [magnitude_eq, lead]
  exact leadingExponent_spec (units_pos hz) unit_pos

/-- The steps between which a magnitude lies on a decimal grid, and the nearer of the two. -/
structure Between (q : ℚ) (exponent : Int) (floor near far : Nat) : Prop where
  sides : near = floor ∧ far = floor + 1 ∨ near = floor + 1 ∧ far = floor
  floor_le : Decimal.toRat ⟨floor, exponent⟩ ≤ q
  lt_next : q < Decimal.toRat ⟨floor + 1, exponent⟩
  nearer : |Decimal.toRat ⟨near, exponent⟩ - q| ≤ |Decimal.toRat ⟨far, exponent⟩ - q|

theorem abs_toRat_sub (digits : Nat) (exponent : Int) (v : ℚ) :
    |Decimal.toRat ⟨digits, exponent⟩ - v * 10 ^ exponent| = |(digits : ℚ) - v| * 10 ^ exponent := by
  have hpos : (0 : ℚ) < 10 ^ exponent := by positivity
  rw [Decimal.toRat_mk, ← sub_mul, abs_mul, abs_of_pos hpos]

theorem div_eq_add_rem (num : Nat) {den : Nat} (hden : 0 < den) :
    (num : ℚ) / den = (num / den : Nat) + (num % den : Nat) / den := by
  have hq : (0 : ℚ) < den := Nat.cast_pos.mpr hden
  have hdiv : ((den * (num / den) + num % den : Nat) : ℚ) = num := by rw [Nat.div_add_mod]
  rw [← hdiv, Nat.cast_add, Nat.cast_mul]
  field_simp

theorem between_of_quotient (num : Nat) {den : Nat} (hden : 0 < den) (exponent : Int) :
    Between (num / den * 10 ^ exponent) exponent (num / den) (roundHalfEven num den)
      (if roundHalfEven num den = num / den then roundHalfEven num den + 1 else num / den) := by
  have hq : (0 : ℚ) < den := Nat.cast_pos.mpr hden
  have hstep : (0 : ℚ) < 10 ^ exponent := by positivity
  have hround := roundHalfEven_cases num den
  have hrem : ((num % den : Nat) : ℚ) < den := Nat.cast_lt.mpr (Nat.mod_lt num hden)
  have hsides : roundHalfEven num den = num / den ∨ roundHalfEven num den = num / den + 1 := by omega
  rw [div_eq_add_rem num hden]
  generalize roundHalfEven num den = near at *
  generalize num / den = floor at *
  generalize num % den = r at *
  have hnonneg : (0 : ℚ) ≤ r / den := by positivity
  have hlt : (r : ℚ) / den < 1 := (div_lt_one hq).mpr hrem
  refine ⟨?_, ?_, ?_, ?_⟩
  · rcases hsides with rfl | rfl <;> simp
  · exact mul_le_mul_of_nonneg_right (by linarith) hstep.le
  · refine mul_lt_mul_of_pos_right ?_ hstep
    rw [Nat.cast_succ]
    linarith
  · rw [abs_toRat_sub, abs_toRat_sub]
    refine mul_le_mul_of_nonneg_right ?_ hstep.le
    rcases hsides with rfl | rfl
    · have hhalf : 2 * ((r : ℚ) / den) ≤ 1 := by
        have hcast : (2 * r : ℚ) ≤ den := by exact_mod_cast (by omega : 2 * r ≤ den)
        rw [← mul_div_assoc, div_le_one hq]
        exact hcast
      rw [if_pos rfl, Nat.cast_succ, abs_of_nonpos (by linarith), abs_of_nonneg (by linarith)]
      linarith
    · have hhalf : 1 ≤ 2 * ((r : ℚ) / den) := by
        have hcast : (den : ℚ) ≤ 2 * r := by exact_mod_cast (by omega : den ≤ 2 * r)
        rw [← mul_div_assoc, one_le_div hq]
        exact hcast
      rw [if_neg (by omega), Nat.cast_succ, abs_of_nonneg (by linarith), abs_of_nonpos (by linarith)]
      linarith

theorem exists_between (x : Binary64) (exponent : Int) :
    ∃ floor near far, x.neighbours exponent = [⟨near, exponent⟩, ⟨far, exponent⟩] ∧
      Between x.magnitude exponent floor near far := by
  have hden : 0 < Nat.pow 2 unitExponent * Nat.pow 10 exponent.toNat :=
    Nat.mul_pos unit_pos (natPow_pos 10 _ (by decide))
  have h := between_of_quotient (x.units * Nat.pow 10 (-exponent).toNat) hden exponent
  have hgrid : ((x.units * Nat.pow 10 (-exponent).toNat : Nat) : ℚ) /
      (Nat.pow 2 unitExponent * Nat.pow 10 exponent.toNat : Nat) * 10 ^ exponent = x.magnitude := by
    have hten (n : Nat) : (10 : ℚ) ^ n ≠ 0 := by positivity
    rw [magnitude_eq, zpow_ten_eq, Nat.cast_mul, Nat.cast_mul, cast_natPow 10, cast_natPow 10,
      Nat.cast_ofNat]
    generalize ((Nat.pow 2 unitExponent : Nat) : ℚ) = unit
    field_simp [hten exponent.toNat, hten (-exponent).toNat]
  rw [hgrid] at h
  exact ⟨_, _, _, rfl, h⟩

theorem readsBack_iff : x.readsBack d = true ↔ d.nearest x.negative = x := by
  rw [readsBack, decide_eq_true_eq, Decimal.nearest_eq_iff, and_iff_left rfl]

theorem readsBack_iff_code : x.readsBack d = true ↔ (d.nearest x.negative).code = x.code := by
  rw [readsBack, decide_eq_true_eq]

theorem toRat_exactDecimal (x : Binary64) : x.exactDecimal.toRat = x.magnitude := by
  have hunit : (Nat.pow 2 unitExponent : ℚ) ≠ 0 := Nat.cast_ne_zero.mpr unit_pos.ne'
  have hden : (x.exactDecimal.denominator : ℚ) ≠ 0 :=
    Nat.cast_ne_zero.mpr x.exactDecimal.denominator_pos.ne'
  have hexact := Decimal.numerator_of_units x.units unitExponent
  rw [Decimal.toRat_eq, magnitude_eq, div_eq_div_iff hden hunit]
  exact_mod_cast hexact

theorem readsBack_of_between (hx : x.isFinite = true) (hd : x.readsBack d = true) {c : Decimal}
    (h : d.toRat ≤ c.toRat ∧ c.toRat ≤ x.magnitude ∨
      x.magnitude ≤ c.toRat ∧ c.toRat ≤ d.toRat) : x.readsBack c = true := by
  have hself := code_nearest_exactDecimal hx
  rw [readsBack_iff_code] at hd ⊢
  rw [← x.toRat_exactDecimal] at h
  rcases h with ⟨hleft, hright⟩ | ⟨hleft, hright⟩
  · have hlow := Decimal.code_nearest_mono hleft x.negative
    have hhigh := Decimal.code_nearest_mono hright x.negative
    exact Nat.le_antisymm (hhigh.trans_eq hself) (hd.symm.trans_le hlow)
  · have hlow := Decimal.code_nearest_mono hleft x.negative
    have hhigh := Decimal.code_nearest_mono hright x.negative
    exact Nat.le_antisymm (hhigh.trans_eq hd) (hself.symm.trans_le hlow)

/-- No decimal of `n + 1` digits lies strictly between the steps around a magnitude whose leading digit
is `n` places before the grid: the decimal is on the grid, or it has not even the leading digit. -/
theorem grid_separates {q : ℚ} {lead : Int} (hlead : 10 ^ lead ≤ q) {n floor : Nat}
    (hdigits : d.digits < 10 ^ (n + 1)) (hfloor : q < Decimal.toRat ⟨floor + 1, lead - n⟩) :
    d.toRat ≤ Decimal.toRat ⟨floor, lead - n⟩ ∨
      Decimal.toRat ⟨floor + 1, lead - n⟩ ≤ d.toRat := by
  have hstep : (0 : ℚ) < 10 ^ (lead - n) := by positivity
  have hten : (10 : ℚ) ≠ 0 := by norm_num
  have hwhole : (10 : ℚ) ^ lead = (10 ^ n : Nat) * 10 ^ (lead - n) := by
    rw [Nat.cast_pow, ← zpow_natCast, Nat.cast_ofNat, ← zpow_add₀ hten]
    congr 1
    omega
  rw [Decimal.toRat_mk (floor + 1)] at hfloor
  rw [Decimal.toRat_mk floor, Decimal.toRat_mk (floor + 1)]
  rcases lt_or_ge d.toRat (10 ^ lead) with hbelow | habove
  · left
    -- below the leading digit lies a point of the grid, and the floor is no less
    have hlt : ((10 ^ n : Nat) : ℚ) < (floor + 1 : Nat) := by
      rw [hwhole] at hlead
      exact lt_of_mul_lt_mul_right (hlead.trans_lt hfloor) hstep.le
    have hle : ((10 ^ n : Nat) : ℚ) ≤ floor := by exact_mod_cast Nat.lt_succ_iff.mp (Nat.cast_lt.mp hlt)
    rw [hwhole] at hbelow
    exact hbelow.le.trans (mul_le_mul_of_nonneg_right hle hstep.le)
  · have hexp : lead - n ≤ d.exponent := by
      have hpow : (10 : ℚ) ^ lead < 10 ^ ((n + 1 : Nat) + d.exponent) := by
        have hcast : (d.digits : ℚ) < 10 ^ (n + 1) := by exact_mod_cast hdigits
        have hscale : (0 : ℚ) < 10 ^ d.exponent := by positivity
        rw [zpow_add₀ hten, zpow_natCast]
        exact habove.trans_lt (mul_lt_mul_of_pos_right hcast hscale)
      have hlt := (zpow_lt_zpow_iff_right₀ (by norm_num)).mp hpow
      omega
    -- a decimal of as many digits from the leading one on is itself a point of the grid
    obtain ⟨j, hj⟩ := Int.le.dest hexp
    have hgrid : d.toRat = (d.digits * 10 ^ j : Nat) * 10 ^ (lead - n) := by
      rw [Decimal.toRat, ← hj, zpow_add₀ hten, zpow_natCast, Nat.cast_mul, Nat.cast_pow,
        Nat.cast_ofNat]
      ring
    rw [hgrid]
    rcases Nat.lt_or_ge floor (d.digits * 10 ^ j) with hlt | hge
    · exact .inr (mul_le_mul_of_nonneg_right (Nat.cast_le.mpr hlt) hstep.le)
    · exact .inl (mul_le_mul_of_nonneg_right (Nat.cast_le.mpr hge) hstep.le)

/-- If a decimal of `n + 1` digits is read as the number, then so is a neighbour on the grid with as
many digits, which is as near. -/
theorem exists_neighbour (hx : x.isFinite = true) (hz : x.isZero = false)
    (hd : x.readsBack d = true) {n floor near far : Nat} (hdigits : d.digits < 10 ^ (n + 1))
    (h : Between x.magnitude (x.lead - n) floor near far) :
    ∃ c : Nat, (c = near ∨ c = far) ∧ x.readsBack ⟨c, x.lead - n⟩ = true ∧
      |Decimal.toRat ⟨c, x.lead - n⟩ - x.magnitude| ≤ |d.toRat - x.magnitude| := by
  have hsides := h.sides
  have hlow := h.floor_le
  have hhigh := h.lt_next
  rcases grid_separates (lead_spec hz).1 hdigits hhigh with hleft | hright
  · refine ⟨floor, by omega, readsBack_of_between hx hd (.inl ⟨hleft, hlow⟩), ?_⟩
    rw [abs_of_nonpos (by linarith), abs_of_nonpos (by linarith)]
    linarith
  · refine ⟨floor + 1, by omega, readsBack_of_between hx hd (.inr ⟨hhigh.le, hright⟩), ?_⟩
    rw [abs_of_nonneg (by linarith), abs_of_nonneg (by linarith)]
    linarith

theorem Between.half {q : ℚ} {exponent : Int} {floor near far : Nat}
    (h : Between q exponent floor near far) :
    2 * |Decimal.toRat ⟨near, exponent⟩ - q| ≤ 10 ^ exponent := by
  have hlow := h.floor_le
  have hhigh := h.lt_next
  have hnear := h.nearer
  have hstep : Decimal.toRat ⟨floor + 1, exponent⟩ =
      Decimal.toRat ⟨floor, exponent⟩ + 10 ^ exponent := by
    rw [Decimal.toRat_mk, Decimal.toRat_mk, Nat.cast_succ]
    ring
  rcases h.sides with ⟨rfl, rfl⟩ | ⟨rfl, rfl⟩
  · rw [abs_of_nonpos (by linarith), abs_of_nonneg (by linarith)] at hnear
    rw [abs_of_nonpos (by linarith)]
    linarith
  · rw [abs_of_nonneg (by linarith), abs_of_nonpos (by linarith)] at hnear
    rw [abs_of_nonneg (by linarith)]
    linarith

/-- Seventeen digits are enough: half a step of their grid is below a `2 ^ -54`-th of the number. -/
theorem readsBack_near (hx : x.isFinite = true) (hz : x.isZero = false) {floor near far : Nat}
    (h : Between x.magnitude (x.lead - (16 : Nat)) floor near far) :
    x.readsBack ⟨near, x.lead - (16 : Nat)⟩ = true := by
  have hlead := (lead_spec hz).1
  have hhalf := h.half
  have hpos : (0 : ℚ) < 10 ^ x.lead := by positivity
  have hstep : (10 : ℚ) ^ (x.lead - (16 : Nat)) * 10 ^ 16 = 10 ^ x.lead := by
    rw [zpow_sub₀ (by norm_num), zpow_natCast]
    field_simp
  have hclose : |x.magnitude - Decimal.toRat ⟨near, x.lead - (16 : Nat)⟩| * 2 ^ 54 < x.magnitude := by
    rw [abs_sub_comm]
    have hnonneg := abs_nonneg (Decimal.toRat ⟨near, x.lead - (16 : Nat)⟩ - x.magnitude)
    nlinarith
  rw [Decimal.toRat_eq] at hclose
  rw [readsBack_iff_code, Decimal.code_nearest]
  exact nearestCode_of_close hx (Decimal.denominator_pos _) hclose

theorem findSome?_range {α : Type} {f : Nat → Option α} {k : Nat} {a : α}
    (h : (List.range k).findSome? f = some a) : ∃ n < k, f n = some a ∧ ∀ m < n, f m = none := by
  induction k with
  | zero => contradiction
  | succ k ih =>
    rw [List.range_succ, List.findSome?_append] at h
    cases hbefore : (List.range k).findSome? f with
    | some b =>
      rw [hbefore, Option.some_or] at h
      obtain ⟨n, hn, hfound⟩ := ih (hbefore.trans h)
      exact ⟨n, Nat.lt_succ_of_lt hn, hfound⟩
    | none =>
      rw [hbefore, Option.none_or, List.findSome?_singleton] at h
      rw [List.findSome?_eq_none_iff] at hbefore
      exact ⟨k, Nat.lt_succ_self k, h, fun m hm => hbefore m (List.mem_range.mpr hm)⟩

/-- The decimal is read as the number. It has at most seventeen digits, no decimal with fewer digits is
read as the number, and none with as few is nearer to it. -/
structure IsShortest (x : Binary64) (d : Decimal) : Prop where
  nearest_eq : d.nearest x.negative = x
  seventeen : digitCount d.digits ≤ 17
  least : ∀ d' : Decimal, d'.nearest x.negative = x → digitCount d.digits ≤ digitCount d'.digits
  nearer : ∀ d' : Decimal, d'.nearest x.negative = x → digitCount d'.digits ≤ digitCount d.digits →
    |d.toRat - x.magnitude| ≤ |d'.toRat - x.magnitude|

def tried (x : Binary64) (n : Nat) : Option Decimal := (x.neighbours (x.lead - n)).find? x.readsBack

theorem floor_lt {q : ℚ} {lead : Int} (hlead : q < 10 ^ (lead + 1)) {n floor : Nat}
    (hfloor : Decimal.toRat ⟨floor, lead - n⟩ ≤ q) : floor < 10 ^ (n + 1) := by
  have hstep : (0 : ℚ) < 10 ^ (lead - n) := by positivity
  have hwhole : (10 : ℚ) ^ (lead + 1) = (10 ^ (n + 1) : Nat) * 10 ^ (lead - n) := by
    rw [Nat.cast_pow, ← zpow_natCast, Nat.cast_ofNat, ← zpow_add₀ (by norm_num)]
    congr 1
    omega
  rw [hwhole] at hlead
  exact_mod_cast lt_of_mul_lt_mul_right (hfloor.trans_lt hlead) hstep.le

/-- What is found for `n + 1` digits is read back, has no more than these digits when trimmed, and is
as near as anything of these digits. -/
theorem tried_spec (hx : x.isFinite = true) (hz : x.isZero = false) {n : Nat}
    (h : x.tried n = some d) :
    x.readsBack d = true ∧ digitCount d.trim.digits ≤ n + 1 ∧
      ∀ d' : Decimal, x.readsBack d' = true → d'.digits < 10 ^ (n + 1) →
        |d.toRat - x.magnitude| ≤ |d'.toRat - x.magnitude| := by
  obtain ⟨floor, near, far, hneighbours, hbetween⟩ := x.exists_between (x.lead - n)
  have hfloor := floor_lt (lead_spec hz).2 hbetween.floor_le
  have hsides := hbetween.sides
  rw [tried, hneighbours] at h
  refine ⟨List.find?_some h, ?_, fun d' hd' hdigits => ?_⟩
  · have hmem := List.mem_of_find?_eq_some h
    simp only [List.mem_cons, List.not_mem_nil, or_false] at hmem
    refine digitCount_trim_le (Nat.succ_pos n) ?_
    rcases hmem with rfl | rfl
    · change near ≤ 10 ^ (n + 1)
      omega
    · change far ≤ 10 ^ (n + 1)
      omega
  · obtain ⟨c, hc, hback, hdist⟩ := exists_neighbour hx hz hd' hdigits hbetween
    have hnearer := hbetween.nearer
    by_cases hnear : x.readsBack ⟨near, x.lead - n⟩ = true
    · rw [List.find?_cons_of_pos hnear] at h
      obtain rfl := Option.some.inj h
      rcases hc with rfl | rfl
      · exact hdist
      · exact hnearer.trans hdist
    · -- only the farther neighbour is read back, so it is the one towards the other decimal
      rw [List.find?_cons_of_neg hnear] at h
      have hmem := List.mem_of_find?_eq_some h
      obtain rfl := List.mem_singleton.mp hmem
      rcases hc with rfl | rfl
      · exact absurd hback hnear
      · exact hdist

theorem tried_ne_none (hx : x.isFinite = true) (hz : x.isZero = false) (hd : x.readsBack d = true)
    {n : Nat} (hdigits : d.digits < 10 ^ (n + 1)) : x.tried n ≠ none := by
  obtain ⟨floor, near, far, hneighbours, hbetween⟩ := x.exists_between (x.lead - n)
  obtain ⟨c, hc, hback, -⟩ := exists_neighbour hx hz hd hdigits hbetween
  intro hnone
  rw [tried, hneighbours, List.find?_eq_none] at hnone
  exact hnone ⟨c, x.lead - n⟩ (by rcases hc with rfl | rfl <;> simp) hback

theorem tried_sixteen (hx : x.isFinite = true) (hz : x.isZero = false) : x.tried 16 ≠ none := by
  obtain ⟨floor, near, far, hneighbours, hbetween⟩ := x.exists_between (x.lead - (16 : Nat))
  intro hnone
  rw [tried, hneighbours, List.find?_eq_none] at hnone
  exact hnone _ List.mem_cons_self (readsBack_near hx hz hbetween)

theorem exists_tried (hx : x.isFinite = true) (hz : x.isZero = false) :
    ∃ n < 17, ∃ d, x.tried n = some d ∧ x.shortest = d.trim ∧ ∀ m < n, x.tried m = none := by
  have hshortest : x.shortest = (((List.range 17).findSome? x.tried).getD x.exactDecimal).trim := rfl
  cases hfound : (List.range 17).findSome? x.tried with
  | none =>
    rw [List.findSome?_eq_none_iff] at hfound
    exact absurd (hfound 16 (List.mem_range.mpr (by decide))) (tried_sixteen hx hz)
  | some d =>
    obtain ⟨n, hn, htried, hbefore⟩ := findSome?_range hfound
    rw [hfound, Option.getD_some] at hshortest
    exact ⟨n, hn, d, htried, hshortest, hbefore⟩

theorem isShortest_shortest (hx : x.isFinite = true) (hz : x.isZero = false) :
    x.IsShortest x.shortest := by
  obtain ⟨n, hn, d, htried, hshortest, hbefore⟩ := exists_tried hx hz
  obtain ⟨hback, hcount, hnearest⟩ := tried_spec hx hz htried
  -- nothing was found for fewer digits, so no decimal with fewer digits is read back
  have hleast (d' : Decimal) (hd' : d'.nearest x.negative = x) : n < digitCount d'.digits := by
    by_contra hle
    obtain ⟨m, hm⟩ := Nat.exists_eq_add_one.mpr (digitCount_pos d'.digits)
    have hdigits := (digitCount_le_iff (Nat.succ_pos m)).mp hm.le
    exact tried_ne_none hx hz (readsBack_iff.mpr hd') hdigits
      (hbefore m (by omega))
  rw [hshortest]
  refine ⟨?_, by omega, fun d' hd' => ?_, fun d' hd' hdigits => ?_⟩
  · rw [← readsBack_iff, readsBack_iff_code, ← d.sameValue_trim.code_nearest]
    exact readsBack_iff_code.mp hback
  · have hlt := hleast d' hd'
    omega
  · rw [← d.sameValue_trim.toRat_eq]
    refine hnearest d' (readsBack_iff.mpr hd') ?_
    exact (digitCount_le_iff (Nat.succ_pos n)).mp (hdigits.trans hcount)

/-- The program form of a finite number is read as the number, bit for bit. Apart from zero and the
whole numbers that are written in full it shows a shortest decimal of the number. -/
theorem programText_read_back {x : Binary64} (hx : x.isFinite = true) :
    readNumber x.programText = some x ∧
      (x.isZero = false → (x.isWhole && x.wholePart < Nat.pow 10 16) = false →
        ∃ d, x.IsShortest d ∧ x.programChars = x.signChars ++ scriptLayout.write d) :=
  ⟨readNumber_programText hx, fun hz hw =>
    ⟨x.shortest, isShortest_shortest hx hz, programChars_of_not_whole hx hz hw⟩⟩

theorem programText_read_back_least :
    (⟨true, 1, by decide⟩ : Binary64).isFinite = true ∧
      readNumber "-5e-324" = some ⟨true, 1, by decide⟩ := by
  have htext : programText ⟨true, 1, by decide⟩ = "-5e-324" := by decide +kernel
  have hfinite : (⟨true, 1, by decide⟩ : Binary64).isFinite = true := by decide
  exact ⟨hfinite, htext ▸ (programText_read_back hfinite).1⟩

end Binary64
end ArithScript
