import Mathlib.Tactic.Linarith
import Mathlib.Tactic.NormNum
import Mathlib.Tactic.Ring
import Mathlib.Tactic.FieldSimp
import Mathlib.Tactic.Positivity
import Mathlib.Order.Monotone.Basic
import Mathlib.Algebra.Order.Field.Rat
import Mathlib.Algebra.Order.AbsoluteValue.Basic
import ArithScript.Proofs.Numeric.Rounding

/-! The binary64 number nearest to a magnitude: what it is, that there is one for every magnitude and
no other, and that it grows with the magnitude. -/
namespace ArithScript

theorem cast_natPow (b n : Nat) : ((Nat.pow b n : Nat) : ℚ) = (b : ℚ) ^ n := Nat.cast_pow b n

namespace Binary64

/-- The magnitude of a finite number. -/
def magnitude (x : Binary64) : ℚ := x.units / 2 ^ unitExponent

/-- Half a step beyond the largest finite magnitude. -/
def overflowThreshold : ℚ := 2 ^ 1024 - 2 ^ 970

/-- The number is the magnitude `q` rounded to nearest: no finite number is nearer, and of two that
are equally near it is the one whose last bit is zero. From the threshold on it is infinity. -/
def Rounds (x : Binary64) (q : ℚ) : Prop :=
  if overflowThreshold ≤ q then x.isInfinite = true
  else x.isFinite = true ∧ ∀ y : Binary64, y.isFinite = true →
    |x.magnitude - q| ≤ |y.magnitude - q| ∧
      (|x.magnitude - q| = |y.magnitude - q| → y.code ≠ x.code → x.code % 2 = 0)

/-- The units of the magnitude with a code. The scale goes on beyond the finite codes as if there
were no infinity. -/
def scale (code : Nat) : Nat :=
  if code < Nat.pow 2 52 then code
  else (Nat.pow 2 52 + code % Nat.pow 2 52) * Nat.pow 2 (code / Nat.pow 2 52 - 1)

theorem units_eq_scale (x : Binary64) : x.units = scale x.code := rfl

theorem scale_grid {shift k : Nat} (hk : k ≤ Nat.pow 2 53) (hs : shift = 0 ∨ Nat.pow 2 52 ≤ k) :
    scale (shift * Nat.pow 2 52 + k) = k * Nat.pow 2 shift := by
  have hpos : 0 < Nat.pow 2 52 := by decide
  have hdouble : Nat.pow 2 53 = Nat.pow 2 52 + Nat.pow 2 52 := by decide
  rw [hdouble] at hk
  unfold scale
  generalize Nat.pow 2 52 = p at *
  rcases Nat.lt_or_ge k p with hlt | hge
  · obtain rfl : shift = 0 := hs.resolve_right (Nat.not_le.mpr hlt)
    have hone : Nat.pow 2 0 = 1 := rfl
    rw [Nat.zero_mul, Nat.zero_add, if_pos hlt, hone, Nat.mul_one]
  · obtain ⟨m, rfl⟩ := Nat.exists_eq_add_of_le hge
    have hcode : shift * p + (p + m) = m + (shift + 1) * p := by
      rw [Nat.add_mul, Nat.one_mul]
      omega
    have hbig : ¬ shift * p + (p + m) < p := by omega
    rw [if_neg hbig, hcode, Nat.add_mul_mod_self_right, Nat.add_mul_div_right _ _ hpos]
    rcases Nat.lt_or_ge m p with hm | hm
    · rw [Nat.mod_eq_of_lt hm, Nat.div_eq_of_lt hm]
      congr 2
      omega
    · obtain rfl : m = p := by omega
      have hnext : Nat.pow 2 (1 + (shift + 1) - 1) = 2 * Nat.pow 2 shift := by
        rw [Nat.add_sub_cancel_left]
        exact Nat.mul_comm _ _
      rw [Nat.mod_self, Nat.div_self hpos, hnext, Nat.add_zero, ← Nat.mul_assoc, Nat.mul_two]

theorem cast_scale_grid {shift k : Nat} (hk : k ≤ Nat.pow 2 53)
    (hs : shift = 0 ∨ Nat.pow 2 52 ≤ k) :
    (scale (shift * Nat.pow 2 52 + k) : ℚ) = k * 2 ^ shift := by
  rw [scale_grid hk hs, Nat.cast_mul, cast_natPow]
  rfl

theorem exists_grid (code : Nat) :
    ∃ shift k, code = shift * Nat.pow 2 52 + k ∧ k < Nat.pow 2 53 ∧
      (shift = 0 ∨ Nat.pow 2 52 ≤ k) := by
  have hpos : 0 < Nat.pow 2 52 := by decide
  have hdouble : Nat.pow 2 53 = Nat.pow 2 52 + Nat.pow 2 52 := by decide
  rw [hdouble]
  generalize Nat.pow 2 52 = p at *
  have hdiv := Nat.div_add_mod' code p
  have hmod := Nat.mod_lt code hpos
  rcases Nat.eq_zero_or_eq_succ_pred (code / p) with hzero | hsucc
  · rw [hzero, Nat.zero_mul] at hdiv
    exact ⟨0, code, by rw [Nat.zero_mul, Nat.zero_add], by omega, .inl rfl⟩
  · refine ⟨(code / p).pred, p + code % p, ?_, by omega, .inr (Nat.le_add_right _ _)⟩
    rw [hsucc, Nat.succ_mul] at hdiv
    omega

theorem scale_lt_succ (code : Nat) : scale code < scale (code + 1) := by
  obtain ⟨shift, k, rfl, hk, hs⟩ := exists_grid code
  rw [Nat.add_assoc, scale_grid (Nat.le_of_lt hk) hs, scale_grid hk (by omega)]
  exact Nat.mul_lt_mul_of_pos_right (Nat.lt_succ_self k) (natPow_pos 2 shift (by decide))

theorem scale_strictMono : StrictMono scale := strictMono_nat_of_lt_succ scale_lt_succ

/-- No code has a magnitude nearer to `u` units, and of two that are equally near this one is even. -/
def NearestTo (u : ℚ) (code : Nat) : Prop :=
  ∀ other : Nat, |(scale code : ℚ) - u| ≤ |(scale other : ℚ) - u| ∧
    (|(scale code : ℚ) - u| = |(scale other : ℚ) - u| → other ≠ code → code % 2 = 0)

theorem cast_scale_lt {code code' : Nat} (h : code < code') : (scale code : ℚ) < scale code' :=
  Nat.cast_lt.mpr (scale_strictMono h)

theorem nearestTo_of_neighbours {u : ℚ} {code : Nat} (low : Nat) (hlow : (scale low : ℚ) ≤ u)
    (hhigh : u ≤ scale (low + 1)) (hcode : code = low ∨ code = low + 1)
    (hleft : |(scale code : ℚ) - u| ≤ u - scale low)
    (hright : |(scale code : ℚ) - u| ≤ scale (low + 1) - u)
    (htie : u - scale low = scale (low + 1) - u → code % 2 = 0) : NearestTo u code := by
  intro other
  rcases Nat.lt_or_ge low other with hlt | hge
  · have hscale : (scale (low + 1) : ℚ) ≤ scale other :=
      Nat.cast_le.mpr (scale_strictMono.monotone hlt)
    rw [abs_of_nonneg (by linarith : (0 : ℚ) ≤ scale other - u)]
    refine ⟨by linarith, fun heq hne => ?_⟩
    have hsame : (scale other : ℚ) = scale (low + 1) := by linarith
    obtain rfl := scale_strictMono.injective (Nat.cast_injective hsame)
    obtain rfl : code = low := by omega
    rw [abs_of_nonpos (by linarith)] at heq
    exact htie (by linarith)
  · have hscale : (scale other : ℚ) ≤ scale low := Nat.cast_le.mpr (scale_strictMono.monotone hge)
    rw [abs_of_nonpos (by linarith : (scale other : ℚ) - u ≤ 0)]
    refine ⟨by linarith, fun heq hne => ?_⟩
    have hsame : (scale other : ℚ) = scale low := by linarith
    obtain rfl := scale_strictMono.injective (Nat.cast_injective hsame)
    obtain rfl : code = other + 1 := by omega
    rw [abs_of_nonneg (by linarith)] at heq
    exact htie (by linarith)

theorem scale_succ_le (code : Nat) :
    (scale (code + 1) : ℚ) ≤ 2 ^ 53 * (scale (code + 1) - scale code) := by
  obtain ⟨shift, k, rfl, hk, hs⟩ := exists_grid code
  have hcast : ((k + 1 : Nat) : ℚ) ≤ 2 ^ 53 := by exact_mod_cast hk
  rw [Nat.cast_succ] at hcast
  rw [Nat.add_assoc, cast_scale_grid hk (by omega), cast_scale_grid hk.le hs, Nat.cast_succ]
  have hpos : (0 : ℚ) < 2 ^ shift := by positivity
  calc (k + 1 : ℚ) * 2 ^ shift ≤ 2 ^ 53 * 2 ^ shift := mul_le_mul_of_nonneg_right hcast hpos.le
    _ = 2 ^ 53 * ((k + 1) * 2 ^ shift - k * 2 ^ shift) := by ring

/-- A relative error below `2 ^ -54` does not lead to another code. -/
theorem nearestTo_of_close {u : ℚ} {code : Nat} (h : |(scale code : ℚ) - u| * 2 ^ 54 < scale code) :
    NearestTo u code := by
  obtain ⟨low, rfl⟩ : ∃ low, code = low + 1 := by
    refine Nat.exists_eq_add_one.mpr (Nat.pos_of_ne_zero ?_)
    rintro rfl
    have hnonneg : 0 ≤ |(scale 0 : ℚ) - u| * 2 ^ 54 := by positivity
    exact absurd h (not_lt.mpr hnonneg)
  have hbelow := scale_succ_le low
  have habove := scale_succ_le (low + 1)
  have hnext := cast_scale_lt (Nat.lt_succ_self (low + 1))
  rw [Nat.succ_eq_add_one] at hnext
  rcases abs_cases ((scale (low + 1) : ℚ) - u) with ⟨hdist, hside⟩ | ⟨hdist, hside⟩
  · rw [hdist] at h
    refine nearestTo_of_neighbours low ?_ ?_ (.inr rfl) ?_ ?_ fun htie => ?_
    all_goals linarith
  · rw [hdist] at h
    refine nearestTo_of_neighbours (low + 1) ?_ ?_ (.inl rfl) ?_ ?_ fun htie => ?_
    all_goals linarith

namespace NearestTo
variable {u u' : ℚ} {code code' : Nat}

theorem le_middle (h : NearestTo u code) (hlt : code < code') :
    2 * u ≤ scale code + scale code' := by
  have hscale := cast_scale_lt hlt
  have hnear := (h code').1
  by_contra hbeyond
  rw [abs_of_nonpos (by linarith)] at hnear
  rcases abs_cases ((scale code' : ℚ) - u) with ⟨he, -⟩ | ⟨he, -⟩ <;>
    · rw [he] at hnear
      linarith

theorem middle_le (h : NearestTo u code') (hlt : code < code') :
    scale code + scale code' ≤ 2 * u := by
  have hscale := cast_scale_lt hlt
  have hnear := (h code).1
  by_contra hbeyond
  rw [abs_of_nonneg (by linarith)] at hnear
  rcases abs_cases ((scale code : ℚ) - u) with ⟨he, -⟩ | ⟨he, -⟩ <;>
    · rw [he] at hnear
      linarith

/-- Nearest codes are in the order of the magnitudes. Where two codes meet in the middle, both would
be even, but then there is a code between them that is nearer. -/
theorem mono (h : NearestTo u code) (h' : NearestTo u' code') (hu : u ≤ u') : code ≤ code' := by
  by_contra hgt
  have hlt : code' < code := by omega
  have hlow := h.middle_le hlt
  have hhigh := h'.le_middle hlt
  have hscale := cast_scale_lt hlt
  obtain rfl : u = u' := by linarith
  have hmiddle : |(scale code : ℚ) - u| = |(scale code' : ℚ) - u| := by
    rw [abs_of_nonneg (by linarith), abs_of_nonpos (by linarith)]
    linarith
  have heven := (h code').2 hmiddle (by omega)
  have heven' := (h' code).2 hmiddle.symm (by omega)
  have hbetween : code' + 1 < code := by omega
  have hright := cast_scale_lt hbetween
  have hleft := cast_scale_lt (Nat.lt_succ_self code')
  have hbeyond := h'.le_middle (Nat.lt_succ_self code')
  rw [Nat.succ_eq_add_one] at hbeyond
  linarith

theorem eq (h : NearestTo u code) (h' : NearestTo u code') : code = code' :=
  Nat.le_antisymm (h.mono h' (le_refl u)) (h'.mono h (le_refl u))

end NearestTo

theorem steps_bounds (n den : Nat) :
    n / (den * Nat.pow 2 ((n / den).log2 - 52)) < Nat.pow 2 53 ∧
      ((n / den).log2 - 52 = 0 ∨ Nat.pow 2 52 ≤ n / (den * Nat.pow 2 ((n / den).log2 - 52))) := by
  rw [← Nat.div_div_eq_div_mul]
  generalize n / den = w
  have hpos := natPow_pos 2 (w.log2 - 52) (by decide)
  have htop : w < Nat.pow 2 (53 + (w.log2 - 52)) :=
    Nat.lt_of_lt_of_le Nat.lt_log2_self (Nat.pow_le_pow_right (by decide) (by omega))
  rw [natPow_add] at htop
  refine ⟨(Nat.div_lt_iff_lt_mul hpos).mpr htop, ?_⟩
  by_cases hsmall : w.log2 - 52 = 0
  · exact .inl hsmall
  · have hne : w ≠ 0 := by
      rintro rfl
      exact hsmall rfl
    have hbottom : Nat.pow 2 (52 + (w.log2 - 52)) ≤ w :=
      (Nat.le_log2 hne).mp (by omega)
    rw [natPow_add] at hbottom
    exact .inr ((Nat.le_div_iff_mul_le hpos).mpr hbottom)

theorem roundHalfEven_cases (num den : Nat) :
    (2 * (num % den) < den ∧ roundHalfEven num den = num / den) ∨
    (den < 2 * (num % den) ∧ roundHalfEven num den = num / den + 1) ∨
    (2 * (num % den) = den ∧ roundHalfEven num den % 2 = 0 ∧
      (roundHalfEven num den = num / den ∨ roundHalfEven num den = num / den + 1)) := by
  unfold roundHalfEven
  simp only
  split
  · exact .inl ⟨‹_›, rfl⟩
  · split
    · exact .inr (.inl ⟨‹_›, rfl⟩)
    · refine .inr (.inr ⟨by omega, by omega, by omega⟩)

theorem sub_scale_of_steps {n den shift k r : Nat} (hden : 0 < den)
    (hdiv : den * Nat.pow 2 shift * k + r = n) (hk : k < Nat.pow 2 53)
    (hs : shift = 0 ∨ Nat.pow 2 52 ≤ k) :
    (n : ℚ) / den - scale (shift * Nat.pow 2 52 + k) = r / den ∧
      (scale (shift * Nat.pow 2 52 + k + 1) : ℚ) - n / den =
        ((den * Nat.pow 2 shift : Nat) - r) / den := by
  have hq : (den : ℚ) ≠ 0 := Nat.cast_ne_zero.mpr (Nat.ne_of_gt hden)
  have hlow := scale_grid (Nat.le_of_lt hk) hs
  have hhigh : scale (shift * Nat.pow 2 52 + (k + 1)) = _ := scale_grid hk (by omega)
  rw [Nat.add_assoc, hlow, hhigh, ← hdiv]
  constructor <;>
    · push_cast
      field_simp
      ring

theorem nearestTo_rounded (n : Nat) {den : Nat} (hden : 0 < den) :
    NearestTo (n / den) (((n / den).log2 - 52) * Nat.pow 2 52 +
      roundHalfEven n (den * Nat.pow 2 ((n / den).log2 - 52))) := by
  obtain ⟨hk, hs⟩ := steps_bounds n den
  generalize (n / den).log2 - 52 = shift at *
  obtain ⟨hbelow, habove⟩ :=
    sub_scale_of_steps hden (Nat.div_add_mod n (den * Nat.pow 2 shift)) hk hs
  have hrem := Nat.mod_lt n (Nat.mul_pos hden (natPow_pos 2 shift (by decide)))
  have hround := roundHalfEven_cases n (den * Nat.pow 2 shift)
  have heven : shift * Nat.pow 2 52 % 2 = 0 := by
    have hpow : Nat.pow 2 52 = 2 * Nat.pow 2 51 := by decide
    rw [hpow, Nat.mul_left_comm, Nat.mul_mod_right]
  generalize roundHalfEven n (den * Nat.pow 2 shift) = rounded at *
  generalize n / (den * Nat.pow 2 shift) = k at *
  generalize n % (den * Nat.pow 2 shift) = r at *
  generalize den * Nat.pow 2 shift = step at *
  generalize shift * Nat.pow 2 52 = base at *
  -- the magnitude is `r / den` above the code `base + k`, and `(step - r) / den` below the next one
  have hq : (0 : ℚ) < den := Nat.cast_pos.mpr hden
  have hr : (0 : ℚ) ≤ r / den := by positivity
  have hsr : (0 : ℚ) ≤ (step - r) / den :=
    div_nonneg (sub_nonneg.mpr (Nat.cast_le.mpr (Nat.le_of_lt hrem))) hq.le
  have hleft : |(scale (base + k) : ℚ) - n / den| = r / den := by
    rw [abs_of_nonpos (by linarith), neg_sub, hbelow]
  have hright : |(scale (base + k + 1) : ℚ) - n / den| = (step - r) / den := by
    rw [abs_of_nonneg (by linarith), habove]
  rcases hround with ⟨hcmp, rfl⟩ | ⟨hcmp, rfl⟩ | ⟨hcmp, hpar, hrounded⟩
  · have hnearer : (r : ℚ) / den < (step - r) / den := by
      have hcast : (2 * r : ℚ) < step := by exact_mod_cast hcmp
      exact div_lt_div_of_pos_right (by linarith) hq
    exact nearestTo_of_neighbours _ (by linarith) (by linarith) (.inl rfl) (by linarith)
      (by linarith) (fun htie => by linarith)
  · have hnearer : (step - r : ℚ) / den < r / den := by
      have hcast : (step : ℚ) < 2 * r := by exact_mod_cast hcmp
      exact div_lt_div_of_pos_right (by linarith) hq
    rw [← Nat.add_assoc]
    exact nearestTo_of_neighbours _ (by linarith) (by linarith) (.inr rfl) (by linarith)
      (by linarith) (fun htie => by linarith)
  · have htie : (step - r : ℚ) / den = r / den := by
      have hcast : (2 * r : ℚ) = step := by exact_mod_cast hcmp
      rw [← hcast]
      ring
    have hcode : base + rounded = base + k ∨ base + rounded = base + k + 1 := by omega
    have hdist : |(scale (base + rounded) : ℚ) - n / den| = r / den := by
      rcases hcode with h | h
      · rw [h, hleft]
      · rw [h, hright, htie]
    exact nearestTo_of_neighbours _ (by linarith) (by linarith) hcode (by linarith)
      (by linarith) (fun _ => by omega)

theorem exists_nearestTo (num : Nat) {den : Nat} (hden : 0 < den) :
    ∃ code, NearestTo (num / den * 2 ^ unitExponent) code ∧
      nearestCode num den = min code infinityCode := by
  have hunits : ((num * Nat.pow 2 unitExponent : Nat) : ℚ) / den = num / den * 2 ^ unitExponent := by
    rw [Nat.cast_mul, cast_natPow]
    ring
  have h := nearestTo_rounded (num * Nat.pow 2 unitExponent) hden
  rw [hunits] at h
  exact ⟨_, h, rfl⟩

theorem nearestCode_mono {num den num' den' : Nat} (hden : 0 < den) (hden' : 0 < den')
    (h : (num : ℚ) / den ≤ num' / den') : nearestCode num den ≤ nearestCode num' den' := by
  obtain ⟨code, hnearest, hcode⟩ := exists_nearestTo num hden
  obtain ⟨code', hnearest', hcode'⟩ := exists_nearestTo num' hden'
  have hpos : (0 : ℚ) < 2 ^ unitExponent := by positivity
  have hle := hnearest.mono hnearest' (mul_le_mul_of_nonneg_right h hpos.le)
  rw [hcode, hcode']
  exact min_le_min_right infinityCode hle

theorem threshold_eq :
    2 * (overflowThreshold * 2 ^ unitExponent) =
      (scale (infinityCode - 1) : ℚ) + scale infinityCode := by
  have hpred : infinityCode - 1 = 2045 * Nat.pow 2 52 + (Nat.pow 2 53 - 1) := by decide
  have hself : infinityCode = 2045 * Nat.pow 2 52 + Nat.pow 2 53 := by decide
  have hbefore : (scale (infinityCode - 1) : ℚ) = (2 ^ 53 - 1) * 2 ^ 2045 := by
    rw [hpred, cast_scale_grid (by decide) (.inr (by decide)), Nat.cast_sub (by decide), cast_natPow]
    norm_num
  have hinfinity : (scale infinityCode : ℚ) = 2 ^ 53 * 2 ^ 2045 := by
    rw [hself, cast_scale_grid (by decide) (.inr (by decide)), cast_natPow]
    norm_num
  have hadd (m n : Nat) : (2 : ℚ) ^ (m + n) = 2 ^ m * 2 ^ n := by ring
  have hwhole : (2 : ℚ) ^ 1024 = 2 ^ 54 * 2 ^ 970 := hadd 54 970
  have hstep : (2 : ℚ) ^ 2045 = 2 ^ 970 * 2 ^ unitExponent * 2 := by
    rw [← hadd 970 unitExponent]
    exact hadd 2044 1
  rw [hbefore, hinfinity, overflowThreshold, hwhole, hstep]
  generalize (2 : ℚ) ^ 970 = p
  generalize (2 : ℚ) ^ unitExponent = q
  ring

/-- Where the scale goes on beyond the finite codes, the magnitude has reached the threshold. At the
threshold itself the even one of the two codes is that of infinity. -/
theorem NearestTo.infinityCode_le_iff {q : ℚ} {code : Nat}
    (h : NearestTo (q * 2 ^ unitExponent) code) :
    infinityCode ≤ code ↔ overflowThreshold ≤ q := by
  have hpos : (0 : ℚ) < 2 ^ unitExponent := by positivity
  rw [← mul_le_mul_iff_of_pos_right hpos]
  have hthreshold := threshold_eq
  have hodd : (infinityCode - 1) % 2 = 1 := by decide
  have hsucc : infinityCode - 1 < infinityCode := by decide
  generalize infinityCode = i at *
  constructor
  · intro hle
    have hmiddle := h.middle_le (Nat.lt_of_lt_of_le hsucc hle)
    have hscale : (scale i : ℚ) ≤ scale code := Nat.cast_le.mpr (scale_strictMono.monotone hle)
    linarith
  · intro hle
    by_contra hlt
    have hmiddle := h.le_middle (Nat.not_le.mp hlt)
    have hscale : (scale code : ℚ) ≤ scale (i - 1) :=
      Nat.cast_le.mpr (scale_strictMono.monotone (by omega))
    have hsame : (scale code : ℚ) = scale (i - 1) := by linarith
    obtain rfl := scale_strictMono.injective (Nat.cast_injective hsame)
    have hnext := cast_scale_lt hsucc
    have htie : |(scale (i - 1) : ℚ) - q * 2 ^ unitExponent| =
        |(scale i : ℚ) - q * 2 ^ unitExponent| := by
      rw [abs_of_nonpos (by linarith), abs_of_nonneg (by linarith)]
      linarith
    have heven := (h i).2 htie (by omega)
    omega

theorem abs_scale_sub (x : Binary64) (q : ℚ) :
    |(scale x.code : ℚ) - q * 2 ^ unitExponent| = |x.magnitude - q| * 2 ^ unitExponent := by
  have hpos : (0 : ℚ) < 2 ^ unitExponent := by positivity
  rw [← abs_of_pos hpos, ← abs_mul, abs_of_pos hpos, magnitude, units_eq_scale, sub_mul,
    div_mul_cancel₀ _ hpos.ne']

theorem nearestCode_of_close {x : Binary64} (hx : x.isFinite = true) {num den : Nat} (hden : 0 < den)
    (h : |x.magnitude - num / den| * 2 ^ 54 < x.magnitude) : nearestCode num den = x.code := by
  have hpos : (0 : ℚ) < 2 ^ unitExponent := by positivity
  have hlt : x.code < infinityCode := of_decide_eq_true hx
  obtain ⟨code, hnearest, hcode⟩ := exists_nearestTo num hden
  have hclose : |(scale x.code : ℚ) - num / den * 2 ^ unitExponent| * 2 ^ 54 < scale x.code := by
    have hself : (scale x.code : ℚ) = x.magnitude * 2 ^ unitExponent := by
      rw [magnitude, units_eq_scale, div_mul_cancel₀ _ hpos.ne']
    rw [abs_scale_sub, hself, mul_right_comm]
    exact mul_lt_mul_of_pos_right h hpos
  rw [hcode, hnearest.eq (nearestTo_of_close hclose)]
  exact Nat.min_eq_left hlt.le

theorem nearestTo_of_finite {q : ℚ} {code : Nat} (hq : q < overflowThreshold)
    (h : ∀ other < infinityCode, |(scale code : ℚ) - q * 2 ^ unitExponent| ≤
        |(scale other : ℚ) - q * 2 ^ unitExponent| ∧
      (|(scale code : ℚ) - q * 2 ^ unitExponent| = |(scale other : ℚ) - q * 2 ^ unitExponent| →
        other ≠ code → code % 2 = 0)) :
    NearestTo (q * 2 ^ unitExponent) code := by
  have hpos : (0 : ℚ) < 2 ^ unitExponent := by positivity
  have hbelow := mul_lt_mul_of_pos_right hq hpos
  have hthreshold := threshold_eq
  have hsucc : infinityCode - 1 < infinityCode := by decide
  intro other
  by_cases hother : other < infinityCode
  · exact h other hother
  · have hlast := (h (infinityCode - 1) hsucc).1
    have hscale := cast_scale_lt hsucc
    have hbeyond : (scale infinityCode : ℚ) ≤ scale other :=
      Nat.cast_le.mpr (scale_strictMono.monotone (Nat.not_lt.mp hother))
    have hfar : |(scale code : ℚ) - q * 2 ^ unitExponent| <
        |(scale other : ℚ) - q * 2 ^ unitExponent| := by
      rw [abs_of_nonneg (by linarith : (0 : ℚ) ≤ scale other - q * 2 ^ unitExponent)]
      refine lt_of_le_of_lt hlast (abs_lt.mpr ⟨by linarith, by linarith⟩)
    exact ⟨hfar.le, fun heq => absurd heq hfar.ne⟩

theorem rounds_iff {x : Binary64} (num : Nat) {den : Nat} (hden : 0 < den) :
    x.Rounds (num / den) ↔ x.code = nearestCode num den := by
  obtain ⟨code, hnearest, hcode⟩ := exists_nearestTo num hden
  have hoverflow := hnearest.infinityCode_le_iff
  rw [hcode]
  unfold Rounds
  split
  · rename_i hbig
    rw [Nat.min_eq_right (hoverflow.mpr hbig), isInfinite, decide_eq_true_eq]
  · rename_i hsmall
    have hlt : code < infinityCode := Nat.not_le.mp fun hle => hsmall (hoverflow.mp hle)
    rw [Nat.min_eq_left hlt.le, isFinite, decide_eq_true_eq]
    have hpos : (0 : ℚ) < 2 ^ unitExponent := by positivity
    constructor
    · rintro ⟨-, hnear⟩
      refine (nearestTo_of_finite (not_le.mp hsmall) fun other hother => ?_).eq hnearest
      have hy := hnear ⟨false, other, hother.trans (by decide)⟩ (decide_eq_true hother)
      have hdist := abs_scale_sub ⟨false, other, hother.trans (by decide)⟩ (num / den)
      rw [abs_scale_sub, hdist, mul_le_mul_iff_of_pos_right hpos, mul_left_inj' hpos.ne']
      exact hy
    · intro hx
      subst hx
      refine ⟨hlt, fun y hy => ?_⟩
      have hother := hnearest y.code
      rw [abs_scale_sub, abs_scale_sub, mul_le_mul_iff_of_pos_right hpos,
        mul_left_inj' hpos.ne'] at hother
      exact hother

end Binary64
end ArithScript
