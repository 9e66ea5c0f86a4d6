import ArithScript.Numeric.Notation
import ArithScript.Proofs.Numeric.Decimal
import ArithScript.Proofs.Numeric.Scan

/-! The written form of a finite number is a numeral with perhaps a sign, and reading it gives back
the number. -/
namespace ArithScript

theorem digitsValue_append (xs ys : List Char) :
    digitsValue (xs ++ ys) = digitsValue xs * Nat.pow 10 ys.length + digitsValue ys := by
  unfold digitsValue
  rw [List.foldl_append]
  generalize List.foldl (fun value c => 10 * value + (digitValue? c).getD 0) 0 xs = a
  induction ys generalizing a with
  | nil => simp
  | cons c ys ih =>
    have hpow : Nat.pow 10 (ys.length + 1) = Nat.pow 10 ys.length * 10 := rfl
    have hleft := ih (10 * a + (digitValue? c).getD 0)
    have hright := ih (10 * 0 + (digitValue? c).getD 0)
    rw [List.foldl_cons, List.foldl_cons, List.length_cons, hleft, hright, hpow]
    generalize Nat.pow 10 ys.length = p
    rw [Nat.add_mul, Nat.add_mul, Nat.mul_comm 10 a, Nat.mul_assoc a 10 p, Nat.mul_comm 10 p]
    omega

theorem digitsValue_zeros (k : Nat) : digitsValue (List.replicate k '0') = 0 := by
  induction k with
  | zero => rfl
  | succ k ih =>
    rw [List.replicate_succ', digitsValue_append, ih]
    simp
    decide

theorem allDigits_append {xs ys : List Char} (hx : AllDigits xs) (hy : AllDigits ys) :
    AllDigits (xs ++ ys) := by
  intro c hc
  rcases List.mem_append.mp hc with h | h
  · exact hx c h
  · exact hy c h

theorem allDigits_zeros (k : Nat) : AllDigits (List.replicate k '0') := by
  intro c hc
  rw [List.eq_of_mem_replicate hc]
  decide

theorem digitValue?_digitChar {d : Nat} (hd : d < 10) : digitValue? (Nat.digitChar d) = some d := by
  have hall : ∀ d : Fin 10, digitValue? (Nat.digitChar d) = some d.val := by decide
  exact hall ⟨d, hd⟩

theorem allDigits_digitChar {d : Nat} (hd : d < 10) : AllDigits [Nat.digitChar d] := by
  intro c hc
  rw [List.mem_singleton.mp hc, isDecimalDigit, digitValue?_digitChar hd]
  rfl

theorem digitsValue_digitChar {d : Nat} (hd : d < 10) : digitsValue [Nat.digitChar d] = d := by
  unfold digitsValue
  simp [digitValue?_digitChar hd]

theorem allDigits_toDigits (n : Nat) : AllDigits (Nat.toDigits 10 n) := by
  induction n using Nat.strongRecOn with
  | ind n ih =>
    rw [Nat.toDigits_eq_if (by decide)]
    split
    · rename_i h
      exact allDigits_digitChar h
    · rename_i h
      exact allDigits_append (ih (n / 10) (by omega)) (allDigits_digitChar (by omega))

theorem digitsValue_toDigits (n : Nat) : digitsValue (Nat.toDigits 10 n) = n := by
  induction n using Nat.strongRecOn with
  | ind n ih =>
    rw [Nat.toDigits_eq_if (by decide)]
    split
    · rename_i h
      exact digitsValue_digitChar h
    · rename_i h
      rw [digitsValue_append, ih (n / 10) (by omega), digitsValue_digitChar (by omega)]
      have hpow : Nat.pow 10 [Nat.digitChar (n % 10)].length = 10 := rfl
      rw [hpow]
      omega

/-- The characters are the written form of a numeral of the given magnitude. -/
def Writes (chars : List Char) (d : Decimal) : Prop :=
  ∃ n : Numeral, n.WellFormed ∧ n.chars = chars ∧ n.value.SameValue d

theorem writes_whole {digits : List Char} (hd : AllDigits digits) (hne : digits ≠ []) :
    Writes digits ⟨digitsValue digits, 0⟩ := by
  refine ⟨⟨digits, none, none⟩, ⟨hd, ?_, .inl hne, ?_⟩, ?_, ?_⟩
  · intro digits' h
    contradiction
  · intro e h
    contradiction
  · simp [Numeral.chars]
  · have hvalue : (Numeral.mk digits none none).value = ⟨digitsValue digits, 0⟩ := by
      simp [Numeral.value]
    rw [hvalue]
    rfl

theorem writes_point {whole fraction : List Char} (hw : AllDigits whole) (hne : whole ≠ [])
    (hf : AllDigits fraction) :
    Writes (whole ++ '.' :: fraction)
      ⟨digitsValue (whole ++ fraction), -(fraction.length : Int)⟩ := by
  refine ⟨⟨whole, some fraction, none⟩, ⟨hw, ?_, .inl hne, ?_⟩, ?_, ?_⟩
  · intro digits h
    obtain rfl := Option.some.inj h
    exact hf
  · intro e h
    contradiction
  · simp [Numeral.chars]
  · have hvalue : (Numeral.mk whole (some fraction) none).value =
        ⟨digitsValue (whole ++ fraction), -(fraction.length : Int)⟩ := by
      simp [Numeral.value]
    rw [hvalue]
    rfl

namespace DecimalLayout
variable {digits : List Char}

theorem writes_positional (hd : AllDigits digits) (hne : digits ≠ []) {lead exponent : Int}
    (hlead : lead = exponent + digits.length - 1) :
    Writes (positional digits lead) ⟨digitsValue digits, exponent⟩ := by
  have hlen := List.length_pos_iff.mpr hne
  unfold positional
  split
  · rename_i hneg
    -- below one: zeros between the point and the digits
    have hzero : AllDigits ['0'] := allDigits_zeros 1
    have h := writes_point hzero (by simp) (allDigits_append (allDigits_zeros (-lead - 1).toNat) hd)
    have hvalue : digitsValue (['0'] ++ (List.replicate (-lead - 1).toNat '0' ++ digits)) =
        digitsValue digits := by
      rw [digitsValue_append, digitsValue_append, digitsValue_zeros]
      have hone : digitsValue ['0'] = 0 := digitsValue_zeros 1
      rw [hone]
      omega
    have hexp : -((List.replicate (-lead - 1).toNat '0' ++ digits).length : Int) = exponent := by
      rw [List.length_append, List.length_replicate]
      omega
    rw [hvalue, hexp] at h
    exact h
  · rename_i hpos
    simp only
    split
    · rename_i hshort
      -- a whole number: `k` zeros fill up the digits, and one stands after the point
      obtain ⟨k, hk⟩ : ∃ k, k = lead.toNat + 1 - digits.length := ⟨_, rfl⟩
      have hvalue : digitsValue ((digits ++ List.replicate k '0') ++ ['0']) =
          digitsValue digits * Nat.pow 10 (k + 1) := by
        rw [List.append_assoc, ← List.replicate_succ', digitsValue_append, digitsValue_zeros,
          List.length_replicate, Nat.add_zero]
      have hzero : AllDigits ['0'] := allDigits_zeros 1
      obtain ⟨n, hn, hchars, hsame⟩ :=
        writes_point (allDigits_append hd (allDigits_zeros k)) (by simp [hne]) hzero
      rw [hvalue] at hsame
      have hexp : -((['0'] : List Char).length : Int) + (k + 1 : Nat) = exponent := by
        rw [List.length_singleton]
        omega
      have hshift := Decimal.sameValue_shift (digitsValue digits) (k + 1)
        (-((['0'] : List Char).length : Int))
      rw [hexp] at hshift
      refine ⟨n, hn, ?_, hsame.trans hshift⟩
      rw [hchars, hk]
    · rename_i hlong
      -- the point stands among the digits
      have htake : AllDigits (digits.take (lead.toNat + 1)) :=
        fun c hc => hd c (List.mem_of_mem_take hc)
      have hdrop : AllDigits (digits.drop (lead.toNat + 1)) :=
        fun c hc => hd c (List.mem_of_mem_drop hc)
      have h := writes_point htake (by simp [hne]) hdrop
      have hexp : -((digits.drop (lead.toNat + 1)).length : Int) = exponent := by
        rw [List.length_drop]
        omega
      rw [List.take_append_drop, hexp] at h
      exact h

theorem exponentDigits_spec (layout : DecimalLayout) (n : Nat) :
    AllDigits (layout.exponentDigits n) ∧ layout.exponentDigits n ≠ [] ∧
      digitsValue (layout.exponentDigits n) = n := by
  unfold exponentDigits
  simp only
  refine ⟨allDigits_append (allDigits_zeros _) (allDigits_toDigits n), ?_, ?_⟩
  · simp [Nat.toDigits_ne_nil]
  · rw [digitsValue_append, digitsValue_zeros, digitsValue_toDigits]
    omega

def exponentPart (layout : DecimalLayout) (lead : Int) : NumeralExponent :=
  ⟨'e', some (if lead < 0 then '-' else '+'), layout.exponentDigits lead.natAbs⟩

theorem exponentPart_wellFormed (layout : DecimalLayout) (lead : Int) :
    (layout.exponentPart lead).WellFormed := by
  obtain ⟨hdigits, hne, -⟩ := layout.exponentDigits_spec lead.natAbs
  refine ⟨.inl rfl, ?_, hdigits, hne⟩
  intro c hc
  obtain rfl := Option.some.inj hc
  split
  · exact .inr rfl
  · exact .inl rfl

theorem exponentPart_value (layout : DecimalLayout) (lead : Int) :
    (layout.exponentPart lead).value = lead := by
  have hvalue := (layout.exponentDigits_spec lead.natAbs).2.2
  unfold NumeralExponent.value exponentPart
  simp only
  rw [hvalue]
  by_cases hneg : lead < 0
  · rw [if_pos hneg, if_pos rfl]
    omega
  · rw [if_neg hneg, if_neg (by decide)]
    omega

theorem writes_scientific (layout : DecimalLayout) (hd : AllDigits digits) (hne : digits ≠ [])
    {lead exponent : Int} (hlead : lead = exponent + digits.length - 1) :
    Writes (layout.scientific digits lead) ⟨digitsValue digits, exponent⟩ := by
  obtain ⟨first, rest, rfl⟩ := List.exists_cons_of_ne_nil hne
  have hfirst : AllDigits [first] := by
    intro c hc
    rw [List.mem_singleton.mp hc]
    exact hd first List.mem_cons_self
  have hrest : AllDigits rest := fun c hc => hd c (List.mem_cons_of_mem _ hc)
  have hpart : ∀ e ∈ some (layout.exponentPart lead), e.WellFormed := by
    intro e he
    obtain rfl := Option.some.inj he
    exact layout.exponentPart_wellFormed lead
  have hexp := layout.exponentPart_value lead
  rw [List.length_cons] at hlead
  cases hempty : rest.isEmpty with
  | true =>
    obtain rfl := List.isEmpty_iff.mp hempty
    refine ⟨⟨[first], none, some (layout.exponentPart lead)⟩, ⟨hfirst, ?_, .inl (by simp), hpart⟩,
      rfl, ?_⟩
    · intro digits h
      contradiction
    · have hvalue : (Numeral.mk [first] none (some (layout.exponentPart lead))).value =
          ⟨digitsValue [first], exponent⟩ := by
        simp only [Numeral.value, Option.elim, hexp, Option.getD_none, List.append_nil,
          List.length_nil, Decimal.mk.injEq, true_and] at hlead ⊢
        omega
      rw [hvalue]
      rfl
  | false =>
    refine ⟨⟨[first], some rest, some (layout.exponentPart lead)⟩,
      ⟨hfirst, ?_, .inl (by simp), hpart⟩, ?_, ?_⟩
    · intro digits h
      obtain rfl := Option.some.inj h
      exact hrest
    · unfold scientific
      simp only [hempty]
      rfl
    · have hvalue : (Numeral.mk [first] (some rest) (some (layout.exponentPart lead))).value =
          ⟨digitsValue (first :: rest), exponent⟩ := by
        simp only [Numeral.value, Option.elim, hexp, Option.getD_some, List.singleton_append,
          Decimal.mk.injEq, true_and]
        omega
      rw [hvalue]
      rfl

theorem writes_write (layout : DecimalLayout) (d : Decimal) : Writes (layout.write d) d := by
  have hd := allDigits_toDigits d.digits
  have hne : Nat.toDigits 10 d.digits ≠ [] := Nat.toDigits_ne_nil
  have hvalue := digitsValue_toDigits d.digits
  unfold write
  generalize hlead : d.exponent + (Nat.toDigits 10 d.digits).length - 1 = lead
  simp only [hlead]
  split
  · have h := writes_positional hd hne hlead.symm
    rw [hvalue] at h
    exact h
  · have h := layout.writes_scientific hd hne hlead.symm
    rw [hvalue] at h
    exact h

end DecimalLayout

namespace Binary64

def sign? (x : Binary64) : Option Char := if x.negative then some '-' else none

theorem isSign_sign? (x : Binary64) : IsSign x.sign? := by
  intro c hc
  unfold sign? at hc
  split at hc
  · exact .inr (Option.some.inj hc).symm
  · contradiction

theorem signChars_eq (x : Binary64) : x.signChars = x.sign?.toList := by
  unfold signChars sign?
  split <;> rfl

theorem sign?_eq_minus (x : Binary64) : decide (x.sign? = some '-') = x.negative := by
  unfold sign?
  cases x.negative <;> rfl

theorem code_nearest_wholePart {x : Binary64} (hx : x.isFinite = true) (hw : x.isWhole = true)
    (negative : Bool) : (Decimal.nearest negative ⟨x.wholePart, 0⟩).code = x.code := by
  have hmod : x.units % Nat.pow 2 unitExponent = 0 := by
    simpa [isWhole, hx] using hw
  have hdiv : x.wholePart * Nat.pow 2 unitExponent = x.units :=
    Nat.div_mul_cancel (Nat.dvd_of_mod_eq_zero hmod)
  have hnum : Decimal.numerator ⟨x.wholePart, 0⟩ = x.wholePart := Nat.mul_one _
  have hden : Decimal.denominator ⟨x.wholePart, 0⟩ = 1 := rfl
  rw [Decimal.code_nearest, hnum, hden]
  exact nearestCode_exact hx (by decide) (hdiv.trans (Nat.mul_one _).symm)

theorem programChars_of_not_whole {x : Binary64} (hx : x.isFinite = true) (hz : x.isZero = false)
    (hw : (x.isWhole && x.wholePart < Nat.pow 10 16) = false) :
    x.programChars = x.signChars ++ scriptLayout.write x.shortest := by
  have hlt : x.code < infinityCode := of_decide_eq_true hx
  have hnan : x.isNaN = false := decide_eq_false (by omega)
  have hinf : x.isInfinite = false := decide_eq_false (by omega)
  simp [programChars, fullChars, hnan, hinf, hz, hw]

/-- The program form of a finite number is a sign, if it is negative, and a numeral whose nearest
number it is. -/
theorem programChars_eq {x : Binary64} (hx : x.isFinite = true) :
    ∃ n : Numeral, n.WellFormed ∧ x.programChars = x.sign?.toList ++ n.chars ∧
      (n.value.nearest x.negative).code = x.code := by
  obtain ⟨d, chars, hchars, hwrites, hcode⟩ : ∃ d chars, x.programChars = x.signChars ++ chars ∧
      Writes chars d ∧ (d.nearest x.negative).code = x.code := by
    cases hz : x.isZero with
    | true =>
      have hcode : x.code = 0 := of_decide_eq_true hz
      refine ⟨_, ['0'], by rw [programChars, if_pos hz],
        writes_whole (allDigits_zeros 1) (by simp), ?_⟩
      rw [hcode, Decimal.code_nearest]
      exact Decimal.nearestCode_of_isTiny rfl
    | false =>
      cases hw : x.isWhole && x.wholePart < Nat.pow 10 16 with
      | true =>
        have hwrites := writes_whole (allDigits_toDigits x.wholePart) Nat.toDigits_ne_nil
        rw [digitsValue_toDigits] at hwrites
        refine ⟨_, _, by rw [programChars, hz, if_neg Bool.false_ne_true, if_pos hw], hwrites, ?_⟩
        rw [Bool.and_eq_true] at hw
        exact code_nearest_wholePart hx hw.1 x.negative
      | false =>
        exact ⟨_, _, programChars_of_not_whole hx hz hw, scriptLayout.writes_write _,
          code_nearest_shortest hx⟩
  obtain ⟨n, hn, rfl, hsame⟩ := hwrites
  refine ⟨n, hn, ?_, ?_⟩
  · rw [hchars, signChars_eq]
  · rw [hsame.code_nearest, hcode]

theorem readNumber_programText {x : Binary64} (hx : x.isFinite = true) :
    readNumber x.programText = some x := by
  obtain ⟨n, hn, hchars, hcode⟩ := programChars_eq hx
  unfold programText
  rw [hchars, readNumber_chars x.isSign_sign? hn, sign?_eq_minus, Option.some.injEq,
    Decimal.nearest_eq_iff]
  exact ⟨hcode, rfl⟩

end Binary64
end ArithScript
