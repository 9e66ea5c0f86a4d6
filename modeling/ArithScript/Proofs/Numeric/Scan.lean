import Mathlib.Tactic.Common
import ArithScript.Numeric.Numeral

/-! Numerals in a text: what the scan takes is the written form of a numeral, it takes every written
form that nothing follows to extend it, and it takes as much as it can. -/
namespace ArithScript

def AllDigits (chars : List Char) : Prop := ∀ c ∈ chars, isDecimalDigit c = true

/-- Nothing at the front of the text extends a numeral that ends before it. -/
def Stops (text : List Char) : Prop :=
  ∀ c ∈ text.head?, isDecimalDigit c = false ∧ c ≠ '.' ∧ c ≠ 'e' ∧ c ≠ 'E'

def IsSign (sign : Option Char) : Prop := ∀ c ∈ sign, c = '+' ∨ c = '-'

structure NumeralExponent.WellFormed (e : NumeralExponent) : Prop where
  mark : e.mark = 'e' ∨ e.mark = 'E'
  sign : IsSign e.sign
  digits : AllDigits e.digits
  nonempty : e.digits ≠ []

/-- There is a digit, before or after the point, and the parts are what they stand for. -/
structure Numeral.WellFormed (n : Numeral) : Prop where
  whole : AllDigits n.whole
  fraction : ∀ digits ∈ n.fraction, AllDigits digits
  nonempty : n.whole ≠ [] ∨ n.fraction.getD [] ≠ []
  exponent : ∀ e ∈ n.exponent, e.WellFormed

theorem stops_nil : Stops [] := by simp [Stops]

theorem allDigits_takeWhile (text : List Char) : AllDigits (text.takeWhile isDecimalDigit) :=
  fun _ h => List.all_eq_true.mp List.all_takeWhile _ h

section Runs
variable {digits rest : List Char}

theorem takeWhile_digits (hd : AllDigits digits)
    (hr : ∀ c ∈ rest.head?, isDecimalDigit c = false) :
    (digits ++ rest).takeWhile isDecimalDigit = digits ∧
      (digits ++ rest).dropWhile isDecimalDigit = rest := by
  rw [List.takeWhile_append_of_pos hd, List.dropWhile_append_of_pos hd]
  cases rest with
  | nil => simp
  | cons c rest => simp [hr c rfl]

theorem length_takeWhile_digits (hd : AllDigits digits) (rest : List Char) :
    digits.length ≤ ((digits ++ rest).takeWhile isDecimalDigit).length := by
  rw [List.takeWhile_append_of_pos hd, List.length_append]
  omega

end Runs

theorem scanSign_append (text : List Char) :
    (scanSign text).1.toList ++ (scanSign text).2 = text := by
  cases text with
  | nil => rfl
  | cons c rest =>
    rw [scanSign]
    split <;> rfl

theorem isSign_scanSign (text : List Char) : IsSign (scanSign text).1 := by
  cases text with
  | nil => simp [scanSign, IsSign]
  | cons c rest =>
    rw [scanSign]
    split
    · rename_i h
      simpa [IsSign] using h
    · simp [IsSign]

theorem scanSign_of_isSign {sign : Option Char} {c : Char} {rest : List Char} (hs : IsSign sign)
    (hc : c ≠ '+' ∧ c ≠ '-') : scanSign (sign.toList ++ c :: rest) = (sign, c :: rest) := by
  cases sign with
  | none => simp [scanSign, hc]
  | some s => simp [scanSign, hs s rfl]

theorem digit_ne {c : Char} (h : isDecimalDigit c = true) :
    c ≠ '+' ∧ c ≠ '-' ∧ c ≠ '.' ∧ c ≠ 'e' ∧ c ≠ 'E' := by
  refine ⟨?_, ?_, ?_, ?_, ?_⟩ <;>
    · rintro rfl
      revert h
      decide

namespace Numeral

theorem scanExponent_append (text : List Char) :
    (scanExponent text).1.elim [] NumeralExponent.chars ++ (scanExponent text).2 = text := by
  cases text with
  | nil => rfl
  | cons mark rest =>
    have hs := scanSign_append rest
    rw [scanExponent]
    dsimp only
    split
    · simp [NumeralExponent.chars, List.takeWhile_append_dropWhile, hs]
    · rfl

theorem scanExponent_wellFormed (text : List Char) :
    ∀ e ∈ (scanExponent text).1, e.WellFormed := by
  cases text with
  | nil => simp [scanExponent]
  | cons mark rest =>
    rw [scanExponent]
    dsimp only
    split
    · rename_i h
      intro e he
      obtain rfl := Option.some.inj he
      simp only [Bool.and_eq_true, Bool.or_eq_true, decide_eq_true_eq, Bool.not_eq_true',
        List.isEmpty_eq_false_iff] at h
      exact ⟨h.1, isSign_scanSign rest, allDigits_takeWhile _, h.2⟩
    · simp

theorem scanSign_digits {sign : Option Char} {digits : List Char} (hs : IsSign sign)
    (hd : AllDigits digits) (hne : digits ≠ []) (rest : List Char) :
    scanSign (sign.toList ++ (digits ++ rest)) = (sign, digits ++ rest) := by
  obtain ⟨c, digits, rfl⟩ := List.exists_cons_of_ne_nil hne
  have hc := digit_ne (hd c (by simp))
  exact scanSign_of_isSign hs ⟨hc.1, hc.2.1⟩

theorem scanExponent_of_wellFormed {e : NumeralExponent} {rest : List Char} (he : e.WellFormed)
    (hr : ∀ c ∈ rest.head?, isDecimalDigit c = false) :
    scanExponent (e.chars ++ rest) = (some e, rest) := by
  obtain ⟨mark, sign, digits⟩ := e
  obtain ⟨ht, hdrop⟩ := takeWhile_digits he.digits hr
  have hs := scanSign_digits he.sign he.digits he.nonempty rest
  simp only [NumeralExponent.chars, List.cons_append, List.append_assoc, scanExponent, hs, ht,
    hdrop]
  have hne : digits ≠ [] := he.nonempty
  have hm : mark = 'e' ∨ mark = 'E' := he.mark
  simp [hne, hm]

theorem scanExponent_of_stops {rest : List Char} (hr : Stops rest) :
    scanExponent rest = (none, rest) := by
  cases rest with
  | nil => rfl
  | cons c rest =>
    obtain ⟨-, -, he, hE⟩ := hr c rfl
    simp [scanExponent, he, hE]

theorem scanExponent_longest {e : NumeralExponent} (he : e.WellFormed) (rest : List Char) :
    ∃ e' tail, scanExponent (e.chars ++ rest) = (some e', tail) ∧
      e.chars.length ≤ e'.chars.length := by
  obtain ⟨mark, sign, digits⟩ := e
  have hs := scanSign_digits he.sign he.digits he.nonempty rest
  have hlen := length_takeWhile_digits he.digits rest
  have hpos := List.length_pos_iff.mpr he.nonempty
  have hne : (digits ++ rest).takeWhile isDecimalDigit ≠ [] := by
    rw [← List.length_pos_iff]
    exact Nat.lt_of_lt_of_le hpos hlen
  have hm : mark = 'e' ∨ mark = 'E' := he.mark
  refine ⟨⟨mark, sign, (digits ++ rest).takeWhile isDecimalDigit⟩,
    (digits ++ rest).dropWhile isDecimalDigit, ?_, ?_⟩
  · simp only [NumeralExponent.chars, List.cons_append, List.append_assoc, scanExponent, hs]
    simp [hne, hm]
  · simp only [NumeralExponent.chars, List.cons_append, List.length_cons, List.length_append]
    exact Nat.add_le_add_right (Nat.add_le_add_left hlen _) 1

theorem scanFraction_append (text : List Char) :
    (scanFraction text).1.elim [] ('.' :: ·) ++ (scanFraction text).2 = text := by
  rw [scanFraction.eq_def]
  split
  · simp [List.takeWhile_append_dropWhile]
  · rfl

theorem allDigits_scanFraction (text : List Char) :
    ∀ digits ∈ (scanFraction text).1, AllDigits digits := by
  rw [scanFraction.eq_def]
  split
  · intro digits h
    obtain rfl := Option.some.inj h
    exact allDigits_takeWhile _
  · simp

theorem scanFraction_of_ne {text : List Char} (h : ∀ c ∈ text.head?, c ≠ '.') :
    scanFraction text = (none, text) := by
  rw [scanFraction.eq_def]
  split
  · exact absurd rfl (h '.' rfl)
  · rfl

theorem scanFraction_digits {digits rest : List Char} (hd : AllDigits digits)
    (hr : ∀ c ∈ rest.head?, isDecimalDigit c = false) :
    scanFraction ('.' :: (digits ++ rest)) = (some digits, rest) := by
  obtain ⟨ht, hdrop⟩ := takeWhile_digits hd hr
  simp [scanFraction, ht, hdrop]

variable {text rest : List Char} {n : Numeral}

theorem scan_eq_some_iff :
    scan text = some (n, rest) ↔
      n.whole = text.takeWhile isDecimalDigit ∧
      n.fraction = (scanFraction (text.dropWhile isDecimalDigit)).1 ∧
      (n.exponent, rest) =
        scanExponent (scanFraction (text.dropWhile isDecimalDigit)).2 ∧
      (n.whole ≠ [] ∨ n.fraction.getD [] ≠ []) := by
  obtain ⟨whole, fraction, exponent⟩ := n
  rw [scan]
  dsimp only
  constructor
  · intro h
    split at h
    · contradiction
    · rename_i hne
      simp only [Option.some.injEq, Prod.mk.injEq, Numeral.mk.injEq] at h
      obtain ⟨⟨rfl, rfl, rfl⟩, rfl⟩ := h
      refine ⟨rfl, rfl, rfl, ?_⟩
      by_contra hall
      simp_all
  · rintro ⟨rfl, rfl, he, hne⟩
    rw [← he, if_neg]
    simp only [Bool.and_eq_true, List.isEmpty_iff, not_and]
    intro hw
    exact hne.resolve_left (not_not_intro hw)

theorem scan_append (h : scan text = some (n, rest)) : n.chars ++ rest = text := by
  obtain ⟨hw, hf, he, -⟩ := scan_eq_some_iff.mp h
  have hfraction := scanFraction_append (text.dropWhile isDecimalDigit)
  have hexponent := scanExponent_append (scanFraction (text.dropWhile isDecimalDigit)).2
  rw [← he] at hexponent
  rw [chars, hw, hf, List.append_assoc, hexponent, List.append_assoc, hfraction,
    List.takeWhile_append_dropWhile]

theorem scan_wellFormed (h : scan text = some (n, rest)) : n.WellFormed := by
  obtain ⟨hw, hf, he, hne⟩ := scan_eq_some_iff.mp h
  refine ⟨?_, ?_, hne, ?_⟩
  · rw [hw]
    exact allDigits_takeWhile text
  · rw [hf]
    exact allDigits_scanFraction _
  · rw [show n.exponent = (scanExponent _).1 from congrArg Prod.fst he]
    exact scanExponent_wellFormed _

theorem exponent_head (hn : n.WellFormed) (hr : Stops rest) :
    ∀ c ∈ (n.exponent.elim [] NumeralExponent.chars ++ rest).head?,
      isDecimalDigit c = false ∧ c ≠ '.' := by
  cases he : n.exponent with
  | none =>
    intro c hc
    exact ⟨(hr c hc).1, (hr c hc).2.1⟩
  | some e =>
    intro c hc
    obtain rfl := Option.some.inj hc
    rcases (hn.exponent e he).mark with h | h <;>
      · rw [h]
        decide

theorem whole_chars (hn : n.WellFormed) (tail : List Char)
    (ht : n.fraction = none → ∀ c ∈ tail.head?, isDecimalDigit c = false) :
    (n.whole ++ (n.fraction.elim [] ('.' :: ·) ++ tail)).takeWhile isDecimalDigit = n.whole ∧
      (n.whole ++ (n.fraction.elim [] ('.' :: ·) ++ tail)).dropWhile isDecimalDigit =
        n.fraction.elim [] ('.' :: ·) ++ tail := by
  refine takeWhile_digits hn.whole ?_
  cases hf : n.fraction with
  | none => exact ht hf
  | some digits =>
    intro c hc
    obtain rfl := Option.some.inj hc
    decide

theorem fraction_chars (hn : n.WellFormed) {tail : List Char}
    (ht : ∀ c ∈ tail.head?, isDecimalDigit c = false ∧ c ≠ '.') :
    scanFraction (n.fraction.elim [] ('.' :: ·) ++ tail) = (n.fraction, tail) := by
  cases hf : n.fraction with
  | none => exact scanFraction_of_ne fun c hc => (ht c hc).2
  | some digits => exact scanFraction_digits (hn.fraction digits hf) fun c hc => (ht c hc).1

/-- A numeral is scanned as it was written if nothing extends it. -/
theorem scan_chars (hn : n.WellFormed) (hr : Stops rest) :
    scan (n.chars ++ rest) = some (n, rest) := by
  have htail := exponent_head hn hr
  obtain ⟨hw, hd⟩ := whole_chars hn _ fun _ c hc => (htail c hc).1
  rw [scan_eq_some_iff, chars, List.append_assoc, List.append_assoc, hw, hd,
    fraction_chars hn htail]
  refine ⟨rfl, rfl, ?_, hn.nonempty⟩
  cases he : n.exponent with
  | none => exact (scanExponent_of_stops hr).symm
  | some e => exact (scanExponent_of_wellFormed (hn.exponent e he) fun c hc => (hr c hc).1).symm

theorem length_chars (n : Numeral) :
    n.chars.length = n.whole.length + (n.fraction.elim [] ('.' :: ·)).length +
      (n.exponent.elim [] NumeralExponent.chars).length := by
  rw [chars, List.length_append, List.length_append]

theorem ne_nil_of_length_le {xs ys : List Char} (h : xs.length ≤ ys.length) (hne : xs ≠ []) :
    ys ≠ [] := by
  rw [← List.length_pos_iff] at hne ⊢
  omega

/-- More text after a numeral does not make the scan take less. -/
theorem scan_longest (h : scan text = some (n, [])) (more : List Char) :
    ∃ n' rest, scan (text ++ more) = some (n', rest) ∧ text.length ≤ n'.chars.length := by
  have hn := scan_wellFormed h
  obtain rfl : n.chars = text := by simpa using scan_append h
  cases he : n.exponent with
  | some e =>
    -- only the digits of the exponent can go on in the text that follows
    have hmark := (hn.exponent e he).mark
    obtain ⟨e', tail, hscan, hlen⟩ := scanExponent_longest (hn.exponent e he) more
    have htail : ∀ c ∈ (e.chars ++ more).head?, isDecimalDigit c = false ∧ c ≠ '.' := by
      intro c hc
      obtain rfl := Option.some.inj hc
      rcases hmark with h | h <;>
        · rw [h]
          decide
    obtain ⟨hw, hd⟩ := whole_chars hn _ fun _ c hc => (htail c hc).1
    refine ⟨⟨n.whole, n.fraction, some e'⟩, tail, ?_, ?_⟩
    · have hchars : n.chars ++ more =
          n.whole ++ (n.fraction.elim [] ('.' :: ·) ++ (e.chars ++ more)) := by
        simp [chars, he]
      rw [hchars, scan_eq_some_iff, hw, hd, fraction_chars hn htail]
      exact ⟨rfl, rfl, hscan.symm, hn.nonempty⟩
    · simp only [length_chars, he, Option.elim_some]
      exact Nat.add_le_add_left hlen _
  | none =>
    cases hf : n.fraction with
    | some digits =>
      -- the digits after the point go on, and then an exponent may follow
      obtain ⟨hw, hd⟩ := whole_chars hn more (by simp [hf])
      have hlen := length_takeWhile_digits (hn.fraction digits hf) more
      have hchars : n.chars ++ more = n.whole ++ (n.fraction.elim [] ('.' :: ·) ++ more) := by
        simp [chars, he]
      rcases hs : scanExponent ((digits ++ more).dropWhile isDecimalDigit) with ⟨exponent, tail⟩
      refine ⟨⟨n.whole, some ((digits ++ more).takeWhile isDecimalDigit), exponent⟩, tail, ?_, ?_⟩
      · rw [hchars, scan_eq_some_iff, hw, hd, hf]
        refine ⟨rfl, rfl, hs.symm, hn.nonempty.imp_right fun hne => ?_⟩
        rw [hf] at hne
        exact ne_nil_of_length_le hlen hne
      · simp only [length_chars, he, hf, Option.elim_some, Option.elim_none, List.length_cons,
          List.length_nil]
        omega
    | none =>
      -- the digits themselves go on, and then a fraction and an exponent may follow
      have hlen := length_takeWhile_digits hn.whole more
      have hchars : n.chars ++ more = n.whole ++ more := by simp [chars, he, hf]
      rcases hg : scanFraction ((n.whole ++ more).dropWhile isDecimalDigit) with ⟨fraction, later⟩
      rcases hs : scanExponent later with ⟨exponent, tail⟩
      refine ⟨⟨(n.whole ++ more).takeWhile isDecimalDigit, fraction, exponent⟩, tail, ?_, ?_⟩
      · rw [hchars, scan_eq_some_iff, hg]
        refine ⟨rfl, rfl, hs.symm, .inl (ne_nil_of_length_le hlen ?_)⟩
        simpa [hf] using hn.nonempty
      · simp only [length_chars, he, hf, Option.elim_none, List.length_nil]
        omega

theorem exists_cons (hn : n.WellFormed) :
    ∃ c rest, n.chars = c :: rest ∧ (isDecimalDigit c = true ∨ c = '.') := by
  cases hw : n.whole with
  | cons c whole =>
    refine ⟨c, _, by rw [chars, hw]; rfl, .inl (hn.whole c ?_)⟩
    rw [hw]
    exact List.mem_cons_self
  | nil =>
    cases hf : n.fraction with
    | some digits => exact ⟨'.', _, by rw [chars, hw, hf]; rfl, .inr rfl⟩
    | none =>
      have := hn.nonempty
      simp [hw, hf] at this

theorem scanSign_chars {sign : Option Char} (hs : IsSign sign) (hn : n.WellFormed)
    (rest : List Char) : scanSign (sign.toList ++ (n.chars ++ rest)) = (sign, n.chars ++ rest) := by
  obtain ⟨c, later, hc, hd⟩ := exists_cons hn
  rw [hc]
  refine scanSign_of_isSign hs ?_
  rcases hd with hd | rfl
  · exact ⟨(digit_ne hd).1, (digit_ne hd).2.1⟩
  · decide

/-- Where a numeral with perhaps a sign ends, and which one it is, can be told from the text. -/
theorem signed_append_inj {sign sign' : Option Char} {n' : Numeral} {rest' : List Char}
    (hs : IsSign sign) (hn : n.WellFormed) (hr : Stops rest) (hs' : IsSign sign')
    (hn' : n'.WellFormed) (hr' : Stops rest')
    (h : sign.toList ++ (n.chars ++ rest) = sign'.toList ++ (n'.chars ++ rest')) :
    sign = sign' ∧ n = n' ∧ rest = rest' := by
  have hsigns := scanSign_chars hs hn rest
  rw [h, scanSign_chars hs' hn' rest', Prod.mk.injEq] at hsigns
  obtain ⟨rfl, hchars⟩ := hsigns
  have hscan := scan_chars hn hr
  rw [← hchars, scan_chars hn' hr', Option.some.injEq, Prod.mk.injEq] at hscan
  exact ⟨rfl, hscan.1.symm, hscan.2.symm⟩

end Numeral

theorem readNumber_chars {sign : Option Char} {n : Numeral} (hs : IsSign sign)
    (hn : n.WellFormed) :
    readNumber (String.ofList (sign.toList ++ n.chars)) =
      some (n.value.nearest (sign = some '-')) := by
  have hscan := Numeral.scan_chars hn stops_nil
  have hsign := Numeral.scanSign_chars hs hn []
  rw [List.append_nil] at hscan hsign
  rw [readNumber, String.toList_ofList, hsign]
  simp only [hscan]

theorem scan_of_readNumber {mark : Char} {rest : List Char} (hm : mark = '+' ∨ mark = '-')
    (h : (readNumber (String.ofList (mark :: rest))).isSome) :
    ∃ n, Numeral.scan rest = some (n, []) := by
  have hs : scanSign (mark :: rest) = (some mark, rest) := by simp [scanSign, hm]
  rw [readNumber, String.toList_ofList, hs] at h
  dsimp only at h
  split at h
  · rename_i n hn
    exact ⟨n, hn⟩
  · contradiction

end ArithScript
