import Mathlib.Tactic.Common
import ArithScript.Grammar.Token

/-! Which terminal can be read at a place of a text. The first character tells, except that `=` also
begins `==`; so the choice among several offered terminals hardly matters. -/
namespace ArithScript

namespace Lexeme

def leading? (c : Char) : Option Terminal :=
  if isDecimalDigit c || c = '.' then some .number
  else if isNameStart c then some .name
  else match c with
    | '"' | '\'' => some .string
    | '!' | '<' | '>' => some .compOp
    | '=' => some .equal
    | '+' => some .plus
    | '-' => some .minus
    | '*' => some .star
    | '/' => some .slash
    | '%' => some .percent
    | '~' => some .tilde
    | '(' => some .lpar
    | ')' => some .rpar
    | ',' => some .comma
    | '\n' | '\r' | '#' => some .newline
    | _ => none

theorem not_isDecimalDigit_of_isNameStart {c : Char} (h : isNameStart c = true) :
    isDecimalDigit c = false ∧ c ≠ '.' := by
  delta isNameStart Char.isAlpha Char.isUpper Char.isLower at h
  simp only [Bool.or_eq_true, Bool.and_eq_true, decide_eq_true_eq, UInt32.le_iff_toNat_le] at h
  constructor
  · simp only [isDecimalDigit, digitValue?]
    rcases h with (⟨h, h'⟩ | ⟨h, h'⟩) | rfl
    · grind [Char.toNat]
    · grind [Char.toNat]
    · rfl
  · rintro rfl
    revert h
    decide

theorem scan_eq_none {c : Char} {rest : List Char} (hc : isDecimalDigit c = false)
    (hp : c ≠ '.') : Numeral.scan (c :: rest) = none := by
  simp [Numeral.scan, Numeral.scanFraction, hc, hp]

theorem leading_of_number {c : Char} {rest : List Char} (h : number (c :: rest) ≠ 0) :
    isDecimalDigit c = true ∨ c = '.' := by
  by_contra hc
  simp only [not_or, Bool.not_eq_true] at hc
  exact h (by simp [number, scan_eq_none hc.1 hc.2])

theorem leading_of_newlines {c : Char} {rest : List Char} (h : newlines (c :: rest) ≠ 0) :
    c = '\n' ∨ c = '\r' ∨ c = '#' := by
  by_contra hc
  simp only [not_or] at hc
  apply h
  have hpiece : newlinePiece (c :: rest) = 0 := by
    simp [newlinePiece, lineBreak, hc]
  rw [newlines]
  simp [hpiece]

theorem leading_of_lexeme {t : Terminal} {c : Char} {rest : List Char}
    (h : ofTerminal t (c :: rest) ≠ 0) : leading? c = some t ∨ c = '=' ∧ t = .compOp := by
  cases t with
  | number =>
    have := leading_of_number h
    simp_all [leading?]
  | name =>
    have hc : isNameStart c = true := by
      by_contra hc
      exact h (by simp [ofTerminal, name, hc])
    obtain ⟨hd, hp⟩ := not_isDecimalDigit_of_isNameStart hc
    simp [leading?, hd, hp, hc]
  | string =>
    have hc : c = '"' ∨ c = '\'' := by
      by_contra hc
      exact h (by simp_all [ofTerminal, string])
    rcases hc with rfl | rfl <;> exact .inl rfl
  | compOp =>
    by_cases hc : c = '!' ∨ c = '<' ∨ c = '>'
    · rcases hc with rfl | rfl | rfl <;> exact .inl rfl
    · by_cases he : c = '='
      · exact .inr ⟨he, rfl⟩
      · simp only [not_or] at hc
        simp [ofTerminal, compOp, hc, he] at h
  | newline =>
    rcases leading_of_newlines h with rfl | rfl | rfl <;> exact .inl rfl
  | _ =>
    simp only [ofTerminal, single, ne_eq, ite_eq_right_iff, Nat.one_ne_zero, imp_false,
      Decidable.not_not] at h
    subst h
    exact .inl rfl

theorem leading_of_ignored {c : Char} {rest : List Char} (h : ignored (c :: rest) ≠ 0) :
    leading? c = none ∧ c ≠ '=' := by
  have hc : isBlank c = true ∨ c = '\\' := by
    by_contra hn
    rw [not_or] at hn
    refine h ?_
    have hb : blanks (c :: rest) = 0 := by simp [blanks, hn.1]
    rw [ignored, if_pos hb, continuation.eq_def]
    split
    · rename_i heq
      exact absurd (List.cons.inj heq).1 hn.2
    · rfl
  rcases hc with hc | rfl
  · simp only [isBlank, Bool.or_eq_true, decide_eq_true_eq] at hc
    rcases hc with (rfl | rfl) | rfl <;> decide
  · decide

theorem ofTerminal_nil (t : Terminal) : ofTerminal t [] = 0 := by
  cases t with
  | newline =>
    rw [ofTerminal, newlines]
    simp
  | _ => rfl

theorem ignored_of_lexeme {t : Terminal} {text : List Char} (h : ofTerminal t text ≠ 0) :
    ignored text = 0 := by
  by_contra hi
  cases text with
  | nil => exact h (ofTerminal_nil t)
  | cons c rest =>
    obtain ⟨hnone, hne⟩ := leading_of_ignored hi
    rcases leading_of_lexeme h with hlead | ⟨he, -⟩
    · rw [hnone] at hlead
      contradiction
    · exact hne he

/-- Two terminals that match at one place are the same, or the operator `==` and its first sign. -/
theorem eq_of_lexemes {t u : Terminal} {text : List Char} (ht : ofTerminal t text ≠ 0)
    (hu : ofTerminal u text ≠ 0) :
    t = u ∨ t = .compOp ∧ u = .equal ∨ t = .equal ∧ u = .compOp := by
  cases text with
  | nil => exact absurd (ofTerminal_nil t) ht
  | cons c rest =>
    rcases leading_of_lexeme ht with ht | ⟨rfl, rfl⟩ <;>
      rcases leading_of_lexeme hu with hu | ⟨he, rfl⟩
    · exact .inl (Option.some.inj (ht.symm.trans hu))
    · subst he
      exact .inr (.inr ⟨(Option.some.inj ht).symm, rfl⟩)
    · exact .inr (.inl ⟨rfl, (Option.some.inj hu).symm⟩)
    · exact .inl rfl

variable {offered offered' : Terminal → Bool} {text : List Char} {t : Terminal} {n : Nat}

theorem first?_eq_some_iff :
    first? offered text = some (t, n) ↔
      offered t = true ∧ ofTerminal t text = n ∧ n ≠ 0 ∧
        (t = .equal → offered .compOp = true → ofTerminal .compOp text = 0) := by
  have horder : Terminal.all.Pairwise fun a b => a ≠ b ∧ ¬(a = .equal ∧ b = .compOp) := by decide
  constructor
  · intro h
    obtain ⟨before, a, after, hall, ha, hbefore⟩ := List.findSome?_eq_some_iff.mp h
    split at ha
    · rename_i hmatch
      simp only [Option.some.injEq, Prod.mk.injEq] at ha
      obtain ⟨rfl, rfl⟩ := ha
      simp only [Bool.and_eq_true, decide_eq_true_eq] at hmatch
      refine ⟨hmatch.1, rfl, hmatch.2, ?_⟩
      rintro rfl hoffered
      rw [hall, List.pairwise_append, List.pairwise_cons] at horder
      have hmem : Terminal.compOp ∈ before ∨ Terminal.compOp ∈ Terminal.equal :: after :=
        List.mem_append.mp (hall ▸ Terminal.mem_all .compOp)
      rcases hmem with hmem | hmem
      · simpa [hoffered] using hbefore _ hmem
      · rcases List.mem_cons.mp hmem with h | h
        · contradiction
        · exact absurd ⟨rfl, rfl⟩ (horder.2.1.1 _ h).2
    · contradiction
  · rintro ⟨ho, rfl, hn, heq⟩
    obtain ⟨before, after, hall⟩ := List.append_of_mem (Terminal.mem_all t)
    refine List.findSome?_eq_some_iff.mpr ⟨before, t, after, hall, by simp [ho, hn], ?_⟩
    intro u hu
    rw [hall, List.pairwise_append] at horder
    obtain ⟨hne, hnot⟩ := horder.2.2 u hu t (by simp)
    simp only [ite_eq_right_iff, Bool.and_eq_true, decide_eq_true_eq, reduceCtorEq, imp_false,
      not_and, Decidable.not_not]
    intro hou
    by_contra hmatch
    rcases eq_of_lexemes hmatch hn with h | ⟨rfl, rfl⟩ | ⟨rfl, rfl⟩
    · exact hne h
    · exact hmatch (heq rfl hou)
    · exact hnot ⟨rfl, rfl⟩

theorem first?_eq_none_iff :
    first? offered text = none ↔ ∀ t, offered t = true → ofTerminal t text = 0 := by
  rw [first?, List.findSome?_eq_none_iff]
  constructor
  · intro h t ht
    have hself := h t (Terminal.mem_all t)
    simpa [ht] using hself
  · intro h t _
    simpa using h t

theorem first?_eq_none_of_forall (h : ∀ t n, first? offered text ≠ some (t, n + 1)) :
    first? offered text = none := by
  rw [Option.eq_none_iff_forall_not_mem]
  rintro ⟨t, n⟩ hfirst
  obtain ⟨m, rfl⟩ := Nat.exists_eq_succ_of_ne_zero (first?_eq_some_iff.mp hfirst).2.2.1
  exact h t m hfirst

/-- The terminal found among some offers is found among others that include it, unless these add
`==` to a lone `=`. -/
theorem first?_eq_of_offered (h : first? offered text = some (t, n)) (ht : offered' t = true)
    (heq : t = .equal → offered' .compOp = true → offered .compOp = true) :
    first? offered' text = some (t, n) := by
  obtain ⟨_, hn, hpos, hlong⟩ := first?_eq_some_iff.mp h
  exact first?_eq_some_iff.mpr ⟨ht, hn, hpos, fun he ho => hlong he (heq he ho)⟩

end Lexeme

namespace Token
variable {start : StartSymbol} {offset n : Nat} {text : List Char} {t : Terminal}

theorem scanFrom_nil : scanFrom start offset [] = some [] := by
  rw [scanFrom]
  rfl

theorem scanFrom_of_ignored (h : Lexeme.ignored text = n + 1) (hne : text ≠ []) :
    scanFrom start offset text = scanFrom start (offset + (n + 1)) (text.drop (n + 1)) := by
  rw [scanFrom]
  simp [hne, h]

theorem scanFrom_of_first? (hi : Lexeme.ignored text = 0) (hne : text ≠ [])
    (h : Lexeme.first? start.hasTerminal text = some (t, n + 1)) :
    scanFrom start offset text =
      (scanFrom start (offset + (n + 1)) (text.drop (n + 1))).map
        (ofPrefix t offset (n + 1) text :: ·) := by
  rw [scanFrom]
  simp [hne, hi, h]

theorem hasTerminal_of_scanFrom {tokens : List Token} (h : scanFrom start offset text = some tokens) :
    ∀ token ∈ tokens, start.hasTerminal token.terminal := by
  fun_induction scanFrom start offset text generalizing tokens with
  | case1 => simp_all
  | case2 _ _ _ _ _ ih => exact ih h
  | case3 offset text hne hi t n hfirst ih =>
    obtain ⟨rest, hrest, rfl⟩ := Option.map_eq_some_iff.mp h
    have ht := (Lexeme.first?_eq_some_iff.mp hfirst).1
    simpa [ofPrefix, ht] using ih hrest
  | case4 => contradiction

end Token
end ArithScript
