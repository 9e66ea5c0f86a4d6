import Mathlib.Data.List.TakeWhile
import ArithScript.Proofs.Grammar.Truncation

/-!
Lines of a text. No lexeme but a line break goes beyond the end of its line, so that a line is
divided into the same tokens whatever comes after it.
-/
namespace ArithScript

variable {line rest : List Char}

theorem takeWhile_before {p : Char → Bool} {c : Char} (hc : p c = false) :
    (line ++ c :: rest).takeWhile p = line.takeWhile p := by
  induction line with
  | nil => simp [hc]
  | cons a line ih =>
    rw [List.cons_append, List.takeWhile_cons, List.takeWhile_cons, ih]

theorem dropWhile_before {p : Char → Bool} {c : Char} (hc : p c = false) :
    (line ++ c :: rest).dropWhile p = line.dropWhile p ++ c :: rest := by
  induction line with
  | nil => simp [hc]
  | cons a line ih =>
    rw [List.cons_append, List.dropWhile_cons, List.dropWhile_cons, ih]
    split <;> rfl

namespace Lexeme
variable {c d : Char}

/-- Characters that begin ignored text or end a line. -/
def isEnd (c : Char) : Bool := isBlank c || c = '\\' || c = '\n'

theorem eq_of_isEnd (h : isEnd c = true) :
    c = ' ' ∨ c = '\t' ∨ c = '\x0c' ∨ c = '\\' ∨ c = '\n' := by
  simpa [isEnd, isBlank, or_assoc] using h

theorem ne_of_isEnd (h : isEnd c = true) (hd : isEnd d = false) : c ≠ d := by
  rintro rfl
  rw [h] at hd
  contradiction

theorem isDecimalDigit_of_isEnd (h : isEnd c = true) : isDecimalDigit c = false := by
  rcases eq_of_isEnd h with rfl | rfl | rfl | rfl | rfl <;> decide

theorem isNamePart_of_isEnd (h : isEnd c = true) : isNamePart c = false := by
  rcases eq_of_isEnd h with rfl | rfl | rfl | rfl | rfl <;> decide

end Lexeme

namespace Numeral
variable {c : Char}

theorem scanSign_before (hc : Lexeme.isEnd c = true) :
    scanSign (line ++ c :: rest) = ((scanSign line).1, (scanSign line).2 ++ c :: rest) := by
  cases line with
  | nil =>
    have hplus : c ≠ '+' := Lexeme.ne_of_isEnd hc (by decide)
    have hminus : c ≠ '-' := Lexeme.ne_of_isEnd hc (by decide)
    simp [scanSign, hplus, hminus]
  | cons a later =>
    rw [List.cons_append, scanSign, scanSign]
    split <;> rfl

theorem scanExponent_before (hc : Lexeme.isEnd c = true) :
    scanExponent (line ++ c :: rest) =
      ((scanExponent line).1, (scanExponent line).2 ++ c :: rest) := by
  cases line with
  | nil =>
    have hlower : c ≠ 'e' := Lexeme.ne_of_isEnd hc (by decide)
    have hupper : c ≠ 'E' := Lexeme.ne_of_isEnd hc (by decide)
    simp [scanExponent, hlower, hupper]
  | cons mark later =>
    have hdigit := Lexeme.isDecimalDigit_of_isEnd hc
    rw [List.cons_append, scanExponent, scanExponent, scanSign_before hc]
    dsimp only
    rw [takeWhile_before hdigit, dropWhile_before hdigit]
    split <;> rfl

theorem scanFraction_before (hc : Lexeme.isEnd c = true) :
    scanFraction (line ++ c :: rest) =
      ((scanFraction line).1, (scanFraction line).2 ++ c :: rest) := by
  cases line with
  | nil =>
    have hpoint : c ≠ '.' := Lexeme.ne_of_isEnd hc (by decide)
    rw [List.nil_append, scanFraction_of_ne (by simpa using hpoint)]
    rfl
  | cons a later =>
    by_cases ha : a = '.'
    · subst ha
      have hdigit := Lexeme.isDecimalDigit_of_isEnd hc
      rw [List.cons_append, scanFraction, scanFraction, takeWhile_before hdigit,
        dropWhile_before hdigit]
    · rw [scanFraction_of_ne (by simpa using ha), scanFraction_of_ne (by simpa using ha)]

theorem scan_before (hc : Lexeme.isEnd c = true) :
    scan (line ++ c :: rest) =
      (scan line).map fun found => (found.1, found.2 ++ c :: rest) := by
  have hdigit := Lexeme.isDecimalDigit_of_isEnd hc
  rw [scan, scan, takeWhile_before hdigit, dropWhile_before hdigit, scanFraction_before hc]
  dsimp only
  rw [scanExponent_before hc]
  split <;> rfl

end Numeral

namespace Lexeme
variable {c : Char}

theorem blanks_before : blanks (line ++ '\n' :: rest) = blanks line := by
  rw [blanks, blanks, takeWhile_before (by decide)]

theorem continuation_eq_zero {text : List Char} (h : '\\' ∉ text) : continuation text = 0 := by
  rw [continuation.eq_def]
  split
  · exact absurd List.mem_cons_self h
  · rfl

theorem ignored_before (h : '\\' ∉ line) : ignored (line ++ '\n' :: rest) = ignored line := by
  cases line with
  | nil => rfl
  | cons c later =>
    have hlater : continuation (c :: later ++ '\n' :: rest) = 0 := by
      rw [continuation.eq_def]
      split
      · rename_i heq
        rw [(List.cons.inj heq).1] at h
        exact absurd List.mem_cons_self h
      · rfl
    rw [ignored, ignored, blanks_before, hlater, continuation_eq_zero h]

theorem number_before (hc : isEnd c = true) : number (line ++ c :: rest) = number line := by
  rw [number, number, Numeral.scan_before hc]
  cases Numeral.scan line <;> rfl

theorem name_before (hc : isEnd c = true) : name (line ++ c :: rest) = name line := by
  cases line with
  | nil =>
    have hpart := isNamePart_of_isEnd hc
    have hstart : isNameStart c = false := by
      simp only [isNamePart, isNameStart, Char.isAlphanum, Bool.or_eq_false_iff] at hpart ⊢
      exact ⟨hpart.1.1, hpart.2⟩
    simp [name, hstart]
  | cons a line =>
    rw [List.cons_append, name, name, takeWhile_before (isNamePart_of_isEnd hc)]

theorem string_before : string (line ++ '\n' :: rest) = string line := by
  cases line with
  | nil => rfl
  | cons mark line =>
    rw [List.cons_append, string, string, takeWhile_before (by simp)]
    split
    · rename_i hmark
      have hne : mark ≠ '\n' := by
        rintro rfl
        simp at hmark
      have hle := (List.takeWhile_prefix (l := line) fun c => c ≠ mark && c ≠ '\n').length_le
      rcases Nat.lt_or_eq_of_le hle with hlt | heq
      · dsimp only
        rw [List.getElem?_append_left hlt]
      · dsimp only
        rw [heq, List.getElem?_append_right (Nat.le_refl _)]
        simp [hne.symm]
    · rfl

theorem compOp_before (hc : isEnd c = true) : compOp (line ++ c :: rest) = compOp line := by
  have hequal : c ≠ '=' := ne_of_isEnd hc (by decide)
  rcases line with _ | ⟨a, _ | ⟨b, line⟩⟩
  · rcases eq_of_isEnd hc with rfl | rfl | rfl | rfl | rfl <;> rfl
  · by_cases ha : a = '=' ∨ a = '!' ∨ a = '<' ∨ a = '>'
    · rcases ha with rfl | rfl | rfl | rfl <;> simp [compOp, hequal]
    · simp only [not_or] at ha
      simp [compOp, ha]
  · by_cases ha : a = '=' ∨ a = '!' ∨ a = '<' ∨ a = '>'
    · by_cases hb : b = '='
      · rcases ha with rfl | rfl | rfl | rfl <;> simp [compOp, hb]
      · rcases ha with rfl | rfl | rfl | rfl <;> simp [compOp, hb]
    · simp only [not_or] at ha
      simp [compOp, ha]

theorem single_before {mark : Char} (h : c ≠ mark) :
    single mark (line ++ c :: rest) = single mark line := by
  cases line with
  | nil => simp [single, h]
  | cons c line => rfl

theorem ofTerminal_before {t : Terminal} (h : t ≠ .newline) :
    ofTerminal t (line ++ '\n' :: rest) = ofTerminal t line := by
  have hc : isEnd '\n' = true := rfl
  cases t with
  | number => exact number_before hc
  | name => exact name_before hc
  | string => exact string_before
  | compOp => exact compOp_before hc
  | newline => contradiction
  | _ => exact single_before (by decide)

theorem newlines_nil : newlines [] = 0 := ofTerminal_nil .newline

/-- At the end of a line, the break takes the blanks after it, and then further breaks. -/
theorem newlines_break :
    newlines ('\n' :: rest) = 1 + blanks rest + newlines (rest.drop (blanks rest)) := by
  have hpiece : newlinePiece ('\n' :: rest) = 1 + blanks rest := rfl
  rw [newlines_eq, hpiece, if_neg (by omega), Nat.add_comm 1 (blanks rest), List.drop_succ_cons]

theorem newlinePiece_comment (rest : List Char) (h : '\n' ∉ line) :
    newlinePiece ('#' :: line ++ '\n' :: rest) = line.length + 1 ∧
      newlinePiece ('#' :: line) = line.length + 1 := by
  have hall : line.takeWhile (· ≠ '\n') = line := by
    rw [List.takeWhile_eq_self_iff]
    intro c hc
    rw [decide_eq_true_eq]
    rintro rfl
    exact h hc
  constructor
  · rw [List.cons_append, newlinePiece, takeWhile_before (by simp), hall, Nat.add_comm]
  · rw [newlinePiece, hall, Nat.add_comm]

theorem newlines_comment (rest : List Char) (h : '\n' ∉ line) :
    newlines ('#' :: line ++ '\n' :: rest) = line.length + 1 + newlines ('\n' :: rest) ∧
      newlines ('#' :: line) = line.length + 1 := by
  obtain ⟨hbefore, halone⟩ := newlinePiece_comment rest h
  constructor
  · rw [newlines_eq, hbefore, if_neg (by omega)]
    simp
  · rw [newlines_eq, halone, if_neg (by omega)]
    simp [newlines_nil]

end Lexeme

/-- The characters of one line, without a continuation. -/
def IsLine (line : List Char) : Prop := ∀ c ∈ line, c ≠ '\n' ∧ c ≠ '\r' ∧ c ≠ '\\'

namespace IsLine

theorem drop (h : IsLine line) (n : Nat) : IsLine (line.drop n) :=
  fun c hc => h c (List.mem_of_mem_drop hc)

theorem newline_notMem (h : IsLine line) : '\n' ∉ line := fun hc => (h _ hc).1 rfl

theorem backslash_notMem (h : IsLine line) : '\\' ∉ line := fun hc => (h _ hc).2.2 rfl

theorem exists_comment (h : IsLine line) (hn : Lexeme.newlines line ≠ 0) :
    ∃ later, line = '#' :: later := by
  cases line with
  | nil => exact absurd Lexeme.newlines_nil hn
  | cons c later =>
    rcases Lexeme.leading_of_newlines hn with rfl | rfl | rfl
    · exact absurd rfl (h _ List.mem_cons_self).1
    · exact absurd rfl (h _ List.mem_cons_self).2.1
    · exact ⟨later, rfl⟩

end IsLine

namespace Lexeme
variable {offered : Terminal → Bool} {t : Terminal} {n : Nat}

/-- Where a line goes on, the end of the line does not change what is found. -/
theorem ofTerminal_eq_zero_before (h : IsLine line) (hne : line ≠ []) :
    ofTerminal t (line ++ '\n' :: rest) = 0 ↔ ofTerminal t line = 0 := by
  by_cases ht : t = .newline
  · subst ht
    obtain ⟨c, later, rfl⟩ := List.exists_cons_of_ne_nil hne
    by_cases hc : c = '#'
    · subst hc
      have hcomment := newlines_comment rest fun hmem =>
        h.newline_notMem (List.mem_cons_of_mem _ hmem)
      rw [ofTerminal, hcomment.1, hcomment.2]
      omega
    · have hnone {text : List Char} : newlines (c :: text) = 0 := by
        by_contra hn
        have hself := h c List.mem_cons_self
        rcases leading_of_newlines hn with rfl | rfl | rfl
        · exact hself.1 rfl
        · exact hself.2.1 rfl
        · exact hc rfl
      simp [ofTerminal, hnone]
  · rw [ofTerminal_before ht]

theorem first?_before (h : first? offered line = some (t, n)) (ht : t ≠ .newline) :
    first? offered (line ++ '\n' :: rest) = some (t, n) := by
  obtain ⟨ho, hn, hpos, hlong⟩ := first?_eq_some_iff.mp h
  refine first?_eq_some_iff.mpr ⟨ho, (ofTerminal_before ht).trans hn, hpos, fun he hc => ?_⟩
  exact (compOp_before rfl).trans (hlong he hc)

theorem first?_none_before (h : first? offered line = none) (hl : IsLine line) (hne : line ≠ []) :
    first? offered (line ++ '\n' :: rest) = none := by
  rw [first?_eq_none_iff] at h ⊢
  intro t ht
  exact (ofTerminal_eq_zero_before hl hne).mpr (h t ht)

end Lexeme

namespace Token
variable {offset : Nat}

theorem scanFrom_newlines {text : List Char} (offset : Nat) (h : Lexeme.newlines text ≠ 0) :
    ∃ newline, newline.terminal = .newline ∧
      scanFrom .script offset text =
        (scanFrom .script (offset + Lexeme.newlines text) (text.drop (Lexeme.newlines text))).map
          (newline :: ·) := by
  have hi : Lexeme.ignored text = 0 := Lexeme.ignored_of_lexeme (t := .newline) h
  have hne : text ≠ [] := by
    rintro rfl
    exact h Lexeme.newlines_nil
  obtain ⟨n, hn⟩ := Nat.exists_eq_succ_of_ne_zero h
  have hfirst : Lexeme.first? StartSymbol.script.hasTerminal text = some (.newline, n + 1) :=
    Lexeme.first?_eq_some_iff.mpr ⟨rfl, hn, n.succ_ne_zero, nofun⟩
  exact ⟨_, rfl, by rw [scanFrom_of_first? hi hne hfirst, hn]⟩

theorem scanFrom_of_none {text : List Char} (hi : Lexeme.ignored text = 0) (hne : text ≠ [])
    (h : Lexeme.first? StartSymbol.script.hasTerminal text = none) :
    scanFrom .script offset text = none := by
  rw [scanFrom]
  simp [hne, hi, h]

theorem scanFrom_before (h : IsLine line) (offset : Nat) (rest : List Char) :
    (scanFrom .script offset line = none ∧ scanFrom .script offset (line ++ '\n' :: rest) = none) ∨
    ∃ front comment newline, newline.terminal = .newline ∧
      (∀ token ∈ comment, token.terminal = .newline) ∧
      scanFrom .script offset line = some (front ++ Option.toList comment) ∧
      scanFrom .script offset (line ++ '\n' :: rest) =
        (scanFrom .script (offset + line.length + Lexeme.newlines ('\n' :: rest))
          (('\n' :: rest).drop (Lexeme.newlines ('\n' :: rest)))).map (front ++ newline :: ·) := by
  have hbreak : Lexeme.newlines ('\n' :: rest) ≠ 0 := by
    rw [Lexeme.newlines_break]
    omega
  -- on the line, from one token to the next; a comment, if there is one, is its last token
  fun_induction scanFrom .script offset line with
  | case1 offset =>
    obtain ⟨newline, hnewline, hscan⟩ := scanFrom_newlines offset hbreak
    exact .inr ⟨[], none, newline, hnewline, by simp, rfl, hscan⟩
  | case2 offset line hne n hi ih =>
    have hle := Lexeme.ignored_le line
    have hi' : Lexeme.ignored (line ++ '\n' :: rest) = n + 1 := by
      rw [Lexeme.ignored_before h.backslash_notMem, hi]
    rw [scanFrom_of_ignored hi' (by simp), List.drop_append_of_le_length (by omega)]
    have hlength : offset + (n + 1) + (line.drop (n + 1)).length = offset + line.length := by
      rw [List.length_drop]
      omega
    rw [← hlength]
    exact ih (h.drop _)
  | case3 offset line hne hi t n hfirst ih =>
    have hi' : Lexeme.ignored (line ++ '\n' :: rest) = 0 := by
      rw [Lexeme.ignored_before h.backslash_notMem, hi]
    obtain ⟨-, hn, -, -⟩ := Lexeme.first?_eq_some_iff.mp hfirst
    by_cases ht : t = .newline
    · subst ht
      obtain ⟨later, rfl⟩ := h.exists_comment (hn.trans_ne n.succ_ne_zero)
      have hcomment := Lexeme.newlines_comment rest fun hmem =>
        h.newline_notMem (List.mem_cons_of_mem _ hmem)
      have hlength : n + 1 = later.length + 1 := hn.symm.trans hcomment.2
      have hpos : Lexeme.newlines ('#' :: later ++ '\n' :: rest) ≠ 0 := by omega
      obtain ⟨newline, hnewline, hscan⟩ := scanFrom_newlines offset hpos
      refine .inr ⟨[], some (ofPrefix .newline offset (n + 1) ('#' :: later)), newline, hnewline,
        by simp [ofPrefix], ?_, ?_⟩
      · rw [hlength, List.drop_of_length_le (by simp), scanFrom_nil]
        rfl
      · rw [hscan, hcomment.1, List.length_cons, Nat.add_assoc offset, ← List.drop_drop]
        simp
    · have hle := Lexeme.ofTerminal_le t line
      rw [scanFrom_of_first? hi' (by simp) (Lexeme.first?_before hfirst ht),
        List.drop_append_of_le_length (by omega)]
      have hlength : offset + (n + 1) + (line.drop (n + 1)).length = offset + line.length := by
        rw [List.length_drop]
        omega
      have htoken : ofPrefix t offset (n + 1) (line ++ '\n' :: rest) =
          ofPrefix t offset (n + 1) line := by
        rw [ofPrefix, List.take_append_of_le_length (by omega), ofPrefix]
      rw [htoken]
      rcases ih (h.drop _) with ⟨hnone, hnone'⟩ | ⟨front, comment, newline, hnewline, hc, hs, hs'⟩
      · rw [hnone, hnone']
        exact .inl ⟨rfl, rfl⟩
      · rw [hlength] at hs'
        refine .inr ⟨ofPrefix t offset (n + 1) line :: front, comment, newline, hnewline, hc,
          ?_, ?_⟩
        · rw [hs]
          rfl
        · rw [hs', Option.map_map]
          rfl
  | case4 offset line hne hi hnone =>
    have hfirst := Lexeme.first?_eq_none_of_forall fun t n => hnone t n
    have hi' : Lexeme.ignored (line ++ '\n' :: rest) = 0 := by
      rw [Lexeme.ignored_before h.backslash_notMem, hi]
    exact .inl ⟨rfl, scanFrom_of_none hi' (by simp) (Lexeme.first?_none_before hfirst h hne)⟩

end Token

end ArithScript
