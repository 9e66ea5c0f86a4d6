import ArithScript.Proofs.Grammar.Lexing
import ArithScript.Proofs.Grammar.Rule
import ArithScript.Proofs.Numeric.Scan

/-! Where the tokens of a text stand: each is a lexeme at its offset, and between two there is only
ignored text. -/
namespace ArithScript

namespace Lexeme

theorem blanks_le (text : List Char) : blanks text ≤ text.length :=
  (List.takeWhile_prefix isBlank).length_le

theorem lineBreak_le (text : List Char) : lineBreak text ≤ text.length := by
  rw [lineBreak.eq_def]
  split <;> simp

theorem continuation_le (text : List Char) : continuation text ≤ text.length := by
  rw [continuation.eq_def]
  split
  · rename_i rest
    have hbreak := lineBreak_le (rest.drop (blanks rest))
    have hblanks := blanks_le rest
    rw [List.length_drop] at hbreak
    rw [List.length_cons]
    dsimp only
    split <;> omega
  · exact Nat.zero_le _

theorem ignored_le (text : List Char) : ignored text ≤ text.length := by
  rw [ignored]
  split
  · exact continuation_le text
  · exact blanks_le text

theorem newlinePiece_le (text : List Char) : newlinePiece text ≤ text.length := by
  rw [newlinePiece.eq_def]
  split
  · rename_i rest
    have := (List.takeWhile_prefix (l := rest) (· ≠ '\n')).length_le
    rw [List.length_cons]
    omega
  · have hbreak := lineBreak_le text
    have hblanks := blanks_le (text.drop (lineBreak text))
    rw [List.length_drop] at hblanks
    dsimp only
    split <;> omega

theorem newlines_le (text : List Char) : newlines text ≤ text.length := by
  fun_induction newlines text with
  | case1 text piece h ih =>
    have hpiece : piece ≤ text.length := newlinePiece_le text
    rw [List.length_drop] at ih
    omega
  | case2 => exact Nat.zero_le _

theorem number_le (text : List Char) : number text ≤ text.length := by
  rw [number]
  split
  · rename_i n rest h
    rw [← Numeral.scan_append h, List.length_append]
    omega
  · exact Nat.zero_le _

theorem name_le (text : List Char) : name text ≤ text.length := by
  cases text with
  | nil => exact Nat.le_refl _
  | cons c rest =>
    have := (List.takeWhile_prefix (l := rest) isNamePart).length_le
    rw [name, List.length_cons]
    split <;> omega

theorem string_le (text : List Char) : string text ≤ text.length := by
  cases text with
  | nil => exact Nat.le_refl _
  | cons mark rest =>
    rw [string]
    dsimp only
    split
    · split
      · rename_i h
        have := (List.getElem?_eq_some_iff.mp h).1
        rw [List.length_cons]
        omega
      · exact Nat.zero_le _
    · exact Nat.zero_le _

theorem compOp_le (text : List Char) : compOp text ≤ text.length := by
  rw [compOp.eq_def]
  split <;> simp

theorem single_le (mark : Char) (text : List Char) : single mark text ≤ text.length := by
  rw [single.eq_def]
  split
  · split <;> simp
  · exact Nat.zero_le _

theorem ofTerminal_le (t : Terminal) (text : List Char) : ofTerminal t text ≤ text.length := by
  cases t with
  | number => exact number_le text
  | name => exact name_le text
  | string => exact string_le text
  | compOp => exact compOp_le text
  | newline => exact newlines_le text
  | _ => exact single_le _ text

end Lexeme

structure Token.StandsIn (text : List Char) (token : Token) : Prop where
  lexeme : Lexeme.ofTerminal token.terminal (text.drop token.start) = token.stop - token.start
  lt : token.start < token.stop
  le : token.stop ≤ text.length
  text_eq : token.text = String.ofList ((text.drop token.start).take (token.stop - token.start))

/-- From one offset to another there is nothing but ignored text. -/
inductive Skips (text : List Char) : Nat → Nat → Prop
  | none (offset : Nat) : Skips text offset offset
  | some {offset n stop : Nat} (h : Lexeme.ignored (text.drop offset) = n + 1)
      (rest : Skips text (offset + (n + 1)) stop) : Skips text offset stop

/-- From the offset on the tokens stand in the text one after the other. -/
def LaidOut (text : List Char) : Nat → List Token → Prop
  | _, [] => True
  | offset, token :: rest =>
    Skips text offset token.start ∧ token.StandsIn text ∧ LaidOut text token.stop rest

/-- Where the tokens from the offset on end. -/
def stopOf (offset : Nat) : List Token → Nat
  | [] => offset
  | token :: rest => stopOf token.stop rest

variable {text : List Char} {offset : Nat} {tokens more : List Token}

theorem Skips.le {stop : Nat} (h : Skips text offset stop) : offset ≤ stop := by
  induction h with
  | none => exact Nat.le_refl _
  | some h rest ih => omega

theorem Skips.ignored {stop : Nat} (h : Skips text offset stop) (hne : offset ≠ stop) :
    Lexeme.ignored (text.drop offset) ≠ 0 := by
  cases h with
  | none => contradiction
  | some h rest => omega

theorem Token.standsIn_ofPrefix {offered : Terminal → Bool} {t : Terminal} {n : Nat}
    (h : Lexeme.first? offered (text.drop offset) = some (t, n + 1)) :
    (Token.ofPrefix t offset (n + 1) (text.drop offset)).StandsIn text := by
  have ht := (Lexeme.first?_eq_some_iff.mp h).2.1
  have hle := Lexeme.ofTerminal_le t (text.drop offset)
  rw [ht, List.length_drop] at hle
  have hsub : offset + (n + 1) - offset = n + 1 := by omega
  refine ⟨?_, ?_, ?_, ?_⟩
  · simp only [Token.ofPrefix, ht, hsub]
  · simp only [Token.ofPrefix]
    omega
  · simp only [Token.ofPrefix]
    omega
  · simp only [Token.ofPrefix, hsub]

theorem laidOut_of_scanFrom {start : StartSymbol}
    (h : Token.scanFrom start offset (text.drop offset) = some tokens) :
    LaidOut text offset tokens := by
  generalize hrest : text.drop offset = rest at h
  fun_induction Token.scanFrom start offset rest generalizing tokens with
  | case1 => simp_all [LaidOut]
  | case2 offset rest hne n hn ih =>
    subst hrest
    have hlater := ih (by rw [List.drop_drop]) h
    cases tokens with
    | nil => trivial
    | cons token tokens => exact ⟨.some hn hlater.1, hlater.2⟩
  | case3 offset rest hne hi t n hfirst ih =>
    subst hrest
    obtain ⟨later, hlater, rfl⟩ := Option.map_eq_some_iff.mp h
    exact ⟨.none offset, Token.standsIn_ofPrefix hfirst, ih (by rw [List.drop_drop]) hlater⟩
  | case4 => contradiction

theorem laidOut_of_scan {start : StartSymbol} (h : Token.scan start text = some tokens) :
    LaidOut text 0 tokens :=
  laidOut_of_scanFrom (show Token.scanFrom start 0 (text.drop 0) = some tokens from h)

theorem laidOut_append :
    LaidOut text offset (tokens ++ more) ↔
      LaidOut text offset tokens ∧ LaidOut text (stopOf offset tokens) more := by
  induction tokens generalizing offset with
  | nil => simp [LaidOut, stopOf]
  | cons token tokens ih => simp [LaidOut, stopOf, ih, and_assoc]

theorem stopOf_append : stopOf offset (tokens ++ more) = stopOf (stopOf offset tokens) more := by
  induction tokens generalizing offset with
  | nil => rfl
  | cons token tokens ih => exact ih

theorem LaidOut.standsIn (h : LaidOut text offset tokens) :
    ∀ token ∈ tokens, token.StandsIn text := by
  induction tokens generalizing offset with
  | nil => simp
  | cons token tokens ih =>
    intro t ht
    rcases List.mem_cons.mp ht with rfl | ht
    · exact h.2.1
    · exact ih h.2.2 t ht

theorem LaidOut.le_start (h : LaidOut text offset tokens) :
    ∀ token ∈ tokens, offset ≤ token.start := by
  induction tokens generalizing offset with
  | nil => simp
  | cons token tokens ih =>
    intro t ht
    have hskips := h.1.le
    have hlt := h.2.1.lt
    rcases List.mem_cons.mp ht with rfl | ht
    · exact hskips
    · have hlater := ih h.2.2 t ht
      omega

theorem LaidOut.pairwise (h : LaidOut text offset tokens) :
    tokens.Pairwise fun t u => t.stop ≤ u.start := by
  induction tokens generalizing offset with
  | nil => exact .nil
  | cons token tokens ih => exact .cons h.2.2.le_start (ih h.2.2)

theorem LaidOut.le_stopOf (h : LaidOut text offset tokens) : offset ≤ stopOf offset tokens := by
  induction tokens generalizing offset with
  | nil => exact Nat.le_refl _
  | cons token tokens ih =>
    have hs := h.1.le
    have ht := h.2.1.lt
    have hr := ih h.2.2
    rw [stopOf]
    omega

theorem LaidOut.stopOf_le (h : LaidOut text offset tokens) (ho : offset ≤ text.length) :
    stopOf offset tokens ≤ text.length := by
  induction tokens generalizing offset with
  | nil => exact ho
  | cons token tokens ih => exact ih h.2.2 h.2.1.le

theorem LaidOut.within {part : List Token} (hl : LaidOut text offset tokens)
    (h : part <:+: tokens) :
    ∃ o, offset ≤ o ∧ LaidOut text o part ∧ stopOf o part ≤ stopOf offset tokens := by
  obtain ⟨before, after, rfl⟩ := h
  obtain ⟨hfront, hafter⟩ := laidOut_append.mp hl
  obtain ⟨hbefore, hpart⟩ := laidOut_append.mp hfront
  rw [stopOf_append] at hafter
  refine ⟨stopOf offset before, hbefore.le_stopOf, hpart, ?_⟩
  rw [stopOf_append, stopOf_append]
  exact hafter.le_stopOf

theorem extent?_cons (token : Token) (tokens : List Token) :
    Token.extent? (token :: tokens) = some ⟨token.start, stopOf token.stop tokens⟩ := by
  induction tokens generalizing token with
  | nil => rfl
  | cons next tokens ih =>
    have h := ih next
    simp only [Token.extent?, List.head?_cons, List.getLast?_cons_cons] at h ⊢
    rw [stopOf]
    split at h
    · simp_all
    · contradiction

theorem LaidOut.exists_start {extent : Extent} (hl : LaidOut text offset tokens)
    (he : Token.extent? tokens = some extent) :
    ∃ start : Nat, offset ≤ start ∧ start < stopOf start tokens ∧ stopOf start tokens ≤ text.length ∧
      stopOf start tokens = stopOf offset tokens ∧ LaidOut text start tokens ∧
      extent = ⟨start, stopOf start tokens⟩ := by
  cases tokens with
  | nil => contradiction
  | cons token rest =>
    obtain ⟨hskips, hstands, hlater⟩ := hl
    rw [extent?_cons] at he
    exact ⟨token.start, hskips.le, Nat.lt_of_lt_of_le hstands.lt hlater.le_stopOf,
      hlater.stopOf_le hstands.le, rfl, ⟨.none _, hstands, hlater⟩, (Option.some.inj he).symm⟩

theorem scanFrom_of_skips {start : StartSymbol} {stop : Nat} (h : Skips text offset stop) :
    Token.scanFrom start offset (text.drop offset) = Token.scanFrom start stop (text.drop stop) := by
  induction h with
  | none => rfl
  | @some offset n stop hi rest ih =>
    have hne : text.drop offset ≠ [] := by
      intro hnil
      rw [hnil] at hi
      contradiction
    rw [Token.scanFrom_of_ignored hi hne, List.drop_drop, ih]

/-- A lone `=` is chosen as a token only where no `==` stands. -/
theorem compOp_of_scanFrom {start : StartSymbol}
    (h : Token.scanFrom start offset (text.drop offset) = some tokens) :
    ∀ token ∈ tokens, token.terminal = .equal → Lexeme.compOp (text.drop token.start) = 0 := by
  generalize hrest : text.drop offset = rest at h
  fun_induction Token.scanFrom start offset rest generalizing tokens with
  | case1 => simp_all
  | case2 offset rest hne n hn ih =>
    subst hrest
    exact ih (by rw [List.drop_drop]) h
  | case3 offset rest hne hi t n hfirst ih =>
    subst hrest
    obtain ⟨later, hlater, rfl⟩ := Option.map_eq_some_iff.mp h
    intro token hmem hequal
    rcases List.mem_cons.mp hmem with rfl | hmem
    · obtain ⟨-, -, -, hlong⟩ := Lexeme.first?_eq_some_iff.mp hfirst
      exact hlong hequal (by cases start <;> rfl)
    · exact ih (by rw [List.drop_drop]) hlater token hmem hequal
  | case4 => contradiction

/-- A text with nothing but ignored text after the tokens that stand in it is divided into them. -/
theorem scanFrom_of_laidOut {start : StartSymbol} (hl : LaidOut text offset tokens)
    (hend : Skips text (stopOf offset tokens) text.length)
    (ht : ∀ token ∈ tokens, start.hasTerminal token.terminal = true)
    (he : ∀ token ∈ tokens, token.terminal = .equal → Lexeme.compOp (text.drop token.start) = 0) :
    Token.scanFrom start offset (text.drop offset) = some tokens := by
  induction tokens generalizing offset with
  | nil =>
    have hskips : Skips text offset text.length := hend
    rw [scanFrom_of_skips hskips, List.drop_length]
    exact Token.scanFrom_nil
  | cons token tokens ih =>
    obtain ⟨hskips, hstands, hlater⟩ := hl
    have hrest := ih hlater hend (fun t hmem => ht t (List.mem_cons_of_mem _ hmem))
      fun t hmem => he t (List.mem_cons_of_mem _ hmem)
    have hlt := hstands.lt
    obtain ⟨n, hn⟩ : ∃ n, token.stop - token.start = n + 1 :=
      Nat.exists_eq_add_one.mpr (Nat.sub_pos_of_lt hlt)
    have hlexeme := hstands.lexeme
    rw [hn] at hlexeme
    have hpos : Lexeme.ofTerminal token.terminal (text.drop token.start) ≠ 0 := by omega
    have hne : text.drop token.start ≠ [] := by
      intro hnil
      exact hpos (by rw [hnil, Lexeme.ofTerminal_nil])
    have hfirst : Lexeme.first? start.hasTerminal (text.drop token.start) =
        some (token.terminal, n + 1) :=
      Lexeme.first?_eq_some_iff.mpr ⟨ht token List.mem_cons_self, hlexeme, Nat.succ_ne_zero n,
        fun hequal _ => he token List.mem_cons_self hequal⟩
    have hstop : token.start + (n + 1) = token.stop := by omega
    have htoken : Token.ofPrefix token.terminal token.start (n + 1) (text.drop token.start) =
        token := by
      have htext := hstands.text_eq
      rw [hn] at htext
      rw [Token.ofPrefix, ← htext, hstop]
    rw [scanFrom_of_skips hskips, Token.scanFrom_of_first? (Lexeme.ignored_of_lexeme hpos) hne hfirst,
      List.drop_drop, hstop, hrest, htoken]
    rfl

end ArithScript
