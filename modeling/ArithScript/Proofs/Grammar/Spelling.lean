import ArithScript.Proofs.Grammar.Extent

/-! What the text of a token or of an expression can be, by its terminal or its construct. -/
namespace ArithScript

/-- The operator that a terminal stands for in a program. -/
def Terminal.operator? : Terminal → Option Operator
  | .plus => some .add
  | .minus => some .sub
  | .star => some .mul
  | _ => none

variable {source : Source} {text : List Char} {offset : Nat} {token : Token}
  {tokens : List Token} {tree : Tree}

namespace Token.StandsIn

theorem text_eq_of_single (h : token.StandsIn text) {mark : Char}
    (hm : Lexeme.ofTerminal token.terminal = Lexeme.single mark) :
    token.text = String.ofList [mark] := by
  rw [← (h.text_of_single hm).1, String.ofList_toList]

theorem numeral (h : token.StandsIn text) (ht : token.terminal = .number) :
    ∃ n : Numeral, n.WellFormed ∧ token.text = String.ofList n.chars := by
  have hlt := h.lt
  have hlex := h.lexeme
  rw [ht, Lexeme.ofTerminal, Lexeme.number] at hlex
  split at hlex
  · rename_i n rest hscan
    refine ⟨n, Numeral.scan_wellFormed hscan, ?_⟩
    have happend := Numeral.scan_append hscan
    rw [h.text_eq, ← hlex, ← happend, List.take_left]
  · omega

theorem isSign_text (h : token.StandsIn text) (ht : token.terminal ∈ [.plus, .minus, .tilde]) :
    isSign token.text = true ↔ token.terminal ∈ [.plus, .minus] := by
  simp only [List.mem_cons, List.not_mem_nil, or_false] at ht
  rcases ht with ht | ht | ht
  · rw [h.text_eq_of_single (by rw [ht]; rfl), ht]
    decide
  · rw [h.text_eq_of_single (by rw [ht]; rfl), ht]
    decide
  · rw [h.text_eq_of_single (by rw [ht]; rfl), ht]
    decide

theorem ofSymbol?_text (h : token.StandsIn text) {m : Tier}
    (ht : token.terminal ∈ m.operators) :
    Operator.ofSymbol? token.text = token.terminal.operator? := by
  by_cases hc : token.terminal = .compOp
  · -- a comparison begins with none of the three symbols
    have hne : ∀ c, Lexeme.leading? c ≠ some .compOp → c ≠ '=' → token.text ≠ String.ofList [c] := by
      intro c hc' he htext
      rcases h.leading (c := c) (by rw [htext, String.toList_ofList]; rfl) with hl | hl
      · exact hc' (hc ▸ hl)
      · exact he hl.1
    have hadd := hne '+' (by decide) (by decide)
    have hsub := hne '-' (by decide) (by decide)
    have hmul := hne '*' (by decide) (by decide)
    rw [hc]
    change Operator.ofSymbol? token.text = none
    rw [Operator.ofSymbol?, List.find?_eq_none]
    intro op _
    cases op with
    | add => exact fun he => hadd (of_decide_eq_true he).symm
    | sub => exact fun he => hsub (of_decide_eq_true he).symm
    | mul => exact fun he => hmul (of_decide_eq_true he).symm
  · have hcases : token.terminal ∈ [.plus, .minus, .star, .slash, .percent] := by
      revert ht hc
      generalize token.terminal = t
      cases m <;> cases t <;> decide
    simp only [List.mem_cons, List.not_mem_nil, or_false] at hcases
    rcases hcases with ht | ht | ht | ht | ht
    · rw [h.text_eq_of_single (by rw [ht]; rfl), ht]
      rfl
    · rw [h.text_eq_of_single (by rw [ht]; rfl), ht]
      rfl
    · rw [h.text_eq_of_single (by rw [ht]; rfl), ht]
      rfl
    · rw [h.text_eq_of_single (by rw [ht]; rfl), ht]
      rfl
    · rw [h.text_eq_of_single (by rw [ht]; rfl), ht]
      rfl

theorem name_of_isAlpha (h : token.StandsIn text) {c : Char}
    (hc : token.text.toList.head? = some c) (ha : c.isAlpha = true) : token.terminal = .name := by
  have hs : Lexeme.isNameStart c = true := by simp [Lexeme.isNameStart, ha]
  obtain ⟨hd, hp⟩ := Lexeme.not_isDecimalDigit_of_isNameStart hs
  rcases h.leading hc with hl | ⟨rfl, -⟩
  · simpa [Lexeme.leading?, hd, hp, hs, eq_comm] using hl
  · exact absurd ha (by decide)

end Token.StandsIn

theorem mem_coveredText {t : Token} {c : Char}
    (hl : LaidOut source.chars.toList offset (token :: tokens)) (ht : t ∈ token :: tokens)
    (hc : c ∈ t.text.toList) : c ∈ coveredText source token tokens := by
  induction tokens generalizing token offset with
  | nil =>
    obtain rfl := List.mem_singleton.mp ht
    rw [coveredText_eq hl]
    exact List.mem_append_left _ hc
  | cons next tokens ih =>
    rw [coveredText_eq hl]
    rcases List.mem_cons.mp ht with rfl | ht
    · exact List.mem_append_left _ hc
    · refine List.mem_append_right _ ?_
      have hgap := hl.2.2.1.le
      have hrest := hl.2.2.start_le_stopOf
      have hmem := ih hl.2.2 ht
      have hdrop : ((source.chars.toList.drop token.stop).take
          (stopOf next.stop tokens - token.stop)).drop (next.start - token.stop) =
            coveredText source next tokens := by
        rw [List.drop_take, List.drop_drop, coveredText]
        rw [show token.stop + (next.start - token.stop) = next.start by omega]
        rw [show stopOf next.stop tokens - token.stop - (next.start - token.stop) =
          stopOf next.stop tokens - next.start by omega]
      rw [← hdrop] at hmem
      exact List.mem_of_mem_drop hmem

/-- Two tokens with no gap between cover no more than their texts. -/
theorem coveredText_adjacent {next : Token}
    (hl : LaidOut source.chars.toList offset [token, next]) (hgap : next.start = token.stop) :
    coveredText source token [next] = token.text.toList ++ next.text.toList := by
  rw [coveredText_eq hl, hl.2.2.2.1.toList_text, hgap]
  rfl

theorem ArgumentList.exists_rpar {list : ArgumentList} (hp : list.Punctuated) :
    ∃ t ∈ list.tokens, t.terminal = .rpar := by
  cases list with
  | none left right => exact ⟨right, by simp [tokens], hp.2⟩
  | some left first later trailing right => exact ⟨right, by simp [tokens], hp.2.2.2⟩

theorem Tier.operators_eq_nil {m : Tier} (hm : m.rank ≤ Tier.factor.rank) : m.operators = [] := by
  cases m <;> first | rfl | exact absurd hm (by decide)

theorem Shaped.eq_name_of_isAlpha (h : Shaped .call (token :: tokens) tree)
    (hl : LaidOut source.chars.toList offset (token :: tokens))
    (ha : ∀ c ∈ (tree.textIn source).toList, c.isAlpha = true) :
    token.terminal = .name ∧ tokens = [] ∧ tree = .ofToken token := by
  rw [h.textIn_eq hl, String.toList_ofList] at ha
  have hname : token.terminal = .name := by
    obtain ⟨c, rest, -, hc⟩ := hl.2.1.exists_cons
    refine hl.2.1.name_of_isAlpha hc (ha c (mem_coveredText hl List.mem_cons_self ?_))
    exact List.mem_of_mem_head? hc
  generalize hts : token :: tokens = ts at h
  cases h with
  | operand ht =>
    obtain ⟨rfl, rfl⟩ := List.cons.inj hts
    exact ⟨hname, rfl, rfl⟩
  | paren hleft =>
    obtain ⟨rfl, -⟩ := List.cons.inj hts
    rw [hname] at hleft
    contradiction
  | call hn function hp arguments =>
    -- the closing parenthesis is no letter
    obtain ⟨t, ht, hr⟩ := ArgumentList.exists_rpar hp
    have hmem : t ∈ token :: tokens := by
      rw [hts]
      exact List.mem_append_right _ ht
    have htext : t.text.toList = [')'] :=
      ((hl.standsIn t hmem).text_of_single (by rw [hr]; rfl)).1
    have hparen := ha ')' (mem_coveredText hl hmem (by rw [htext]; exact List.mem_cons_self))
    exact absurd hparen (by decide)
  | signed hn => exact absurd hn (by decide)
  | infixed hn ho =>
    rw [Tier.operators_eq_nil (Nat.le_trans hn (by decide))] at ho
    contradiction

/-- A sign and what follows it read as a number exactly if what follows is one number token, with no
gap in between: a numeral takes as much text as it can, so it cannot end inside what follows. -/
theorem readNumber_signed_iff {sign : Token} (hs : isSign sign.text = true)
    (hl : LaidOut source.chars.toList offset (sign :: token :: tokens)) :
    (readNumber (String.ofList (coveredText source sign (token :: tokens)))).isSome = true ↔
      token.terminal = .number ∧ tokens = [] ∧ token.start = sign.stop := by
  obtain ⟨mark, hm, htext⟩ : ∃ mark, (mark = '+' ∨ mark = '-') ∧ sign.text.toList = [mark] := by
    simp only [isSign, Bool.or_eq_true, decide_eq_true_eq] at hs
    rcases hs with h | h
    · exact ⟨'+', .inl rfl, by rw [h]; rfl⟩
    · exact ⟨'-', .inr rfl, by rw [h]; rfl⟩
  rw [coveredText_eq hl, htext, List.singleton_append, stopOf]
  obtain ⟨-, hsign, hskip, htoken, hrest⟩ := hl
  have hle := hskip.le
  have hlt := htoken.lt
  have hstop := hrest.le_stopOf
  have hlen := hrest.stopOf_le htoken.le
  constructor
  · intro h
    obtain ⟨n, hscan⟩ := scan_of_readNumber hm h
    obtain ⟨c, rest, hc⟩ : ∃ c rest, source.chars.toList.drop sign.stop = c :: rest := by
      refine List.exists_cons_of_ne_nil (List.ne_nil_of_length_pos ?_)
      rw [List.length_drop]
      omega
    obtain ⟨k, hk⟩ : ∃ k, stopOf token.stop tokens - sign.stop = k + 1 :=
      ⟨stopOf token.stop tokens - sign.stop - 1, by omega⟩
    have hnumeral : isDecimalDigit c = true ∨ c = '.' := by
      by_contra hn
      rw [not_or, Bool.not_eq_true] at hn
      rw [hc, hk, List.take_succ_cons, Lexeme.scan_eq_none hn.1 hn.2] at hscan
      contradiction
    have hlead : Lexeme.leading? c = some .number := by
      rcases hnumeral with h | rfl
      · simp [Lexeme.leading?, h]
      · rfl
    have hstart : token.start = sign.stop := by
      by_contra hne
      have hi := hskip.ignored (Ne.symm hne)
      rw [hc] at hi
      rw [(Lexeme.leading_of_ignored hi).1] at hlead
      contradiction
    have hterminal : token.terminal = .number := by
      obtain ⟨c', rest', hd, hhead⟩ := htoken.exists_cons
      rw [hstart, hc] at hd
      obtain ⟨rfl, rfl⟩ := List.cons.inj hd
      rcases htoken.leading hhead with h | ⟨rfl, -⟩
      · exact Option.some.inj (h.symm.trans hlead)
      · exact absurd hlead (by decide)
    -- the number token is the longest numeral, so it reaches the end of the text
    obtain ⟨n', later, hlong, hcover⟩ := Numeral.scan_longest hscan
      ((source.chars.toList.drop sign.stop).drop (stopOf token.stop tokens - sign.stop))
    rw [List.take_append_drop] at hlong
    have hlexeme := htoken.lexeme
    rw [hterminal, hstart, Lexeme.ofTerminal, Lexeme.number, hlong] at hlexeme
    rw [List.length_take, List.length_drop] at hcover
    dsimp only at hlexeme
    have hend : stopOf token.stop tokens ≤ token.stop := by omega
    refine ⟨hterminal, ?_, hstart⟩
    cases tokens with
    | nil => rfl
    | cons next tokens =>
      have hgap := hrest.1.le
      have hpos := hrest.2.1.lt
      have hnext := hrest.2.2.le_stopOf
      rw [stopOf] at hend
      omega
  · rintro ⟨ht, rfl, hstart⟩
    obtain ⟨n, hn, hnumber⟩ := htoken.numeral ht
    rw [stopOf, ← hstart, ← htoken.toList_text, hnumber, String.toList_ofList]
    have hsign : IsSign (some mark) := by
      intro c hc
      obtain rfl := Option.some.inj hc
      exact hm
    have hread := readNumber_chars hsign hn
    rw [show mark :: n.chars = (some mark).toList ++ n.chars from rfl, hread]
    rfl

end ArithScript
