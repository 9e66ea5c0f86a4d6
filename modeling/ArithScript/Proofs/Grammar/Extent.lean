import ArithScript.Lowering.Meaning
import ArithScript.Proofs.Grammar.Layout
import ArithScript.Proofs.Grammar.Shape

/-! The text that a tree covers, from the tokens it stands over. -/
namespace ArithScript

theorem Source.slice_nat (source : Source) {start stop : Nat} (hle : start ≤ stop)
    (hlen : stop ≤ source.chars.toList.length) :
    source.slice start stop =
      String.ofList ((source.chars.toList.drop start).take (stop - start)) := by
  rw [Array.length_toList] at hlen
  have hstart : source.place start = start := by
    simp only [Source.place, Source.length]
    rw [if_neg (by omega)]
    omega
  have hstop : source.place stop = stop := by
    simp only [Source.place, Source.length]
    rw [if_neg (by omega)]
    omega
  rw [Source.slice, hstart, hstop, Array.toList_extract, List.extract_eq_take_drop]

variable {source : Source} {offset : Nat} {token : Token} {tokens : List Token} {tree : Tree}

/-- The characters of a text from the first of the tokens to the end of the last. -/
def coveredText (source : Source) (token : Token) (tokens : List Token) : List Char :=
  (source.chars.toList.drop token.start).take (stopOf token.stop tokens - token.start)

theorem Shaped.extent_eq {n : Tier} (h : Shaped n (token :: tokens) tree) :
    tree.extent = ⟨token.start, stopOf token.stop tokens⟩ := by
  generalize hts : token :: tokens = ts at h
  cases h with
  | operand =>
    obtain ⟨rfl, rfl⟩ := List.cons.inj hts
    rfl
  | _ => rw [← hts, Tree.spanning, extent?_cons, Tree.extent]

theorem ShapedStatement.extent_eq (h : ShapedStatement (token :: tokens) tree) :
    tree.extent = ⟨token.start, stopOf token.stop tokens⟩ := by
  generalize hts : token :: tokens = ts at h
  cases h <;> rw [← hts, Tree.spanning, extent?_cons, Tree.extent]

theorem Shaped.extent?_eq {n : Tier} (h : Shaped n tokens tree) :
    Token.extent? tokens = some tree.extent := by
  obtain ⟨token, rest, rfl⟩ := List.exists_cons_of_ne_nil h.tokens_ne_nil
  rw [extent?_cons, h.extent_eq]

theorem ShapedStatement.extent?_eq (h : ShapedStatement tokens tree) :
    Token.extent? tokens = some tree.extent := by
  obtain ⟨token, rest, rfl⟩ := List.exists_cons_of_ne_nil h.tokens_ne_nil
  rw [extent?_cons, h.extent_eq]

theorem LaidOut.start_le_stopOf (h : LaidOut source.chars.toList offset (token :: tokens)) :
    token.start ≤ stopOf token.stop tokens :=
  Nat.le_trans (Nat.le_of_lt h.2.1.lt) h.2.2.le_stopOf

theorem textIn_of_extent (h : LaidOut source.chars.toList offset (token :: tokens))
    (he : tree.extent = ⟨token.start, stopOf token.stop tokens⟩) :
    tree.textIn source = String.ofList (coveredText source token tokens) := by
  rw [Tree.textIn, he]
  exact source.slice_nat h.start_le_stopOf (h.2.2.stopOf_le h.2.1.le)

theorem Shaped.textIn_eq {n : Tier} (h : Shaped n (token :: tokens) tree)
    (hl : LaidOut source.chars.toList offset (token :: tokens)) :
    tree.textIn source = String.ofList (coveredText source token tokens) :=
  textIn_of_extent hl h.extent_eq

theorem textIn_ofToken (h : token.StandsIn source.chars.toList) :
    (Tree.ofToken token).textIn source = token.text := by
  rw [Tree.textIn, h.text_eq]
  exact source.slice_nat (Nat.le_of_lt h.lt) h.le

theorem coveredText_eq (h : LaidOut source.chars.toList offset (token :: tokens)) :
    coveredText source token tokens = token.text.toList ++
      (source.chars.toList.drop token.stop).take (stopOf token.stop tokens - token.stop) := by
  have hlt := h.2.1.lt
  have hle := h.2.2.le_stopOf
  have hsplit : stopOf token.stop tokens - token.start =
      (token.stop - token.start) + (stopOf token.stop tokens - token.stop) := by omega
  rw [coveredText, h.2.1.text_eq, String.toList_ofList, hsplit, List.take_add, List.drop_drop]
  rw [show token.start + (token.stop - token.start) = token.stop by omega]

namespace Token.StandsIn
variable {text : List Char}

theorem toList_text (h : token.StandsIn text) :
    token.text.toList = (text.drop token.start).take (token.stop - token.start) := by
  rw [h.text_eq, String.toList_ofList]

theorem exists_cons (h : token.StandsIn text) :
    ∃ c rest, text.drop token.start = c :: rest ∧ token.text.toList.head? = some c := by
  have hlt := h.lt
  have hle := h.le
  have hpos : 0 < (text.drop token.start).length := by
    rw [List.length_drop]
    omega
  obtain ⟨c, rest, hc⟩ := List.exists_cons_of_ne_nil (List.ne_nil_of_length_pos hpos)
  refine ⟨c, rest, hc, ?_⟩
  rw [h.toList_text, hc]
  obtain ⟨k, hk⟩ : ∃ k, token.stop - token.start = k + 1 := ⟨token.stop - token.start - 1, by omega⟩
  rw [hk]
  rfl

/-- The first character of a token tells its terminal. -/
theorem leading (h : token.StandsIn text) {c : Char} (hc : token.text.toList.head? = some c) :
    Lexeme.leading? c = some token.terminal ∨ c = '=' ∧ token.terminal = .compOp := by
  obtain ⟨c', rest, hd, hc'⟩ := h.exists_cons
  obtain rfl := Option.some.inj (hc.symm.trans hc')
  have hlt := h.lt
  have hlex : Lexeme.ofTerminal token.terminal (c :: rest) ≠ 0 := by
    rw [← hd, h.lexeme]
    omega
  exact Lexeme.leading_of_lexeme hlex

theorem text_of_single (h : token.StandsIn text) {mark : Char}
    (hm : Lexeme.ofTerminal token.terminal = Lexeme.single mark) :
    token.text.toList = [mark] ∧ token.stop = token.start + 1 := by
  obtain ⟨c, rest, hd, hc⟩ := h.exists_cons
  have hlt := h.lt
  have hlex := h.lexeme
  rw [hm, hd, Lexeme.single] at hlex
  split at hlex
  · rename_i hcm
    subst hcm
    have hone : token.stop - token.start = 1 := hlex.symm
    rw [h.toList_text, hd, hone]
    exact ⟨rfl, by omega⟩
  · omega

end Token.StandsIn
end ArithScript
