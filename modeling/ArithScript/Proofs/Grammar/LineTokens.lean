import ArithScript.Proofs.Grammar.Excerpt
import ArithScript.Proofs.Grammar.Runs

/-!
Tokens of a line of a longer text. Except for line breaks they stand there as on the line alone,
moved behind what is in front of the line.
-/
namespace ArithScript

variable {text front line rest : List Char} {offset d : Nat} {token : Token}
  {tokens ts : List Token} {found : List (List Token)}

theorem Skips.before {stop : Nat} (h : Skips text offset stop) (hb : '\\' ∉ text.drop offset)
    (hle : stop ≤ text.length) : Skips (text ++ '\n' :: rest) offset stop := by
  induction h with
  | none => exact .none _
  | @some offset n stop hi later ih =>
    have hstart := later.le
    have hignored : Lexeme.ignored ((text ++ '\n' :: rest).drop offset) = n + 1 := by
      rw [List.drop_append_of_le_length (by omega), Lexeme.ignored_before hb, hi]
    apply Skips.some hignored
    apply ih _ hle
    intro hmem
    rw [← List.drop_drop] at hmem
    exact hb (List.mem_of_mem_drop hmem)

theorem Token.StandsIn.before (h : token.StandsIn text) (ht : token.terminal ≠ .newline) :
    token.StandsIn (text ++ '\n' :: rest) := by
  have hlt := h.lt
  have hle := h.le
  have hdrop : (text ++ '\n' :: rest).drop token.start = text.drop token.start ++ '\n' :: rest :=
    List.drop_append_of_le_length (by omega)
  refine ⟨?_, hlt, ?_, ?_⟩
  · rw [hdrop, Lexeme.ofTerminal_before ht, h.lexeme]
  · rw [List.length_append]
    omega
  · rw [hdrop, List.take_append_of_le_length (by rw [List.length_drop]; omega)]
    exact h.text_eq

/-- What stands in a text without continuations and line breaks stands there with more lines behind
it, too. -/
theorem LaidOut.before (h : LaidOut text offset tokens) (hb : '\\' ∉ text.drop offset)
    (ht : ∀ token ∈ tokens, token.terminal ≠ .newline) :
    LaidOut (text ++ '\n' :: rest) offset tokens := by
  induction tokens generalizing offset with
  | nil => trivial
  | cons token tokens ih =>
    obtain ⟨hskips, hstands, hlater⟩ := h
    obtain ⟨hself, hbelow⟩ := List.forall_mem_cons.mp ht
    have hstart := hskips.le
    have hlt := hstands.lt
    have hle := hstands.le
    refine ⟨hskips.before hb (by omega), hstands.before hself, ih hlater ?_ hbelow⟩
    intro hmem
    have hsplit : token.stop = offset + (token.stop - offset) := by omega
    rw [hsplit, ← List.drop_drop] at hmem
    exact hb (List.mem_of_mem_drop hmem)

theorem Token.ofPrefix_back {t : Terminal} {n : Nat} (hd : d ≤ offset) :
    ofPrefix t (offset - d) n text = (ofPrefix t offset n text).back d := by
  rw [ofPrefix, ofPrefix, Token.back, Nat.sub_add_comm hd]

theorem Token.scanFrom_back {start : StartSymbol} (hd : d ≤ offset) :
    scanFrom start (offset - d) text =
      (scanFrom start offset text).map (List.map (Token.back d)) := by
  fun_induction scanFrom start offset text with
  | case1 => exact Token.scanFrom_nil
  | case2 offset text hne n hi ih =>
    rw [Token.scanFrom_of_ignored hi hne, ← Nat.sub_add_comm hd]
    exact ih (by omega)
  | case3 offset text hne hi t n hfirst ih =>
    rw [Token.scanFrom_of_first? hi hne hfirst, ← Nat.sub_add_comm hd, ih (by omega),
      ofPrefix_back hd, Option.map_map, Option.map_map]
    rfl
  | case4 offset text hne hi hnone =>
    rw [Token.scanFrom]
    split <;> simp_all

theorem scanRuns_back (d : Nat) (text : List Char) :
    scanRuns 0 text = (scanRuns d text).map (List.map (List.map (Token.back d))) := by
  have hscan : Token.scanFrom .script (d - d) text = _ := Token.scanFrom_back (Nat.le_refl d)
  rw [Nat.sub_self] at hscan
  rw [scanRuns, scanRuns, hscan, Option.map_map, Option.map_map]
  congr 1
  funext tokens
  exact runs_map (f := Token.back d) (fun _ => rfl) tokens

/-- The tokens of each line with tokens stand on that line, in the text as a whole. -/
theorem exists_laidOut_of_scanRuns (hline : IsLine line)
    (hrest : rest = [] ∨ ∃ later, rest = '\n' :: later)
    (hfound : scanRuns front.length line = some found) (hts : ts ∈ found) :
    ∃ o, front.length ≤ o ∧ LaidOut (front ++ (line ++ rest)) o ts ∧
      stopOf o ts ≤ front.length + line.length := by
  obtain ⟨tokens, hscan, rfl⟩ := Option.map_eq_some_iff.mp hfound
  obtain ⟨hwithin, -, hterminals⟩ := mem_runs tokens ts hts
  have hdrop : (front ++ line).drop front.length = line := List.drop_left
  rw [← hdrop] at hscan
  have hlaid : LaidOut (front ++ line) front.length tokens := laidOut_of_scanFrom hscan
  have hend := hlaid.stopOf_le (by simp)
  rw [List.length_append] at hend
  obtain ⟨o, ho, hpart, hstop⟩ := hlaid.within hwithin
  refine ⟨o, ho, ?_, Nat.le_trans hstop hend⟩
  rw [← List.append_assoc]
  rcases hrest with rfl | ⟨later, rfl⟩
  · rwa [List.append_nil]
  · apply hpart.before _ hterminals
    intro hmem
    rw [← Nat.add_sub_cancel' ho, ← List.drop_drop, hdrop] at hmem
    exact hline.backslash_notMem (List.mem_of_mem_drop hmem)

end ArithScript
