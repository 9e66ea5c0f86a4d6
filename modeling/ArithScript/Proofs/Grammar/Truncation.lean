import ArithScript.Proofs.Grammar.Layout

/-! Lexemes in a text that is cut off behind them. They are found there as before. -/
namespace ArithScript.Lexeme

variable {text : List Char} {m : Nat}

theorem takeWhile_take {p : Char → Bool} (h : (text.takeWhile p).length ≤ m) :
    (text.take m).takeWhile p = text.takeWhile p := by
  rw [← List.take_takeWhile, List.take_of_length_le h]

theorem blanks_take (h : blanks text ≤ m) : blanks (text.take m) = blanks text :=
  congrArg List.length (takeWhile_take h)

theorem lineBreak_take (h : lineBreak text ≤ m) : lineBreak (text.take m) = lineBreak text := by
  rcases text with _ | ⟨a, rest⟩
  · rw [List.take_nil]
  by_cases hn : a = '\n'
  · subst hn
    obtain ⟨m, rfl⟩ : ∃ k, m = k + 1 := Nat.exists_eq_add_one.mpr h
    rfl
  by_cases hr : a = '\r'
  · subst hr
    rcases rest with _ | ⟨b, rest⟩
    · cases m <;> simp [lineBreak]
    · rcases m with _ | _ | m <;> by_cases hb : b = '\n' <;> simp_all [lineBreak]
  · cases m <;> simp [lineBreak, hn, hr]

theorem continuation_take (hne : continuation text ≠ 0) (h : continuation text ≤ m) :
    continuation (text.take m) = continuation text := by
  rw [continuation.eq_def] at hne h
  split at h
  · rename_i rest
    dsimp only at hne h
    split at h
    · simp_all
    · rename_i hbreak
      obtain ⟨m, rfl⟩ : ∃ k, m = k + 1 := ⟨m - 1, by omega⟩
      have hgap : blanks (rest.take m) = blanks rest := blanks_take (by omega)
      have hend : lineBreak ((rest.take m).drop (blanks rest)) =
          lineBreak (rest.drop (blanks rest)) := by
        rw [List.drop_take]
        exact lineBreak_take (by omega)
      simp only [List.take_succ_cons, continuation, hgap, hend]
  · simp at hne

theorem ignored_take (hne : ignored text ≠ 0) (h : ignored text ≤ m) :
    ignored (text.take m) = ignored text := by
  rw [ignored] at hne h
  split at h
  · rename_i hb
    have hb' : blanks (text.take m) = 0 := by rw [blanks_take (by omega), hb]
    rw [if_pos hb] at hne
    rw [ignored, if_pos hb', ignored, if_pos hb, continuation_take hne h]
  · rw [ignored, ignored, blanks_take h, if_neg ‹_›, if_neg ‹_›]

/-- The numeral that is found in the shorter text is at least as long as the one that ends in it, and
no longer than the one found in the longer text. -/
theorem number_take (hne : number text ≠ 0) (h : number text ≤ m) :
    number (text.take m) = number text := by
  rw [number] at hne h
  split at h
  · rename_i n rest hscan
    have hn := Numeral.scan_wellFormed hscan
    have hchars := Numeral.scan_append hscan
    have htake : text.take m = n.chars ++ rest.take (m - n.chars.length) := by
      rw [← hchars, List.take_append, List.take_of_length_le h]
    have hself (k : Numeral) (hk : k.WellFormed) : Numeral.scan k.chars = some (k, []) := by
      simpa using Numeral.scan_chars hk stops_nil
    obtain ⟨n', rest', hscan', hle⟩ :=
      Numeral.scan_longest (hself n hn) (rest.take (m - n.chars.length))
    rw [← htake] at hscan'
    have htext : n'.chars ++ (rest' ++ text.drop m) = text := by
      rw [← List.append_assoc, Numeral.scan_append hscan', List.take_append_drop]
    obtain ⟨n'', rest'', hscan'', hge⟩ :=
      Numeral.scan_longest (hself n' (Numeral.scan_wellFormed hscan')) (rest' ++ text.drop m)
    rw [htext, hscan] at hscan''
    obtain ⟨rfl, -⟩ := Prod.mk.inj (Option.some.inj hscan'')
    rw [number, number, hscan, hscan']
    exact Nat.le_antisymm hge hle
  · rename_i hnone
    simp [hnone] at hne

theorem name_take (hne : name text ≠ 0) (h : name text ≤ m) :
    name (text.take m) = name text := by
  cases text with
  | nil => simp
  | cons c rest =>
    rw [name] at hne h
    split at h
    · rename_i hc
      obtain ⟨m, rfl⟩ : ∃ k, m = k + 1 := ⟨m - 1, by omega⟩
      rw [List.take_succ_cons, name, name, if_pos hc, if_pos hc, takeWhile_take (by omega)]
    · simp_all

theorem string_take (hne : string text ≠ 0) (h : string text ≤ m) :
    string (text.take m) = string text := by
  cases text with
  | nil => simp
  | cons mark rest =>
    rw [string] at hne h
    dsimp only at hne h
    split at h
    · rename_i hmark
      split at h
      · rename_i hend
        obtain ⟨m, rfl⟩ : ∃ k, m = k + 1 := ⟨m - 1, by omega⟩
        have hinner : (rest.take m).takeWhile (fun c => c ≠ mark && c ≠ '\n') =
            rest.takeWhile fun c => c ≠ mark && c ≠ '\n' :=
          takeWhile_take (by omega)
        have hmark' : (rest.take m)[(rest.takeWhile fun c => c ≠ mark && c ≠ '\n').length]? =
            some mark := by
          rw [List.getElem?_take_of_lt (by omega), hend]
        rw [List.take_succ_cons, string, string, if_pos hmark, if_pos hmark, hinner]
        simp only [hmark', hend]
      · simp_all
    · simp_all

theorem compOp_take (h : compOp text ≤ m) : compOp (text.take m) = compOp text := by
  rcases text with _ | ⟨a, _ | ⟨b, rest⟩⟩
  · rw [List.take_nil]
  · rcases m with _ | m
    · exact (Nat.le_zero.mp h).symm
    · rw [List.take_succ_cons, List.take_nil]
  by_cases ha : a = '=' ∨ a = '!' ∨ a = '<' ∨ a = '>'
  · by_cases hb : b = '='
    · subst hb
      rcases m with _ | _ | m <;> rcases ha with rfl | rfl | rfl | rfl <;> simp_all [compOp]
    · rcases m with _ | _ | m <;> rcases ha with rfl | rfl | rfl | rfl <;> simp_all [compOp]
  · simp only [not_or] at ha
    rcases m with _ | _ | m <;> simp [compOp, ha]

theorem single_take {mark : Char} (h : single mark text ≤ m) :
    single mark (text.take m) = single mark text := by
  rcases text with _ | ⟨a, rest⟩ <;> rcases m with _ | m <;> simp_all [single]

theorem newlinePiece_take (h : newlinePiece text ≤ m) :
    newlinePiece (text.take m) = newlinePiece text := by
  by_cases hmark : ∃ rest, text = '#' :: rest
  · obtain ⟨rest, rfl⟩ := hmark
    simp only [newlinePiece] at h ⊢
    obtain ⟨m, rfl⟩ : ∃ k, m = k + 1 := ⟨m - 1, by omega⟩
    simp only [List.take_succ_cons]
    rw [takeWhile_take (by omega)]
  · have hpiece {s : List Char} (hs : ∀ rest, s ≠ '#' :: rest) :
        newlinePiece s = if lineBreak s = 0 then 0 else lineBreak s + blanks (s.drop (lineBreak s)) := by
      rw [newlinePiece.eq_def]
      split
      · exact absurd rfl (hs _)
      · rfl
    have htext : ∀ rest, text ≠ '#' :: rest := fun rest hr => hmark ⟨rest, hr⟩
    have htake : ∀ rest, text.take m ≠ '#' :: rest := by
      intro rest hr
      cases text with
      | nil => simp at hr
      | cons c later =>
        cases m with
        | zero => simp at hr
        | succ m => exact htext later (by rw [List.take_succ_cons] at hr; rw [(List.cons.inj hr).1])
    rw [hpiece htext] at h ⊢
    rw [hpiece htake]
    split at h
    · rename_i hnone
      rw [lineBreak_take (by omega), hnone]
      rfl
    · rename_i hbreak
      rw [lineBreak_take (by omega), if_neg hbreak, if_neg hbreak, List.drop_take,
        blanks_take (by omega)]

theorem newlines_eq (text : List Char) :
    newlines text =
      if newlinePiece text = 0 then 0
      else newlinePiece text + newlines (text.drop (newlinePiece text)) := by
  rw [newlines]
  cases text with
  | nil => rfl
  | cons c rest =>
    by_cases hpiece : newlinePiece (c :: rest) = 0
    · simp [hpiece]
    · simp [hpiece, Nat.pos_of_ne_zero hpiece]

theorem newlines_take (h : newlines text ≤ m) : newlines (text.take m) = newlines text := by
  induction hlen : text.length using Nat.strongRecOn generalizing text m with
  | ind n ih =>
    rw [newlines_eq] at h
    rw [newlines_eq, newlines_eq text]
    split at h
    · rename_i hnone
      rw [newlinePiece_take (by omega), hnone]
      rfl
    · rename_i hpiece
      have hle := newlinePiece_le text
      have hlater : newlines ((text.drop (newlinePiece text)).take (m - newlinePiece text)) =
          newlines (text.drop (newlinePiece text)) :=
        ih (n - newlinePiece text) (by omega) (by omega) (by rw [List.length_drop, hlen])
      rw [newlinePiece_take (by omega), if_neg hpiece, if_neg hpiece, List.drop_take, hlater]

theorem ofTerminal_take {t : Terminal} (hne : ofTerminal t text ≠ 0) (h : ofTerminal t text ≤ m) :
    ofTerminal t (text.take m) = ofTerminal t text := by
  cases t with
  | number => exact number_take hne h
  | name => exact name_take hne h
  | string => exact string_take hne h
  | compOp => exact compOp_take h
  | newline => exact newlines_take h
  | _ => exact single_take h

end ArithScript.Lexeme
