import ArithScript.Proofs.Grammar.Runs

/-!
Ignored text between tokens. A text keeps its tokens if the ignored text between them is exchanged,
unless some comes to stand where there was none or two line breaks stood apart by it.
-/
namespace ArithScript

/-- Any number of blanks and line continuations. -/
inductive Ignorable : List Char → Prop
  | nil : Ignorable []
  | blank {c : Char} {rest : List Char} (hc : Lexeme.isBlank c = true) (later : Ignorable rest) :
      Ignorable (c :: rest)
  | continuation {gap ending rest : List Char} (hg : ∀ c ∈ gap, Lexeme.isBlank c = true)
      (he : ending ∈ [['\n'], ['\r', '\n']]) (later : Ignorable rest) :
      Ignorable ('\\' :: (gap ++ (ending ++ rest)))

variable {start : StartSymbol} {P : Nat → Prop} {c : Char} {offset offset' n : Nat}
  {gap gap' lexeme text text' rest rest' : List Char}

namespace Lexeme

theorem blanks_append (h : ∀ c ∈ gap, isBlank c = true) (rest : List Char) :
    blanks (gap ++ rest) = gap.length + blanks rest := by
  rw [blanks, blanks, List.takeWhile_append_of_pos h, List.length_append]

theorem blanks_of_lineBreak (h : lineBreak text ≠ 0) : blanks text = 0 := by
  rw [lineBreak.eq_def] at h
  split at h
  · rfl
  · rfl
  · contradiction

theorem take_lineBreak (h : lineBreak text ≠ 0) :
    text.take (lineBreak text) ∈ [['\n'], ['\r', '\n']] := by
  rw [lineBreak.eq_def] at h ⊢
  split at h
  · simp
  · simp
  · contradiction

theorem isBlank_of_mem_take (text : List Char) :
    ∀ c ∈ text.take (blanks text), isBlank c = true := by
  rw [blanks, ← List.prefix_iff_eq_take.mp (List.takeWhile_prefix _)]
  exact fun c => List.mem_takeWhile_imp

theorem ignored_continuation {ending : List Char} (hg : ∀ c ∈ gap, isBlank c = true)
    (he : ending ∈ [['\n'], ['\r', '\n']]) (rest : List Char) :
    ignored ('\\' :: (gap ++ (ending ++ rest))) = gap.length + ending.length + 1 := by
  have hbreak : lineBreak (ending ++ rest) = ending.length := by
    simp only [List.mem_cons, List.not_mem_nil, or_false] at he
    rcases he with rfl | rfl <;> rfl
  have hne : ending.length ≠ 0 := by
    simp only [List.mem_cons, List.not_mem_nil, or_false] at he
    rcases he with rfl | rfl <;> simp
  have hblanks : blanks (gap ++ (ending ++ rest)) = gap.length := by
    rw [blanks_append hg, blanks_of_lineBreak (by omega), Nat.add_zero]
  have hself : blanks ('\\' :: (gap ++ (ending ++ rest))) = 0 := rfl
  rw [ignored, if_pos hself, continuation]
  simp only [hblanks, List.drop_left, hbreak, hne, if_false]
  omega

end Lexeme

namespace Ignorable

theorem append (h : Ignorable gap) (h' : Ignorable gap') : Ignorable (gap ++ gap') := by
  induction h with
  | nil => exact h'
  | blank hc later ih => exact blank hc ih
  | continuation hg he later ih =>
    rw [List.cons_append, List.append_assoc, List.append_assoc]
    exact continuation hg he ih

theorem of_blanks (h : ∀ c ∈ gap, Lexeme.isBlank c = true) : Ignorable gap := by
  induction gap with
  | nil => exact nil
  | cons c gap ih =>
    obtain ⟨hc, hgap⟩ := List.forall_mem_cons.mp h
    exact blank hc (ih hgap)

theorem isEnd_of_cons (h : Ignorable (c :: rest)) : Lexeme.isEnd c = true := by
  cases h with
  | blank hc later => simp [Lexeme.isEnd, hc]
  | continuation => rfl

theorem of_ignored (h : Lexeme.ignored text = n + 1) : Ignorable (text.take (n + 1)) := by
  by_cases hb : Lexeme.blanks text = 0
  · rw [Lexeme.ignored, if_pos hb, Lexeme.continuation.eq_def] at h
    split at h
    · rename_i rest
      dsimp only at h
      split at h
      · contradiction
      · rename_i hbreak
        have hending := Lexeme.take_lineBreak hbreak
        have hn : n = Lexeme.blanks rest + Lexeme.lineBreak (rest.drop (Lexeme.blanks rest)) := by
          omega
        have hwhole := continuation (Lexeme.isBlank_of_mem_take rest) hending nil
        rwa [List.append_nil, ← List.take_add, ← hn, ← List.take_succ_cons] at hwhole
    · contradiction
  · rw [Lexeme.ignored, if_neg hb] at h
    rw [← h]
    exact of_blanks (Lexeme.isBlank_of_mem_take text)

theorem newlines_eq_zero (h : Ignorable gap) : Lexeme.newlines gap = 0 := by
  by_contra hn
  cases h with
  | nil => exact hn Lexeme.newlines_nil
  | blank hc later =>
    rcases Lexeme.leading_of_newlines hn with rfl | rfl | rfl <;> exact absurd hc (by decide)
  | continuation =>
    have := Lexeme.leading_of_newlines hn
    revert this
    decide

theorem drop_blanks (h : Ignorable gap) : Ignorable (gap.drop (Lexeme.blanks gap)) := by
  induction h with
  | nil => exact nil
  | @blank c rest hc later ih =>
    have hblanks : Lexeme.blanks (c :: rest) = Lexeme.blanks rest + 1 := by
      rw [Lexeme.blanks, List.takeWhile_cons_of_pos hc]
      rfl
    rwa [hblanks, List.drop_succ_cons]
  | continuation hg he later ih => exact continuation hg he later

theorem dropWhile_ne (h : Ignorable gap) :
    gap.dropWhile (· ≠ '\n') = [] ∨
      ∃ rest, Ignorable rest ∧ gap.dropWhile (· ≠ '\n') = '\n' :: rest := by
  induction h with
  | nil => exact .inl rfl
  | @blank c rest hc later ih =>
    have hne : c ≠ '\n' := by
      rintro rfl
      exact absurd hc (by decide)
    rwa [List.dropWhile_cons_of_pos (by simpa using hne)]
  | @continuation gap ending rest hg he later ih =>
    have hgap : ∀ c ∈ gap, decide (c ≠ '\n') = true := by
      intro c hc
      rw [decide_eq_true_eq]
      rintro rfl
      exact absurd (hg _ hc) (by decide)
    refine .inr ⟨rest, later, ?_⟩
    rw [List.dropWhile_cons_of_pos (by decide), List.dropWhile_append_of_pos hgap]
    simp only [List.mem_cons, List.not_mem_nil, or_false] at he
    rcases he with rfl | rfl <;> rfl

end Ignorable

namespace Token

theorem scanFrom_blank (hc : Lexeme.isBlank c = true) (offset : Nat) (text : List Char) :
    scanFrom start offset (c :: text) = scanFrom start (offset + 1) text := by
  have hself : ∀ b ∈ [c], Lexeme.isBlank b = true := by simpa using hc
  have hblanks : Lexeme.blanks (c :: text) = 1 + Lexeme.blanks text :=
    Lexeme.blanks_append hself text
  rw [← scanFrom_blanks start offset, ← scanFrom_blanks start (offset + 1), hblanks,
    Nat.add_assoc, Nat.add_comm 1, List.drop_succ_cons]

theorem scanFrom_ignorable (h : Ignorable gap) (offset : Nat) (text : List Char) :
    scanFrom start offset (gap ++ text) = scanFrom start (offset + gap.length) text := by
  induction h generalizing offset with
  | nil => rfl
  | blank hc later ih =>
    rw [List.cons_append, scanFrom_blank hc, ih, List.length_cons, Nat.add_assoc, Nat.add_comm 1]
  | @continuation gap ending rest hg he later ih =>
    have hi := Lexeme.ignored_continuation hg he (rest ++ text)
    have hlength : ('\\' :: (gap ++ (ending ++ rest))).length =
        gap.length + ending.length + 1 + rest.length := by
      simp only [List.length_cons, List.length_append]
      omega
    rw [List.cons_append, List.append_assoc, List.append_assoc, scanFrom_of_ignored hi (by simp),
      List.drop_succ_cons, ← List.append_assoc, ← List.length_append, List.drop_left, ih,
      List.length_append, hlength, Nat.add_assoc offset]

end Token

namespace Lexeme

theorem string_append (h : string text ≠ 0) (rest : List Char) :
    string (text ++ rest) = string text := by
  cases text with
  | nil => contradiction
  | cons mark line =>
    rw [string] at h
    dsimp only at h
    split at h
    · rename_i hmark
      split at h
      · rename_i hend
        have hlt := (List.getElem?_eq_some_iff.mp hend).1
        rw [List.cons_append, string, string, if_pos hmark, if_pos hmark, List.takeWhile_append,
          if_neg (Nat.ne_of_lt hlt)]
        dsimp only
        rw [List.getElem?_append_left hlt]
      · contradiction
    · contradiction

/-- What is found in a text as far as up to some place is found there, too, if ignored text
follows. -/
theorem first?_of_prefix {offered : Terminal → Bool} {t : Terminal} {front : List Char}
    (h : first? offered (front ++ text) = some (t, n)) (hle : n ≤ front.length)
    (ht : t ≠ .newline) (hc : isEnd c = true) :
    first? offered (front ++ c :: rest) = some (t, n) := by
  obtain ⟨ho, hn, hpos, hlong⟩ := first?_eq_some_iff.mp h
  have htake : (front ++ text).take front.length = front := List.take_left
  have hfront : ofTerminal t front = n := by
    have hcut := ofTerminal_take (m := front.length) (hn.trans_ne hpos) (hn ▸ hle)
    rw [htake] at hcut
    exact hcut.trans hn
  refine first?_eq_some_iff.mpr ⟨ho, ?_, hpos, fun he hco => ?_⟩
  · rw [← hfront]
    cases t with
    | number => exact number_before hc
    | name => exact name_before hc
    | string => exact string_append (hfront.trans_ne hpos) _
    | compOp => exact compOp_before hc
    | newline => contradiction
    | _ => exact single_before (ne_of_isEnd hc (by decide))
  · have hnone : compOp (front ++ text) = 0 := hlong he hco
    have hcut := compOp_take (m := front.length) (hnone.trans_le (Nat.zero_le _))
    rw [htake, hnone] at hcut
    exact (compOp_before hc).trans hcut

def goesOn (text : List Char) (c : Char) : Bool :=
  if text.head? = some '#' then c ≠ '\n' else isBlank c

theorem newlinePiece_ending {ending : List Char} (he : ending ∈ [['\n'], ['\r', '\n']])
    (rest : List Char) : newlinePiece (ending ++ rest) = ending.length + blanks rest := by
  simp only [List.mem_cons, List.not_mem_nil, or_false] at he
  rcases he with rfl | rfl <;> rfl

theorem goesOn_ending {ending : List Char} (he : ending ∈ [['\n'], ['\r', '\n']])
    (rest : List Char) : goesOn (ending ++ rest) = isBlank := by
  simp only [List.mem_cons, List.not_mem_nil, or_false] at he
  rcases he with rfl | rfl <;> rfl

theorem comment_or_ending (h : newlinePiece text ≠ 0) :
    (∃ later, text = '#' :: later) ∨
      ∃ ending later, ending ∈ [['\n'], ['\r', '\n']] ∧ text = ending ++ later := by
  rw [newlinePiece.eq_def] at h
  split at h
  · exact .inl ⟨_, rfl⟩
  · dsimp only at h
    split at h
    · contradiction
    · exact .inr ⟨_, _, take_lineBreak ‹_›, (List.take_append_drop _ _).symm⟩

theorem newlinePiece_append (h : newlinePiece text ≠ 0) (rest : List Char) :
    newlinePiece (text.take (newlinePiece text) ++ rest) =
      newlinePiece text + (rest.takeWhile (goesOn text)).length := by
  have htake {p : Char → Bool} (later : List Char) :
      ((later.take (later.takeWhile p).length ++ rest).takeWhile p).length =
        (later.takeWhile p).length + (rest.takeWhile p).length := by
    rw [← List.prefix_iff_eq_take.mp (List.takeWhile_prefix _),
      List.takeWhile_append_of_pos fun c => List.mem_takeWhile_imp, List.length_append]
  rcases comment_or_ending h with ⟨later, rfl⟩ | ⟨ending, later, he, rfl⟩
  · have hp : goesOn ('#' :: later) = fun c => decide (c ≠ '\n') := rfl
    rw [newlinePiece, Nat.add_comm 1, List.take_succ_cons, List.cons_append, newlinePiece, hp,
      htake]
    omega
  · rw [newlinePiece_ending he, List.take_length_add_append, List.append_assoc,
      newlinePiece_ending he, goesOn_ending he, blanks, blanks, htake, Nat.add_assoc]

theorem drop_takeWhile (p : Char → Bool) (text : List Char) :
    text.drop (text.takeWhile p).length = text.dropWhile p := by
  nth_rewrite 2 [← List.takeWhile_append_dropWhile (p := p) (l := text)]
  rw [List.drop_left]

theorem drop_take_append {n : Nat} (h : n ≤ text.length) (k : Nat) (rest : List Char) :
    (text.take n ++ rest).drop (n + k) = rest.drop k := by
  have hlength : (text.take n).length = n := List.length_take_of_le h
  calc
    (text.take n ++ rest).drop (n + k) = (text.take n ++ rest).drop ((text.take n).length + k) := by
      rw [hlength]
    _ = rest.drop k := List.drop_length_add_append ..

theorem newlines_piece_append (h : newlinePiece text ≠ 0) (rest : List Char) :
    newlines (text.take (newlinePiece text) ++ rest) = newlinePiece text +
      ((rest.takeWhile (goesOn text)).length + newlines (rest.dropWhile (goesOn text))) := by
  have hpiece := newlinePiece_append h rest
  rw [newlines_eq, hpiece, if_neg (by omega), drop_take_append (newlinePiece_le text), drop_takeWhile,
    Nat.add_assoc]

theorem takeWhile_goesOn (h : newlinePiece text ≠ 0) :
    (text.drop (newlinePiece text)).takeWhile (goesOn text) = [] := by
  rcases comment_or_ending h with ⟨later, rfl⟩ | ⟨ending, later, he, rfl⟩
  · rw [newlinePiece, Nat.add_comm 1, List.drop_succ_cons]
    exact takeWhile_drop_takeWhile (fun _ hc => hc) later
  · rw [newlinePiece_ending he, ← List.drop_drop, List.drop_left, goesOn_ending he]
    exact takeWhile_drop_takeWhile (fun _ hc => hc) later

theorem newlines_append_of_cons {front : List Char} (h : newlinePiece text ≠ 0)
    (hc : text.drop (newlinePiece text) = c :: front) (rest : List Char) :
    newlines (text.take (newlinePiece text) ++ (c :: rest)) =
      newlinePiece text + newlines (c :: rest) := by
  have hstop : goesOn text c = false := by
    have hnone := takeWhile_goesOn h
    rw [hc, List.takeWhile_eq_nil_iff] at hnone
    simpa using hnone (by simp)
  rw [newlines_piece_append h, List.takeWhile_cons_of_neg (by simp [hstop]),
    List.dropWhile_cons_of_neg (by simp [hstop]), List.length_nil, Nat.zero_add]

/-- Only at its end does a text end with a comment and no line break after it. -/
theorem goesOn_of_newlines (h : newlinePiece text ≠ 0)
    (hc : text.drop (newlinePiece text) = c :: rest) (hn : newlines (c :: rest) = 0) :
    goesOn text = isBlank := by
  rcases comment_or_ending h with ⟨later, rfl⟩ | ⟨ending, later, he, rfl⟩
  · have hnone := takeWhile_goesOn h
    have hbreak : c = '\n' := by simpa [hc, goesOn, List.takeWhile_cons] using hnone
    rw [hbreak, newlines_break] at hn
    omega
  · exact goesOn_ending he later

theorem newlines_eq_add (h : newlinePiece text ≠ 0) :
    newlines text = newlinePiece text + newlines (text.drop (newlinePiece text)) := by
  rw [newlines_eq, if_neg h]

theorem newlinePiece_ne_zero (h : newlines text ≠ 0) : newlinePiece text ≠ 0 := by
  intro hpiece
  rw [newlines_eq, if_pos hpiece] at h
  exact h rfl

/-- With other text behind them, line breaks go on there, if they did not end their own text. -/
theorem newlines_append (h : newlines text ≠ 0) (hr : text.drop (newlines text) ≠ [])
    (rest : List Char) :
    newlines (text.take (newlines text) ++ rest) =
      newlines text + (blanks rest + newlines (rest.drop (blanks rest))) := by
  -- on the text, whose first comment or line break is followed by more of them or is the last one
  induction hlength : text.length using Nat.strongRecOn generalizing text with
  | ind n ih =>
    have hpiece := newlinePiece_ne_zero h
    have hle := newlinePiece_le text
    rw [newlines_eq_add hpiece, ← List.drop_drop] at hr
    obtain ⟨c, later, hc⟩ := List.exists_cons_of_ne_nil (mt (List.drop_eq_nil_of_eq_nil) hr)
    have hshorter : (c :: later).length < n := by
      rw [← hc, List.length_drop]
      omega
    rw [newlines_eq_add hpiece, List.take_add, List.append_assoc]
    rw [hc] at hr ⊢
    cases hlater : newlines (c :: later) with
    | zero =>
      have hblank := goesOn_of_newlines hpiece hc hlater
      rw [List.take_zero, List.nil_append, newlines_piece_append hpiece, hblank, ← drop_takeWhile]
      rfl
    | succ k =>
      have hbelow := ih _ hshorter (by omega) hr rfl
      rw [hlater, List.take_succ_cons, List.cons_append] at hbelow
      rw [List.take_succ_cons, List.cons_append, newlines_append_of_cons hpiece hc, hbelow]
      omega

theorem ignorable_dropWhile (h : newlinePiece text ≠ 0) (hg : Ignorable gap) :
    Ignorable ((gap.dropWhile (goesOn text)).drop (newlines (gap.dropWhile (goesOn text)))) := by
  rcases comment_or_ending h with ⟨later, rfl⟩ | ⟨ending, later, he, rfl⟩
  · have hp : goesOn ('#' :: later) = fun c => decide (c ≠ '\n') := rfl
    rw [hp]
    rcases hg.dropWhile_ne with hnil | ⟨rest, hrest, hcons⟩
    · rw [hnil, List.drop_nil]
      exact .nil
    · rw [hcons, newlines_break, hrest.drop_blanks.newlines_eq_zero, Nat.add_zero, Nat.add_comm,
        List.drop_succ_cons]
      exact hrest.drop_blanks
  · have hrest := hg.drop_blanks
    have hdrop : gap.dropWhile isBlank = gap.drop (blanks gap) := (drop_takeWhile isBlank gap).symm
    rw [goesOn_ending he, hdrop, hrest.newlines_eq_zero]
    exact hrest

theorem newlines_ignorable (h : newlines text = text.length) (hne : text ≠ [])
    (hg : Ignorable gap) :
    newlines (text ++ gap) ≠ 0 ∧ Ignorable ((text ++ gap).drop (newlines (text ++ gap))) := by
  induction hlength : text.length using Nat.strongRecOn generalizing text with
  | ind n ih =>
    have hpos := List.length_pos_iff.mpr hne
    have hpiece := newlinePiece_ne_zero (by omega : newlines text ≠ 0)
    have hle := newlinePiece_le text
    have hwhole : text ++ gap = text.take (newlinePiece text) ++
        (text.drop (newlinePiece text) ++ gap) := by
      rw [← List.append_assoc, List.take_append_drop]
    rw [newlines_eq_add hpiece] at h
    cases hc : text.drop (newlinePiece text) with
    | nil =>
      have hend := ignorable_dropWhile hpiece hg
      rw [hwhole, hc, List.nil_append, newlines_piece_append hpiece, drop_take_append hle,
        ← List.drop_drop, drop_takeWhile]
      exact ⟨by omega, hend⟩
    | cons c later =>
      have hshorter : (c :: later).length = text.length - newlinePiece text := by
        rw [← hc, List.length_drop]
      rw [hc] at h
      obtain ⟨-, hrest⟩ := ih (c :: later).length (by omega) (by omega) (by simp) rfl
      rw [hwhole, hc, List.cons_append, newlines_append_of_cons hpiece hc, drop_take_append hle]
      exact ⟨by omega, hrest⟩

end Lexeme

namespace Token
variable {front : List Char}

theorem scanFrom_eq_nil (h : Ignorable gap) (offset : Nat) :
    scanFrom start offset gap = some [] := by
  rw [← List.append_nil gap, scanFrom_ignorable h, scanFrom_nil]

theorem scanFrom_newlines_ignorable (h : Lexeme.newlines front = front.length) (hne : front ≠ [])
    (hg : Ignorable gap) (offset : Nat) :
    ∃ newline, newline.terminal = .newline ∧
      scanFrom .script offset (front ++ gap) = some [newline] := by
  obtain ⟨hpos, hrest⟩ := Lexeme.newlines_ignorable h hne hg
  obtain ⟨newline, hnewline, hscan⟩ := scanFrom_newlines offset hpos
  exact ⟨newline, hnewline, by rw [hscan, scanFrom_eq_nil hrest]; rfl⟩

/-- Line breaks in front of a text take the blanks at its beginning, and the line breaks after
them, which the text has for itself otherwise. -/
theorem scanFrom_newlines_append (h : Lexeme.newlines (front ++ text) = front.length)
    (hne : front ≠ []) (ht : text ≠ []) (offset : Nat) (rest : List Char) :
    ∃ newline found, newline.terminal = .newline ∧
      scanFrom .script offset (front ++ rest) = Option.map (newline :: ·) found ∧
      (scanFrom .script (offset + front.length) rest = found ∨
        ∃ second, second.terminal = .newline ∧
          scanFrom .script (offset + front.length) rest = found.map (second :: ·)) := by
  have hpos := List.length_pos_iff.mpr hne
  have hbreak : Lexeme.newlines (front ++ text) ≠ 0 := by omega
  have hlexeme := Lexeme.newlines_append hbreak (by rwa [h, List.drop_left]) rest
  rw [h, List.take_left] at hlexeme
  have hbreak' : Lexeme.newlines (front ++ rest) ≠ 0 := by omega
  obtain ⟨newline, hnewline, hscan⟩ := scanFrom_newlines offset hbreak'
  rw [hlexeme, List.drop_length_add_append, ← List.drop_drop, ← Nat.add_assoc,
    ← Nat.add_assoc] at hscan
  refine ⟨newline, _, hnewline, hscan, ?_⟩
  rw [← scanFrom_blanks .script (offset + front.length) rest]
  by_cases hm : Lexeme.newlines (rest.drop (Lexeme.blanks rest)) = 0
  · rw [hm]
    exact .inl rfl
  · exact .inr (scanFrom_newlines _ hm)

/-- If other line breaks do not come first there, what follows line breaks is divided as before. -/
theorem scanFrom_newlines_some (h : Lexeme.newlines (front ++ text) = front.length)
    (hne : front ≠ []) (ht : text ≠ []) {tokens : List Token}
    (htokens : scanFrom .script (offset + front.length) rest = some tokens)
    (hhead : ∀ token ∈ tokens.head?, token.terminal ≠ .newline) :
    ∃ newline, newline.terminal = .newline ∧
      scanFrom .script offset (front ++ rest) = some (newline :: tokens) := by
  obtain ⟨newline, found, hnewline, hscan, hrest⟩ :=
    scanFrom_newlines_append h hne ht offset rest
  refine ⟨newline, hnewline, ?_⟩
  rcases hrest with hrest | ⟨second, hsecond, hrest⟩
  · rw [hscan, ← hrest, htokens]
    rfl
  · obtain ⟨later, -, rfl⟩ := Option.map_eq_some_iff.mp (hrest.symm.trans htokens)
    exact absurd hsecond (hhead second rfl)

theorem scanFrom_newlines_none (h : Lexeme.newlines (front ++ text) = front.length)
    (hne : front ≠ []) (ht : text ≠ [])
    (hnone : scanFrom .script (offset + front.length) rest = none) :
    scanFrom .script offset (front ++ rest) = none := by
  obtain ⟨newline, found, -, hscan, hrest⟩ := scanFrom_newlines_append h hne ht offset rest
  have hfound : found = none := by
    rcases hrest with hrest | ⟨second, -, hrest⟩
    · exact hrest.symm.trans hnone
    · exact Option.map_eq_none_iff.mp (hrest.symm.trans hnone)
  rw [hscan, hfound]
  rfl

end Token

end ArithScript
