import Mathlib.Data.List.Chain
import ArithScript.Proofs.Grammar.LineEnds
import ArithScript.Proofs.Grammar.Lossless

/-!
Tokens of the lines of a text. A text without continuations is read as a script exactly if the
tokens on each line that has some are those of a statement.
-/
namespace ArithScript

/-- The tokens of each line that has some, if line breaks end the lines. -/
def runs (tokens : List Token) : List (List Token) :=
  (tokens.splitOnP (·.terminal = .newline)).filter (!·.isEmpty)

variable {offset : Nat} {line text : List Char} {tokens more : List Token} {newline : Token}

theorem runs_nil : runs [] = [] := rfl

theorem runs_append_cons (tokens : List Token) (h : newline.terminal = .newline) :
    runs (tokens ++ newline :: more) = runs tokens ++ runs more := by
  rw [runs, List.splitOnP_append_cons _ _ (by simpa using h), List.filter_append]
  rfl

theorem runs_cons (h : newline.terminal = .newline) : runs (newline :: more) = runs more :=
  runs_append_cons [] h

theorem runs_of_forall (h : ∀ token ∈ tokens, token.terminal ≠ .newline) (hne : tokens ≠ []) :
    runs tokens = [tokens] := by
  rw [runs, List.splitOnP_eq_singleton (by simpa using h)]
  simpa using hne

/-- The tokens of each line of a text that begins at the offset. -/
def scanRuns (offset : Nat) (text : List Char) : Option (List (List Token)) :=
  (Token.scanFrom .script offset text).map runs

theorem scanRuns_nil (offset : Nat) : scanRuns offset [] = some [] := by
  rw [scanRuns, Token.scanFrom_nil]
  rfl

theorem Token.scanFrom_blanks (start : StartSymbol) (offset : Nat) (text : List Char) :
    scanFrom start (offset + Lexeme.blanks text) (text.drop (Lexeme.blanks text)) =
      scanFrom start offset text := by
  cases hb : Lexeme.blanks text with
  | zero => rfl
  | succ n =>
    have hi : Lexeme.ignored text = n + 1 := by
      rw [Lexeme.ignored, hb, if_neg n.succ_ne_zero]
    have hne : text ≠ [] := by
      rintro rfl
      contradiction
    rw [scanFrom_of_ignored hi hne]

theorem scanRuns_blanks (offset : Nat) (text : List Char) :
    scanRuns (offset + Lexeme.blanks text) (text.drop (Lexeme.blanks text)) =
      scanRuns offset text := by
  rw [scanRuns, scanRuns, Token.scanFrom_blanks]

theorem scanRuns_newlines (offset : Nat) (text : List Char) :
    scanRuns (offset + Lexeme.newlines text) (text.drop (Lexeme.newlines text)) =
      scanRuns offset text := by
  by_cases hn : Lexeme.newlines text = 0
  · rw [hn]
    rfl
  · obtain ⟨newline, hnewline, hscan⟩ := Token.scanFrom_newlines offset hn
    rw [scanRuns, scanRuns, hscan, Option.map_map]
    congr 1
    funext tokens
    exact (runs_cons hnewline).symm

theorem scanRuns_break (offset : Nat) (rest : List Char) :
    scanRuns (offset + Lexeme.newlines ('\n' :: rest))
      (('\n' :: rest).drop (Lexeme.newlines ('\n' :: rest))) = scanRuns (offset + 1) rest := by
  have hblanks := scanRuns_blanks (offset + 1) rest
  have hnewlines := scanRuns_newlines (offset + 1 + Lexeme.blanks rest)
    (rest.drop (Lexeme.blanks rest))
  rw [← hblanks, ← hnewlines, List.drop_drop, Lexeme.newlines_break]
  congr 1
  · omega
  · rw [Nat.add_assoc 1, Nat.add_comm 1, List.drop_succ_cons]

theorem scanRuns_before (h : IsLine line) (offset : Nat) (rest : List Char) :
    scanRuns offset (line ++ '\n' :: rest) =
      (scanRuns offset line).bind fun found =>
        (scanRuns (offset + line.length + 1) rest).map (found ++ ·) := by
  rw [← scanRuns_break]
  rcases Token.scanFrom_before h offset rest with
    ⟨hnone, hnone'⟩ | ⟨front, comment, newline, hnewline, hc, hs, hs'⟩
  · rw [scanRuns, scanRuns, hnone, hnone']
    rfl
  · have hfront : runs (front ++ comment.toList) = runs front := by
      cases comment with
      | none => rw [Option.toList_none, List.append_nil]
      | some token =>
        rw [Option.toList_some, runs_append_cons front (hc token rfl), runs_nil, List.append_nil]
    rw [scanRuns, scanRuns, scanRuns, hs, hs', Option.map_map, Option.map_some, Option.bind_some,
      Option.map_map, hfront]
    congr 1
    funext later
    exact runs_append_cons front hnewline

namespace Lexeme

theorem takeWhile_drop_takeWhile {p q : Char → Bool} (h : ∀ c, p c = false → q c = false)
    (text : List Char) : (text.drop (text.takeWhile p).length).takeWhile q = [] := by
  induction text with
  | nil => rfl
  | cons c text ih =>
    by_cases hc : p c = true
    · rw [List.takeWhile_cons_of_pos hc, List.length_cons, List.drop_succ_cons, ih]
    · have hq := h c (Bool.not_eq_true _ ▸ hc)
      rw [List.takeWhile_cons_of_neg hc, List.length_nil, List.drop_zero,
        List.takeWhile_cons_of_neg (by simp [hq])]

theorem blanks_drop_newlinePiece (text : List Char) (h : newlinePiece text ≠ 0) :
    blanks (text.drop (newlinePiece text)) = 0 := by
  rw [blanks, List.length_eq_zero_iff]
  rw [newlinePiece.eq_def] at h ⊢
  split at h
  · rename_i rest
    rw [Nat.add_comm 1, List.drop_succ_cons]
    apply takeWhile_drop_takeWhile
    intro c hc
    have hc' : c = '\n' := by simpa using hc
    rw [hc']
    rfl
  · dsimp only at h ⊢
    split at h
    · contradiction
    · rw [if_neg ‹_›, ← List.drop_drop]
      exact takeWhile_drop_takeWhile (fun _ hc => hc) _

theorem rest_newlines (hn : newlines text ≠ 0) :
    blanks (text.drop (newlines text)) = 0 ∧ newlines (text.drop (newlines text)) = 0 := by
  induction hlen : text.length using Nat.strongRecOn generalizing text with
  | ind n ih =>
    have hpiece : newlinePiece text ≠ 0 := by
      intro hpiece
      rw [newlines_eq, if_pos hpiece] at hn
      exact hn rfl
    rw [newlines_eq, if_neg hpiece, ← List.drop_drop]
    by_cases hlater : newlines (text.drop (newlinePiece text)) = 0
    · rw [hlater, List.drop_zero]
      exact ⟨blanks_drop_newlinePiece text hpiece, hlater⟩
    · have hle := newlinePiece_le text
      exact ih _ (by rw [List.length_drop]; omega) hlater rfl

end Lexeme

/-- No line break follows another one. -/
def Tidy (tokens : List Token) : Prop :=
  tokens.IsChain fun token next => token.terminal = .newline → next.terminal ≠ .newline

theorem Tidy.prepend (h : ∀ token ∈ tokens, token.terminal ≠ .newline) (hm : Tidy more) :
    Tidy (tokens ++ more) := by
  induction tokens with
  | nil => exact hm
  | cons token tokens ih =>
    obtain ⟨hself, hlater⟩ := List.forall_mem_cons.mp h
    exact List.isChain_cons.mpr ⟨fun _ _ ht => absurd ht hself, ih hlater⟩

theorem exists_of_not_tidy (h : ¬Tidy tokens) :
    ∃ front first second back, tokens = front ++ first :: second :: back ∧
      first.terminal = .newline ∧ second.terminal = .newline := by
  induction tokens with
  | nil => exact absurd .nil h
  | cons token tokens ih =>
    by_cases htidy : Tidy tokens
    · have hfollowed : ¬∀ next ∈ tokens.head?, token.terminal = .newline →
          next.terminal ≠ .newline := fun hall => h (List.isChain_cons.mpr ⟨hall, htidy⟩)
      push Not at hfollowed
      obtain ⟨next, hnext, ht, hn⟩ := hfollowed
      cases tokens with
      | nil => contradiction
      | cons second back =>
        obtain rfl := Option.some.inj hnext
        exact ⟨[], token, second, back, rfl, ht, hn⟩
    · obtain ⟨front, first, second, back, rfl, hfirst, hsecond⟩ := ih htidy
      exact ⟨token :: front, first, second, back, rfl, hfirst, hsecond⟩

theorem not_tidy {front back : List Token} {first second : Token}
    (hfirst : first.terminal = .newline) (hsecond : second.terminal = .newline) :
    ¬Tidy (front ++ first :: second :: back) := by
  intro h
  have hchain := (List.isChain_append.mp h).2.1
  exact (List.isChain_cons.mp hchain).1 second rfl hfirst hsecond

/-- Only a continuation separates line breaks from those that follow them. -/
theorem LaidOut.continuation_ne_zero {front back : List Token} {first second : Token}
    (hl : LaidOut text offset (front ++ first :: second :: back))
    (hfirst : first.terminal = .newline) (hsecond : second.terminal = .newline) :
    Lexeme.continuation (text.drop first.stop) ≠ 0 := by
  obtain ⟨-, -, hf, hskips, hs, -⟩ := laidOut_append.mp hl
  have hf' := hf.lexeme
  have hs' := hs.lexeme
  have hlt := hf.lt
  have hlt' := hs.lt
  rw [hfirst, Lexeme.ofTerminal] at hf'
  rw [hsecond, Lexeme.ofTerminal] at hs'
  have hbreak : Lexeme.newlines (text.drop first.start) ≠ 0 := by omega
  obtain ⟨hblanks, hnewlines⟩ := Lexeme.rest_newlines hbreak
  rw [hf', List.drop_drop, Nat.add_sub_cancel' (Nat.le_of_lt hlt)] at hblanks hnewlines
  have hne : first.stop ≠ second.start := by
    intro heq
    rw [← heq, hnewlines] at hs'
    omega
  have hignored := hskips.ignored hne
  rwa [Lexeme.ignored, if_pos hblanks] at hignored

/-- Without continuations, line breaks that follow each other are one token. -/
theorem tidy_of_scan {start : StartSymbol} (h : '\\' ∉ text)
    (hscan : Token.scan start text = some tokens) : Tidy tokens := by
  by_contra htidy
  obtain ⟨front, first, second, back, rfl, hfirst, hsecond⟩ := exists_of_not_tidy htidy
  refine (laidOut_of_scan hscan).continuation_ne_zero hfirst hsecond ?_
  exact Lexeme.continuation_eq_zero fun hmem => h (List.mem_of_mem_drop hmem)

theorem exists_break (tokens : List Token) :
    (∀ token ∈ tokens, token.terminal ≠ .newline) ∨
    ∃ front newline later, tokens = front ++ newline :: later ∧ newline.terminal = .newline ∧
      ∀ token ∈ front, token.terminal ≠ .newline := by
  induction tokens with
  | nil => exact .inl (by simp)
  | cons token tokens ih =>
    by_cases ht : token.terminal = .newline
    · exact .inr ⟨[], token, tokens, rfl, ht, by simp⟩
    · rcases ih with hall | ⟨front, newline, later, rfl, hnewline, hfront⟩
      · exact .inl (List.forall_mem_cons.mpr ⟨ht, hall⟩)
      · exact .inr ⟨token :: front, newline, later, rfl, hnewline,
          List.forall_mem_cons.mpr ⟨ht, hfront⟩⟩

theorem break_induct {P : List Token → Prop}
    (line : ∀ tokens, (∀ token ∈ tokens, token.terminal ≠ .newline) → P tokens)
    (lines : ∀ front newline later, newline.terminal = .newline → P front → P later →
      P (front ++ newline :: later)) (tokens : List Token) : P tokens := by
  induction hlength : tokens.length using Nat.strongRecOn generalizing tokens with
  | ind n ih =>
    rcases exists_break tokens with hall | ⟨front, newline, later, rfl, hnewline, hfront⟩
    · exact line tokens hall
    · have hlater : later.length < n := by
        rw [← hlength, List.length_append, List.length_cons]
        omega
      exact lines front newline later hnewline (line front hfront) (ih _ hlater later rfl)

theorem mem_runs (tokens : List Token) : ∀ ts ∈ runs tokens,
    ts <:+: tokens ∧ ts ≠ [] ∧ ∀ token ∈ ts, token.terminal ≠ .newline := by
  induction tokens using break_induct with
  | line tokens h =>
    intro ts hts
    by_cases hne : tokens = []
    · rw [hne] at hts
      contradiction
    · rw [runs_of_forall h hne] at hts
      obtain rfl := List.mem_singleton.mp hts
      exact ⟨List.infix_refl _, hne, h⟩
  | lines front newline later hnewline ih ih' =>
    rw [runs_append_cons _ hnewline]
    intro ts hts
    rcases List.mem_append.mp hts with hts | hts
    · obtain ⟨hwithin, hrest⟩ := ih ts hts
      exact ⟨hwithin.trans (List.prefix_append ..).isInfix, hrest⟩
    · obtain ⟨hwithin, hrest⟩ := ih' ts hts
      have hsuffix : later <:+ front ++ newline :: later :=
        (List.suffix_cons ..).trans (List.suffix_append ..)
      exact ⟨hwithin.trans hsuffix.isInfix, hrest⟩

theorem runs_map {f : Token → Token} (h : ∀ token, (f token).terminal = token.terminal)
    (tokens : List Token) : runs (tokens.map f) = (runs tokens).map (List.map f) := by
  induction tokens using break_induct with
  | line tokens hall =>
    by_cases hne : tokens = []
    · rw [hne]
      rfl
    · have hmap : ∀ token ∈ tokens.map f, token.terminal ≠ .newline := by
        rw [List.forall_mem_map]
        intro token ht
        rw [h]
        exact hall token ht
      rw [runs_of_forall hall hne, runs_of_forall hmap (mt List.map_eq_nil_iff.mp hne)]
      rfl
  | lines front newline later hnewline ih ih' =>
    rw [List.map_append, List.map_cons, runs_append_cons _ ((h newline).trans hnewline), ih, ih',
      runs_append_cons _ hnewline, List.map_append]

namespace ScriptParts

theorem runs_lines {lines : List (Piece × Token)} {last : Option Piece}
    (hb : ∀ x ∈ lines, x.2.terminal = .newline)
    (hs : ∀ p ∈ lines.map Prod.fst ++ last.toList, ShapedStatement p.tokens p.tree) :
    runs (lines.flatMap (fun x => x.1.tokens ++ [x.2]) ++ last.elim [] Piece.tokens) =
      (lines.map Prod.fst ++ last.toList).map Piece.tokens := by
  induction lines with
  | nil =>
    cases last with
    | none => rfl
    | some p =>
      have hp := hs p (by simp)
      exact runs_of_forall hp.terminal_ne hp.tokens_ne_nil
  | cons x lines ih =>
    have hx := hs x.1 (by simp)
    have hlater := ih (fun y hy => hb y (List.mem_cons_of_mem _ hy))
      (fun p hp => hs p (List.mem_cons_of_mem _ hp))
    rw [List.flatMap_cons, List.append_assoc, List.append_assoc, List.singleton_append,
      runs_append_cons _ (hb x List.mem_cons_self), hlater,
      runs_of_forall hx.terminal_ne hx.tokens_ne_nil]
    rfl

theorem Lined.runs_tokens {parts : ScriptParts} (h : parts.Lined) :
    runs parts.tokens = parts.statements.map Piece.tokens := by
  have hlines := runs_lines h.breaks h.statements
  rw [ScriptParts.tokens]
  cases hleading : parts.leading with
  | none => exact hlines
  | some newline =>
    rw [Option.toList_some, List.singleton_append, runs_cons (h.leading newline hleading)]
    exact hlines

theorem front_ne_nil {front later : List Token}
    (hhead : ∀ token ∈ (front ++ newline :: later).head?, token.terminal ≠ .newline)
    (hnewline : newline.terminal = .newline) : front ≠ [] := by
  rintro rfl
  exact hhead newline rfl hnewline

theorem exists_lines {pieces : List Piece} (htidy : Tidy tokens)
    (hhead : ∀ token ∈ tokens.head?, token.terminal ≠ .newline)
    (hruns : runs tokens = pieces.map Piece.tokens) :
    ∃ (lines : List (Piece × Token)) (last : Option Piece),
      (∀ x ∈ lines, x.2.terminal = .newline) ∧ lines.map Prod.fst ++ last.toList = pieces ∧
        tokens = lines.flatMap (fun x => x.1.tokens ++ [x.2]) ++ last.elim [] Piece.tokens := by
  -- on the statements; the tokens start with one, as two line breaks are never next to each other
  induction pieces generalizing tokens with
  | nil =>
    refine ⟨[], none, by simp, rfl, ?_⟩
    rcases exists_break tokens with hall | ⟨front, newline, later, rfl, hnewline, hfront⟩
    · by_contra hne
      rw [runs_of_forall hall hne] at hruns
      contradiction
    · have hne := front_ne_nil hhead hnewline
      rw [runs_append_cons _ hnewline, runs_of_forall hfront hne] at hruns
      contradiction
  | cons p pieces ih =>
    rw [List.map_cons] at hruns
    rcases exists_break tokens with hall | ⟨front, newline, later, rfl, hnewline, hfront⟩
    · have hne : tokens ≠ [] := by
        rintro rfl
        contradiction
      rw [runs_of_forall hall hne] at hruns
      obtain ⟨hp, hnil⟩ := List.cons.inj hruns
      obtain rfl := List.map_eq_nil_iff.mp hnil.symm
      exact ⟨[], some p, by simp, rfl, hp⟩
    · have hne := front_ne_nil hhead hnewline
      rw [runs_append_cons _ hnewline, runs_of_forall hfront hne] at hruns
      obtain ⟨rfl, hlater⟩ := List.cons.inj hruns
      obtain ⟨-, hchain, -⟩ := List.isChain_append.mp htidy
      obtain ⟨hnext, htidy'⟩ := List.isChain_cons.mp hchain
      obtain ⟨lines, last, hb, hpieces, htokens⟩ :=
        ih htidy' (fun token ht => hnext token ht hnewline) hlater
      refine ⟨(p, newline) :: lines, last, List.forall_mem_cons.mpr ⟨hnewline, hb⟩, ?_, ?_⟩
      · rw [List.map_cons, List.cons_append, hpieces]
      · rw [List.flatMap_cons, List.append_assoc, ← htokens, List.append_assoc]
        rfl

/-- Tokens whose lines are statements are those of a script. -/
theorem exists_lined {pieces : List Piece} (htidy : Tidy tokens)
    (hruns : runs tokens = pieces.map Piece.tokens)
    (hs : ∀ p ∈ pieces, ShapedStatement p.tokens p.tree) :
    ∃ parts : ScriptParts, parts.Lined ∧ parts.tokens = tokens ∧ parts.statements = pieces := by
  have hparts : ∃ (leading : Option Token) (later : List Token),
      (∀ token ∈ leading, token.terminal = .newline) ∧ tokens = leading.toList ++ later ∧
        Tidy later ∧ (∀ token ∈ later.head?, token.terminal ≠ .newline) ∧
          runs later = runs tokens := by
    cases tokens with
    | nil => exact ⟨none, [], by simp, rfl, htidy, by simp, rfl⟩
    | cons token later =>
      by_cases ht : token.terminal = .newline
      · obtain ⟨hnext, htidy'⟩ := List.isChain_cons.mp htidy
        exact ⟨some token, later, by simpa using ht, rfl, htidy',
          fun next hmem => hnext next hmem ht, (runs_cons ht).symm⟩
      · exact ⟨none, token :: later, by simp, rfl, htidy, by simpa using ht, rfl⟩
  obtain ⟨leading, later, hleading, rfl, htidy', hhead, hsame⟩ := hparts
  obtain ⟨lines, last, hb, hpieces, rfl⟩ := exists_lines htidy' hhead (hsame.trans hruns)
  exact ⟨⟨leading, lines, last⟩, ⟨hleading, hb, fun p hp => hs p (hpieces ▸ hp)⟩, rfl, hpieces⟩

theorem tidy_lines {lines : List (Piece × Token)} {last : Option Piece}
    (hs : ∀ p ∈ lines.map Prod.fst ++ last.toList, ShapedStatement p.tokens p.tree) :
    Tidy (lines.flatMap (fun x => x.1.tokens ++ [x.2]) ++ last.elim [] Piece.tokens) ∧
      ∀ token ∈ (lines.flatMap (fun x => x.1.tokens ++ [x.2]) ++
        last.elim [] Piece.tokens).head?, token.terminal ≠ .newline := by
  induction lines with
  | nil =>
    cases last with
    | none => exact ⟨.nil, nofun⟩
    | some p =>
      have hp := (hs p (by simp)).terminal_ne
      have htidy : Tidy (p.tokens ++ []) := .prepend hp .nil
      rw [List.append_nil] at htidy
      exact ⟨htidy, fun token ht => hp token (List.mem_of_mem_head? ht)⟩
  | cons x lines ih =>
    obtain ⟨htidy, hhead⟩ := ih fun p hp => hs p (List.mem_cons_of_mem _ hp)
    have hx := hs x.1 (by simp)
    obtain ⟨first, rest, htokens⟩ := List.exists_cons_of_ne_nil hx.tokens_ne_nil
    rw [List.flatMap_cons, List.append_assoc, List.append_assoc, List.singleton_append]
    constructor
    · exact .prepend hx.terminal_ne (List.isChain_cons.mpr ⟨fun token ht _ => hhead token ht, htidy⟩)
    · intro token ht
      rw [htokens] at ht
      obtain rfl : first = token := by simpa using ht
      exact hx.terminal_ne first (by simp [htokens])

theorem Lined.tidy {parts : ScriptParts} (h : parts.Lined) : Tidy parts.tokens := by
  obtain ⟨htidy, hhead⟩ := tidy_lines h.statements
  rw [ScriptParts.tokens]
  cases parts.leading with
  | none => exact htidy
  | some newline => exact List.isChain_cons.mpr ⟨fun token ht _ => hhead token ht, htidy⟩

end ScriptParts

theorem Derivable.tidy {start : StartSymbol} {trees : List Tree}
    (h : Derivable (.nonterminal start.nonterminal) tokens trees) : Tidy tokens := by
  have hshape := h.shape
  cases start with
  | script =>
    obtain ⟨parts, hp, rfl, -⟩ := hshape
    exact hp.tidy
  | expr =>
    obtain ⟨tree, hs, -⟩ := hshape
    have htidy : Tidy (tokens ++ []) := .prepend hs.terminal_ne .nil
    rwa [List.append_nil] at htidy

end ArithScript
