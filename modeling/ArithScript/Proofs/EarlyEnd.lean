import ArithScript.Proofs.Program.Reports

/-!
Texts that end too early. Their tokens begin a sentence and are none, so the automaton puts all of
them on its stack before it stops. The failure does not stand at the end of the text but at the last
token, which has been accepted.
-/
namespace ArithScript

variable {start : StartSymbol} {text : List Char} {tokens : List Token} {c c' : Config}
  {refusal : Refusal}

theorem Token.exists_first?_of_scanFrom {offset : Nat} (hne : text ≠ [])
    (hi : Lexeme.ignored text = 0) (h : scanFrom start offset text = some tokens) :
    ∃ t n later, Lexeme.first? start.hasTerminal text = some (t, n + 1) ∧
      tokens = ofPrefix t offset (n + 1) text :: later := by
  rw [scanFrom] at h
  simp only [hne, ↓reduceDIte, hi] at h
  split at h
  · rename_i t n hfirst
    obtain ⟨later, -, rfl⟩ := Option.map_eq_some_iff.mp h
    exact ⟨t, n, later, hfirst, rfl⟩
  · contradiction

theorem Config.Sound.first?_hasTerminal {t : Terminal} {n : Nat} (hc : c.Sound start text)
    (hfirst : Lexeme.first? (c.stack.state.accepts start) (text.drop c.offset) = some (t, n)) :
    Lexeme.first? start.hasTerminal (text.drop c.offset) = some (t, n) := by
  have hoffered := (Lexeme.first?_eq_some_iff.mp hfirst).1
  obtain ⟨ht, hequal⟩ := State.accepts_hasTerminal _ _ _ hc.linked.occursIn hoffered
  exact Lexeme.first?_eq_of_offered hfirst ht fun he _ => hequal he

theorem Step.scan_eq (h : Step start text c c') (hc : c.Sound start text) :
    (Token.scanFrom start c'.offset (text.drop c'.offset)).map (c'.stack.tokens ++ ·) =
      (Token.scanFrom start c.offset (text.drop c.offset)).map (c.stack.tokens ++ ·) := by
  cases h with
  | @skip n hi =>
    have hne : text.drop c.offset ≠ [] := by
      intro hnil
      rw [hnil] at hi
      contradiction
    rw [Token.scanFrom_of_ignored hi hne, List.drop_drop]
  | @shift t n s hi hfirst hs =>
    rw [Token.scanFrom_of_first? hi (ne_nil_of_first? hfirst) (hc.first?_hasTerminal hfirst),
      List.drop_drop, Option.map_map, Stack.tokens, (hc.linked.reduceFor (some t)).2]
    congr 1
    funext later
    simp [Derivation.yield]

theorem Reached.scan_eq (h : Reached start text c) :
    (Token.scanFrom start c.offset (text.drop c.offset)).map (c.stack.tokens ++ ·) =
      Token.scan start text := by
  induction h with
  | init =>
    change (Token.scanFrom start 0 text).map ([] ++ ·) = Token.scanFrom start 0 text
    simp
  | step before next ih => exact (next.scan_eq before.sound).trans ih

/-- Where something is left, the automaton stops only at a token with which no sentence begins. -/
theorem Config.Stops.drop_eq_nil (h : c.Stops start text refusal) (hc : Reached start text c)
    (hscan : Token.scan start text = some tokens) (hv : Viable start (tokens.map Token.terminal)) :
    text.drop c.offset = [] := by
  by_contra hne
  have hi : Lexeme.ignored (text.drop c.offset) = 0 := by
    cases h with
    | unreadable _ hi _ => exact hi
    | misplaced hi _ _ => exact hi
    | unfinished hend _ => exact absurd hend hne
  have hsplit := hc.scan_eq
  rw [hscan] at hsplit
  obtain ⟨later, hlater, rfl⟩ := Option.map_eq_some_iff.mp hsplit
  obtain ⟨t, n, rest, hfirst, rfl⟩ := Token.exists_first?_of_scanFrom hne hi hlater
  -- the next token goes on the stack, since it can follow what is there
  have hnext : Viable start (c.terminals ++ [t]) := by
    have hterminals : (c.stack.tokens ++ .ofPrefix t c.offset (n + 1) (text.drop c.offset) ::
        rest).map Token.terminal = c.terminals ++ [t] ++ rest.map Token.terminal := by
      simp [Config.terminals, Token.ofPrefix]
    rw [hterminals] at hv
    exact hv.of_append
  have hoffered := hc.sound.accepts_of_viable hnext
  have htaken := hc.sound.takes_of_canFollow (some t) hnext
  have hfound := Lexeme.first?_eq_of_offered hfirst hoffered fun _ _ => by cases start <;> rfl
  cases h with
  | unreadable _ _ hnone =>
    rw [hfound] at hnone
    contradiction
  | misplaced _ hother hs =>
    rw [hfound] at hother
    obtain ⟨rfl, -⟩ := Prod.mk.inj (Option.some.inj hother)
    rw [State.takes, hs] at htaken
    contradiction
  | unfinished hend _ => exact absurd hend hne

theorem Reached.tokens_eq (h : Reached start text c) (hend : text.drop c.offset = [])
    (hscan : Token.scan start text = some tokens) : c.stack.tokens = tokens := by
  have hsplit := h.scan_eq
  rw [hend, Token.scanFrom_nil, hscan] at hsplit
  simpa using hsplit

/-- The offset at which the last of the tokens starts, and 0 if there is none. -/
def Token.latest (tokens : List Token) : Nat := (tokens.getLast?.map Token.start).getD 0

theorem Refusal.offset_of_viable (h : Derivation.parse start text = .error refusal)
    (hscan : Token.scan start text = some tokens) (hv : Viable start (tokens.map Token.terminal)) :
    refusal.offset = Token.latest tokens := by
  obtain ⟨c, hc, hstops⟩ := Reached.init.exists_stops h
  have hend := hstops.drop_eq_nil hc hscan hv
  have htokens := hc.tokens_eq hend hscan
  cases hstops with
  | unreadable hne _ _ => exact absurd hend hne
  | misplaced _ hfirst _ => exact absurd hend (ne_nil_of_first? hfirst)
  | unfinished _ _ =>
    have htracked := hc.tracked
    rw [Config.Tracked, htokens] at htracked
    exact htracked

def operandStarts : List Lookahead :=
  [.number, .name, .string, .plus, .minus, .tilde, .lpar].map some

theorem parse_sum : Derivation.parse .script (Source.ofString "1 +").chars.toList =
    .error (.unfinished 2 operandStarts) := by
  have hrun : (Derivation.parse .script (Source.ofString "1 +").chars.toList).map (fun _ => ()) =
      .error (.unfinished 2 operandStarts) := by
    decide +kernel
  exact map_eq_error_iff.mp hrun

theorem endsEarly_sum : EndsEarly .script (Source.ofString "1 +").chars.toList := by
  obtain ⟨c, hc, hstops⟩ := Reached.init.exists_stops parse_sum
  exact hstops.earliest hc.sound

/-- A text whose tokens begin a longer sentence is refused at the last of them, or at its beginning
if there is none. The failure covers one character there, if the text has one, and so it stands at
the end only of the empty text. -/
theorem Tree.read_of_endsEarly {source : Source} (h : EndsEarly start source.chars.toList) :
    ∃ tokens failure, Token.scan start source.chars.toList = some tokens ∧
      Tree.read start source = .error failure ∧ failure.code = .badSyntax ∧
      failure.At ⟨Token.latest tokens, (min (Token.latest tokens + 1) source.length : Nat)⟩ ∧
      (failure.At ⟨source.length, source.length⟩ ↔ source.length = 0) := by
  obtain ⟨tokens, hscan, hnone, t, more, hlonger⟩ := h
  cases hread : Tree.read start source with
  | ok tree =>
    obtain ⟨others, d, hothers, hd, -⟩ := Tree.read_eq_ok_iff.mp hread
    rw [hscan] at hothers
    obtain rfl := Option.some.inj hothers
    exact absurd (.of_derives hd) hnone
  | error failure =>
    obtain ⟨refusal, hrefusal, rfl, -⟩ := Tree.exists_refusal hread
    have hoffset := Refusal.offset_of_viable hrefusal hscan ⟨_, hlonger⟩
    have hat : (refusal.fault.failure source).At
        ⟨Token.latest tokens, (min (Token.latest tokens + 1) source.length : Nat)⟩ := by
      rw [← hoffset, ← refusal.extent_fault]
      exact ⟨rfl, rfl⟩
    refine ⟨tokens, _, hscan, rfl, rfl, hat, ?_⟩
    have hlength : source.length = source.chars.toList.length := by simp [Source.length]
    have hlt := Refusal.offset_lt hrefusal
    rw [hoffset] at hlt
    obtain ⟨hstart, hstop⟩ := hat
    -- the last token begins in front of the end of the text, unless there is none
    constructor
    · rintro ⟨hend, -⟩
      rw [hstart] at hend
      have hsame : (Token.latest tokens : Int) = source.length := Option.some.inj hend
      omega
    · intro hempty
      have hzero : Token.latest tokens = 0 := by omega
      rw [Failure.At, hstart, hstop, hempty, hzero]
      exact ⟨rfl, rfl⟩

theorem Tree.read_of_endsEarly_sum :
    let source := Source.ofString "1 +"
    EndsEarly .script source.chars.toList ∧
      ∃ tokens failure, Token.scan .script source.chars.toList = some tokens ∧
        Tree.read .script source = .error failure ∧ failure.code = .badSyntax ∧
        failure.At ⟨Token.latest tokens, (min (Token.latest tokens + 1) source.length : Nat)⟩ ∧
        (failure.At ⟨source.length, source.length⟩ ↔ source.length = 0) :=
  ⟨endsEarly_sum, read_of_endsEarly endsEarly_sum⟩

/-- Texts that end too early are not always reported at their ends. -/
theorem Tree.not_endsEarly_at_end :
    ¬ ∀ (start : StartSymbol) (source : Source), EndsEarly start source.chars.toList →
      ∀ failure, Tree.read start source = .error failure →
        failure.code = .badSyntax ∧ failure.At ⟨source.length, source.length⟩ := by
  intro h
  let refusal : Refusal := .unfinished 2 operandStarts
  have hread : Tree.read .script (Source.ofString "1 +") =
      .error (refusal.fault.failure (Source.ofString "1 +")) := by
    rw [Tree.read, parse_sum]
  obtain ⟨-, hstart, -⟩ := h .script _ endsEarly_sum _ hread
  change some (refusal.fault.extent (Source.ofString "1 +")).start = _ at hstart
  rw [Refusal.extent_fault] at hstart
  exact absurd hstart (by decide)

end ArithScript
