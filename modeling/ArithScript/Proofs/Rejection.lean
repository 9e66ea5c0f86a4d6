import ArithScript.Proofs.Automaton.Expected
import ArithScript.Reading

/-!
Refused texts. A text is refused at the first place where what has been read is no longer the
beginning of a sentence, and the note of the failure tells what could stand there.
-/
namespace ArithScript

/-- The text goes wrong at the offset. Before it there are tokens that begin a sentence, and after
them only ignored text; with the terminal that stands there, if any does, they begin none. -/
def GoesWrongAt (start : StartSymbol) (text : List Char) (offset : Nat) : Prop :=
  ∃ tokens, Token.scan start (text.take offset) = some tokens ∧ LaidOut text 0 tokens ∧
    Skips text (stopOf 0 tokens) offset ∧ offset < text.length ∧
    Lexeme.ignored (text.drop offset) = 0 ∧ Viable start (tokens.map Token.terminal) ∧
    ∀ t n, Lexeme.first? (fun _ => true) (text.drop offset) = some (t, n) →
      ¬ Viable start (tokens.map Token.terminal ++ [t])

/-- The tokens of the text begin a longer sentence, but are none themselves. -/
def EndsEarly (start : StartSymbol) (text : List Char) : Prop :=
  ∃ tokens, Token.scan start text = some tokens ∧ ¬ Sentence start (tokens.map Token.terminal) ∧
    ∃ t more, Sentence start (tokens.map Token.terminal ++ t :: more)

/-- The refusal is at the first place where the text can be found wrong. -/
def Refusal.Earliest (start : StartSymbol) (text : List Char) : Refusal → Prop
  | .unreadable offset _ => GoesWrongAt start text offset
  | .misplaced token _ => GoesWrongAt start text token.start
  | .unfinished .. => EndsEarly start text

/-- The name stands for something that can follow the terminals. -/
def Names (start : StartSymbol) (terminals : List Terminal) (name : String) : Prop :=
  (∃ t : Terminal, name = t.label ∧ Viable start (terminals ++ [t])) ∨
    (name = "$END" ∧ Sentence start terminals)

/-- What the names of a refusal guarantee. Where nothing could be read, no terminal that can follow
is missing; where a token or the end of the text is refused, each name is that of something that can
follow. -/
def Refusal.Guides (start : StartSymbol) (text : List Char) (names : List String) : Refusal → Prop
  | .unreadable offset _ =>
    ∃ tokens, Token.scan start (text.take offset) = some tokens ∧
      ∀ t, Viable start (tokens.map Token.terminal ++ [t]) → t.label ∈ names
  | .misplaced token _ =>
    ∃ tokens, Token.scan start (text.take token.start) = some tokens ∧
      ∀ name ∈ names, Names start (tokens.map Token.terminal) name
  | .unfinished .. =>
    ∃ tokens, Token.scan start text = some tokens ∧
      ∀ name ∈ names, Names start (tokens.map Token.terminal) name

section
variable {start : StartSymbol} {text : List Char} {c : Config} {refusal : Refusal}

theorem Reached.viable (h : Reached start text c) : Viable start c.terminals :=
  h.sound.linked.viable

/-- A terminal that can follow is not overlooked: the one that is found among all terminals is also
found among those that are looked for. -/
theorem Config.Sound.first?_of_viable {t : Terminal} {n : Nat} (h : c.Sound start text)
    (hfirst : Lexeme.first? (fun _ => true) (text.drop c.offset) = some (t, n))
    (hv : Viable start (c.terminals ++ [t])) :
    Lexeme.first? (c.stack.state.accepts start) (text.drop c.offset) = some (t, n) :=
  Lexeme.first?_eq_of_offered hfirst (h.accepts_of_viable hv) fun _ _ => rfl

theorem lt_of_drop_ne_nil {n : Nat} (h : text.drop n ≠ []) : n < text.length := by
  simpa using h

theorem Config.Stops.earliest (h : c.Stops start text refusal) (hc : c.Sound start text) :
    refusal.Earliest start text := by
  have hviable := hc.linked.viable
  cases h with
  | unreadable hne hi hfirst =>
    refine ⟨_, hc.read.scan, hc.read.laidOut, hc.read.skips, ?_, hi, hviable, ?_⟩
    · exact lt_of_drop_ne_nil hne
    · intro t n hall hv
      rw [hc.first?_of_viable hall hv] at hfirst
      contradiction
  | @misplaced t n hi hfirst hs =>
    refine ⟨_, hc.read.scan, hc.read.laidOut, hc.read.skips, ?_, hi, hviable, ?_⟩
    · exact lt_of_drop_ne_nil (ne_nil_of_first? hfirst)
    · intro u m hall hv
      have hsame := hc.first?_of_viable hall hv
      rw [hfirst] at hsame
      -- a lexeme that could follow would be the one that was found, and it would have been taken
      obtain ⟨rfl, -⟩ := Prod.mk.inj (Option.some.inj hsame)
      have htaken := hc.takes_of_canFollow (some t) hv
      rw [State.takes, hs] at htaken
      contradiction
  | unfinished hend hs =>
    have hsentence : ¬ Sentence start c.terminals := by
      intro hsentence
      have htaken := hc.takes_of_canFollow none hsentence
      exact hs (of_decide_eq_true htaken)
    have hscan := hc.read.scan
    rw [List.take_of_length_le (List.drop_eq_nil_iff.mp hend)] at hscan
    exact ⟨_, hscan, hsentence, hviable.exists_longer hsentence⟩

theorem Refusal.mem_expected_fault {name : String} :
    name ∈ refusal.fault.expected ↔ ∃ next ∈ refusal.expected, Lookahead.label next = name := by
  simp [Refusal.fault, SyntaxFault.expected, List.mem_mergeSort, List.mem_eraseDups]

theorem CanFollow.names {ts : List Terminal} {next : Lookahead} (h : CanFollow start ts next) :
    Names start ts next.label := by
  cases next with
  | some t => exact .inl ⟨t, rfl, h⟩
  | none => exact .inr ⟨rfl, h⟩

theorem Config.Stops.guides (h : c.Stops start text refusal) (hc : c.Sound start text) :
    refusal.Guides start text refusal.fault.expected := by
  cases h with
  | unreadable hne hi hfirst =>
    refine ⟨_, hc.read.scan, fun t hv => Refusal.mem_expected_fault.mpr ⟨some t, ?_, rfl⟩⟩
    apply List.mem_map_of_mem
    exact List.mem_filter.mpr ⟨t.mem_all, hc.accepts_of_viable hv⟩
  | @misplaced t n hi hfirst hs =>
    refine ⟨_, hc.read.scan, fun name hname => ?_⟩
    obtain ⟨next, hnext, rfl⟩ := Refusal.mem_expected_fault.mp hname
    have haccepts := (Lexeme.first?_eq_some_iff.mp hfirst).1
    exact (hc.linked.canFollow_of_misplaced haccepts hs hnext).names
  | unfinished hend hs =>
    have hscan := hc.read.scan
    rw [List.take_of_length_le (List.drop_eq_nil_iff.mp hend)] at hscan
    refine ⟨_, hscan, fun name hname => ?_⟩
    obtain ⟨next, hnext, rfl⟩ := Refusal.mem_expected_fault.mp hname
    exact (hc.linked.canFollow_of_unfinished hs hnext).names

theorem Tree.exists_refusal {source : Source} {failure : Failure}
    (h : Tree.read start source = .error failure) :
    ∃ refusal, Derivation.parse start source.chars.toList = .error refusal ∧
      failure = refusal.fault.failure source ∧
      ∃ c : Config, c.Sound start source.chars.toList ∧
        c.Stops start source.chars.toList refusal := by
  rw [Tree.read] at h
  split at h
  · contradiction
  · rename_i refusal hrefusal
    obtain ⟨c, hc, hstops⟩ := Reached.init.exists_stops hrefusal
    exact ⟨refusal, hrefusal, (Except.error.inj h).symm, c, hc.sound, hstops⟩

end

/-- Errors are found as early as possible. Whatever the automaton has put on its stack begins a
sentence. A text that is not read is refused at the first place where it goes wrong, and that is
where the failure starts; or else the whole text begins a longer sentence. -/
theorem Tree.read_refused_earliest (start : StartSymbol) (source : Source) :
    (∀ c, Reached start source.chars.toList c →
      Derivation.parse start source.chars.toList = c.outcome start source.chars.toList ∧
        Viable start c.terminals) ∧
    ∀ failure, Tree.read start source = .error failure →
      failure.code = .badSyntax ∧
        ∃ refusal, Derivation.parse start source.chars.toList = .error refusal ∧
          failure.start = some (refusal.offset : Int) ∧
          refusal.Earliest start source.chars.toList := by
  refine ⟨fun c hc => ⟨hc.parse_eq, hc.viable⟩, fun failure hf => ?_⟩
  obtain ⟨refusal, hrefusal, rfl, c, hc, hstops⟩ := exists_refusal hf
  refine ⟨rfl, refusal, hrefusal, ?_, hstops.earliest hc⟩
  simp [Refusal.fault, SyntaxFault.failure, SyntaxFault.extent, SyntaxFault.offset?,
    Failure.ofProblem, Option.filter]

/-- The note of a failure is made of names, if there are any. They leave out nothing that can
follow where no terminal is found, and suggest nothing else where one, or the end, is refused. -/
theorem Tree.read_refused_guides {start : StartSymbol} {source : Source} {failure : Failure}
    (h : Tree.read start source = .error failure) :
    ∃ refusal names, Derivation.parse start source.chars.toList = .error refusal ∧
      failure.notes = (if names = [] then [] else ["expected one of: " ++ ", ".intercalate names]) ∧
      refusal.Guides start source.chars.toList names := by
  obtain ⟨refusal, hrefusal, rfl, c, hc, hstops⟩ := exists_refusal h
  refine ⟨refusal, refusal.fault.expected, hrefusal, ?_, hstops.guides hc⟩
  simp [SyntaxFault.failure, SyntaxFault.notes, Failure.ofProblem]

theorem Tree.read_refused_guides_comma :
    let source := Source.ofString "(1, 2)"
    let failure : Failure :=
      { code := .badSyntax, message := "invalid syntax at 2 3: ','", start := some 2, stop := some 3,
        notes := ["expected one of: RPAR"] }
    Tree.read .expr source = .error failure ∧
      ∃ refusal names, Derivation.parse .expr source.chars.toList = .error refusal ∧
        failure.notes = (if names = [] then [] else ["expected one of: " ++ ", ".intercalate names]) ∧
        refusal.Guides .expr source.chars.toList names := by
  intro source failure
  have hfailure : (Tree.read .expr source).map (fun _ => ()) = .error failure := by
    decide +kernel
  have h : Tree.read .expr source = .error failure := by
    cases hread : Tree.read .expr source with
    | ok tree =>
      rw [hread] at hfailure
      contradiction
    | error f =>
      rw [hread] at hfailure
      injection hfailure with hf
      rw [hf]
  exact ⟨h, read_refused_guides h⟩

end ArithScript
