import ArithScript.Proofs.Automaton.Viable
import ArithScript.Proofs.Grammar.Excerpt

/-!
The configurations that the automaton comes to on a text, and where it stops.

In each of them the text up to the offset is divided into the tokens on the stack, and what remains
is judged as it would be after them from the beginning on.
-/
namespace ArithScript

/-- The symbols read, the offset of the last token, and the offset up to which the text is read. -/
structure Config where
  stack : Stack
  latest : Nat
  offset : Nat

/-- The terminals read, the first one first. -/
def Config.terminals (c : Config) : List Terminal := c.stack.tokens.map Token.terminal

/-- Before the offset there are the tokens, and apart from them only ignored text. -/
structure ReadUpTo (start : StartSymbol) (text : List Char) (tokens : List Token) (offset : Nat) :
    Prop where
  laidOut : LaidOut text 0 tokens
  skips : Skips text (stopOf 0 tokens) offset
  le : offset ≤ text.length
  hasTerminal : ∀ token ∈ tokens, start.hasTerminal token.terminal = true
  lone : ∀ token ∈ tokens, token.terminal = .equal → Lexeme.compOp (text.drop token.start) = 0

section
variable {start : StartSymbol} {text : List Char} {tokens : List Token} {offset n : Nat}

theorem Token.back_zero (token : Token) : token.back 0 = token := rfl

theorem Skips.trans {stop stop' : Nat} (h : Skips text offset stop) (h' : Skips text stop stop') :
    Skips text offset stop' := by
  induction h with
  | none => exact h'
  | some hi rest ih => exact .some hi (ih h')

theorem ReadUpTo.nil : ReadUpTo start text [] 0 :=
  ⟨trivial, .none 0, Nat.zero_le _, by simp, by simp⟩

theorem ReadUpTo.scan (h : ReadUpTo start text tokens offset) :
    Token.scan start (text.take offset) = some tokens := by
  have hscan := scan_excerpt h.laidOut h.skips h.le h.hasTerminal h.lone
  have hback : tokens.map (Token.back 0) = tokens := by
    rw [List.map_congr_left fun token _ => token.back_zero, List.map_id']
  rw [hback, List.extract_eq_take_drop] at hscan
  exact hscan

theorem ReadUpTo.skip (h : ReadUpTo start text tokens offset)
    (hi : Lexeme.ignored (text.drop offset) = n + 1) :
    ReadUpTo start text tokens (offset + (n + 1)) := by
  have hle := Lexeme.ignored_le (text.drop offset)
  rw [hi, List.length_drop] at hle
  exact ⟨h.laidOut, h.skips.trans (.some hi (.none _)), by omega, h.hasTerminal, h.lone⟩

theorem ReadUpTo.shift {offered : Terminal → Bool} {t : Terminal}
    (h : ReadUpTo start text tokens offset)
    (hfirst : Lexeme.first? offered (text.drop offset) = some (t, n + 1))
    (ht : start.hasTerminal t = true) (he : t = .equal → offered .compOp = true) :
    ReadUpTo start text (tokens ++ [.ofPrefix t offset (n + 1) (text.drop offset)])
      (offset + (n + 1)) := by
  have hstands := Token.standsIn_ofPrefix hfirst
  refine ⟨laidOut_append.mpr ⟨h.laidOut, h.skips, hstands, trivial⟩, ?_, hstands.le, ?_, ?_⟩
  · rw [stopOf_append]
    exact .none _
  · rw [List.forall_mem_append, List.forall_mem_singleton]
    exact ⟨h.hasTerminal, ht⟩
  · rw [List.forall_mem_append, List.forall_mem_singleton]
    refine ⟨h.lone, fun hequal => ?_⟩
    exact (Lexeme.first?_eq_some_iff.mp hfirst).2.2.2 hequal (he hequal)

theorem ne_nil_of_first? {offered : Terminal → Bool} {t : Terminal}
    (h : Lexeme.first? offered text = some (t, n)) : text ≠ [] := by
  rintro rfl
  obtain ⟨-, hn, hpos, -⟩ := Lexeme.first?_eq_some_iff.mp h
  exact hpos (hn.symm.trans (Lexeme.ofTerminal_nil t))

/-- One step on a text: a piece of ignored text is skipped, or a token is put on the stack. -/
inductive Step (start : StartSymbol) (text : List Char) : Config → Config → Prop
  | skip {c : Config} {n : Nat} (hi : Lexeme.ignored (text.drop c.offset) = n + 1) :
      Step start text c ⟨c.stack, c.latest, c.offset + (n + 1)⟩
  | shift {c : Config} {t : Terminal} {n : Nat} {s : State}
      (hi : Lexeme.ignored (text.drop c.offset) = 0)
      (hfirst : Lexeme.first? (c.stack.state.accepts start) (text.drop c.offset) = some (t, n + 1))
      (hs : (c.stack.reduceFor start (some t)).state.shift? start t = some s) :
      Step start text c
        ⟨⟨s, .leaf (.ofPrefix t c.offset (n + 1) (text.drop c.offset))⟩ ::
          c.stack.reduceFor start (some t), c.offset, c.offset + (n + 1)⟩

/-- The configurations that the automaton comes to. -/
inductive Reached (start : StartSymbol) (text : List Char) : Config → Prop
  | init : Reached start text ⟨[], 0, 0⟩
  | step {c c' : Config} (before : Reached start text c) (next : Step start text c c') :
      Reached start text c'

/-- What the automaton makes of the text from a configuration on. -/
def Config.outcome (start : StartSymbol) (text : List Char) (c : Config) :
    Except Refusal Derivation :=
  Derivation.parseFrom start c.stack c.latest c.offset (text.drop c.offset)

theorem Step.outcome_eq {c c' : Config} (h : Step start text c c') :
    c.outcome start text = c'.outcome start text := by
  cases h with
  | skip hi =>
    have hne : text.drop c.offset ≠ [] := by
      intro hnil
      rw [hnil] at hi
      contradiction
    rw [Config.outcome, Derivation.parseFrom]
    simp only [hne, ↓reduceDIte, hi, List.drop_drop]
    rfl
  | shift hi hfirst hs =>
    have hne := ne_nil_of_first? hfirst
    rw [Config.outcome, Derivation.parseFrom]
    simp only [hne, ↓reduceDIte, hi, hfirst, hs, List.drop_drop]
    rfl

theorem Reached.parse_eq {c : Config} (h : Reached start text c) :
    Derivation.parse start text = c.outcome start text := by
  induction h with
  | init => rfl
  | step before next ih => exact ih.trans next.outcome_eq

/-- What every step keeps. -/
structure Config.Sound (start : StartSymbol) (text : List Char) (c : Config) : Prop where
  linked : c.stack.Linked start
  read : ReadUpTo start text c.stack.tokens c.offset
  resumes : ∀ rest, Stack.derivation? start [] (c.stack.tokens ++ rest) =
    c.stack.derivation? start rest

theorem Step.sound {c c' : Config} (h : Step start text c c') (hc : c.Sound start text) :
    c'.Sound start text := by
  cases h with
  | skip hi => exact ⟨hc.linked, hc.read.skip hi, hc.resumes⟩
  | @shift t n s hi hfirst hs =>
    obtain ⟨hlinked, htokens⟩ := hc.linked.reduceFor (some t)
    have hoffered := (Lexeme.first?_eq_some_iff.mp hfirst).1
    obtain ⟨ht, he⟩ := State.accepts_hasTerminal _ _ _ hc.linked.occursIn hoffered
    refine ⟨.cons hlinked hs trivial, ?_, fun rest => ?_⟩
    · rw [Stack.tokens, htokens]
      exact hc.read.shift hfirst ht he
    · rw [Stack.tokens, htokens, List.append_assoc]
      refine (hc.resumes _).trans ?_
      exact congrArg (Option.bind · _) hs

theorem Reached.sound {c : Config} (h : Reached start text c) : c.Sound start text := by
  induction h with
  | init => exact ⟨.nil, .nil, fun rest => rfl⟩
  | step before next ih => exact next.sound ih

/-- Where the automaton stops with a refusal. -/
inductive Config.Stops (start : StartSymbol) (text : List Char) (c : Config) : Refusal → Prop
  | unreadable (hne : text.drop c.offset ≠ []) (hi : Lexeme.ignored (text.drop c.offset) = 0)
      (hfirst : Lexeme.first? (c.stack.state.accepts start) (text.drop c.offset) = none) :
      Stops start text c (.unreadable c.offset (c.stack.state.terminals start))
  | misplaced {t : Terminal} {n : Nat} (hi : Lexeme.ignored (text.drop c.offset) = 0)
      (hfirst : Lexeme.first? (c.stack.state.accepts start) (text.drop c.offset) = some (t, n + 1))
      (hs : (c.stack.reduceFor start (some t)).state.shift? start t = none) :
      Stops start text c (.misplaced (.ofPrefix t c.offset (n + 1) (text.drop c.offset))
        ((c.stack.reduceFor start (some t)).state.lookaheads start))
  | unfinished (hend : text.drop c.offset = [])
      (hs : (c.stack.reduceFor start none).state ≠ .finished) :
      Stops start text c
        (.unfinished c.latest ((c.stack.reduceFor start none).state.lookaheads start))

theorem Reached.exists_stops {c : Config} {refusal : Refusal} (h : Reached start text c)
    (hr : c.outcome start text = .error refusal) :
    ∃ c' : Config, Reached start text c' ∧ c'.Stops start text refusal := by
  obtain ⟨stack, latest, offset⟩ := c
  rw [Config.outcome] at hr
  dsimp only at hr
  generalize hrest : text.drop offset = rest at hr
  fun_induction Derivation.parseFrom start stack latest offset rest with
  | case1 => contradiction
  | case2 stack latest offset hnone =>
    obtain rfl := Except.error.inj hr
    refine ⟨_, h, .unfinished hrest fun hfinished => ?_⟩
    -- in the last state the stack holds one derivation, which would have been returned
    obtain ⟨d, hd, -⟩ := (h.sound.linked.reduceFor none).1.eq_singleton hfinished
    exact hnone d [] hd
  | case3 stack latest offset rest hne n hi ih =>
    subst hrest
    exact ih (.step h (.skip hi)) (List.drop_drop ..).symm hr
  | case4 stack latest offset rest hne hi t n hfirst token reached s hs ih =>
    subst hrest
    exact ih (.step h (.shift hi hfirst hs)) (List.drop_drop ..).symm hr
  | case5 stack latest offset rest hne hi t n hfirst token reached hs =>
    subst hrest
    obtain rfl := Except.error.inj hr
    exact ⟨_, h, .misplaced hi hfirst hs⟩
  | case6 stack latest offset rest hne hi hnone =>
    subst hrest
    obtain rfl := Except.error.inj hr
    exact ⟨_, h, .unreadable hne hi (Lexeme.first?_eq_none_of_forall hnone)⟩

end
end ArithScript
