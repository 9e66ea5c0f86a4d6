import ArithScript.Proofs.Automaton.Progress

/-!
What the automaton can go on with. Before a lookahead that continues the tokens read it applies
productions until it takes the lookahead, and before any other it gets stuck.

The lookaheads of a state are those of all its contexts. But where the automaton gets stuck, each
of them is taken in the end: this is checked for every state with all that can lie below it.
-/
namespace ArithScript

namespace State

/-- The state shifts the terminal, or is the last one at the end of the text. -/
def takes (start : StartSymbol) (s : State) : Lookahead → Bool
  | some t => (s.shift? start t).isSome
  | none => s = .finished

/-- Whatever lies below the state, the productions that are applied before the lookahead lead to a
state that takes it. The number bounds how many they are. -/
def settles (start : StartSymbol) (next : Lookahead) : Nat → State → Bool
  | 0, _ => false
  | count + 1, s =>
    match s.reduction? start next with
    | none => s.takes start next
    | some p => all.all fun below =>
      !(below.occursIn start && below.walk? start p.rhs = some s) ||
        (below.goto? start p.lhs).all (settles start next count)

/-- Where nothing can be done at the end of the text, everything that the state has a use for is
taken in the end. -/
theorem settles_of_unfinished : ∀ (start : StartSymbol) (s : State), s.occursIn start →
    s ≠ .finished → s.reduction? start none = none →
      ∀ next ∈ s.lookaheads start, s.settles start next 6 := by
  decide +kernel

theorem settles_of_misplaced : ∀ (start : StartSymbol) (s : State), s.occursIn start →
    ∀ n, s.history.head? = some (.nonterminal n) → ∀ t, start.hasTerminal t →
      some t ∈ n.followers → s.reduction? start (some t) = none → s.shift? start t = none →
        ∀ next ∈ s.lookaheads start, s.settles start next 6 := by
  decide +kernel

theorem goto_history : ∀ (start : StartSymbol) (below : State) (n : Nonterminal),
    ∀ s ∈ below.goto? start n, s = .finished ∨ s.history.head? = some (.nonterminal n) := by
  decide +kernel

theorem lookaheads_finished : ∀ start : StartSymbol, lookaheads start .finished = [] := by
  decide +kernel

end State

namespace Stack
variable {start : StartSymbol} {stack : Stack} {next : Lookahead}

theorem reduce?_state {p : Production} {after : Stack} (h : reduce? start p stack = some after) :
    (state (stack.drop p.rhs.length)).goto? start p.lhs = some after.state := by
  simp only [reduce?] at h
  split at h
  · obtain ⟨s, hs, rfl⟩ := Option.map_eq_some_iff.mp h
    exact hs
  · contradiction

theorem Linked.reduction_reduceFor (h : Linked start stack) :
    (stack.reduceFor start next).state.reduction? start next = none := by
  fun_induction Stack.reduceFor start next stack with
  | case1 stack hnone => exact hnone
  | case2 stack p hp hnone =>
    obtain ⟨after, hafter⟩ := h.exists_reduce (Option.filter_eq_some_iff.mp hp).1
    rw [hnone] at hafter
    contradiction
  | case3 stack p hp after hafter ih =>
    apply ih
    exact (h.reduce (Option.filter_eq_some_iff.mp hp).1 hafter).1

theorem Linked.exists_category (h : Linked start stack)
    (hr : (stack.state.reduction? start next).isSome) :
    ∃ below n, State.goto? start below n = some (stack.reduceFor start next).state ∧
      next ∈ n.followers := by
  fun_induction Stack.reduceFor start next stack with
  | case1 stack hnone =>
    rw [hnone] at hr
    contradiction
  | case2 stack p hp hnone =>
    obtain ⟨after, hafter⟩ := h.exists_reduce (Option.filter_eq_some_iff.mp hp).1
    rw [hnone] at hafter
    contradiction
  | case3 stack p hp after hafter ih =>
    obtain ⟨hcompleted, hon⟩ := Option.filter_eq_some_iff.mp hp
    cases hagain : after.state.reduction? start next with
    | none =>
      rw [reduceFor_eq_self hagain]
      refine ⟨_, p.lhs, reduce?_state hafter, ?_⟩
      simp only [State.reducesOn, Bool.and_eq_true, decide_eq_true_eq] at hon
      exact hon.1.2
    | some q =>
      apply ih (h.reduce hcompleted hafter).1
      rw [hagain]
      rfl

theorem Linked.takes_of_settles {count : Nat} (h : Linked start stack)
    (hs : stack.state.settles start next count) :
    (stack.reduceFor start next).state.takes start next := by
  -- on the number of productions to apply; the table has checked each of them for every state that
  -- can lie below its right-hand side
  induction count generalizing stack with
  | zero => contradiction
  | succ count ih =>
    cases hr : stack.state.reduction? start next with
    | none =>
      rw [reduceFor_eq_self hr]
      simpa only [State.settles, hr] using hs
    | some p =>
      have hp := (Option.filter_eq_some_iff.mp hr).1
      obtain ⟨after, hafter⟩ := h.exists_reduce hp
      rw [reduceFor_of_reduce hr hafter]
      apply ih (h.reduce hp hafter).1
      simp only [State.settles, hr, List.all_eq_true] at hs
      have hbelow := hs _ (State.mem_all (state (stack.drop p.rhs.length)))
      simpa [(h.drop _).occursIn, h.walk_rhs hp, reduce?_state hafter] using hbelow

theorem Linked.canFollow (h : Linked start stack)
    (ht : (stack.reduceFor start next).state.takes start next) :
    CanFollow start (stack.tokens.map Token.terminal) next := by
  obtain ⟨hl, htokens⟩ := h.reduceFor next
  rw [← htokens]
  cases next with
  | none =>
    obtain ⟨d, -, hd⟩ := hl.eq_singleton (of_decide_eq_true ht)
    exact Sentence.of_derives hd
  | some t =>
    obtain ⟨s, hs⟩ := Option.isSome_iff_exists.mp ht
    let token : Token := ⟨t, "", 0, 0⟩
    have hnext : Linked start (⟨s, .leaf token⟩ :: stack.reduceFor start (some t)) :=
      .cons hl hs trivial
    have hviable := hnext.viable
    rwa [tokens, List.map_append] at hviable

theorem Linked.canFollow_of_settles (before : Lookahead) {count : Nat} (h : Linked start stack)
    (hs : (stack.reduceFor start before).state.settles start next count) :
    CanFollow start (stack.tokens.map Token.terminal) next := by
  obtain ⟨hl, htokens⟩ := h.reduceFor before
  rw [← htokens]
  exact hl.canFollow (hl.takes_of_settles hs)

/-- Where the end of the text is refused, everything that is expected instead can follow. -/
theorem Linked.canFollow_of_unfinished (h : Linked start stack)
    (hs : (stack.reduceFor start none).state ≠ .finished)
    (hnext : next ∈ (stack.reduceFor start none).state.lookaheads start) :
    CanFollow start (stack.tokens.map Token.terminal) next := by
  apply h.canFollow_of_settles none
  apply State.settles_of_unfinished
  · exact (h.reduceFor none).1.occursIn
  · exact hs
  · exact h.reduction_reduceFor
  · exact hnext

theorem Linked.canFollow_of_misplaced {t : Terminal} (h : Linked start stack)
    (ha : stack.state.accepts start t)
    (hs : (stack.reduceFor start (some t)).state.shift? start t = none)
    (hnext : next ∈ (stack.reduceFor start (some t)).state.lookaheads start) :
    CanFollow start (stack.tokens.map Token.terminal) next := by
  have hr : (stack.state.reduction? start (some t)).isSome := by
    by_contra hr
    rw [Option.not_isSome_iff_eq_none] at hr
    rw [reduceFor_eq_self hr] at hs
    simp [State.accepts, hs, hr] at ha
  obtain ⟨below, n, hgoto, hn⟩ := h.exists_category hr
  apply h.canFollow_of_settles (some t)
  rcases State.goto_history start below n _ hgoto with hfinished | hhistory
  · rw [hfinished, State.lookaheads_finished] at hnext
    contradiction
  apply State.settles_of_misplaced start _ _ n hhistory t _ hn
  · exact h.reduction_reduceFor
  · exact hs
  · exact hnext
  · exact (h.reduceFor (some t)).1.occursIn
  · exact (State.accepts_hasTerminal start _ t h.occursIn ha).1

end Stack

namespace Config.Sound
variable {start : StartSymbol} {text : List Char} {c : Config}

/-- What can follow the tokens read is taken: a sentence that goes on with it is accepted from the
beginning on, and so from here on. -/
theorem takes_of_canFollow (next : Lookahead) (h : c.Sound start text)
    (hf : CanFollow start c.terminals next) :
    (c.stack.reduceFor start next).state.takes start next := by
  -- the automaton accepts every sentence, and on the tokens read it comes to this stack
  have hread {rest : List Token}
      (hs : Sentence start ((c.stack.tokens ++ rest).map Token.terminal)) :
      (c.stack.derivation? start rest).isSome := by
    obtain ⟨d, hd⟩ := hs.exists_derives
    have haccepts := Stack.derivation?_complete hd.valid hd.symbol_eq
      (by rw [hd.yield_eq]; exact hd.hasTerminal)
    rw [hd.yield_eq, h.resumes] at haccepts
    rw [haccepts]
    rfl
  cases next with
  | none =>
    have hsome := @hread [] (by rwa [List.append_nil])
    rw [Stack.derivation?] at hsome
    split at hsome
    · rename_i d below hfinished
      rw [hfinished]
      rfl
    · contradiction
  | some t =>
    obtain ⟨more, hs⟩ := hf
    have hsome := @hread (⟨t, "", 0, 0⟩ :: more.map (⟨·, "", 0, 0⟩))
      (by simpa [Config.terminals, Function.comp_def] using hs)
    rw [Stack.derivation?] at hsome
    exact Option.isSome_of_isSome_bind hsome

/-- Productions are applied until the lookahead is taken exactly if it can follow what was read. -/
theorem takes_iff (next : Lookahead) (h : c.Sound start text) :
    (c.stack.reduceFor start next).state.takes start next ↔ CanFollow start c.terminals next :=
  ⟨h.linked.canFollow, h.takes_of_canFollow next⟩

theorem accepts_of_viable {t : Terminal} (h : c.Sound start text)
    (hv : Viable start (c.terminals ++ [t])) : c.stack.state.accepts start t :=
  Stack.accepts_of_shift (h.takes_of_canFollow (some t) hv)

end Config.Sound
end ArithScript
