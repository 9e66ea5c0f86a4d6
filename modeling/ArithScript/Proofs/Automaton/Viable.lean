import ArithScript.Proofs.Automaton.Text
import ArithScript.Proofs.Grammar.Sentence

/-! Every stack that the automaton builds can be completed: what has been read is the beginning of
a sentence. The production that is being read gets the symbols it still misses and is applied, until
the whole text is one symbol. -/
namespace ArithScript

namespace State

def walk? (start : StartSymbol) (s : State) : List GrammarSymbol → Option State
  | [] => some s
  | x :: rest => (s.next? start x).bind (·.walk? start rest)

theorem walk?_append {start : StartSymbol} {s : State} {xs ys : List GrammarSymbol} :
    s.walk? start (xs ++ ys) = (s.walk? start xs).bind (·.walk? start ys) := by
  induction xs generalizing s with
  | nil => rfl
  | cons x xs ih =>
    rw [List.cons_append, walk?, walk?, Option.bind_assoc]
    exact congrArg _ (funext fun s' => ih)

/-- Wherever a right-hand side has been read up to the state that completes its production, the
left-hand side can be read instead. -/
theorem goto_of_walk : ∀ (start : StartSymbol) (s : State) (p : Production),
    ∀ e ∈ s.walk? start p.rhs, e.completed? start = some p → (s.goto? start p.lhs).isSome := by
  decide +kernel

/-- The symbols that a production still misses where it has been read in part. -/
def missing : State → List GrammarSymbol
  | .equal => [.nonterminal .expr]
  | .compOp => [.nonterminal .sum]
  | .addOp _ => [.nonterminal .product]
  | .mulOp _ | .sign _ => [.nonterminal .factor]
  | .paren => [.nonterminal .expr, .terminal .rpar]
  | .parenExpr | .argsOpen => [.terminal .rpar]
  | .argsFirst | .argsFirstComma | .argsMore | .argsMoreComma => [.terminal .rpar]
  | _ => []

theorem completed_of_missing : ∀ (start : StartSymbol) (s : State), s ≠ .start → s ≠ .finished →
    ∃ e ∈ s.walk? start s.missing, ∃ p ∈ e.completed? start,
      p.lhs.depth + 20 * (s.missing.length + 1) < s.depth + 20 * p.rhs.length := by
  decide +kernel

end State

theorem GrammarSymbol.exists_derivation (x : GrammarSymbol) :
    ∃ d : Derivation, d.Valid ∧ d.symbol = x := by
  suffices h : ∃ tokens trees, Derivable x tokens trees by
    obtain ⟨tokens, trees, d, hv, hs, -⟩ := h
    exact ⟨d, hv, hs⟩
  have leaf (t : Terminal) := Derivable.leaf ⟨t, "", 0, 0⟩
  have operand (n : Tier) : Shaped n [⟨.number, "", 0, 0⟩] _ := .operand (by decide)
  have expr := (operand .expr).derivable
  have statement := Derivable.statement (.expr (operand .expr))
  cases x with
  | terminal t => exact ⟨_, _, leaf t⟩
  | nonterminal n =>
    cases n with
    | script => exact ⟨_, _, .node (.script false false false) .nil⟩
    | lines => exact ⟨_, _, .node .linesOne (.cons statement (.one (leaf .newline)))⟩
    | statement => exact ⟨_, _, statement⟩
    | assignment =>
      exact ⟨_, _, .node .assignment (.cons (leaf .name) (.cons (leaf .equal) (.one expr)))⟩
    | exprStatement => exact ⟨_, _, .node .exprStatement (.one expr)⟩
    | expr => exact ⟨_, _, expr⟩
    | comparison => exact ⟨_, _, (operand .comparison).derivable⟩
    | sum => exact ⟨_, _, (operand .sum).derivable⟩
    | product => exact ⟨_, _, (operand .product).derivable⟩
    | factor => exact ⟨_, _, (operand .factor).derivable⟩
    | call => exact ⟨_, _, (operand .call).derivable⟩
    | argList => exact ⟨_, _, .node .argsNone (.cons (leaf .lpar) (.one (leaf .rpar)))⟩
    | more => exact ⟨_, _, .node .moreOne (.cons (leaf .comma) (.one expr))⟩
    | atom => exact ⟨_, _, (operand .atom).derivable⟩

namespace Stack
variable {start : StartSymbol} {stack : Stack}

theorem Linked.walk (h : Linked start stack) (n : Nat) :
    (state (stack.drop n)).walk? start
      ((stack.take n).reverse.map (·.derivation.symbol)) = some stack.state := by
  induction h generalizing n with
  | nil => simp [State.walk?]
  | @cons stack s d below reached valid ih =>
    cases n with
    | zero => rfl
    | succ n =>
      simp only [List.drop_succ_cons, List.take_succ_cons, List.reverse_cons, List.map_append,
        List.map_cons, List.map_nil, State.walk?_append, ih n, Option.bind_some, State.walk?,
        reached]
      rfl

theorem Linked.walk_rhs {p : Production} (h : Linked start stack)
    (hp : stack.state.completed? start = some p) :
    (state (stack.drop p.rhs.length)).walk? start p.rhs = some stack.state := by
  have hwalk := h.walk p.rhs.length
  rwa [List.map_reverse, List.map_take, h.take_rhs hp, List.reverse_reverse] at hwalk

theorem Linked.exists_reduce {p : Production} (h : Linked start stack)
    (hp : stack.state.completed? start = some p) : ∃ next, reduce? start p stack = some next := by
  have hlen : p.rhs.length ≤ stack.length := by simpa using (h.rhs_prefix hp).length_le
  have hwalk := h.walk_rhs hp
  obtain ⟨s, hs⟩ := Option.isSome_iff_exists.mp (State.goto_of_walk start _ p _ hwalk hp)
  exact ⟨_, by rw [reduce?, if_pos hlen, hs]; rfl⟩

theorem Linked.exists_push {xs : List GrammarSymbol} {e : State} (h : Linked start stack)
    (he : stack.state.walk? start xs = some e) :
    ∃ frames : Stack, Linked start (frames ++ stack) ∧ state (frames ++ stack) = e ∧
      frames.length = xs.length ∧ ∃ more, tokens (frames ++ stack) = stack.tokens ++ more := by
  induction xs generalizing stack with
  | nil => exact ⟨[], h, Option.some.inj he, rfl, [], by simp⟩
  | cons x xs ih =>
    obtain ⟨s, hs, hlater⟩ := Option.bind_eq_some_iff.mp he
    obtain ⟨d, hv, rfl⟩ := x.exists_derivation
    obtain ⟨frames, hl, hstate, hlen, more, htokens⟩ := ih (.cons h hs hv) hlater
    refine ⟨frames ++ [⟨s, d⟩], ?_, ?_, by simp [hlen], d.yield ++ more, ?_⟩
    · simpa using hl
    · simpa using hstate
    · simpa [tokens] using htokens

theorem Linked.eq_singleton (h : Linked start stack) (hs : stack.state = .finished) :
    ∃ d : Derivation, stack = [⟨.finished, d⟩] ∧ d.Derives start stack.tokens := by
  cases h with
  | nil => contradiction
  | @cons stack s d below reached valid =>
    obtain rfl : s = .finished := hs
    obtain ⟨hbelow, hd⟩ := (State.next_boundary _ _ _ _ reached).2 rfl
    obtain rfl := below.eq_nil hbelow
    exact ⟨d, rfl, valid, hd, by simp [tokens]⟩

theorem Linked.exists_completion (h : Linked start stack) :
    ∃ (d : Derivation) (more : List Token), d.Derives start (stack.tokens ++ more) := by
  -- on the measure under which reductions end, which is smaller once a production has been completed
  -- and applied
  induction hm : stack.measure using Nat.strongRecOn generalizing stack with
  | ind m ih =>
    by_cases hstart : stack.state = .start
    · obtain rfl := h.eq_nil hstart
      obtain ⟨d, hv, hd⟩ := GrammarSymbol.exists_derivation (.nonterminal start.nonterminal)
      exact ⟨d, d.yield, hv, hd, by simp [tokens]⟩
    by_cases hfinished : stack.state = .finished
    · obtain ⟨d, -, hd⟩ := h.eq_singleton hfinished
      exact ⟨d, [], by simpa using hd⟩
    obtain ⟨e, he, p, hp, hless⟩ :=
      State.completed_of_missing start stack.state hstart hfinished
    obtain ⟨frames, hl, rfl, hlen, more, hmore⟩ := h.exists_push he
    obtain ⟨next, hnext⟩ := hl.exists_reduce hp
    obtain ⟨hlinked, htokens⟩ := hl.reduce hp hnext
    have hlt : next.measure < stack.measure := by
      have hbound := measure_reduce_le hnext
      rw [List.length_append, hlen] at hbound
      simp only [measure] at hbound ⊢
      omega
    obtain ⟨d, later, hd⟩ := ih _ (hm ▸ hlt) hlinked rfl
    exact ⟨d, more ++ later, by rwa [← List.append_assoc, ← hmore, ← htokens]⟩

/-- What has been read is the beginning of a sentence. -/
theorem Linked.viable (h : Linked start stack) :
    Viable start (stack.tokens.map Token.terminal) := by
  obtain ⟨d, more, hd⟩ := h.exists_completion
  have hs := Sentence.of_derives hd
  rw [List.map_append] at hs
  exact ⟨_, hs⟩

end Stack
end ArithScript
