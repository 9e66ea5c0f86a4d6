import ArithScript.Proofs.Automaton.Finite

/-! What the table of the automaton guarantees: each state records the last symbols on the way to
it, a state never both shifts and reduces on one terminal, and the way along a right-hand side
always leads to the state that completes it. All of it is checked by going through the table. -/
namespace ArithScript

/-- The terminals that something derived from a symbol can begin with. A script can be empty and
stands inside no other category, so none are listed for it. -/
def GrammarSymbol.firsts : GrammarSymbol → List Terminal
  | .terminal t => [t]
  | .nonterminal .script => []
  | .nonterminal .assignment => [.name]
  | .nonterminal .argList => [.lpar]
  | .nonterminal .more => [.comma]
  | .nonterminal .call | .nonterminal .atom => [.number, .name, .string, .lpar]
  | .nonterminal _ => [.number, .name, .string, .plus, .minus, .tilde, .lpar]

theorem firsts_rhs : ∀ (p : Production), p.lhs ≠ .script →
    ∃ x ∈ p.rhs.head?, ∀ t ∈ x.firsts, t ∈ GrammarSymbol.firsts (.nonterminal p.lhs) := by
  decide +kernel

theorem script_notMem_rhs : ∀ (p : Production), .nonterminal .script ∉ p.rhs := by decide

def upcoming (next : Lookahead) : List GrammarSymbol → List Lookahead
  | [] => [next]
  | x :: _ => x.firsts.map some

namespace State

def next? (start : StartSymbol) (s : State) : GrammarSymbol → Option State
  | .terminal t => s.shift? start t
  | .nonterminal n => s.goto? start n

/-- What may follow a category that is read from this state on. A category at the beginning of a
statement stands in no parentheses. -/
def follows (start : StartSymbol) (s : State) (n : Nonterminal) : List Lookahead :=
  if s.expects? start = some .statement then
    n.followers.filter fun next => next ≠ some .comma && next ≠ some .rpar
  else n.followers

/-- The state after the symbols, if each category among them can be followed by what is upcoming
after it. -/
def route? (start : StartSymbol) (next : Lookahead) (s : State) : List GrammarSymbol → Option State
  | [] => some s
  | .terminal t :: rest => (s.shift? start t).bind (·.route? start next rest)
  | .nonterminal n :: rest =>
    if (upcoming next rest).all (· ∈ s.follows start n) then
      (s.goto? start n).bind (·.route? start next rest)
    else none

theorem route?_nonterminal (start : StartSymbol) (next : Lookahead) (s : State) (n : Nonterminal)
    (rest : List GrammarSymbol) :
    s.route? start next (.nonterminal n :: rest) =
      if (upcoming next rest).all (· ∈ s.follows start n) then
        (s.goto? start n).bind (·.route? start next rest)
      else none := rfl

/-- Where a category can be read, the right-hand side of each of its productions leads to the state
that applies the production. -/
theorem route_rhs : ∀ (start : StartSymbol) (s : State) (p : Production),
    (s.goto? start p.lhs).isSome → ∀ next ∈ s.follows start p.lhs, start.hasLookahead next →
      ((s.route? start next p.rhs).bind (·.reduction? start next)) = some p := by
  decide +kernel

/-- The table has no conflict between shifting and reducing. -/
theorem reduction_eq_none : ∀ (start : StartSymbol) (s : State) (t : Terminal),
    (s.shift? start t).isSome → s.reduction? start (some t) = none := by
  decide +kernel

/-- The last symbols on every way to a state, the last one first. -/
def history : State → List GrammarSymbol
  | .start | .finished => []
  | .newline => [.terminal .newline]
  | .lines leading => .nonterminal .lines :: symbolsIf leading [.terminal .newline]
  | .statement leading later =>
    .nonterminal .statement :: symbolsIf later [.nonterminal .lines] ++
      symbolsIf leading [.terminal .newline]
  | .lineEnd more =>
    [.terminal .newline, .nonterminal .statement] ++ symbolsIf more [.nonterminal .lines]
  | .assignment => [.nonterminal .assignment]
  | .exprStatement => [.nonterminal .exprStatement]
  | .bareExpr => [.nonterminal .expr]
  | .target | .name => [.terminal .name]
  | .equal => [.terminal .equal, .terminal .name]
  | .assigned => [.nonterminal .expr, .terminal .equal, .terminal .name]
  | .comparison => [.nonterminal .comparison]
  | .compOp => [.terminal .compOp, .nonterminal .comparison]
  | .compared => [.nonterminal .sum, .terminal .compOp, .nonterminal .comparison]
  | .sum => [.nonterminal .sum]
  | .addOp op => [.terminal op.terminal, .nonterminal .sum]
  | .added op => [.nonterminal .product, .terminal op.terminal, .nonterminal .sum]
  | .product => [.nonterminal .product]
  | .mulOp op => [.terminal op.terminal, .nonterminal .product]
  | .multiplied op => [.nonterminal .factor, .terminal op.terminal, .nonterminal .product]
  | .factor => [.nonterminal .factor]
  | .sign op => [.terminal op.terminal]
  | .signed op => [.nonterminal .factor, .terminal op.terminal]
  | .call => [.nonterminal .call]
  | .args => [.nonterminal .argList, .nonterminal .call]
  | .argsOpen => [.terminal .lpar]
  | .argsNone => [.terminal .rpar, .terminal .lpar]
  | .argsFirst => [.nonterminal .expr, .terminal .lpar]
  | .argsFirstComma => [.terminal .comma, .nonterminal .expr, .terminal .lpar]
  | .argsMore => [.nonterminal .more, .nonterminal .expr, .terminal .lpar]
  | .argsMoreComma => [.terminal .comma, .nonterminal .more, .nonterminal .expr, .terminal .lpar]
  | .argsClose more trailing =>
    .terminal .rpar :: symbolsIf trailing [.terminal .comma] ++
      symbolsIf more [.nonterminal .more] ++ [.nonterminal .expr, .terminal .lpar]
  | .moreOne => [.nonterminal .expr, .terminal .comma]
  | .moreNext => [.nonterminal .expr, .terminal .comma, .nonterminal .more]
  | .atom => [.nonterminal .atom]
  | .number => [.terminal .number]
  | .string => [.terminal .string]
  | .paren => [.terminal .lpar]
  | .parenExpr => [.nonterminal .expr, .terminal .lpar]
  | .parenClose => [.terminal .rpar, .nonterminal .expr, .terminal .lpar]

theorem history_next : ∀ (start : StartSymbol) (s : State) (x : GrammarSymbol),
    ∀ s' ∈ s.next? start x, s'.history <+: x :: s.history := by
  decide +kernel

theorem history_completed : ∀ (start : StartSymbol) (s : State),
    ∀ p ∈ s.completed? start, p.rhs.reverse <+: s.history := by
  decide +kernel

theorem next_boundary : ∀ (start : StartSymbol) (s : State) (x : GrammarSymbol),
    ∀ s' ∈ s.next? start x, s' ≠ .start ∧
      (s' = .finished → s = .start ∧ x = .nonterminal start.nonterminal) := by
  decide +kernel

/-- Whether a state occurs in texts of the start symbol: those of statements and lines do not occur
in an expression on its own. -/
def occursIn : StartSymbol → State → Bool
  | .script, _ => true
  | .expr, .newline | .expr, .lines _ | .expr, .statement .. | .expr, .lineEnd _ => false
  | .expr, .assignment | .expr, .exprStatement | .expr, .bareExpr => false
  | .expr, .target | .expr, .equal | .expr, .assigned => false
  | .expr, _ => true

theorem occursIn_next : ∀ (start : StartSymbol) (s : State) (x : GrammarSymbol),
    s.occursIn start → ∀ s' ∈ s.next? start x, s'.occursIn start := by
  decide +kernel

/-- A state that has a use for `=` also has one for comparison operators, so that the lexer takes
the longer of the two. -/
theorem accepts_hasTerminal : ∀ (start : StartSymbol) (s : State) (t : Terminal),
    s.occursIn start → s.accepts start t →
      start.hasTerminal t ∧ (t = .equal → s.accepts start .compOp) := by
  decide +kernel

end State
end ArithScript
