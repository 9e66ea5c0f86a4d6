import ArithScript.Automaton.State

/-!
The table of the automaton: which terminal leads to which state, which production a state
completes, and what may follow each syntactic category.

A state completes at most one production, and it is applied if what comes next may follow the
category on its left-hand side. Contexts are not told apart: a closing parenthesis may follow any
expression as far as the table goes. Only a name at the start of a statement is known not to stand
in parentheses.
-/
namespace ArithScript

namespace Nonterminal

/-- What may follow a category in some sentence, the end of the text being `none`. -/
def followers : Nonterminal → List Lookahead
  | .script => [none]
  | .lines =>
    [none, some .number, some .name, some .string, some .plus, some .minus, some .tilde, some .lpar]
  | .statement | .assignment | .exprStatement => [none, some .newline]
  | .expr => [none, some .newline, some .comma, some .rpar]
  | .comparison => [none, some .newline, some .comma, some .rpar, some .compOp]
  | .sum => [none, some .newline, some .comma, some .rpar, some .compOp, some .plus, some .minus]
  | .product | .factor =>
    [none, some .newline, some .comma, some .rpar, some .compOp, some .plus, some .minus,
      some .star, some .slash, some .percent]
  | .call | .argList | .atom =>
    [none, some .newline, some .comma, some .rpar, some .compOp, some .plus, some .minus,
      some .star, some .slash, some .percent, some .lpar]
  | .more => [some .comma, some .rpar]

end Nonterminal

def StartSymbol.hasLookahead (start : StartSymbol) : Lookahead → Bool
  | some t => start.hasTerminal t
  | none => true

namespace State

/-- The category of what is expected next, where an operand or a statement is. -/
def expects? (start : StartSymbol) : State → Option Nonterminal
  | .start => match start with | .script => some .statement | .expr => some .expr
  | .newline | .lines _ => some .statement
  | .equal | .paren | .argsOpen | .argsFirstComma | .argsMoreComma => some .expr
  | .compOp => some .sum
  | .addOp _ => some .product
  | .mulOp _ | .sign _ => some .factor
  | _ => none

def enter? (category : Nonterminal) : Terminal → Option State
  | .number => some .number
  | .name => some (if category = .statement then .target else .name)
  | .string => some .string
  | .lpar => some .paren
  | .plus => some (.sign .plus)
  | .minus => some (.sign .minus)
  | .tilde => some (.sign .tilde)
  | _ => none

def continue? (start : StartSymbol) : State → Terminal → Option State
  | .start, .newline => if start = .script then some .newline else none
  | .statement _ later, .newline => some (.lineEnd later)
  | .target, .equal => some .equal
  | .comparison, .compOp => some .compOp
  | .sum, .plus | .compared, .plus => some (.addOp .plus)
  | .sum, .minus | .compared, .minus => some (.addOp .minus)
  | .product, .star | .added _, .star => some (.mulOp .star)
  | .product, .slash | .added _, .slash => some (.mulOp .slash)
  | .product, .percent | .added _, .percent => some (.mulOp .percent)
  | .call, .lpar => some .argsOpen
  | .argsOpen, .rpar => some .argsNone
  | .argsFirst, .comma => some .argsFirstComma
  | .argsFirst, .rpar => some (.argsClose false false)
  | .argsFirstComma, .rpar => some (.argsClose false true)
  | .argsMore, .comma => some .argsMoreComma
  | .argsMore, .rpar => some (.argsClose true false)
  | .argsMoreComma, .rpar => some (.argsClose true true)
  | .parenExpr, .rpar => some .parenClose
  | _, _ => none

def shift? (start : StartSymbol) (s : State) (t : Terminal) : Option State :=
  match s.continue? start t with
  | some next => some next
  | none => (s.expects? start).bind (enter? · t)

def afterExpr? (start : StartSymbol) : State → Option State
  | .start => some (match start with | .script => .bareExpr | .expr => .finished)
  | .newline | .lines _ => some .bareExpr
  | .equal => some .assigned
  | .paren => some .parenExpr
  | .argsOpen => some .argsFirst
  | .argsFirstComma => some .moreOne
  | .argsMoreComma => some .moreNext
  | _ => none

/-- The state after a category has been read from this state on. -/
def goto? (start : StartSymbol) (s : State) (category : Nonterminal) : Option State :=
  match category with
  | .script => if s = .start && start = .script then some .finished else none
  | .lines =>
    match s with
    | .start => if start = .script then some (.lines false) else none
    | .newline => some (.lines true)
    | _ => none
  | .statement =>
    match s with
    | .start => if start = .script then some (.statement false false) else none
    | .newline => some (.statement true false)
    | .lines leading => some (.statement leading true)
    | _ => none
  | .assignment => if s.expects? start = some .statement then some .assignment else none
  | .exprStatement => if s.expects? start = some .statement then some .exprStatement else none
  | .expr => s.afterExpr? start
  | .comparison =>
    match s.expects? start with
    | some .statement | some .expr => some .comparison
    | _ => none
  | .sum =>
    match s.expects? start with
    | some .statement | some .expr => some .sum
    | some .sum => some .compared
    | _ => none
  | .product =>
    match s.expects? start, s with
    | some .statement, _ | some .expr, _ | some .sum, _ => some .product
    | some .product, .addOp op => some (.added op)
    | _, _ => none
  | .factor =>
    match s.expects? start, s with
    | some .statement, _ | some .expr, _ | some .sum, _ | some .product, _ => some .factor
    | some .factor, .mulOp op => some (.multiplied op)
    | some .factor, .sign op => some (.signed op)
    | _, _ => none
  | .call => (s.expects? start).map fun _ => .call
  | .atom => (s.expects? start).map fun _ => .atom
  | .argList => if s = .call then some .args else none
  | .more => if s = .argsFirst then some .argsMore else none

/-- The production whose right-hand side has been read completely. -/
def completed? (start : StartSymbol) : State → Option Production
  | .start => if start = .script then some (.script false false false) else none
  | .newline => some (.script true false false)
  | .lines leading => some (.script leading true false)
  | .statement leading later => some (.script leading later true)
  | .lineEnd false => some .linesOne
  | .lineEnd true => some .linesMore
  | .assignment => some .statementAssignment
  | .exprStatement => some .statementExpr
  | .bareExpr => some .exprStatement
  | .assigned => some .assignment
  | .comparison => some .exprComparison
  | .compared => some .compare
  | .sum => some .comparisonSum
  | .added op => some (.add op)
  | .product => some .sumProduct
  | .multiplied op => some (.multiply op)
  | .factor => some .productFactor
  | .signed op => some (.signed op)
  | .call => some .factorCall
  | .args => some .callArgs
  | .argsNone => some .argsNone
  | .argsClose more trailing => some (.args more trailing)
  | .moreOne => some .moreOne
  | .moreNext => some .moreNext
  | .atom => some .callAtom
  | .number => some .atomNumber
  | .name | .target => some .atomName
  | .string => some .atomString
  | .parenClose => some .paren
  | _ => none

def reducesOn (start : StartSymbol) (s : State) (production : Production) (next : Lookahead) :
    Bool :=
  start.hasLookahead next && next ∈ production.lhs.followers &&
    !(s = .target && (next = some .comma || next = some .rpar))

/-- The production to apply before the lookahead. -/
def reduction? (start : StartSymbol) (s : State) (next : Lookahead) : Option Production :=
  (s.completed? start).filter (s.reducesOn start · next)

/-- Whether the state has a use for the terminal: it shifts it or applies a production before it. -/
def accepts (start : StartSymbol) (s : State) (t : Terminal) : Bool :=
  (s.shift? start t).isSome || (s.reduction? start (some t)).isSome

/-- The terminals that the state has a use for. -/
def terminals (start : StartSymbol) (s : State) : List Terminal :=
  Terminal.all.filter (s.accepts start)

/-- The same, and the end of the text if the state has a use for it. -/
def lookaheads (start : StartSymbol) (s : State) : List Lookahead :=
  (s.terminals start).map some ++ if (s.reduction? start none).isSome then [none] else []

end State
end ArithScript
