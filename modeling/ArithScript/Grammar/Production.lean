import ArithScript.Grammar.Symbol

/-!
Productions of the script grammar. Operators of one level associate to the left; comparisons bind
least, then sums, products, signs and calls. Optional and repeated parts are spelled out, so that
a right-hand side is a plain list of symbols.
-/
namespace ArithScript

/-- A production. The flags of `script` say which of its parts are there: a line break in front,
finished lines, a last statement without line break. Those of `args` say whether arguments follow
the first one, and whether a comma ends the list. -/
inductive Production
  | script (leading lines last : Bool)
  | linesOne | linesMore
  | statementAssignment | statementExpr
  | assignment
  | exprStatement
  | exprComparison
  | comparisonSum | compare
  | sumProduct | add (op : AddOp)
  | productFactor | multiply (op : MulOp)
  | factorCall | signed (op : SignOp)
  | callAtom | callArgs
  | argsNone | args (more trailing : Bool)
  | moreOne | moreNext
  | atomNumber | atomName | atomString | paren
  deriving DecidableEq

def symbolsIf (condition : Bool) (symbols : List GrammarSymbol) : List GrammarSymbol :=
  if condition then symbols else []

namespace Production

def lhs : Production → Nonterminal
  | .script .. => .script
  | .linesOne | .linesMore => .lines
  | .statementAssignment | .statementExpr => .statement
  | .assignment => .assignment
  | .exprStatement => .exprStatement
  | .exprComparison => .expr
  | .comparisonSum | .compare => .comparison
  | .sumProduct | .add _ => .sum
  | .productFactor | .multiply _ => .product
  | .factorCall | .signed _ => .factor
  | .callAtom | .callArgs => .call
  | .argsNone | .args .. => .argList
  | .moreOne | .moreNext => .more
  | .atomNumber | .atomName | .atomString | .paren => .atom

def rhs : Production → List GrammarSymbol
  | .script leading lines last =>
    symbolsIf leading [.terminal .newline] ++ symbolsIf lines [.nonterminal .lines] ++
      symbolsIf last [.nonterminal .statement]
  | .linesOne => [.nonterminal .statement, .terminal .newline]
  | .linesMore => [.nonterminal .lines, .nonterminal .statement, .terminal .newline]
  | .statementAssignment => [.nonterminal .assignment]
  | .statementExpr => [.nonterminal .exprStatement]
  | .assignment => [.terminal .name, .terminal .equal, .nonterminal .expr]
  | .exprStatement => [.nonterminal .expr]
  | .exprComparison => [.nonterminal .comparison]
  | .comparisonSum => [.nonterminal .sum]
  | .compare => [.nonterminal .comparison, .terminal .compOp, .nonterminal .sum]
  | .sumProduct => [.nonterminal .product]
  | .add op => [.nonterminal .sum, .terminal op.terminal, .nonterminal .product]
  | .productFactor => [.nonterminal .factor]
  | .multiply op => [.nonterminal .product, .terminal op.terminal, .nonterminal .factor]
  | .factorCall => [.nonterminal .call]
  | .signed op => [.terminal op.terminal, .nonterminal .factor]
  | .callAtom => [.nonterminal .atom]
  | .callArgs => [.nonterminal .call, .nonterminal .argList]
  | .argsNone => [.terminal .lpar, .terminal .rpar]
  | .args more trailing =>
    [.terminal .lpar, .nonterminal .expr] ++ symbolsIf more [.nonterminal .more] ++
      symbolsIf trailing [.terminal .comma] ++ [.terminal .rpar]
  | .moreOne => [.terminal .comma, .nonterminal .expr]
  | .moreNext => [.nonterminal .more, .terminal .comma, .nonterminal .expr]
  | .atomNumber => [.terminal .number]
  | .atomName => [.terminal .name]
  | .atomString => [.terminal .string]
  | .paren => [.terminal .lpar, .nonterminal .expr, .terminal .rpar]

end Production
end ArithScript
