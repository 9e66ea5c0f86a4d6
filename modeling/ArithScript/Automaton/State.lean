import ArithScript.Grammar.Production

/-!
States of the shift/reduce automaton. A state says which symbols were read last and, with them,
which production is being applied and how far. States of the same kind are shared by all contexts,
so that an operand inside a call and one at the end of a line are in the same state.
-/
namespace ArithScript

/-- A state, described by what has been read last. The flags say whether a line break came first
(`leading`), whether there are finished lines in front (`lines`, `more` of a line end), and whether
arguments in parentheses are more than one and end with a comma (`more` and `trailing`). -/
inductive State
  | start
  | finished
  | newline
  | lines (leading : Bool)
  | statement (leading lines : Bool)
  | lineEnd (more : Bool)
  | assignment | exprStatement | bareExpr
  | target | equal | assigned
  | comparison | compOp | compared
  | sum | addOp (op : AddOp) | added (op : AddOp)
  | product | mulOp (op : MulOp) | multiplied (op : MulOp)
  | factor | sign (op : SignOp) | signed (op : SignOp)
  | call | args
  | argsOpen | argsNone
  | argsFirst | argsFirstComma
  | argsMore | argsMoreComma
  | argsClose (more trailing : Bool)
  | moreOne | moreNext
  | atom | number | name | string
  | paren | parenExpr | parenClose
  deriving DecidableEq

end ArithScript
