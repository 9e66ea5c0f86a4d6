import ArithScript.Lowering.Form
import ArithScript.Lowering.Walk

/-!
Lowering of expressions: from the concrete tree at the cursor to an expression.

Only numbers, names, calls of the built-in functions, signed numbers and the operators `+`, `-`
and `*` are lowered; any other construct is refused where it stands. A walk ends on the node it
started from. What a node contains beyond the parts that are read is not looked at.

The recursion is bounded by the size of the tree at the cursor, which no tree exhausts. The left
operands of a chain of binary expressions are entered one level after the other rather than by
recursion, so that a long sum needs no deep nesting of walks.
-/
namespace ArithScript.Walk

def operator (source : Source) : Walk Operator := do
  match Operator.ofSymbol (← text source) with
  | .ok op => pure op
  | .error _ => refuse source .unknownOperator

def number (source : Source) : Walk Expr := do
  match readNumber (← text source) with
  | some value => return .number value (← location source)
  | none => refuse source .badNumber

/-- A signed number: the whole text of the node has to read as a number. -/
def signed (source : Source) : Walk Expr := do
  descend source .noChild do
    unless isSign (← text source) do refuse source .unknownSign
  match readNumber (← text source) with
  | some value => return .number value (← location source)
  | none => refuse source .signedNonLiteral

/-- The arguments from the cursor on, each followed by a separator, up to a closing parenthesis or
the last sibling. At most `count` are read. -/
def argumentItems (operand : Walk Expr) : Nat → List Expr → Walk (List Expr)
  | 0, read => pure read.reverse
  | count + 1, read => do
    if (← kind) = .terminal .rpar then return read.reverse
    let argument ← operand
    unless ← move Cursor.nextSibling? do return (argument :: read).reverse
    if (← kind) ≠ .terminal .rpar then
      unless ← move Cursor.nextSibling? do return (argument :: read).reverse
    argumentItems operand count (argument :: read)

/-- The arguments of an argument list; an opening parenthesis in front is skipped. -/
def arguments (source : Source) (operand : Walk Expr) : Walk (List Expr) := do
  if (← kind) ≠ .construct .argList then refuse source .notArgumentList
  descend source .noChild do
    if (← kind) = .terminal .lpar then
      unless ← move Cursor.nextSibling? do return []
    argumentItems operand (← getThe Cursor).familySize []

/-- A call: the text of its first child names the function, and its second child holds the
arguments. -/
def call (source : Source) (operand : Walk Expr) : Walk Expr := do
  let loc ← location source
  let (callee, read) ← descend source .noChild do
    let callee ← text source
    advance source .argumentList
    return (callee, ← arguments source operand)
  match Expr.ofCall callee read loc with
  | .ok e => pure e
  | .error problem => refuse source problem

/-- A binary expression that has been entered at its left operand: the cursor at its node, and its
place in the text. -/
structure OpenLevel where
  entry : Cursor
  loc : Span

/-- Enters binary expressions at their left operands until another construct is met. The levels are
the open ones, the innermost first; at most `count` are added. -/
def openLevels (source : Source) : Nat → List OpenLevel → Walk (List OpenLevel)
  | 0, levels => pure levels
  | count + 1, levels => do
    if (← kind) ≠ .construct .binary then return levels
    let level := ⟨← getThe Cursor, ← location source⟩
    orAscend levels.length (enter source .noChild)
    openLevels source count (level :: levels)

/-- The operator and the right operand after a left operand. -/
def rightSide (source : Source) (operand : Walk Expr) : Walk (Operator × Expr) := do
  advance source .binaryOperator
  let op ← operator source
  advance source .rightOperand
  return (op, ← operand)

/-- Finishes the open levels around a left operand and leaves them. -/
def finishLevels (source : Source) (operand : Walk Expr) (left : Expr) :
    List OpenLevel → Walk Expr
  | [] => pure left
  | level :: outer => do
    let (op, right) ← orAscend (outer.length + 1) (rightSide source operand)
    orAscend outer.length (leave level.entry)
    finishLevels source operand (.binary op left right level.loc) outer

/-- A chain of binary expressions with at most `count` levels on its left. -/
def binary (source : Source) (count : Nat) (operand : Walk Expr) : Walk Expr := do
  let levels ← openLevels source count []
  let left ← orAscend levels.length operand
  finishLevels source operand left levels

/-- An expression nested at most `bound` deep. -/
def exprUpTo (source : Source) : Nat → Walk Expr
  | 0 => do refuse source (.unsupportedExpr (← kind))
  | bound + 1 => do
    match ← kind with
    | .terminal .number => number source
    | .terminal .name => return .ident (← text source) (← location source)
    | .construct .call => call source (exprUpTo source bound)
    | .construct .unary => signed source
    | .construct .binary => binary source (bound + 1) (exprUpTo source bound)
    | other => refuse source (.unsupportedExpr other)

/-- Lowers the expression at the cursor. -/
def expr (source : Source) : Walk Expr := do
  exprUpTo source (← getThe Cursor).node.size

/-- Lowers the argument list at the cursor. -/
def argumentList (source : Source) : Walk (List Expr) := do
  arguments source (exprUpTo source (← getThe Cursor).node.size)

end ArithScript.Walk
