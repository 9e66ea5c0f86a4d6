import ArithScript.Program.Basic

/-!
Canonical text of programs: one statement a line, every binary expression in parentheses, and
numbers in program form.

The printer walks down the left operands of a chain of binary expressions and closes their
parentheses on the way out, so that a long sum is printed without nesting as deep as it is long.
`Expr.plainText` is the direct recursion that it agrees with.
-/
namespace ArithScript

def binaryText (left : String) (op : Operator) (right : String) : String :=
  "(" ++ left ++ " " ++ op.symbol ++ " " ++ right ++ ")"

def callText (function : String) (arguments : List String) : String :=
  function ++ "(" ++ ", ".intercalate arguments ++ ")"

/-- What is printed for a node of no known form. -/
def invalidExprText : String := "<invalid expr>"

def invalidStmtText : String := "<invalid stmt>"

/-- Closes the binary expressions that a text is the leftmost operand of, the innermost first. -/
def closeLevels (levels : List (Operator × String)) (text : String) : String :=
  levels.foldl (fun left level => binaryText left level.1 level.2) text

namespace Expr

/-- The text of an expression that stands leftmost in the given levels, and of these levels. -/
def textWithin : List (Operator × String) → Expr → String
  | levels, .number value _ => closeLevels levels value.programText
  | levels, .ident name _ => closeLevels levels name
  | levels, .call1 f argument _ => closeLevels levels (callText f.name [textWithin [] argument])
  | levels, .call2 f first second _ =>
    closeLevels levels (callText f.name [textWithin [] first, textWithin [] second])
  | levels, .binary op left right _ => textWithin ((op, textWithin [] right) :: levels) left
  | levels, .unknown => closeLevels levels invalidExprText

/-- The canonical text of an expression. -/
def text (e : Expr) : String := e.textWithin []

/-- The canonical text by direct recursion. -/
def plainText : Expr → String
  | .number value _ => value.programText
  | .ident name _ => name
  | .call1 f argument _ => callText f.name [plainText argument]
  | .call2 f first second _ => callText f.name [plainText first, plainText second]
  | .binary op left right _ => binaryText (plainText left) op (plainText right)
  | .unknown => invalidExprText

end Expr

/-- The canonical text of a statement. -/
def Stmt.text : Stmt → String
  | .define name value _ => name ++ " = " ++ value.text
  | .expr e _ => e.text
  | .unknown => invalidStmtText

/-- The canonical text of a program: its statements on a line each, with no line break last. -/
def Program.text (program : Program) : String := "\n".intercalate (program.map Stmt.text)

end ArithScript
