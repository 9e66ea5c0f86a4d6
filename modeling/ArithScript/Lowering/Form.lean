import ArithScript.Failure
import ArithScript.Numeric.Numeral
import ArithScript.Program.Basic

/-!
Which forms are lowered: operators by their symbol, signs, and calls by the name of the function
and the number of arguments. The lowering with a cursor and the one by recursion share these
rules.
-/
namespace ArithScript

/-- The operator of a symbol; the failure names no place. -/
def Operator.ofSymbol (symbol : String) : Except Failure Operator :=
  match Operator.ofSymbol? symbol with
  | some op => .ok op
  | none =>
    .error
      { code := Problem.unknownOperator.code
        message := Problem.unknownOperator.text ++ " " ++ quoted symbol }

def isSign (text : String) : Bool := text = "+" || text = "-"

/-- The call of a built-in function: it has to take as many arguments as are given. -/
def Expr.ofCall (callee : String) (arguments : List Expr) (loc : Span) : Except Problem Expr :=
  match arguments with
  | [argument] =>
    match UnaryBuiltin.ofName? callee with
    | some f => .ok (.call1 f argument loc)
    | none => .error (.unknownCall callee 1)
  | [first, second] =>
    match BinaryBuiltin.ofName? callee with
    | some f => .ok (.call2 f first second loc)
    | none => .error (.unknownCall callee 2)
  | _ => .error (.callArity arguments.length callee)

end ArithScript
