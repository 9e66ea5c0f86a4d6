import ArithScript.Program.Basic
import ArithScript.Text.Quoted

/-!
Outlines of programs: the form of every node with the names of its parts, for inspection. Places
are left out, and numbers are in full form.
-/
namespace ArithScript

/-- A node of the given form over its named parts. -/
def outlineNode (form : String) (parts : List (String × String)) : String :=
  form ++ "(" ++ ", ".intercalate (parts.map fun part => part.1 ++ "=" ++ part.2) ++ ")"

def outlineMember (set member value : String) : String :=
  "<" ++ set ++ "." ++ member ++ ": " ++ quoted value ++ ">"

def Operator.label : Operator → String
  | .add => "ADD"
  | .sub => "SUB"
  | .mul => "MUL"

def UnaryBuiltin.label : UnaryBuiltin → String
  | .print => "PRINT"
  | .abs => "ABS"

def BinaryBuiltin.label : BinaryBuiltin → String
  | .max => "MAX"
  | .min => "MIN"
  | .pow => "POW"

def Expr.outline : Expr → String
  | .number value _ => outlineNode "NumberLiteral" [("value", value.fullText)]
  | .ident name _ => outlineNode "Identifier" [("name", quoted name)]
  | .call1 f argument _ =>
    outlineNode "BuiltinCall1"
      [("name", outlineMember "Builtin1" f.label f.name), ("arg", outline argument)]
  | .call2 f first second _ =>
    outlineNode "BuiltinCall2"
      [("name", outlineMember "Builtin2" f.label f.name), ("arg1", outline first),
        ("arg2", outline second)]
  | .binary op left right _ =>
    outlineNode "BinaryExpr"
      [("op", outlineMember "BinOp" op.label op.symbol), ("left", outline left),
        ("right", outline right)]
  | .unknown => outlineNode "Expr" []

def Stmt.outline : Stmt → String
  | .define name value _ => outlineNode "Define" [("name", quoted name), ("value", value.outline)]
  | .expr e _ => outlineNode "ExprStmt" [("expr", e.outline)]
  | .unknown => outlineNode "Stmt" []

end ArithScript
