import ArithScript.Lowering.Form

/-!
What a concrete tree stands for, by recursion on the tree: children from left to right, and the
first failure ends it. No cursor is involved, so the result depends on the subtree and the text
alone.
-/
namespace ArithScript.Tree

variable {α : Type}

def reject (source : Source) (problem : Problem) (tree : Tree) : Except Failure α :=
  .error (Failure.ofProblem source problem tree.extent)

def textIn (source : Source) (tree : Tree) : String :=
  source.slice tree.extent.start tree.extent.stop

def location (source : Source) (tree : Tree) : Span :=
  Span.ofOffsets source tree.extent.start tree.extent.stop

/-- The number that the text of a tree reads as; otherwise the given problem. -/
def toNumber (source : Source) (problem : Problem) (tree : Tree) : Except Failure Expr :=
  match readNumber (tree.textIn source) with
  | some value => .ok (.number value (tree.location source))
  | none => tree.reject source problem

def toOperator (source : Source) (tree : Tree) : Except Failure Operator :=
  match Operator.ofSymbol? (tree.textIn source) with
  | some op => .ok op
  | none => tree.reject source .unknownOperator

mutual

/-- The expression that a tree stands for. -/
def toExpr (source : Source) (tree : Tree) : Except Failure Expr :=
  match tree.kind with
  | .terminal .number => tree.toNumber source .badNumber
  | .terminal .name => .ok (.ident (tree.textIn source) (tree.location source))
  | .construct .call =>
    match _h : tree.children with
    | [] => tree.reject source .noChild
    | [callee] => callee.reject source (.missing .argumentList)
    | callee :: list :: _ => do
      let arguments ← list.toArguments source
      match Expr.ofCall (callee.textIn source) arguments (tree.location source) with
      | .ok e => .ok e
      | .error problem => tree.reject source problem
  | .construct .unary =>
    match tree.children with
    | [] => tree.reject source .noChild
    | sign :: _ =>
      if isSign (sign.textIn source) then tree.toNumber source .signedNonLiteral
      else sign.reject source .unknownSign
  | .construct .binary =>
    match _h : tree.children with
    | [] => tree.reject source .noChild
    | [left] => do
      let _ ← left.toExpr source
      left.reject source (.missing .binaryOperator)
    | [left, op] => do
      let _ ← left.toExpr source
      let _ ← op.toOperator source
      op.reject source (.missing .rightOperand)
    | left :: op :: right :: _ => do
      let first ← left.toExpr source
      let operator ← op.toOperator source
      let second ← right.toExpr source
      return .binary operator first second (tree.location source)
  | other => tree.reject source (.unsupportedExpr other)
termination_by (tree.size, 0)
decreasing_by
  all_goals
    apply Prod.Lex.left
    have := sizeAll_children_lt tree
    simp only [_h, sizeAll] at this
    omega

/-- The arguments that an argument list holds. An opening parenthesis in front is passed over. -/
def toArguments (source : Source) (tree : Tree) : Except Failure (List Expr) :=
  if tree.kind ≠ .construct .argList then tree.reject source .notArgumentList
  else
    match _h : tree.children with
    | [] => tree.reject source .noChild
    | first :: rest =>
      if first.kind = .terminal .lpar then argumentsOf source rest
      else argumentsOf source (first :: rest)
termination_by (tree.size, 0)
decreasing_by
  all_goals
    apply Prod.Lex.left
    have := sizeAll_children_lt tree
    simp only [_h, sizeAll] at this ⊢
    omega

/-- Every second tree as an argument, up to a closing parenthesis or the end. -/
def argumentsOf (source : Source) : List Tree → Except Failure (List Expr)
  | [] => .ok []
  | tree :: rest =>
    if tree.kind = .terminal .rpar then .ok []
    else do
      let argument ← tree.toExpr source
      match rest with
      | [] => return [argument]
      | separator :: later =>
        if separator.kind = .terminal .rpar then return [argument]
        else return argument :: (← argumentsOf source later)
termination_by trees => (sizeAll trees, 1)
decreasing_by
  all_goals
    simp only [sizeAll, Prod.lex_def]
    have := size_pos tree
    omega

end

/-- The statement that a tree stands for. -/
def toStmt (source : Source) (tree : Tree) : Except Failure Stmt :=
  match tree.kind with
  | .construct .assignment =>
    match tree.children with
    | [] => tree.reject source .noChild
    | [target] => target.reject source (.missing .equalsSign)
    | [_, sign] => sign.reject source (.missing .assignedValue)
    | target :: _ :: value :: _ => do
      return .define (target.textIn source) (← value.toExpr source) (tree.location source)
  | .construct .exprStatement =>
    match tree.children with
    | [] => tree.reject source .noChild
    | e :: _ => do return .expr (← e.toExpr source) (tree.location source)
  | other => tree.reject source (.unsupportedStmt other)

/-- The program that a tree stands for. -/
def toProgram (source : Source) (tree : Tree) : Except Failure Program :=
  if tree.kind ≠ .construct .script then tree.reject source (.unsupportedProgram tree.kind)
  else
    match tree.children with
    | [] => tree.reject source .emptyProgram
    | statements => statements.mapM (toStmt source)

end ArithScript.Tree
