import ArithScript.Lowering.Expr

/-!
Lowering of statements and scripts. A script without statements is no program.
-/
namespace ArithScript.Walk

/-- Lowers the statement at the cursor. The second child of an assignment is passed over unseen. -/
def stmt (source : Source) : Walk Stmt := do
  match ← kind with
  | .construct .assignment =>
    let loc ← location source
    descend source .noChild do
      let name ← text source
      advance source .equalsSign
      advance source .assignedValue
      return .define name (← expr source) loc
  | .construct .exprStatement =>
    let loc ← location source
    descend source .noChild do
      return .expr (← expr source) loc
  | other => refuse source (.unsupportedStmt other)

/-- The statements after the cursor, of which at most `count` are read. -/
def laterStatements (source : Source) : Nat → Program → Walk Program
  | 0, read => pure read.reverse
  | count + 1, read => do
    unless ← move Cursor.nextSibling? do return read.reverse
    laterStatements source count ((← stmt source) :: read)

/-- Lowers the script at the cursor into its statements, in source order. -/
def program (source : Source) : Walk Program := do
  if (← kind) ≠ .construct .script then refuse source (.unsupportedProgram (← kind))
  descend source .emptyProgram do
    let first ← stmt source
    laterStatements source (← getThe Cursor).familySize [first]

end ArithScript.Walk
