import ArithScript.Text.Quoted
import ArithScript.Text.Span
import ArithScript.Tree.Basic

/-!
Failures of reading and lowering: what is wrong, where, and in which words.

A `Problem` is the cause of a failure. Its message quotes the text at the place where it was
found.
-/
namespace ArithScript

/-- Stable identifiers of failures. -/
inductive Code
  | badSyntax
  | malformed
  | badNumber
  | unknownCall
  | callArity
  | unknownUnaryOp
  | unaryNotLiteral
  | unknownBinaryOp
  | unsupportedExpr
  | unsupportedStmt
  | unsupportedProgram
  | emptyProgram
  | other (label : String)
  deriving DecidableEq

namespace Code

def label : Code → String
  | .badSyntax => "E-SYNTAX"
  | .malformed => "E-MALFORMED"
  | .badNumber => "E-BAD-NUMBER"
  | .unknownCall => "E-UNKNOWN-CALL"
  | .callArity => "E-CALL-ARITY"
  | .unknownUnaryOp => "E-UNKNOWN-UNARY-OP"
  | .unaryNotLiteral => "E-UNARY-NOT-LITERAL"
  | .unknownBinaryOp => "E-UNKNOWN-BINARY-OP"
  | .unsupportedExpr => "E-UNSUPPORTED-EXPR"
  | .unsupportedStmt => "E-UNSUPPORTED-STMT"
  | .unsupportedProgram => "E-UNSUPPORTED-PROGRAM"
  | .emptyProgram => "E-EMPTY-PROGRAM"
  | .other label => label

def all : List Code :=
  [.badSyntax, .malformed, .badNumber, .unknownCall, .callArity, .unknownUnaryOp, .unaryNotLiteral,
    .unknownBinaryOp, .unsupportedExpr, .unsupportedStmt, .unsupportedProgram, .emptyProgram]

def ofLabel (label : String) : Code := (all.find? (·.label = label)).getD (.other label)

theorem label_ofLabel (label : String) : (ofLabel label).label = label := by
  unfold ofLabel
  cases found : all.find? (·.label = label) with
  | none => rfl
  | some code => simpa using List.find?_some found

end Code

inductive Part
  | argumentList
  | binaryOperator
  | rightOperand
  | equalsSign
  | assignedValue
  deriving DecidableEq

def Part.text : Part → String
  | .argumentList => "argument list"
  | .binaryOperator => "binary operator"
  | .rightOperand => "right operand"
  | .equalsSign => "'='"
  | .assignedValue => "assigned value"

/-- Causes of failure. A `custom` one is for walks of a caller's own. -/
inductive Problem
  | invalidSyntax
  | noChild
  | missing (part : Part)
  | notArgumentList
  | badNumber
  | unknownCall (callee : String) (arguments : Nat)
  | callArity (arguments : Nat) (callee : String)
  | unknownSign
  | signedNonLiteral
  | unknownOperator
  | unsupportedExpr (kind : Kind)
  | unsupportedStmt (kind : Kind)
  | unsupportedProgram (kind : Kind)
  | emptyProgram
  | custom (code : Code) (text : String)
  deriving DecidableEq

namespace Problem

def code : Problem → Code
  | .invalidSyntax => .badSyntax
  | .noChild | .missing _ | .notArgumentList => .malformed
  | .badNumber => .badNumber
  | .unknownCall .. => .unknownCall
  | .callArity .. => .callArity
  | .unknownSign => .unknownUnaryOp
  | .signedNonLiteral => .unaryNotLiteral
  | .unknownOperator => .unknownBinaryOp
  | .unsupportedExpr _ => .unsupportedExpr
  | .unsupportedStmt _ => .unsupportedStmt
  | .unsupportedProgram _ => .unsupportedProgram
  | .emptyProgram => .emptyProgram
  | .custom code _ => code

def text : Problem → String
  | .invalidSyntax => "invalid syntax"
  | .noChild => "expected child node"
  | .missing part => "missing " ++ part.text
  | .notArgumentList => "expected argument list"
  | .badNumber => "invalid number literal"
  | .unknownCall callee arguments =>
    "unknown call name " ++ quoted callee ++ " for " ++ toString arguments ++
      (if arguments = 1 then " argument" else " arguments")
  | .callArity arguments callee =>
    "incorrect argument count " ++ toString arguments ++ " for " ++ quoted callee
  | .unknownSign => "unknown unary operator"
  | .signedNonLiteral => "unary operator is only supported on numeric literals"
  | .unknownOperator => "unknown binary operator"
  | .unsupportedExpr kind => "could not parse expr (" ++ kind.name ++ ")"
  | .unsupportedStmt kind => "could not parse stmt (" ++ kind.name ++ ")"
  | .unsupportedProgram kind => "could not parse program (" ++ kind.name ++ ")"
  | .emptyProgram => "empty program"
  | .custom _ text => text

end Problem

/-- A failure as it is reported. -/
structure Failure where
  code : Code
  message : String
  start : Option Int := none
  stop : Option Int := none
  notes : List String := []
  deriving DecidableEq

namespace Failure

/-- The failure with the given cause at an extent of a text, which its message quotes. -/
def ofProblem (source : Source) (problem : Problem) (extent : Extent) (notes : List String := []) :
    Failure where
  code := problem.code
  message := problem.text ++ " at " ++ toString extent.start ++ " " ++ toString extent.stop ++
    ": " ++ quoted (source.slice extent.start extent.stop)
  start := some extent.start
  stop := some extent.stop
  notes := notes

/-- The place of a failure in a text; unknown, except for the file, if it has no offsets. -/
def span (failure : Failure) (source : Source) (file : Option String := none) : Span :=
  match failure.start, failure.stop with
  | some start, some stop => Span.ofOffsets source start stop file
  | _, _ => { file }

end Failure
end ArithScript
