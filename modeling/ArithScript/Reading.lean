import ArithScript.Automaton.Run
import ArithScript.Diagnostic
import ArithScript.Lowering.Program

/-!
Reading a text: as a concrete tree, as a program or an expression, or as a program together with
the diagnostic that says why there is none.

Calls, arguments and operands may be nested to any depth. What a machine's bound on the depth of
recursion would make of a very deep text is left out: no text is refused, and no reading ends
without a result, for want of stack.
-/
namespace ArithScript

/-- Why a text cannot be read: something unexpected at an offset, or the end of the text, with the
names of what would have been accepted. -/
inductive SyntaxFault
  | unexpected (offset : Option Int) (expected : List String)
  | endOfText (expected : List String)
  deriving DecidableEq

namespace SyntaxFault

def offset? : SyntaxFault → Option Int
  | .unexpected offset _ => offset.filter (0 ≤ ·)
  | .endOfText _ => none

/-- The names of what would have been accepted, in order; of what is unexpected, without
repetition. -/
def expected : SyntaxFault → List String
  | .unexpected _ expected => expected.eraseDups.mergeSort (· ≤ ·)
  | .endOfText expected => expected.mergeSort (· ≤ ·)

def notes (fault : SyntaxFault) : List String :=
  if fault.expected.isEmpty then []
  else ["expected one of: " ++ ", ".intercalate fault.expected]

/-- The character at the offset, or the empty text at the end if the offset is not known. -/
def extent (fault : SyntaxFault) (source : Source) : Extent :=
  let start := fault.offset?.getD source.length
  ⟨start, min (start + 1) source.length⟩

def failure (fault : SyntaxFault) (source : Source) : Failure :=
  Failure.ofProblem source .invalidSyntax (fault.extent source) fault.notes

end SyntaxFault

def Refusal.fault (refusal : Refusal) : SyntaxFault :=
  .unexpected (some refusal.offset) (refusal.expected.map Lookahead.label)

/-- The concrete tree of a text. -/
def Tree.read (start : StartSymbol) (source : Source) : Except Failure Tree :=
  match Derivation.parse start source.chars.toList with
  | .ok derivation => .ok derivation.tree
  | .error refusal => .error (refusal.fault.failure source)

/-- The outcome of a walk over the concrete tree of a text. -/
def Walk.over {α : Type} (start : StartSymbol) (source : Source) (walk : Walk α) : Except Fault α :=
  match Tree.read start source with
  | .ok tree => (walk.runFrom (Cursor.ofRoot tree)).1
  | .error failure => .error (.rejected failure)

/-- The program that a text holds. -/
def Program.read (source : Source) : Except Fault Program :=
  Walk.over .script source (Walk.program source)

/-- The expression that a text holds. -/
def Expr.read (source : Source) : Except Fault Expr :=
  Walk.over .expr source (Walk.expr source)

/-- The program that a text holds, or no statement and the diagnostic that says why; as everywhere
here, however deep the text is nested. -/
def Program.readOrReport (source : Source) (file : Option String) :
    Except Fault (Program × List Diagnostic) :=
  match Program.read source with
  | .ok program => .ok (program, [])
  | .error (.rejected failure) => .ok ([], [Diagnostic.ofFailure failure source file])
  | .error .notRestored => .error .notRestored

end ArithScript
