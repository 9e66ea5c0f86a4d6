import ArithScript.Program.Outline
import ArithScript.Session
import ArithScript.Proofs.Lowering.Consumed
import ArithScript.Proofs.Lowering.Discipline
import ArithScript.Proofs.Lowering.Skeleton
import ArithScript.Proofs.Program.Places
import ArithScript.Proofs.Program.ReadBack
import ArithScript.Proofs.Automaton.Viable
import ArithScript.Proofs.Automaton.Progress
import ArithScript.Proofs.Automaton.Expected
import ArithScript.Proofs.Rejection
import ArithScript.Proofs.Grammar.LineEnds
import ArithScript.Proofs.Program.SingleExpression
import ArithScript.Proofs.Text.LineTable
import ArithScript.Proofs.Grammar.Runs
import ArithScript.Proofs.Lowering.Origins
import ArithScript.Proofs.Program.StatementLines
import ArithScript.Proofs.Grammar.LineTokens
import ArithScript.Proofs.Program.JoinedLines
import ArithScript.Proofs.Program.Refusals
import ArithScript.Proofs.Program.Reports
import ArithScript.Proofs.Program.Spacing
import ArithScript.Proofs.Program.Continuations
import ArithScript.Proofs.Numeric.Shortest
import ArithScript.Proofs.Program.Unambiguous
import ArithScript.Proofs.Program.Overflow
import ArithScript.Proofs.EarlyEnd
import ArithScript.Proofs.Session
import ArithScript.Proofs.Program.Spine
import ArithScript.Proofs.Tree.Edge
