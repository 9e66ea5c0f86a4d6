import ArithScript.Automaton.Table
import ArithScript.Grammar.Derivation

/-!
The stack of the automaton, and the productions applied to it before a lookahead.
-/
namespace ArithScript

structure Frame where
  state : State
  derivation : Derivation

/-- The symbols read, the last one first, each with its derivation and the state it led to. -/
abbrev Stack := List Frame

namespace Stack

def state : Stack → State
  | [] => .start
  | frame :: _ => frame.state

/-- Replaces the right-hand side of a production on top of the stack by its left-hand side. -/
def reduce? (start : StartSymbol) (production : Production) (stack : Stack) : Option Stack :=
  let count := production.rhs.length
  let rest := stack.drop count
  if count ≤ stack.length then
    ((state rest).goto? start production.lhs).map fun s =>
      ⟨s, .node production ((stack.take count).reverse.map Frame.derivation)⟩ :: rest
  else none

end Stack

/-! The measure under which every run of reductions ends: a longer right-hand side shortens the
stack, and a single symbol is replaced by a category further up in the chain of categories. -/

def Nonterminal.depth : Nonterminal → Nat
  | .script => 0
  | .lines => 1
  | .statement => 2
  | .assignment | .exprStatement => 3
  | .expr | .more => 4
  | .comparison => 5
  | .sum => 6
  | .product => 7
  | .factor => 8
  | .call => 9
  | .atom => 10
  | .argList => 11

/-- How far a state is below the end of every chain of reductions. -/
def State.depth : State → Nat
  | .start => 40
  | .finished => 0
  | .lines _ => 1
  | .statement .. => 2
  | .assignment | .exprStatement => 3
  | .bareExpr | .assigned | .parenExpr | .argsFirst | .moreOne | .moreNext | .argsMore => 4
  | .comparison => 5
  | .sum | .compared => 6
  | .product | .added _ => 7
  | .factor | .signed _ | .multiplied _ => 8
  | .call => 9
  | .atom => 10
  | .args => 11
  | _ => 12

theorem State.depth_goto (start : StartSymbol) (s : State) (category : Nonterminal) :
    (s.goto? start category).all (·.depth ≤ category.depth) = true := by
  cases category <;> cases s <;> cases start <;> rfl

theorem State.depth_completed (start : StartSymbol) (s : State) :
    (s.completed? start).all
      (fun p => p.lhs.depth + 20 < s.depth + 20 * p.rhs.length) = true := by
  cases s with
  | statement leading later => cases leading <;> cases later <;> rfl
  | lines leading => cases leading <;> rfl
  | lineEnd more => cases more <;> rfl
  | argsClose more trailing => cases more <;> cases trailing <;> rfl
  | _ => cases start <;> rfl

namespace Stack

def measure (stack : Stack) : Nat := 20 * stack.length + stack.state.depth

theorem measure_reduce_le {start : StartSymbol} {production : Production} {stack next : Stack}
    (reduced : reduce? start production stack = some next) :
    next.measure + 20 * production.rhs.length ≤
      20 * (stack.length + 1) + production.lhs.depth := by
  simp only [reduce?] at reduced
  split at reduced
  next enough =>
    obtain ⟨s, reached, rfl⟩ := Option.map_eq_some_iff.mp reduced
    have shallow := State.depth_goto start (state (stack.drop production.rhs.length)) production.lhs
    rw [reached] at shallow
    simp only [Option.all_some, decide_eq_true_eq] at shallow
    simp only [measure, List.length_cons, List.length_drop]
    change 20 * (stack.length - _ + 1) + s.depth + _ ≤ _
    omega
  next => simp at reduced

theorem measure_reduce {start : StartSymbol} {production : Production} {stack next : Stack}
    (completed : stack.state.completed? start = some production)
    (reduced : reduce? start production stack = some next) : next.measure < stack.measure := by
  have bound := State.depth_completed start stack.state
  rw [completed] at bound
  simp only [Option.all_some, decide_eq_true_eq] at bound
  have left := measure_reduce_le reduced
  simp only [measure] at left ⊢
  omega

/-- Applies productions as long as the lookahead calls for it. -/
def reduceFor (start : StartSymbol) (next : Lookahead) (stack : Stack) : Stack :=
  match _applies : stack.state.reduction? start next with
  | none => stack
  | some production =>
    match _replaced : reduce? start production stack with
    | none => stack
    | some rest => reduceFor start next rest
termination_by stack.measure
decreasing_by exact measure_reduce (Option.filter_eq_some_iff.mp _applies).1 _replaced

end Stack

end ArithScript
