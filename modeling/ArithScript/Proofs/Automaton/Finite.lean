import ArithScript.Automaton.Table

/-! The symbols, productions and states of the automaton as lists. A property of all of them is
decided by going through the list, so that the table of the automaton is checked by computation. -/
namespace ArithScript

def decidableForall {α : Type} {all : List α} (complete : ∀ a, a ∈ all) (P : α → Prop)
    [DecidablePred P] : Decidable (∀ a, P a) :=
  decidable_of_iff (∀ a ∈ all, P a) ⟨fun h a => h a (complete a), fun h a _ => h a⟩

namespace Nonterminal

def all : List Nonterminal :=
  [.script, .lines, .statement, .assignment, .exprStatement, .expr, .comparison, .sum, .product,
    .factor, .call, .argList, .more, .atom]

theorem mem_all (n : Nonterminal) : n ∈ all := by cases n <;> decide

end Nonterminal

namespace Production

def all : List Production :=
  [.script false false false, .script false false true, .script false true false,
    .script false true true, .script true false false, .script true false true,
    .script true true false, .script true true true, .linesOne, .linesMore, .statementAssignment,
    .statementExpr, .assignment, .exprStatement, .exprComparison, .comparisonSum, .compare,
    .sumProduct, .add .plus, .add .minus, .productFactor, .multiply .star, .multiply .slash,
    .multiply .percent, .factorCall, .signed .plus, .signed .minus, .signed .tilde, .callAtom,
    .callArgs, .argsNone, .args false false, .args false true, .args true false, .args true true,
    .moreOne, .moreNext, .atomNumber, .atomName, .atomString, .paren]

theorem mem_all (p : Production) : p ∈ all := by
  cases p with
  | script leading lines last => cases leading <;> cases lines <;> cases last <;> decide
  | add op => cases op <;> decide
  | multiply op => cases op <;> decide
  | signed op => cases op <;> decide
  | args more trailing => cases more <;> cases trailing <;> decide
  | _ => decide

end Production

namespace State

def all : List State :=
  [.start, .finished, .newline, .lines false, .lines true, .statement false false,
    .statement false true, .statement true false, .statement true true, .lineEnd false,
    .lineEnd true, .assignment, .exprStatement, .bareExpr, .target, .equal, .assigned, .comparison,
    .compOp, .compared, .sum, .addOp .plus, .addOp .minus, .added .plus, .added .minus, .product,
    .mulOp .star, .mulOp .slash, .mulOp .percent, .multiplied .star, .multiplied .slash,
    .multiplied .percent, .factor, .sign .plus, .sign .minus, .sign .tilde, .signed .plus,
    .signed .minus, .signed .tilde, .call, .args, .argsOpen, .argsNone, .argsFirst,
    .argsFirstComma, .argsMore, .argsMoreComma, .argsClose false false, .argsClose false true,
    .argsClose true false, .argsClose true true, .moreOne, .moreNext, .atom, .number, .name,
    .string, .paren, .parenExpr, .parenClose]

theorem mem_all (s : State) : s ∈ all := by
  cases s with
  | lines leading => cases leading <;> decide
  | statement leading lines => cases leading <;> cases lines <;> decide
  | lineEnd more => cases more <;> decide
  | addOp op => cases op <;> decide
  | added op => cases op <;> decide
  | mulOp op => cases op <;> decide
  | multiplied op => cases op <;> decide
  | sign op => cases op <;> decide
  | signed op => cases op <;> decide
  | argsClose more trailing => cases more <;> cases trailing <;> decide
  | _ => decide

end State

instance (priority := low) (P : StartSymbol → Prop) [DecidablePred P] : Decidable (∀ start, P start) :=
  decidable_of_iff (P .script ∧ P .expr)
    ⟨fun h start => by cases start; exact h.1; exact h.2, fun h => ⟨h _, h _⟩⟩

instance (priority := low) (P : Terminal → Prop) [DecidablePred P] : Decidable (∀ t, P t) :=
  decidableForall Terminal.mem_all P

instance (priority := low) (P : Nonterminal → Prop) [DecidablePred P] : Decidable (∀ n, P n) :=
  decidableForall Nonterminal.mem_all P

instance (priority := low) (P : GrammarSymbol → Prop) [DecidablePred P] : Decidable (∀ x, P x) :=
  decidable_of_iff ((∀ t, P (.terminal t)) ∧ ∀ n, P (.nonterminal n))
    ⟨fun h x => by cases x; exact h.1 _; exact h.2 _, fun h => ⟨fun _ => h _, fun _ => h _⟩⟩

instance (priority := low) (P : Production → Prop) [DecidablePred P] : Decidable (∀ p, P p) :=
  decidableForall Production.mem_all P

instance (priority := low) (P : State → Prop) [DecidablePred P] : Decidable (∀ s, P s) :=
  decidableForall State.mem_all P

end ArithScript
