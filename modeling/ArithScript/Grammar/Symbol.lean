/-!
Symbols of the script grammar: the terminals that a text is divided into, and the categories that
they are grouped by.
-/
namespace ArithScript

inductive AddOp
  | plus | minus
  deriving DecidableEq

inductive MulOp
  | star | slash | percent
  deriving DecidableEq

inductive SignOp
  | plus | minus | tilde
  deriving DecidableEq

/-- Terminals. A `newline` stands for all line breaks and comments between two statements. -/
inductive Terminal
  | number | name | string
  | compOp | equal
  | plus | minus | star | slash | percent | tilde
  | lpar | rpar | comma
  | newline
  deriving DecidableEq

/-- Syntactic categories, from scripts down to atoms. `lines` are finished lines, and `more` are
the arguments of a call after the first with the commas before them. -/
inductive Nonterminal
  | script | lines | statement | assignment | exprStatement
  | expr | comparison | sum | product | factor | call | argList | more | atom
  deriving DecidableEq

inductive GrammarSymbol
  | terminal (t : Terminal)
  | nonterminal (n : Nonterminal)
  deriving DecidableEq

/-- What a text is read as. -/
inductive StartSymbol
  | script | expr
  deriving DecidableEq

/-- What can come next in a text: a terminal, or its end as `none`. -/
abbrev Lookahead := Option Terminal

def AddOp.terminal : AddOp → Terminal
  | .plus => .plus
  | .minus => .minus

def MulOp.terminal : MulOp → Terminal
  | .star => .star
  | .slash => .slash
  | .percent => .percent

def SignOp.terminal : SignOp → Terminal
  | .plus => .plus
  | .minus => .minus
  | .tilde => .tilde

namespace Terminal

/-- All terminals. Where two can match, the earlier one is taken. -/
def all : List Terminal :=
  [.number, .name, .string, .compOp, .equal, .plus, .minus, .star, .slash, .percent, .tilde,
    .lpar, .rpar, .comma, .newline]

theorem mem_all (t : Terminal) : t ∈ all := by cases t <;> decide

def label : Terminal → String
  | .number => "NUMBER"
  | .name => "NAME"
  | .string => "STRING"
  | .compOp => "COMP_OP"
  | .equal => "EQUAL"
  | .plus => "PLUS"
  | .minus => "MINUS"
  | .star => "STAR"
  | .slash => "SLASH"
  | .percent => "PERCENT"
  | .tilde => "TILDE"
  | .lpar => "LPAR"
  | .rpar => "RPAR"
  | .comma => "COMMA"
  | .newline => "_NL"

end Terminal

def Lookahead.label : Lookahead → String
  | some t => t.label
  | none => "$END"

namespace StartSymbol

def nonterminal : StartSymbol → Nonterminal
  | .script => .script
  | .expr => .expr

/-- Expressions on their own have no assignments and no line breaks. -/
def hasTerminal : StartSymbol → Terminal → Bool
  | .expr, .equal => false
  | .expr, .newline => false
  | _, _ => true

end StartSymbol
end ArithScript
