import ArithScript.Numeric.Notation
import ArithScript.Text.Span

/-!
Programs: lists of statements over expressions with numbers, names, calls of built-in functions
and binary operators.

Every node can carry the place it was read from, which does not count for equality. A node of no
known form may stand anywhere in a program built by hand.
-/
namespace ArithScript

inductive Operator
  | add | sub | mul
  deriving DecidableEq

inductive UnaryBuiltin
  | print | abs
  deriving DecidableEq

inductive BinaryBuiltin
  | max | min | pow
  deriving DecidableEq

/-- Expressions, each with the place it was read from if it is known. -/
inductive Expr
  | number (value : Binary64) (loc : Option Span)
  | ident (name : String) (loc : Option Span)
  | call1 (function : UnaryBuiltin) (argument : Expr) (loc : Option Span)
  | call2 (function : BinaryBuiltin) (first second : Expr) (loc : Option Span)
  | binary (op : Operator) (left right : Expr) (loc : Option Span)
  | unknown
  deriving DecidableEq

/-- Statements: the definition of a name, or an expression. -/
inductive Stmt
  | define (name : String) (value : Expr) (loc : Option Span)
  | expr (expr : Expr) (loc : Option Span)
  | unknown
  deriving DecidableEq

abbrev Program := List Stmt

namespace Operator

def all : List Operator := [.add, .sub, .mul]

def symbol : Operator → String
  | .add => "+"
  | .sub => "-"
  | .mul => "*"

def ofSymbol? (symbol : String) : Option Operator := all.find? (·.symbol = symbol)

end Operator

namespace UnaryBuiltin

def all : List UnaryBuiltin := [.print, .abs]

def name : UnaryBuiltin → String
  | .print => "print"
  | .abs => "abs"

def ofName? (name : String) : Option UnaryBuiltin := all.find? (·.name = name)

end UnaryBuiltin

namespace BinaryBuiltin

def all : List BinaryBuiltin := [.max, .min, .pow]

def name : BinaryBuiltin → String
  | .max => "max"
  | .min => "min"
  | .pow => "pow"

def ofName? (name : String) : Option BinaryBuiltin := all.find? (·.name = name)

end BinaryBuiltin

/-- Equality up to places, by the values of numbers. A node of no known form equals nothing. -/
def Expr.same : Expr → Expr → Bool
  | .number x _, .number y _ => x.sameValue y
  | .ident x _, .ident y _ => x = y
  | .call1 f x _, .call1 g y _ => f = g && same x y
  | .call2 f x₁ x₂ _, .call2 g y₁ y₂ _ => f = g && same x₁ y₁ && same x₂ y₂
  | .binary op x₁ x₂ _, .binary op' y₁ y₂ _ => op = op' && same x₁ y₁ && same x₂ y₂
  | _, _ => false

/-- Equality up to places, by the values of numbers. -/
def Stmt.same : Stmt → Stmt → Bool
  | .define x e _, .define y e' _ => x = y && e.same e'
  | .expr e _, .expr e' _ => e.same e'
  | _, _ => false

/-- The same statements in the same order. -/
def Program.same : Program → Program → Bool
  | [], [] => true
  | s :: rest, s' :: rest' => s.same s' && same rest rest'
  | _, _ => false

end ArithScript
