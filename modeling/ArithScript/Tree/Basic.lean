import ArithScript.Grammar.Symbol
import ArithScript.Text.Source

/-!
Concrete trees: labelled nodes over labelled tokens, each with the extent of text it covers.

A tree read from a text has all its extents recorded. One built by hand may leave them out: a
token then starts at 0 and is as long as its text, and a node reaches from its first to its last
token. The labels of such a tree are arbitrary.
-/
namespace ArithScript

inductive Construct
  | script | assignment | exprStatement | binary | unary | call | argList | paren
  deriving DecidableEq

/-- The label of a node or token. -/
inductive Kind
  | terminal (t : Terminal)
  | construct (c : Construct)
  | other (name : String)
  deriving DecidableEq

/-- A concrete tree. -/
inductive Tree
  | token (kind : Kind) (text : String) (start stop : Option Int)
  | node (kind : Kind) (extent : Option Extent) (children : List Tree)

namespace Construct

def all : List Construct :=
  [.script, .assignment, .exprStatement, .binary, .unary, .call, .argList, .paren]

def label : Construct → String
  | .script => "script"
  | .assignment => "assign_stmt"
  | .exprStatement => "expr_stmt"
  | .binary => "binary_expr"
  | .unary => "unary_expr"
  | .call => "call_expr"
  | .argList => "arg_list"
  | .paren => "paren_expr"

end Construct

namespace Kind

def name : Kind → String
  | .terminal t => t.label
  | .construct c => c.label
  | .other name => name

def ofName (name : String) : Kind :=
  match Terminal.all.find? (·.label = name), Construct.all.find? (·.label = name) with
  | some t, _ => .terminal t
  | none, some c => .construct c
  | none, none => .other name

theorem name_ofName (name : String) : (ofName name).name = name := by
  unfold ofName
  split
  next t _ found => simpa [Kind.name] using List.find?_some found
  next c _ found => simpa [Kind.name] using List.find?_some found
  next => rfl

end Kind

namespace Tree

def kind : Tree → Kind
  | .token kind .. => kind
  | .node kind .. => kind

def children : Tree → List Tree
  | .token .. => []
  | .node _ _ children => children

/-- The extent of a token with the given text and recorded offsets. -/
def tokenExtent (text : String) (start stop : Option Int) : Extent :=
  let first := start.getD 0
  ⟨first, stop.getD (first + text.length)⟩

mutual

def size : Tree → Nat
  | .token .. => 1
  | .node _ _ children => 1 + sizeAll children

def sizeAll : List Tree → Nat
  | [] => 0
  | tree :: rest => size tree + sizeAll rest

end

theorem size_pos (tree : Tree) : 0 < tree.size := by
  cases tree <;> simp only [size] <;> omega

theorem sizeAll_children_lt (tree : Tree) : sizeAll tree.children < tree.size := by
  cases tree <;> simp only [children, sizeAll, size] <;> omega

theorem sizeAll_append (xs ys : List Tree) : sizeAll (xs ++ ys) = sizeAll xs + sizeAll ys := by
  induction xs with
  | nil => simp [sizeAll]
  | cons x xs ih => simp [sizeAll, ih, Nat.add_assoc]

theorem size_lt_of_mem_children {t tree : Tree} (h : t ∈ tree.children) : t.size < tree.size := by
  have hchildren := sizeAll_children_lt tree
  obtain ⟨before, after, hsplit⟩ := List.append_of_mem h
  rw [hsplit, sizeAll_append, sizeAll] at hchildren
  omega

theorem sizeAll_reverse (xs : List Tree) : sizeAll xs.reverse = sizeAll xs := by
  induction xs with
  | nil => rfl
  | cons x xs ih => simp [sizeAll_append, sizeAll, ih, Nat.add_comm]

/-- The side of a tree at which a search begins. -/
inductive Side
  | left | right

/-- The trees in the order in which a search from the given side meets them. -/
def Side.order : Side → List Tree → List Tree
  | .left, trees => trees
  | .right, trees => trees.reverse

theorem sizeAll_order (side : Side) (trees : List Tree) :
    sizeAll (side.order trees) = sizeAll trees := by
  cases side
  · rfl
  · exact sizeAll_reverse trees

/-- The token met first when the trees are searched in turn, each from the given side. -/
def edgeToken? (side : Side) : List Tree → Option Tree
  | [] => none
  | .token kind text start stop :: _ => some (.token kind text start stop)
  | .node _ _ children :: rest =>
    edgeToken? side (side.order children ++ rest)
termination_by trees => sizeAll trees
decreasing_by simp only [sizeAll_append, sizeAll_order, sizeAll, size]; omega

/-- The part of the text that a tree covers. -/
def extent : Tree → Extent
  | .token _ text start stop => tokenExtent text start stop
  | .node _ (some extent) _ => extent
  | .node kind none children =>
    let tree := Tree.node kind none children
    match edgeToken? .left [tree], edgeToken? .right [tree] with
    | some (.token _ text start stop), some (.token _ text' start' stop') =>
      ⟨(tokenExtent text start stop).start, (tokenExtent text' start' stop').stop⟩
    | _, _ => ⟨0, 0⟩

end Tree
end ArithScript
