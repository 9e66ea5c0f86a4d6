import Mathlib.Data.List.Basic
import ArithScript.Proofs.Grammar.Spelling
import ArithScript.Proofs.Tree.Subtrees

/-! The concrete trees that are programs, by a condition on each node alone, and the programs that
they mirror. -/
namespace ArithScript

def Kind.isPunctuation : Kind → Bool
  | .terminal .lpar | .terminal .comma | .terminal .rpar => true
  | _ => false

namespace Tree

mutual

/-- The texts of the tokens of a tree one after the other. -/
def spelling : Tree → String
  | .token _ text .. => text
  | .node _ _ children => spellingAll children

def spellingAll : List Tree → String
  | [] => ""
  | tree :: rest => spelling tree ++ spellingAll rest

end

def arguments (list : Tree) : List Tree := list.children.filter (!·.kind.isPunctuation)

/-- A node that programs have: no string and no parentheses; no operators but three; a sign only
right before a number; and only built-in functions, called by their names with as many arguments as
they take. -/
def Supported (tree : Tree) : Prop :=
  match tree.kind with
  | .terminal .string | .construct .paren => False
  | .construct .binary =>
    ∃ left op right, tree.children = [left, op, right] ∧
      op.kind ∈ [.terminal .plus, .terminal .minus, .terminal .star]
  | .construct .unary =>
    ∃ sign number, tree.children = [sign, number] ∧
      sign.kind ∈ [.terminal .plus, .terminal .minus] ∧ number.kind = .terminal .number ∧
      number.extent.start = sign.extent.stop
  | .construct .call =>
    ∃ callee list, tree.children = [callee, list] ∧ callee.kind = .terminal .name ∧
      (callee.spelling ∈ ["print", "abs"] ∧ list.arguments.length = 1 ∨
        callee.spelling ∈ ["max", "min", "pow"] ∧ list.arguments.length = 2)
  | _ => True

theorem mem_children_of_mem_arguments {t list : Tree} (h : t ∈ list.arguments) :
    t ∈ list.children :=
  List.mem_of_mem_filter h

/-- The expression that a tree mirrors: node for node, with the arguments of a call from left to
right, and a number, with its sign if it has one, by the decimal value of its spelling. -/
def asExpr (source : Source) (tree : Tree) : Expr :=
  match tree.kind with
  | .terminal .name => .ident tree.spelling (tree.location source)
  | .terminal .number | .construct .unary =>
    match readNumber tree.spelling with
    | some value => .number value (tree.location source)
    | none => .unknown
  | .construct .binary =>
    match _hc : tree.children with
    | [left, op, right] =>
      match Operator.ofSymbol? op.spelling with
      | some o => .binary o (left.asExpr source) (right.asExpr source) (tree.location source)
      | none => .unknown
    | _ => .unknown
  | .construct .call =>
    match _hc : tree.children with
    | [callee, list] =>
      match _ha : list.arguments with
      | [argument] =>
        match UnaryBuiltin.ofName? callee.spelling with
        | some f => .call1 f (argument.asExpr source) (tree.location source)
        | none => .unknown
      | [first, second] =>
        match BinaryBuiltin.ofName? callee.spelling with
        | some f => .call2 f (first.asExpr source) (second.asExpr source) (tree.location source)
        | none => .unknown
      | _ => .unknown
    | _ => .unknown
  | _ => .unknown
termination_by tree.size
decreasing_by
  · exact size_lt_of_mem_children (by simp [_hc])
  · exact size_lt_of_mem_children (by simp [_hc])
  all_goals
    refine Nat.lt_trans (size_lt_of_mem_children ?_)
      (size_lt_of_mem_children (t := list) (by simp [_hc]))
    exact mem_children_of_mem_arguments (by simp [_ha])

/-- The statement that a tree mirrors. -/
def asStmt (source : Source) (tree : Tree) : Stmt :=
  match tree.kind, tree.children with
  | .construct .assignment, [target, _, value] =>
    .define target.spelling (value.asExpr source) (tree.location source)
  | .construct .exprStatement, [e] => .expr (e.asExpr source) (tree.location source)
  | _, _ => .unknown

theorem forall_subtrees_ofToken {P : Tree → Prop} (token : Token) :
    (∀ t ∈ (ofToken token).subtrees, P t) ↔ P (ofToken token) :=
  List.forall_mem_singleton

theorem supported_ofToken {token : Token} (h : token.terminal ≠ .string) :
    (ofToken token).Supported := by
  rw [Supported, kind_ofToken]
  revert h
  cases token.terminal <;> simp

theorem spelling_ofToken (token : Token) : (ofToken token).spelling = token.text := rfl

variable {source : Source} {tree : Tree}

theorem supported_binary {left op right : Tree} (hk : tree.kind = .construct .binary)
    (hc : tree.children = [left, op, right]) :
    tree.Supported ↔ op.kind ∈ [.terminal .plus, .terminal .minus, .terminal .star] := by
  simp [Supported, hk, hc]

theorem supported_unary {sign number : Tree} (hk : tree.kind = .construct .unary)
    (hc : tree.children = [sign, number]) :
    tree.Supported ↔ sign.kind ∈ [.terminal .plus, .terminal .minus] ∧
      number.kind = .terminal .number ∧ number.extent.start = sign.extent.stop := by
  simp [Supported, hk, hc]

theorem supported_call {callee list : Tree} (hk : tree.kind = .construct .call)
    (hc : tree.children = [callee, list]) :
    tree.Supported ↔ callee.kind = .terminal .name ∧
      (callee.spelling ∈ ["print", "abs"] ∧ list.arguments.length = 1 ∨
        callee.spelling ∈ ["max", "min", "pow"] ∧ list.arguments.length = 2) := by
  simp [Supported, hk, hc]

theorem asExpr_name (hk : tree.kind = .terminal .name) :
    tree.asExpr source = .ident tree.spelling (tree.location source) := by
  rw [asExpr, hk]

theorem asExpr_literal_eq (hk : tree.kind = .terminal .number ∨ tree.kind = .construct .unary) :
    tree.asExpr source =
      match readNumber tree.spelling with
      | some value => .number value (tree.location source)
      | none => .unknown := by
  rcases hk with hk | hk
  · rw [asExpr]
    simp only [hk]
  · rw [asExpr]
    simp only [hk]

theorem asExpr_binary_eq (hk : tree.kind = .construct .binary) :
    tree.asExpr source =
      match tree.children with
      | [left, op, right] =>
        match Operator.ofSymbol? op.spelling with
        | some o => .binary o (left.asExpr source) (right.asExpr source) (tree.location source)
        | none => .unknown
      | _ => .unknown := by
  rw [asExpr]
  simp only [hk]
  split
  · rename_i left op right hc
    simp only [hc]
  · simp_all

theorem asExpr_call_eq (hk : tree.kind = .construct .call) :
    tree.asExpr source =
      match tree.children with
      | [callee, list] =>
        match list.arguments with
        | [argument] =>
          match UnaryBuiltin.ofName? callee.spelling with
          | some f => .call1 f (argument.asExpr source) (tree.location source)
          | none => .unknown
        | [first, second] =>
          match BinaryBuiltin.ofName? callee.spelling with
          | some f => .call2 f (first.asExpr source) (second.asExpr source) (tree.location source)
          | none => .unknown
        | _ => .unknown
      | _ => .unknown := by
  rw [asExpr]
  simp only [hk]
  split
  · rename_i callee list hc
    simp only [hc]
    split
    · rename_i argument ha
      simp only [ha]
    · rename_i first second ha
      simp only [ha]
    · simp_all
  · simp_all

theorem asExpr_other (hn : tree.kind ≠ .terminal .number) (hi : tree.kind ≠ .terminal .name)
    (hc : tree.kind ≠ .construct .call) (hu : tree.kind ≠ .construct .unary)
    (hb : tree.kind ≠ .construct .binary) : tree.asExpr source = .unknown := by
  rw [asExpr]
  split <;> first | contradiction | rfl

theorem asExpr_literal (hk : tree.kind = .terminal .number ∨ tree.kind = .construct .unary)
    {value : Binary64} (hv : readNumber tree.spelling = some value) :
    tree.asExpr source = .number value (tree.location source) := by
  rw [asExpr_literal_eq hk, hv]

theorem asExpr_binary {left op right : Tree} {o : Operator} (hk : tree.kind = .construct .binary)
    (hc : tree.children = [left, op, right]) (ho : Operator.ofSymbol? op.spelling = some o) :
    tree.asExpr source =
      .binary o (left.asExpr source) (right.asExpr source) (tree.location source) := by
  simp only [asExpr_binary_eq hk, hc, ho]

theorem asExpr_call1 {callee list argument : Tree} {f : UnaryBuiltin}
    (hk : tree.kind = .construct .call) (hc : tree.children = [callee, list])
    (ha : list.arguments = [argument]) (hf : UnaryBuiltin.ofName? callee.spelling = some f) :
    tree.asExpr source = .call1 f (argument.asExpr source) (tree.location source) := by
  simp only [asExpr_call_eq hk, hc, ha, hf]

theorem asExpr_call2 {callee list first second : Tree} {f : BinaryBuiltin}
    (hk : tree.kind = .construct .call) (hc : tree.children = [callee, list])
    (ha : list.arguments = [first, second])
    (hf : BinaryBuiltin.ofName? callee.spelling = some f) :
    tree.asExpr source =
      .call2 f (first.asExpr source) (second.asExpr source) (tree.location source) := by
  simp only [asExpr_call_eq hk, hc, ha, hf]

end Tree
end ArithScript
