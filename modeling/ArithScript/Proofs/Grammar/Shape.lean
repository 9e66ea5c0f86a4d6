import Mathlib.Tactic.Common
import ArithScript.Proofs.Grammar.Rule

/-! The concrete trees that a text can be read as, by the constructs alone. Chains of categories
leave no node behind, so an expression has a level that says which categories it can stand for. -/
namespace ArithScript

def Tree.ofToken (token : Token) : Tree :=
  .token (.terminal token.terminal) token.text (some token.start) (some token.stop)

def Tree.spanning (construct : Construct) (tokens : List Token) (children : List Tree) : Tree :=
  .node (.construct construct) (Token.extent? tokens) children

theorem Tree.kind_ofToken (token : Token) : (ofToken token).kind = .terminal token.terminal := rfl

theorem Tree.children_spanning (construct : Construct) (tokens : List Token) (children : List Tree) :
    (spanning construct tokens children).children = children := rfl

/-- Levels of expressions, the tightest first. -/
inductive Tier
  | atom | call | factor | product | sum | comparison | expr
  deriving DecidableEq

namespace Tier

def nonterminal : Tier → Nonterminal
  | .atom => .atom
  | .call => .call
  | .factor => .factor
  | .product => .product
  | .sum => .sum
  | .comparison => .comparison
  | .expr => .expr

def rank : Tier → Nat
  | .atom => 0
  | .call => 1
  | .factor => 2
  | .product => 3
  | .sum => 4
  | .comparison => 5
  | .expr => 6

def below : Tier → Tier
  | .atom | .call => .atom
  | .factor => .call
  | .product => .factor
  | .sum => .product
  | .comparison => .sum
  | .expr => .comparison

/-- The operators that group to the left on a level, with right operands of the level below. -/
def operators : Tier → List Terminal
  | .product => [.star, .slash, .percent]
  | .sum => [.plus, .minus]
  | .comparison => [.compOp]
  | _ => []

end Tier

/-- Consecutive tokens with the one tree that they leave. -/
structure Piece where
  tokens : List Token
  tree : Tree

/-- The pieces occur among the tokens one after the other. -/
inductive Spread : List Piece → List Token → Prop
  | nil : Spread [] []
  | skip {pieces : List Piece} {tokens : List Token} (token : Token)
      (rest : Spread pieces tokens) : Spread pieces (token :: tokens)
  | piece {pieces : List Piece} {tokens : List Token} (p : Piece)
      (rest : Spread pieces tokens) : Spread (p :: pieces) (p.tokens ++ tokens)

namespace Spread
variable {pieces more : List Piece} {tokens tokens' : List Token}

theorem one (p : Piece) : Spread [p] p.tokens := by
  simpa using piece p nil

theorem none (tokens : List Token) : Spread [] tokens := by
  induction tokens with
  | nil => exact nil
  | cons token tokens ih => exact skip token ih

theorem append (h : Spread pieces tokens) (h' : Spread more tokens') :
    Spread (pieces ++ more) (tokens ++ tokens') := by
  induction h with
  | nil => exact h'
  | skip token rest ih => exact skip token ih
  | piece p rest ih =>
    rw [List.append_assoc]
    exact piece p ih

theorem flatMap {α : Type} {f : α → Piece} {g : α → List Token} {parts : List α}
    (h : ∀ x ∈ parts, Spread [f x] (g x)) : Spread (parts.map f) (parts.flatMap g) := by
  induction parts with
  | nil => exact nil
  | cons x parts ih =>
    have hlater := ih fun y hy => h y (List.mem_cons_of_mem _ hy)
    rw [List.map_cons, List.flatMap_cons]
    exact (h x List.mem_cons_self).append hlater

theorem within (h : Spread pieces tokens) {p : Piece} (hp : p ∈ pieces) :
    p.tokens <:+: tokens := by
  induction h with
  | nil => contradiction
  | skip token rest ih => exact (ih hp).trans (List.infix_cons (List.infix_refl _))
  | @piece _ tokens q rest ih =>
    rcases List.mem_cons.mp hp with rfl | hp
    · exact (List.prefix_append ..).isInfix
    · exact (ih hp).trans (List.suffix_append ..).isInfix

end Spread

/-- The parts of an argument list: parentheses, arguments with the commas between them, and perhaps
a comma after the last one. -/
inductive ArgumentList
  | none (left right : Token)
  | some (left : Token) (first : Piece) (later : List (Token × Piece)) (trailing : Option Token)
      (right : Token)

namespace ArgumentList

def pieces : ArgumentList → List Piece
  | .none .. => []
  | .some _ first later _ _ => first :: later.map Prod.snd

def tokens : ArgumentList → List Token
  | .none left right => [left, right]
  | .some left first later trailing right =>
    left :: (first.tokens ++ (later.flatMap (fun x => x.1 :: x.2.tokens) ++
      (trailing.toList ++ [right])))

def laterTrees (first : Piece) (later : List (Token × Piece)) (trailing : Option Token)
    (right : Token) : List Tree :=
  first.tree :: (later.flatMap (fun x => [.ofToken x.1, x.2.tree]) ++
    (trailing.toList.map .ofToken ++ [.ofToken right]))

def children : ArgumentList → List Tree
  | .none left right => [.ofToken left, .ofToken right]
  | .some left first later trailing right =>
    .ofToken left :: laterTrees first later trailing right

def tree (list : ArgumentList) : Tree := .spanning .argList list.tokens list.children

def Punctuated : ArgumentList → Prop
  | .none left right => left.terminal = .lpar ∧ right.terminal = .rpar
  | .some left _ later trailing right =>
    left.terminal = .lpar ∧ (∀ x ∈ later, x.1.terminal = .comma) ∧
      (∀ comma ∈ trailing, comma.terminal = .comma) ∧ right.terminal = .rpar

theorem tokens_ne_nil (list : ArgumentList) : list.tokens ≠ [] := by
  cases list <;> simp [tokens]

theorem spread (list : ArgumentList) : Spread list.pieces list.tokens := by
  cases list with
  | none left right => exact .none _
  | some left first later trailing right =>
    have hlater : Spread (later.map Prod.snd) (later.flatMap fun x => x.1 :: x.2.tokens) :=
      .flatMap fun x _ => .skip x.1 (.one x.2)
    have h := Spread.skip left (.piece first (hlater.append (.none (trailing.toList ++ [right]))))
    rwa [List.append_nil] at h

theorem tokens_within {list : ArgumentList} {p : Piece} (hp : p ∈ list.pieces) :
    p.tokens <:+: list.tokens :=
  list.spread.within hp

end ArgumentList

/-- The tree is that of an expression of the level over the tokens. -/
inductive Shaped : Tier → List Token → Tree → Prop
  | operand {n : Tier} {token : Token} (ht : token.terminal ∈ [.number, .name, .string]) :
      Shaped n [token] (.ofToken token)
  | paren {n : Tier} {left right : Token} {tokens : List Token} {tree : Tree}
      (hl : left.terminal = .lpar) (hr : right.terminal = .rpar)
      (inner : Shaped .expr tokens tree) :
      Shaped n (left :: (tokens ++ [right]))
        (.spanning .paren (left :: (tokens ++ [right])) [.ofToken left, tree, .ofToken right])
  | call {n : Tier} {tokens : List Token} {callee : Tree} {list : ArgumentList}
      (hn : Tier.call.rank ≤ n.rank) (function : Shaped .call tokens callee)
      (hp : list.Punctuated) (arguments : ∀ p ∈ list.pieces, Shaped .expr p.tokens p.tree) :
      Shaped n (tokens ++ list.tokens) (.spanning .call (tokens ++ list.tokens) [callee, list.tree])
  | signed {n : Tier} {sign : Token} {tokens : List Token} {tree : Tree}
      (hn : Tier.factor.rank ≤ n.rank) (hs : sign.terminal ∈ [.plus, .minus, .tilde])
      (inner : Shaped .factor tokens tree) :
      Shaped n (sign :: tokens) (.spanning .unary (sign :: tokens) [.ofToken sign, tree])
  | infixed {n m : Tier} {op : Token} {tokens tokens' : List Token} {tree tree' : Tree}
      (hn : m.rank ≤ n.rank) (ho : op.terminal ∈ m.operators) (left : Shaped m tokens tree)
      (right : Shaped m.below tokens' tree') :
      Shaped n (tokens ++ op :: tokens')
        (.spanning .binary (tokens ++ op :: tokens') [tree, .ofToken op, tree'])

/-- The tree is that of a statement over the tokens. -/
inductive ShapedStatement : List Token → Tree → Prop
  | assignment {name sign : Token} {tokens : List Token} {tree : Tree}
      (hn : name.terminal = .name) (hs : sign.terminal = .equal) (value : Shaped .expr tokens tree) :
      ShapedStatement (name :: sign :: tokens)
        (.spanning .assignment (name :: sign :: tokens) [.ofToken name, .ofToken sign, tree])
  | expr {tokens : List Token} {tree : Tree} (value : Shaped .expr tokens tree) :
      ShapedStatement tokens (.spanning .exprStatement tokens [tree])

/-- The parts of a script: line breaks in front, finished lines, and a line that is not finished. -/
structure ScriptParts where
  leading : Option Token
  lines : List (Piece × Token)
  last : Option Piece

namespace ScriptParts

def statements (parts : ScriptParts) : List Piece := parts.lines.map Prod.fst ++ parts.last.toList

def tokens (parts : ScriptParts) : List Token :=
  parts.leading.toList ++ (parts.lines.flatMap (fun x => x.1.tokens ++ [x.2]) ++
    parts.last.elim [] Piece.tokens)

def tree (parts : ScriptParts) : Tree :=
  .spanning .script parts.tokens (parts.statements.map Piece.tree)

theorem spread (parts : ScriptParts) : Spread parts.statements parts.tokens := by
  have hlines : Spread (parts.lines.map Prod.fst)
      (parts.lines.flatMap fun x => x.1.tokens ++ [x.2]) :=
    .flatMap fun x _ => .append (.one x.1) (.none [x.2])
  have hlast : Spread parts.last.toList (parts.last.elim [] Piece.tokens) := by
    cases parts.last with
    | none => exact .nil
    | some p => exact .one p
  exact (Spread.none parts.leading.toList).append (hlines.append hlast)

theorem tokens_within {parts : ScriptParts} {p : Piece} (hp : p ∈ parts.statements) :
    p.tokens <:+: parts.tokens :=
  parts.spread.within hp

/-- The lines are statements, and line breaks stand between them. -/
structure Lined (parts : ScriptParts) : Prop where
  leading : ∀ token ∈ parts.leading, token.terminal = .newline
  breaks : ∀ x ∈ parts.lines, x.2.terminal = .newline
  statements : ∀ p ∈ parts.statements, ShapedStatement p.tokens p.tree

def one (p : Piece) : ScriptParts := ⟨none, [], some p⟩

theorem lined_one {p : Piece} (h : ShapedStatement p.tokens p.tree) : (one p).Lined := by
  refine ⟨by simp [one], by simp [one], ?_⟩
  simpa [one, statements] using h

theorem tokens_one (p : Piece) : (one p).tokens = p.tokens := rfl

end ScriptParts

namespace Shaped
variable {n m : Tier} {tokens : List Token} {tree : Tree}

theorem mono (h : Shaped n tokens tree) (hn : n.rank ≤ m.rank) : Shaped m tokens tree := by
  cases h with
  | operand ht => exact operand ht
  | paren hl hr inner => exact paren hl hr inner
  | call hn' function hp arguments => exact call (Nat.le_trans hn' hn) function hp arguments
  | signed hn' hs inner => exact signed (Nat.le_trans hn' hn) hs inner
  | infixed hn' ho left right => exact infixed (Nat.le_trans hn' hn) ho left right

theorem tokens_ne_nil (h : Shaped n tokens tree) : tokens ≠ [] := by
  cases h with
  | call => simp [ArgumentList.tokens_ne_nil]
  | _ => simp

theorem eq_ofToken {token : Token} (h : Shaped n [token] tree) :
    tree = .ofToken token ∧ token.terminal ∈ [.number, .name, .string] := by
  generalize hts : [token] = ts at h
  cases h with
  | operand ht =>
    obtain rfl := List.singleton_inj.mp hts
    exact ⟨rfl, ht⟩
  | paren => simp at hts
  | call hn function hp arguments =>
    have hl := congrArg List.length hts
    have := List.length_pos_iff.mpr function.tokens_ne_nil
    rename_i list
    cases list with
    | none left right => simp [ArgumentList.tokens] at hl
    | some left first later trailing right =>
      simp [ArgumentList.tokens] at hl
      omega
  | signed hn hs inner =>
    obtain rfl := (List.cons.inj hts).2
    exact absurd rfl inner.tokens_ne_nil
  | infixed hn ho left right =>
    have hl := congrArg List.length hts
    have := List.length_pos_iff.mpr left.tokens_ne_nil
    simp at hl
    omega

end Shaped

theorem ShapedStatement.tokens_ne_nil {tokens : List Token} {tree : Tree}
    (h : ShapedStatement tokens tree) : tokens ≠ [] := by
  cases h with
  | assignment => simp
  | expr value => exact value.tokens_ne_nil

end ArithScript
