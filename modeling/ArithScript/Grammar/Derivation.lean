import ArithScript.Grammar.Production
import ArithScript.Grammar.Token
import ArithScript.Tree.Basic

/-!
Derivations of the script grammar and the concrete trees that stand for them.

A derivation is valid if each of its nodes applies its production. Its concrete tree keeps every
token except line breaks, and a node only where a production names a construct: chains of
categories, the lines of a script and the arguments after the first leave no node behind.
-/
namespace ArithScript

/-- A tree of productions over tokens. -/
inductive Derivation
  | leaf (token : Token)
  | node (production : Production) (children : List Derivation)

def Production.construct? : Production → Option Construct
  | .script .. => some .script
  | .assignment => some .assignment
  | .exprStatement => some .exprStatement
  | .compare | .add _ | .multiply _ => some .binary
  | .signed _ => some .unary
  | .callArgs => some .call
  | .argsNone | .args .. => some .argList
  | .paren => some .paren
  | _ => none

namespace Derivation

/-- The symbol that a derivation derives from. -/
def symbol : Derivation → GrammarSymbol
  | .leaf token => .terminal token.terminal
  | .node production _ => .nonterminal production.lhs

mutual

/-- Every node applies its production. -/
def Valid : Derivation → Prop
  | .leaf _ => True
  | .node production children => children.map symbol = production.rhs ∧ ValidAll children

def ValidAll : List Derivation → Prop
  | [] => True
  | d :: rest => Valid d ∧ ValidAll rest

end

mutual

def yield : Derivation → List Token
  | .leaf token => [token]
  | .node _ children => yieldAll children

def yieldAll : List Derivation → List Token
  | [] => []
  | d :: rest => yield d ++ yieldAll rest

end

/-- What a derivation contributes to the concrete tree: the text its tokens reach over, if it has
any, and the trees to put in its place. -/
structure Image where
  extent : Option Extent
  trees : List Tree

def Image.append (first second : Image) : Image where
  extent :=
    match first.extent, second.extent with
    | some a, some b => some ⟨a.start, b.stop⟩
    | some a, none => some a
    | none, b => b
  trees := first.trees ++ second.trees

/-- The image of a token. Line breaks leave no tree, but count for the extent. -/
def Image.ofToken (token : Token) : Image where
  extent := some ⟨token.start, token.stop⟩
  trees :=
    if token.terminal = .newline then []
    else [.token (.terminal token.terminal) token.text (some token.start) (some token.stop)]

def Image.wrap (production : Production) (inner : Image) : Image :=
  match production.construct? with
  | some construct => ⟨inner.extent, [.node (.construct construct) inner.extent inner.trees]⟩
  | none => inner

mutual

def image : Derivation → Image
  | .leaf token => Image.ofToken token
  | .node production children => (imageAll children).wrap production

def imageAll : List Derivation → Image
  | [] => ⟨none, []⟩
  | d :: rest => (image d).append (imageAll rest)

end

/-- The concrete tree of a derivation: the only tree of its image. -/
def tree (d : Derivation) : Tree :=
  match d.image.trees with
  | [tree] => tree
  | trees => .node (.construct .script) d.image.extent trees

end Derivation
end ArithScript
