import Mathlib.Data.List.Induction
import ArithScript.Proofs.Grammar.Image
import ArithScript.Proofs.Grammar.Shape

/-! Every derivation leaves a tree of the shape of its category, and every tree of a shape is left
by a derivation. -/
namespace ArithScript

def Token.leaves (token : Token) : List Tree :=
  if token.terminal = .newline then [] else [.ofToken token]

def Production.leaves (p : Production) (tokens : List Token) (trees : List Tree) : List Tree :=
  match p.construct? with
  | some construct => [.spanning construct tokens trees]
  | none => trees

/-- A relation of symbols, tokens and trees, along a list of symbols. -/
inductive Along (R : GrammarSymbol → List Token → List Tree → Prop) :
    List GrammarSymbol → List Token → List Tree → Prop
  | nil : Along R [] [] []
  | cons {x : GrammarSymbol} {xs : List GrammarSymbol} {tokens tokens' : List Token}
      {trees trees' : List Tree} (first : R x tokens trees) (rest : Along R xs tokens' trees') :
      Along R (x :: xs) (tokens ++ tokens') (trees ++ trees')

/-- Some derivation of the symbol has the tokens and leaves the trees. -/
def Derivable (x : GrammarSymbol) (tokens : List Token) (trees : List Tree) : Prop :=
  ∃ d : Derivation, d.Valid ∧ d.symbol = x ∧ d.yield = tokens ∧ d.image.trees = trees

namespace Along
variable {R : GrammarSymbol → List Token → List Tree → Prop} {x : GrammarSymbol}
  {xs ys : List GrammarSymbol} {tokens tokens' : List Token} {trees trees' : List Tree}

theorem append (h : Along R xs tokens trees) (h' : Along R ys tokens' trees') :
    Along R (xs ++ ys) (tokens ++ tokens') (trees ++ trees') := by
  induction h with
  | nil => exact h'
  | cons first rest ih =>
    rw [List.append_assoc, List.append_assoc]
    exact cons first ih

theorem one (h : R x tokens trees) : Along R [x] tokens trees := by
  simpa using cons h nil

theorem eq_nil (h : Along R [] tokens trees) : tokens = [] ∧ trees = [] := by
  cases h
  exact ⟨rfl, rfl⟩

theorem of_one (h : Along R [x] tokens trees) : R x tokens trees := by
  cases h with
  | cons first rest =>
    obtain ⟨rfl, rfl⟩ := rest.eq_nil
    simpa using first

theorem of_cons (h : Along R (x :: xs) tokens trees) :
    ∃ ts us ts' us', R x ts us ∧ Along R xs ts' us' ∧ tokens = ts ++ ts' ∧ trees = us ++ us' := by
  cases h with
  | cons first rest => exact ⟨_, _, _, _, first, rest, rfl, rfl⟩

theorem of_append (h : Along R (xs ++ ys) tokens trees) :
    ∃ ts us ts' us', Along R xs ts us ∧ Along R ys ts' us' ∧ tokens = ts ++ ts' ∧
      trees = us ++ us' := by
  induction xs generalizing tokens trees with
  | nil => exact ⟨[], [], tokens, trees, nil, h, rfl, rfl⟩
  | cons x xs ih =>
    obtain ⟨ts, us, ts', us', first, rest, rfl, rfl⟩ := of_cons h
    obtain ⟨vs, ws, vs', ws', hxs, hys, rfl, rfl⟩ := ih rest
    exact ⟨ts ++ vs, us ++ ws, vs', ws', cons first hxs, hys, by simp, by simp⟩

end Along

namespace Derivable
variable {x : GrammarSymbol} {xs : List GrammarSymbol} {tokens : List Token} {trees : List Tree}

theorem leaf (token : Token) : Derivable (.terminal token.terminal) [token] token.leaves :=
  ⟨.leaf token, trivial, rfl, rfl, rfl⟩

theorem exists_derivations (h : Along Derivable xs tokens trees) :
    ∃ ds : List Derivation, Derivation.ValidAll ds ∧ ds.map Derivation.symbol = xs ∧
      Derivation.yieldAll ds = tokens ∧ (Derivation.imageAll ds).trees = trees := by
  induction h with
  | nil => exact ⟨[], trivial, rfl, rfl, rfl⟩
  | cons first rest ih =>
    obtain ⟨d, hv, rfl, rfl, rfl⟩ := first
    obtain ⟨ds, hvs, rfl, rfl, rfl⟩ := ih
    exact ⟨d :: ds, ⟨hv, hvs⟩, rfl, rfl, rfl⟩

theorem image_node {p : Production} {ds : List Derivation} (hv : Derivation.ValidAll ds) :
    (Derivation.node p ds).image.trees =
      p.leaves (Derivation.yieldAll ds) (Derivation.imageAll ds).trees := by
  have hextent := (Derivation.image_parseTreesAll ds hv).2
  cases hc : p.construct? with
  | none => simp [Derivation.image, Derivation.Image.wrap, Production.leaves, hc]
  | some construct =>
    simp [Derivation.image, Derivation.Image.wrap, Production.leaves, hc, Tree.spanning, hextent]

theorem node (p : Production) (h : Along Derivable p.rhs tokens trees) :
    Derivable (.nonterminal p.lhs) tokens (p.leaves tokens trees) := by
  obtain ⟨ds, hv, hs, rfl, rfl⟩ := exists_derivations h
  exact ⟨.node p ds, ⟨hs, hv⟩, rfl, rfl, image_node hv⟩

/-- A relation that holds of tokens and is kept by productions holds of all that is derived. -/
theorem induct {R : GrammarSymbol → List Token → List Tree → Prop}
    (hleaf : ∀ token : Token, R (.terminal token.terminal) [token] token.leaves)
    (hnode : ∀ (p : Production) (tokens : List Token) (trees : List Tree),
      Along R p.rhs tokens trees → R (.nonterminal p.lhs) tokens (p.leaves tokens trees))
    (h : Derivable x tokens trees) : R x tokens trees := by
  obtain ⟨d, hv, rfl, rfl, rfl⟩ := h
  exact one d hv
where
  one : ∀ d : Derivation, d.Valid → R d.symbol d.yield d.image.trees
    | .leaf token, _ => hleaf token
    | .node p ds, hv => by
      rw [image_node hv.2]
      refine hnode p _ _ ?_
      rw [← hv.1]
      exact all ds hv.2
  all : ∀ ds : List Derivation, Derivation.ValidAll ds →
      Along R (ds.map Derivation.symbol) (Derivation.yieldAll ds) (Derivation.imageAll ds).trees
    | [], _ => .nil
    | d :: ds, hv => .cons (one d hv.1) (all ds hv.2)

end Derivable

def ShapedOne (n : Tier) (tokens : List Token) (trees : List Tree) : Prop :=
  ∃ tree, Shaped n tokens tree ∧ trees = [tree]

def ShapedMore (tokens : List Token) (trees : List Tree) : Prop :=
  ∃ later : List (Token × Piece),
    (∀ x ∈ later, x.1.terminal = .comma ∧ Shaped .expr x.2.tokens x.2.tree) ∧
    tokens = later.flatMap (fun x => x.1 :: x.2.tokens) ∧
    trees = later.flatMap (fun x => [.ofToken x.1, x.2.tree])

def ShapedLines (tokens : List Token) (trees : List Tree) : Prop :=
  ∃ lines : List (Piece × Token),
    (∀ x ∈ lines, ShapedStatement x.1.tokens x.1.tree ∧ x.2.terminal = .newline) ∧
    tokens = lines.flatMap (fun x => x.1.tokens ++ [x.2]) ∧
    trees = lines.map fun x => x.1.tree

def Shape : GrammarSymbol → List Token → List Tree → Prop
  | .terminal t, tokens, trees =>
    ∃ token : Token, token.terminal = t ∧ tokens = [token] ∧ trees = token.leaves
  | .nonterminal .script, tokens, trees =>
    ∃ parts : ScriptParts, parts.Lined ∧ tokens = parts.tokens ∧ trees = [parts.tree]
  | .nonterminal .lines, tokens, trees => ShapedLines tokens trees
  | .nonterminal .statement, tokens, trees | .nonterminal .assignment, tokens, trees
  | .nonterminal .exprStatement, tokens, trees =>
    ∃ tree, ShapedStatement tokens tree ∧ trees = [tree]
  | .nonterminal .argList, tokens, trees =>
    ∃ list : ArgumentList, list.Punctuated ∧ (∀ p ∈ list.pieces, Shaped .expr p.tokens p.tree) ∧
      tokens = list.tokens ∧ trees = [list.tree]
  | .nonterminal .more, tokens, trees => ShapedMore tokens trees
  | .nonterminal .atom, tokens, trees => ShapedOne .atom tokens trees
  | .nonterminal .call, tokens, trees => ShapedOne .call tokens trees
  | .nonterminal .factor, tokens, trees => ShapedOne .factor tokens trees
  | .nonterminal .product, tokens, trees => ShapedOne .product tokens trees
  | .nonterminal .sum, tokens, trees => ShapedOne .sum tokens trees
  | .nonterminal .comparison, tokens, trees => ShapedOne .comparison tokens trees
  | .nonterminal .expr, tokens, trees => ShapedOne .expr tokens trees

namespace Shape
variable {tokens : List Token} {trees : List Tree} {t : Terminal}

theorem of_terminal (ht : t ≠ .newline) (h : Shape (.terminal t) tokens trees) :
    ∃ token : Token, token.terminal = t ∧ tokens = [token] ∧ trees = [.ofToken token] := by
  obtain ⟨token, rfl, rfl, rfl⟩ := h
  exact ⟨token, rfl, rfl, if_neg ht⟩

theorem of_nonterminal {n : Tier} (h : Shape (.nonterminal n.nonterminal) tokens trees) :
    ShapedOne n tokens trees := by
  cases n <;> exact h

theorem chain {n m : Tier} (hn : n.rank ≤ m.rank)
    (h : Along Shape [.nonterminal n.nonterminal] tokens trees) : ShapedOne m tokens trees := by
  obtain ⟨tree, hs, rfl⟩ := of_nonterminal h.of_one
  exact ⟨tree, hs.mono hn, rfl⟩

theorem operand (ht : t ∈ [.number, .name, .string])
    (h : Along Shape [.terminal t] tokens trees) : ShapedOne .atom tokens trees := by
  obtain ⟨token, rfl, rfl, rfl⟩ := of_terminal (by rintro rfl; simp at ht) h.of_one
  exact ⟨_, .operand ht, rfl⟩

theorem infixed {m : Tier} (ht : t ∈ m.operators) (h : Along Shape
      [.nonterminal m.nonterminal, .terminal t, .nonterminal m.below.nonterminal] tokens trees) :
    ShapedOne m tokens [.spanning .binary tokens trees] := by
  obtain ⟨ts, us, ts', us', h₁, hrest, rfl, rfl⟩ := h.of_cons
  obtain ⟨vs, ws, vs', ws', h₂, h₃, rfl, rfl⟩ := hrest.of_cons
  obtain ⟨left, hleft, rfl⟩ := of_nonterminal h₁
  obtain ⟨op, rfl, rfl, rfl⟩ := of_terminal (by rintro rfl; revert ht; cases m <;> decide) h₂
  obtain ⟨right, hright, rfl⟩ := of_nonterminal h₃.of_one
  exact ⟨_, .infixed (Nat.le_refl _) ht hleft hright, rfl⟩

theorem signed (ht : t ∈ [.plus, .minus, .tilde])
    (h : Along Shape [.terminal t, .nonterminal .factor] tokens trees) :
    ShapedOne .factor tokens [.spanning .unary tokens trees] := by
  obtain ⟨ts, us, ts', us', h₁, h₂, rfl, rfl⟩ := h.of_cons
  obtain ⟨sign, rfl, rfl, rfl⟩ := of_terminal (by rintro rfl; simp at ht) h₁
  obtain ⟨tree, hinner, rfl⟩ := h₂.of_one
  exact ⟨_, .signed (Nat.le_refl _) ht hinner, rfl⟩

theorem paren (h : Along Shape [.terminal .lpar, .nonterminal .expr, .terminal .rpar] tokens trees) :
    ShapedOne .atom tokens [.spanning .paren tokens trees] := by
  obtain ⟨ts, us, ts', us', h₁, hrest, rfl, rfl⟩ := h.of_cons
  obtain ⟨vs, ws, vs', ws', h₂, h₃, rfl, rfl⟩ := hrest.of_cons
  obtain ⟨left, hleft, rfl, rfl⟩ := of_terminal (by decide) h₁
  obtain ⟨tree, hinner, rfl⟩ := h₂
  obtain ⟨right, hright, rfl, rfl⟩ := of_terminal (by decide) h₃.of_one
  exact ⟨_, .paren hleft hright hinner, rfl⟩

theorem call (h : Along Shape [.nonterminal .call, .nonterminal .argList] tokens trees) :
    ShapedOne .call tokens [.spanning .call tokens trees] := by
  obtain ⟨ts, us, ts', us', h₁, h₂, rfl, rfl⟩ := h.of_cons
  obtain ⟨callee, hcallee, rfl⟩ := h₁
  obtain ⟨list, hp, ha, rfl, rfl⟩ := h₂.of_one
  exact ⟨_, .call (Nat.le_refl _) hcallee hp ha, rfl⟩

theorem symbolsIf_terminal {c : Bool} (h : Along Shape (symbolsIf c [.terminal t]) tokens trees) :
    ∃ o : Option Token, (∀ token ∈ o, token.terminal = t) ∧ tokens = o.toList ∧
      trees = o.toList.flatMap Token.leaves := by
  cases c with
  | false =>
    obtain ⟨rfl, rfl⟩ := h.eq_nil
    exact ⟨none, by simp, rfl, rfl⟩
  | true =>
    obtain ⟨token, ht, rfl, rfl⟩ := h.of_one
    exact ⟨some token, by simpa using ht, rfl, by simp⟩

theorem leaves_of_ne {o : Option Token} (ht : t ≠ .newline) (h : ∀ token ∈ o, token.terminal = t) :
    o.toList.flatMap Token.leaves = o.toList.map .ofToken := by
  cases o with
  | none => rfl
  | some token =>
    have hn : token.terminal ≠ .newline := by
      rw [h token rfl]
      exact ht
    simp [Token.leaves, hn]

theorem symbolsIf_more {c : Bool} (h : Along Shape (symbolsIf c [.nonterminal .more]) tokens trees) :
    ShapedMore tokens trees := by
  cases c with
  | false =>
    obtain ⟨rfl, rfl⟩ := h.eq_nil
    exact ⟨[], by simp, rfl, rfl⟩
  | true => exact h.of_one

theorem argsNone (h : Along Shape [.terminal .lpar, .terminal .rpar] tokens trees) :
    Shape (.nonterminal .argList) tokens [.spanning .argList tokens trees] := by
  obtain ⟨ts, us, ts', us', h₁, h₂, rfl, rfl⟩ := h.of_cons
  obtain ⟨left, hl, rfl, rfl⟩ := of_terminal (by decide) h₁
  obtain ⟨right, hr, rfl, rfl⟩ := of_terminal (by decide) h₂.of_one
  exact ⟨.none left right, ⟨hl, hr⟩, by simp [ArgumentList.pieces], rfl, rfl⟩

theorem args {more trailing : Bool}
    (h : Along Shape (Production.args more trailing).rhs tokens trees) :
    Shape (.nonterminal .argList) tokens [.spanning .argList tokens trees] := by
  obtain ⟨_, _, _, _, hcomma, h₅, rfl, rfl⟩ := h.of_append
  obtain ⟨_, _, _, _, hmore, h₄, rfl, rfl⟩ := hcomma.of_append
  obtain ⟨_, _, _, _, hfirst, h₃, rfl, rfl⟩ := hmore.of_append
  obtain ⟨_, _, ts, _, h₁, h₂, rfl, rfl⟩ := hfirst.of_cons
  obtain ⟨left, hl, rfl, rfl⟩ := of_terminal (by decide) h₁
  obtain ⟨first, hf, rfl⟩ := h₂.of_one
  obtain ⟨later, hm, rfl, rfl⟩ := symbolsIf_more h₃
  obtain ⟨comma, hc, rfl, rfl⟩ := symbolsIf_terminal h₄
  obtain ⟨right, hr, rfl, rfl⟩ := of_terminal (by decide) h₅.of_one
  refine ⟨.some left ⟨ts, first⟩ later comma right, ⟨hl, fun x hx => (hm x hx).1, hc, hr⟩, ?_, ?_⟩
  · intro p hp
    rcases List.mem_cons.mp hp with rfl | hp
    · exact hf
    · obtain ⟨x, hx, rfl⟩ := List.mem_map.mp hp
      exact (hm x hx).2
  · rw [leaves_of_ne (by decide) hc]
    simp [ArgumentList.tokens, ArgumentList.tree, ArgumentList.children, ArgumentList.laterTrees]

theorem moreOne (h : Along Shape [.terminal .comma, .nonterminal .expr] tokens trees) :
    ShapedMore tokens trees := by
  obtain ⟨_, _, ts, _, h₁, h₂, rfl, rfl⟩ := h.of_cons
  obtain ⟨comma, hc, rfl, rfl⟩ := of_terminal (by decide) h₁
  obtain ⟨tree, hs, rfl⟩ := h₂.of_one
  exact ⟨[(comma, ⟨ts, tree⟩)], by simp [hc, hs], by simp, by simp⟩

theorem moreNext (h : Along Shape [.nonterminal .more, .terminal .comma, .nonterminal .expr]
      tokens trees) : ShapedMore tokens trees := by
  obtain ⟨_, _, _, _, h₁, h₂, rfl, rfl⟩ := h.of_cons
  obtain ⟨later, hl, rfl, rfl⟩ := h₁
  obtain ⟨next, hn, rfl, rfl⟩ := moreOne h₂
  refine ⟨later ++ next, ?_, by simp, by simp⟩
  intro x hx
  rcases List.mem_append.mp hx with hx | hx
  · exact hl x hx
  · exact hn x hx

theorem assignment (h : Along Shape [.terminal .name, .terminal .equal, .nonterminal .expr]
      tokens trees) : ShapedStatement tokens (.spanning .assignment tokens trees) := by
  obtain ⟨_, _, _, _, h₁, hrest, rfl, rfl⟩ := h.of_cons
  obtain ⟨_, _, _, _, h₂, h₃, rfl, rfl⟩ := hrest.of_cons
  obtain ⟨name, hn, rfl, rfl⟩ := of_terminal (by decide) h₁
  obtain ⟨sign, hs, rfl, rfl⟩ := of_terminal (by decide) h₂
  obtain ⟨tree, hv, rfl⟩ := h₃.of_one
  exact .assignment hn hs hv

theorem exprStatement (h : Along Shape [.nonterminal .expr] tokens trees) :
    ShapedStatement tokens (.spanning .exprStatement tokens trees) := by
  obtain ⟨tree, hv, rfl⟩ := h.of_one
  exact .expr hv

theorem linesOne (h : Along Shape [.nonterminal .statement, .terminal .newline] tokens trees) :
    ShapedLines tokens trees := by
  obtain ⟨ts, _, _, _, h₁, h₂, rfl, rfl⟩ := h.of_cons
  obtain ⟨tree, hs, rfl⟩ := h₁
  obtain ⟨newline, hn, rfl, rfl⟩ := h₂.of_one
  exact ⟨[(⟨ts, tree⟩, newline)], by simp [hs, hn], by simp, by simp [Token.leaves, hn]⟩

theorem linesMore (h : Along Shape
      [.nonterminal .lines, .nonterminal .statement, .terminal .newline] tokens trees) :
    ShapedLines tokens trees := by
  obtain ⟨_, _, _, _, h₁, h₂, rfl, rfl⟩ := h.of_cons
  obtain ⟨lines, hl, rfl, rfl⟩ := h₁
  obtain ⟨next, hn, rfl, rfl⟩ := linesOne h₂
  refine ⟨lines ++ next, ?_, by simp, by simp⟩
  intro x hx
  rcases List.mem_append.mp hx with hx | hx
  · exact hl x hx
  · exact hn x hx

theorem symbolsIf_lines {c : Bool}
    (h : Along Shape (symbolsIf c [.nonterminal .lines]) tokens trees) :
    ShapedLines tokens trees := by
  cases c with
  | false =>
    obtain ⟨rfl, rfl⟩ := h.eq_nil
    exact ⟨[], by simp, rfl, rfl⟩
  | true => exact h.of_one

theorem symbolsIf_statement {c : Bool}
    (h : Along Shape (symbolsIf c [.nonterminal .statement]) tokens trees) :
    ∃ o : Option Piece, (∀ p ∈ o, ShapedStatement p.tokens p.tree) ∧
      tokens = o.elim [] Piece.tokens ∧ trees = o.toList.map Piece.tree := by
  cases c with
  | false =>
    obtain ⟨rfl, rfl⟩ := h.eq_nil
    exact ⟨none, by simp, rfl, rfl⟩
  | true =>
    obtain ⟨tree, hs, rfl⟩ := h.of_one
    exact ⟨some ⟨tokens, tree⟩, by simpa using hs, rfl, rfl⟩

theorem script {leading lines last : Bool}
    (h : Along Shape (Production.script leading lines last).rhs tokens trees) :
    Shape (.nonterminal .script) tokens [.spanning .script tokens trees] := by
  obtain ⟨_, _, _, _, hlines, h₃, rfl, rfl⟩ := h.of_append
  obtain ⟨_, _, _, _, h₁, h₂, rfl, rfl⟩ := hlines.of_append
  obtain ⟨front, hf, rfl, rfl⟩ := symbolsIf_terminal h₁
  obtain ⟨lines, hl, rfl, rfl⟩ := symbolsIf_lines h₂
  obtain ⟨unfinished, hu, rfl, rfl⟩ := symbolsIf_statement h₃
  refine ⟨⟨front, lines, unfinished⟩, ⟨hf, fun x hx => (hl x hx).2, ?_⟩, ?_⟩
  · intro p hp
    rcases List.mem_append.mp hp with hp | hp
    · obtain ⟨x, hx, rfl⟩ := List.mem_map.mp hp
      exact (hl x hx).1
    · exact hu p (by simpa using hp)
  · have hleaves : front.toList.flatMap Token.leaves = [] := by
      cases front with
      | none => rfl
      | some token => simp [Token.leaves, hf token rfl]
    rw [hleaves]
    simp [ScriptParts.tokens, ScriptParts.tree, ScriptParts.statements, Function.comp_def]

theorem leaves (p : Production) (tokens : List Token) (trees : List Tree)
    (h : Along Shape p.rhs tokens trees) :
    Shape (.nonterminal p.lhs) tokens (p.leaves tokens trees) := by
  cases p with
  | script => exact script h
  | linesOne => exact linesOne h
  | linesMore => exact linesMore h
  | statementAssignment | statementExpr => exact h.of_one
  | assignment => exact ⟨_, assignment h, rfl⟩
  | exprStatement => exact ⟨_, exprStatement h, rfl⟩
  | exprComparison => exact chain (n := .comparison) (m := .expr) (by decide) h
  | comparisonSum => exact chain (n := .sum) (m := .comparison) (by decide) h
  | compare => exact infixed (m := .comparison) (by decide) h
  | sumProduct => exact chain (n := .product) (m := .sum) (by decide) h
  | add op => exact infixed (m := .sum) (by cases op <;> decide) h
  | productFactor => exact chain (n := .factor) (m := .product) (by decide) h
  | multiply op => exact infixed (m := .product) (by cases op <;> decide) h
  | factorCall => exact chain (n := .call) (m := .factor) (by decide) h
  | signed op => exact signed (by cases op <;> decide) h
  | callAtom => exact chain (n := .atom) (m := .call) (by decide) h
  | callArgs => exact call h
  | argsNone => exact argsNone h
  | args => exact args h
  | moreOne => exact moreOne h
  | moreNext => exact moreNext h
  | atomNumber | atomName | atomString => exact operand (by decide) h
  | paren => exact paren h

end Shape

/-- What is derived from a category has the shape of the category. -/
theorem Derivable.shape {x : GrammarSymbol} {tokens : List Token} {trees : List Tree}
    (h : Derivable x tokens trees) : Shape x tokens trees :=
  induct (fun token => ⟨token, rfl, rfl, rfl⟩) Shape.leaves h

namespace Derivable
variable {tokens : List Token} {trees : List Tree} {tree : Tree}

theorem ofToken {token : Token} {t : Terminal} (ht : token.terminal = t) (hn : t ≠ .newline) :
    Derivable (.terminal t) [token] [.ofToken token] := by
  subst ht
  simpa [Token.leaves, hn] using leaf token

theorem newline {token : Token} (ht : token.terminal = .newline) :
    Derivable (.terminal .newline) [token] [] := by
  simpa [Token.leaves, ht] using leaf token

theorem step {n : Tier} (hn : n ≠ .atom)
    (h : Derivable (.nonterminal n.below.nonterminal) tokens trees) :
    Derivable (.nonterminal n.nonterminal) tokens trees := by
  cases n with
  | atom => contradiction
  | call => exact node .callAtom (.one h)
  | factor => exact node .factorCall (.one h)
  | product => exact node .productFactor (.one h)
  | sum => exact node .sumProduct (.one h)
  | comparison => exact node .comparisonSum (.one h)
  | expr => exact node .exprComparison (.one h)

theorem lift {n m : Tier} (hn : n.rank ≤ m.rank)
    (h : Derivable (.nonterminal n.nonterminal) tokens trees) :
    Derivable (.nonterminal m.nonterminal) tokens trees := by
  by_cases hm : m.rank ≤ n.rank
  · obtain rfl : n = m := by cases n <;> cases m <;> simp_all [Tier.rank]
    exact h
  · have hne : m ≠ .atom := by
      rintro rfl
      exact hm (Nat.zero_le _)
    have hb : n.rank ≤ m.below.rank := by
      cases m <;> simp [Tier.rank, Tier.below] at hm hn hne ⊢ <;> omega
    exact step hne (lift hb h)
termination_by m.rank
decreasing_by cases m <;> simp_all [Tier.rank, Tier.below]

theorem operand {token : Token} (ht : token.terminal ∈ [.number, .name, .string]) :
    Derivable (.nonterminal .atom) [token] [.ofToken token] := by
  simp only [List.mem_cons, List.not_mem_nil, or_false] at ht
  rcases ht with ht | ht | ht
  · exact node .atomNumber (.one (ofToken ht (by decide)))
  · exact node .atomName (.one (ofToken ht (by decide)))
  · exact node .atomString (.one (ofToken ht (by decide)))

theorem signed {sign : Token} (hs : sign.terminal ∈ [.plus, .minus, .tilde])
    (h : Derivable (.nonterminal .factor) tokens [tree]) :
    Derivable (.nonterminal .factor) (sign :: tokens)
      [.spanning .unary (sign :: tokens) [.ofToken sign, tree]] := by
  simp only [List.mem_cons, List.not_mem_nil, or_false] at hs
  rcases hs with hs | hs | hs
  · exact node (.signed .plus) (.cons (ofToken hs (by decide)) (.one h))
  · exact node (.signed .minus) (.cons (ofToken hs (by decide)) (.one h))
  · exact node (.signed .tilde) (.cons (ofToken hs (by decide)) (.one h))

theorem infixed {m : Tier} {op : Token} {tokens' : List Token} {tree' : Tree}
    (ho : op.terminal ∈ m.operators) (hl : Derivable (.nonterminal m.nonterminal) tokens [tree])
    (hr : Derivable (.nonterminal m.below.nonterminal) tokens' [tree']) :
    Derivable (.nonterminal m.nonterminal) (tokens ++ op :: tokens')
      [.spanning .binary (tokens ++ op :: tokens') [tree, .ofToken op, tree']] := by
  cases m with
  | product =>
    simp only [Tier.operators, List.mem_cons, List.not_mem_nil, or_false] at ho
    rcases ho with ho | ho | ho
    · exact node (.multiply .star) (.cons hl (.cons (ofToken ho (by decide)) (.one hr)))
    · exact node (.multiply .slash) (.cons hl (.cons (ofToken ho (by decide)) (.one hr)))
    · exact node (.multiply .percent) (.cons hl (.cons (ofToken ho (by decide)) (.one hr)))
  | sum =>
    simp only [Tier.operators, List.mem_cons, List.not_mem_nil, or_false] at ho
    rcases ho with ho | ho
    · exact node (.add .plus) (.cons hl (.cons (ofToken ho (by decide)) (.one hr)))
    · exact node (.add .minus) (.cons hl (.cons (ofToken ho (by decide)) (.one hr)))
  | comparison =>
    simp only [Tier.operators, List.mem_cons, List.not_mem_nil, or_false] at ho
    exact node .compare (.cons hl (.cons (ofToken ho (by decide)) (.one hr)))
  | _ => simp [Tier.operators] at ho

/-- A nonempty list of arguments with commas before them, which the grammar groups to the left. -/
theorem more {later : List (Token × Piece)} (hne : later ≠ [])
    (hc : ∀ x ∈ later, x.1.terminal = .comma)
    (hs : ∀ x ∈ later, Derivable (.nonterminal .expr) x.2.tokens [x.2.tree]) :
    Derivable (.nonterminal .more) (later.flatMap fun x => x.1 :: x.2.tokens)
      (later.flatMap fun x => [.ofToken x.1, x.2.tree]) := by
  induction later using List.reverseRecOn with
  | nil => contradiction
  | append_singleton init x ih =>
    have hcomma := ofToken (hc x (by simp)) (by decide)
    have hlast := hs x (by simp)
    by_cases hi : init = []
    · subst hi
      simpa [Production.lhs, Production.leaves, Production.construct?] using
        node .moreOne (.cons hcomma (.one hlast))
    · have hinit := ih hi (fun y hy => hc y (by simp [hy])) (fun y hy => hs y (by simp [hy]))
      simpa [Production.lhs, Production.leaves, Production.construct?] using
        node .moreNext (.cons hinit (.cons hcomma (.one hlast)))

theorem symbolsIf_more {later : List (Token × Piece)} (hc : ∀ x ∈ later, x.1.terminal = .comma)
    (hs : ∀ x ∈ later, Derivable (.nonterminal .expr) x.2.tokens [x.2.tree]) :
    Along Derivable (symbolsIf (!later.isEmpty) [.nonterminal .more])
      (later.flatMap fun x => x.1 :: x.2.tokens)
      (later.flatMap fun x => [.ofToken x.1, x.2.tree]) := by
  cases later with
  | nil => exact .nil
  | cons x later => exact .one (more (by simp) hc hs)

theorem symbolsIf_comma {o : Option Token} (hc : ∀ token ∈ o, token.terminal = .comma) :
    Along Derivable (symbolsIf o.isSome [.terminal .comma]) o.toList (o.toList.map .ofToken) := by
  cases o with
  | none => exact .nil
  | some token => exact .one (ofToken (hc token rfl) (by decide))

theorem argList {list : ArgumentList} (hp : list.Punctuated)
    (hs : ∀ p ∈ list.pieces, Derivable (.nonterminal .expr) p.tokens [p.tree]) :
    Derivable (.nonterminal .argList) list.tokens [list.tree] := by
  cases list with
  | none left right =>
    exact node .argsNone (.cons (ofToken hp.1 (by decide)) (.one (ofToken hp.2 (by decide))))
  | some left first later trailing right =>
    obtain ⟨hl, hc, ht, hr⟩ := hp
    have hfirst := hs first (by simp [ArgumentList.pieces])
    have hlater : ∀ x ∈ later, Derivable (.nonterminal .expr) x.2.tokens [x.2.tree] :=
      fun x hx => hs x.2 (List.mem_cons_of_mem _ (List.mem_map_of_mem hx))
    have h := node (.args (!later.isEmpty) trailing.isSome)
      ((((Along.cons (ofToken hl (by decide)) (.one hfirst)).append
        (symbolsIf_more hc hlater)).append (symbolsIf_comma ht)).append
        (.one (ofToken hr (by decide))))
    simpa [Production.lhs, Production.leaves, Production.construct?, ArgumentList.tokens,
      ArgumentList.tree, ArgumentList.children, ArgumentList.laterTrees] using h

end Derivable

theorem Shaped.derivable {n : Tier} {tokens : List Token} {tree : Tree}
    (h : Shaped n tokens tree) : Derivable (.nonterminal n.nonterminal) tokens [tree] := by
  induction h with
  | operand ht => exact .lift (n := .atom) (Nat.zero_le _) (.operand ht)
  | paren hl hr inner ih =>
    refine .lift (n := .atom) (Nat.zero_le _) (.node .paren ?_)
    exact .cons (.ofToken hl (by decide)) (.cons ih (.one (.ofToken hr (by decide))))
  | call hn function hp arguments ih iha =>
    exact .lift (n := .call) hn (.node .callArgs (.cons ih (.one (.argList hp iha))))
  | signed hn hs inner ih => exact .lift (n := .factor) hn (.signed hs ih)
  | infixed hn ho left right ihl ihr => exact .lift hn (.infixed ho ihl ihr)

namespace Derivable

theorem statement {tokens : List Token} {tree : Tree} (h : ShapedStatement tokens tree) :
    Derivable (.nonterminal .statement) tokens [tree] := by
  cases h with
  | assignment hn hs value =>
    refine node .statementAssignment (.one (node .assignment ?_))
    exact .cons (ofToken hn (by decide)) (.cons (ofToken hs (by decide)) (.one value.derivable))
  | expr value =>
    exact node .statementExpr (.one (node .exprStatement (.one value.derivable)))

theorem lines {ls : List (Piece × Token)} (hne : ls ≠ [])
    (hb : ∀ x ∈ ls, x.2.terminal = .newline)
    (hs : ∀ x ∈ ls, ShapedStatement x.1.tokens x.1.tree) :
    Derivable (.nonterminal .lines) (ls.flatMap fun x => x.1.tokens ++ [x.2])
      (ls.map fun x => x.1.tree) := by
  induction ls using List.reverseRecOn with
  | nil => contradiction
  | append_singleton init x ih =>
    have hlast := statement (hs x (by simp))
    have hbreak := newline (hb x (by simp))
    by_cases hi : init = []
    · subst hi
      simpa [Production.lhs, Production.leaves, Production.construct?] using
        node .linesOne (.cons hlast (.one hbreak))
    · have hinit := ih hi (fun y hy => hb y (by simp [hy])) (fun y hy => hs y (by simp [hy]))
      simpa [Production.lhs, Production.leaves, Production.construct?] using
        node .linesMore (.cons hinit (.cons hlast (.one hbreak)))

theorem symbolsIf_newline {o : Option Token} (hn : ∀ token ∈ o, token.terminal = .newline) :
    Along Derivable (symbolsIf o.isSome [.terminal .newline]) o.toList [] := by
  cases o with
  | none => exact .nil
  | some token => exact .one (newline (hn token rfl))

theorem symbolsIf_lines {ls : List (Piece × Token)} (hb : ∀ x ∈ ls, x.2.terminal = .newline)
    (hs : ∀ x ∈ ls, ShapedStatement x.1.tokens x.1.tree) :
    Along Derivable (symbolsIf (!ls.isEmpty) [.nonterminal .lines])
      (ls.flatMap fun x => x.1.tokens ++ [x.2]) (ls.map fun x => x.1.tree) := by
  cases ls with
  | nil => exact .nil
  | cons x ls => exact .one (lines (by simp) hb hs)

theorem symbolsIf_statement {o : Option Piece} (hs : ∀ p ∈ o, ShapedStatement p.tokens p.tree) :
    Along Derivable (symbolsIf o.isSome [.nonterminal .statement]) (o.elim [] Piece.tokens)
      (o.toList.map Piece.tree) := by
  cases o with
  | none => exact .nil
  | some p => exact .one (statement (hs p rfl))

theorem script {parts : ScriptParts} (h : parts.Lined) :
    Derivable (.nonterminal .script) parts.tokens [parts.tree] := by
  obtain ⟨leading, ls, last⟩ := parts
  have hlines : ∀ x ∈ ls, ShapedStatement x.1.tokens x.1.tree :=
    fun x hx => h.statements x.1 (List.mem_append_left _ (List.mem_map_of_mem hx))
  have hlast : ∀ p ∈ last, ShapedStatement p.tokens p.tree :=
    fun p hp => h.statements p (List.mem_append_right _ (by simpa using hp))
  have hd := node (.script leading.isSome (!ls.isEmpty) last.isSome)
    (((symbolsIf_newline h.leading).append (symbolsIf_lines h.breaks hlines)).append
      (symbolsIf_statement hlast))
  simpa [Production.lhs, Production.leaves, Production.construct?, ScriptParts.tokens,
    ScriptParts.tree, ScriptParts.statements, Function.comp_def] using hd

end Derivable
end ArithScript
