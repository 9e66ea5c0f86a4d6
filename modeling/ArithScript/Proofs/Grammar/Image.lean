import ArithScript.Proofs.Grammar.Expansion

/-! The concrete tree of a derivation by productions is that of the tree by rules that it spells
out. -/
namespace ArithScript

theorem Token.extent?_append (first second : List Token) :
    Token.extent? (first ++ second) =
      match Token.extent? first, Token.extent? second with
      | some a, some b => some ⟨a.start, b.stop⟩
      | some a, none => some a
      | none, b => b := by
  cases first with
  | nil => simp [Token.extent?]
  | cons a first =>
    cases second with
    | nil => simp [Token.extent?, List.getLast?_cons]
    | cons b second => simp [Token.extent?, List.getLast?_cons, List.getLast?_append]

theorem Production.construct?_of_rule? {p : Production} {r : Rule} (hr : p.rule? = some r) :
    match p.construct? with
    | some c => p.alternative.name = some c ∨
        p.alternative.name = none ∧ r.inlined = false ∧ r.kind = .construct c
    | none => p.alternative.name = none ∧ r.inlined = true ∧
        ∃ x, p.rhs = [x] ∧ x.isPlain ∧ x ≠ .terminal .newline := by
  cases p <;> simp only [rule?, Option.some.injEq, reduceCtorEq] at hr <;> subst hr
  case comparisonSum | sumProduct | productFactor | factorCall | callAtom | atomNumber | atomName |
      atomString | exprComparison | statementAssignment | statementExpr =>
    exact ⟨rfl, rfl, _, rfl, rfl, by decide⟩
  case script | assignment | exprStatement | argsNone | args => exact .inr ⟨rfl, rfl, rfl⟩
  all_goals exact .inl rfl

theorem Production.construct?_of_helper {p : Production} (hr : p.rule? = none) :
    p.construct? = none := by
  cases p <;> first | contradiction | rfl

namespace ParseTree

theorem image_isSome {p : ParseTree} (hp : p.symbol ≠ .terminal .newline) : (image p).isSome := by
  cases p with
  | leaf token =>
    have ht : token.terminal ≠ .newline := fun h => hp (by simp [symbol, h])
    simp [image, ht]
  | node r a children =>
    rw [image]
    split <;> rfl

end ParseTree

namespace Derivation

mutual

theorem image_parseTrees (d : Derivation) (hv : d.Valid) :
    d.image.trees = ParseTree.imageAll d.parseTrees ∧ d.image.extent = Token.extent? d.yield := by
  match d with
  | .leaf token =>
    refine ⟨?_, by simp [image, Image.ofToken, yield, Token.extent?]⟩
    by_cases ht : token.terminal = .newline <;>
      simp [image, Image.ofToken, parseTrees, ParseTree.imageAll, ParseTree.image, ht]
  | .node p ds =>
    obtain ⟨htrees, hextent⟩ := image_parseTreesAll ds hv.2
    have hyield : ParseTree.yieldAll (parseTreesAll ds) = yieldAll ds := yieldAll_parseTreesAll ds
    cases hr : p.rule? with
    | none =>
      have hc := Production.construct?_of_helper hr
      simp [image, Image.wrap, hc, parseTrees, hr, htrees, hextent, yield]
    | some r =>
      have hc := Production.construct?_of_rule? hr
      cases hcon : p.construct? with
      | some c =>
        rw [hcon] at hc
        rcases hc with hname | ⟨hname, hinlined, hkind⟩
        · simp [image, Image.wrap, hcon, parseTrees, hr, ParseTree.imageAll, ParseTree.image,
            hname, htrees, hextent, hyield, yield]
        · simp [image, Image.wrap, hcon, parseTrees, hr, ParseTree.imageAll, ParseTree.image,
            hname, hinlined, hkind, htrees, hextent, hyield, yield]
      | none =>
        rw [hcon] at hc
        obtain ⟨hname, hinlined, x, hx, hplain, hne⟩ := hc
        -- the only child leaves exactly one tree, which takes the place of the node
        have hm := (matches_parseTreesAll ds hv.2).1
        rw [hv.1, hx] at hm
        obtain ⟨q, hq, rfl⟩ :=
          GrammarSymbol.matches_pattern hplain (Pattern.matches_seq_singleton.mp hm)
        obtain ⟨t, ht⟩ := Option.isSome_iff_exists.mp (ParseTree.image_isSome hne)
        simp [image, Image.wrap, hcon, parseTrees, hr, ParseTree.imageAll, ParseTree.image,
          hname, hinlined, htrees, hextent, hq, ht, yield]

theorem image_parseTreesAll (ds : List Derivation) (hv : ValidAll ds) :
    (imageAll ds).trees = ParseTree.imageAll (parseTreesAll ds) ∧
      (imageAll ds).extent = Token.extent? (yieldAll ds) := by
  match ds with
  | [] => exact ⟨rfl, rfl⟩
  | d :: ds =>
    obtain ⟨ht, he⟩ := image_parseTrees d hv.1
    obtain ⟨hts, hes⟩ := image_parseTreesAll ds hv.2
    constructor
    · simp [imageAll, Image.append, parseTreesAll, ParseTree.imageAll_append, ht, hts]
    · rw [yieldAll, Token.extent?_append, ← he, ← hes]
      rfl

end

theorem image_of_parseTrees {d : Derivation} {r : Rule} {a : Alternative}
    {children : List ParseTree} (hv : d.Valid) (h : d.parseTrees = [.node r a children]) :
    (ParseTree.node r a children).image = some d.tree := by
  obtain ⟨ht, _⟩ := image_parseTrees d hv
  obtain ⟨t, himage⟩ := Option.isSome_iff_exists.mp
    (ParseTree.image_isSome (p := .node r a children) (by simp [ParseTree.symbol]))
  rw [h] at ht
  simp only [ParseTree.imageAll, himage, Option.toList_some, List.append_nil] at ht
  rw [himage, Derivation.tree, ht]

end Derivation
end ArithScript
