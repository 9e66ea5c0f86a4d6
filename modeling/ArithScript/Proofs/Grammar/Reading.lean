import ArithScript.Proofs.Grammar.Shaping
import ArithScript.Proofs.Recognition

/-! Which trees a text is read as, in terms of their constructs. -/
namespace ArithScript

variable {source : Source} {tree : Tree}

theorem Tree.read_iff_derivable {start : StartSymbol} :
    Tree.read start source = .ok tree ↔
      ∃ tokens, Token.scan start source.chars.toList = some tokens ∧
        Derivable (.nonterminal start.nonterminal) tokens [tree] := by
  rw [Tree.read_eq_ok_iff]
  constructor
  · rintro ⟨tokens, d, hscan, hd, rfl⟩
    refine ⟨tokens, hscan, d, hd.valid, hd.symbol_eq, hd.yield_eq, ?_⟩
    obtain ⟨tree, htree⟩ : ∃ tree, d.image.trees = [tree] := by
      have hshape := Derivable.shape ⟨d, hd.valid, hd.symbol_eq, rfl, rfl⟩
      cases start with
      | script =>
        obtain ⟨parts, -, -, htrees⟩ := hshape
        exact ⟨parts.tree, htrees⟩
      | expr =>
        obtain ⟨tree, -, htrees⟩ := hshape
        exact ⟨tree, htrees⟩
    rw [htree, Derivation.tree, htree]
  · rintro ⟨tokens, hscan, d, hv, hs, hy, htree⟩
    refine ⟨tokens, d, hscan, ⟨hv, hs, hy⟩, ?_⟩
    rw [Derivation.tree, htree]

/-- A text is read as a script exactly if its tokens are those of some lines of statements. -/
theorem Tree.read_script_iff :
    Tree.read .script source = .ok tree ↔
      ∃ parts : ScriptParts, parts.Lined ∧
        Token.scan .script source.chars.toList = some parts.tokens ∧ parts.tree = tree := by
  rw [Tree.read_iff_derivable]
  constructor
  · rintro ⟨tokens, hscan, hd⟩
    obtain ⟨parts, hp, rfl, htree⟩ := hd.shape
    exact ⟨parts, hp, hscan, (List.singleton_inj.mp htree).symm⟩
  · rintro ⟨parts, hp, hscan, rfl⟩
    exact ⟨parts.tokens, hscan, Derivable.script hp⟩

end ArithScript
