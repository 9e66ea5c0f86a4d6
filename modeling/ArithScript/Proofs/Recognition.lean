import ArithScript.Reading
import ArithScript.Proofs.Grammar.Image

/-! Reading a text as a concrete tree decides the grammar: a text is read exactly if it can be cut
into tokens that the rules derive, and the tree is then that of the only derivation. -/
namespace ArithScript

theorem StartSymbol.rule_nonterminal (start : StartSymbol) :
    start.rule.nonterminal = start.nonterminal := by
  cases start <;> rfl

namespace ParseTree
variable {start : StartSymbol} {p q : ParseTree} {tokens : List Token}

theorem Derives.exists_derivation (h : p.Derives start tokens) :
    ∃ d : Derivation, d.Derives start tokens ∧ d.parseTrees = [p] := by
  obtain ⟨a, children, rfl⟩ := h.rule_eq
  obtain ⟨ds, hv, hs, hp⟩ := Spells.of_valid _ h.valid
  obtain ⟨d, rfl⟩ : ∃ d, ds = [d] := List.length_eq_one_iff.mp (by simpa using congrArg List.length hs)
  have hp : d.parseTrees = [.node start.rule a children] := by
    simpa [Derivation.parseTreesAll] using hp
  refine ⟨d, ⟨hv.1, ?_, ?_⟩, hp⟩
  · rw [← start.rule_nonterminal]
    simpa [symbol] using hs
  · have hy := Derivation.yieldAll_parseTrees d
    rw [hp] at hy
    simpa [yieldAll, h.yield_eq] using hy.symm

/-- A derivation by productions spells out one by rules, with the same concrete tree. -/
theorem exists_of_derivation {d : Derivation} (h : d.Derives start tokens) :
    ∃ p : ParseTree, p.Derives start tokens ∧ p.image = some d.tree := by
  obtain ⟨hm, hv⟩ := d.matches_parseTrees h.valid
  rw [h.symbol_eq, ← start.rule_nonterminal, Rule.pattern_nonterminal] at hm
  cases hp : d.parseTrees with
  | nil =>
    rw [hp] at hm
    cases hm
  | cons p rest =>
    rw [hp] at hm hv
    cases hm with
    | rule r a children =>
      have hy := Derivation.yieldAll_parseTrees d
      rw [hp, h.yield_eq] at hy
      exact ⟨_, ⟨hv.1, ⟨a, children, rfl⟩, by simpa [yieldAll] using hy⟩,
        d.image_of_parseTrees h.valid hp⟩

end ParseTree

theorem Tree.read_eq_ok_iff {start : StartSymbol} {source : Source} {tree : Tree} :
    Tree.read start source = .ok tree ↔
      ∃ tokens d, Token.scan start source.chars.toList = some tokens ∧
        Derivation.Derives start d tokens ∧ d.tree = tree := by
  have hparse : ∀ d, Derivation.parse start source.chars.toList = .ok d ↔ _ :=
    fun d => Derivation.parse_eq_ok_iff
  rw [Tree.read]
  constructor
  · intro h
    split at h
    · rename_i d hd
      obtain ⟨tokens, hscan, hder⟩ := (hparse d).mp hd
      exact ⟨tokens, d, hscan, hder, Except.ok.inj h⟩
    · contradiction
  · rintro ⟨tokens, d, hscan, hder, rfl⟩
    rw [(hparse d).mpr ⟨tokens, hscan, hder⟩]

/-- A text is read as a tree exactly if it can be cut into tokens without regard to their context
and the rules derive these tokens from the start symbol. The derivation is the only one, and the
tree is its image. -/
theorem Tree.read_iff_derives (start : StartSymbol) (source : Source) :
    (∀ tree, Tree.read start source = .ok tree ↔
      ∃ tokens p, Token.scan start source.chars.toList = some tokens ∧
        ParseTree.Derives start p tokens ∧ p.image = some tree) ∧
    ∀ tokens p q, Token.scan start source.chars.toList = some tokens →
      ParseTree.Derives start p tokens → ParseTree.Derives start q tokens → p = q := by
  have hunique : ∀ {tokens p q}, Token.scan start source.chars.toList = some tokens →
      ParseTree.Derives start p tokens → ParseTree.Derives start q tokens → p = q := by
    intro tokens p q hscan hp hq
    obtain ⟨d, hd, hdp⟩ := hp.exists_derivation
    obtain ⟨e, he, heq⟩ := hq.exists_derivation
    obtain rfl := hd.eq hscan he
    exact (List.singleton_inj.mp (hdp.symm.trans heq))
  refine ⟨fun tree => ?_, fun _ _ _ => hunique⟩
  rw [Tree.read_eq_ok_iff]
  constructor
  · rintro ⟨tokens, d, hscan, hd, rfl⟩
    obtain ⟨p, hp, himage⟩ := ParseTree.exists_of_derivation hd
    exact ⟨tokens, p, hscan, hp, himage⟩
  · rintro ⟨tokens, p, hscan, hp, himage⟩
    obtain ⟨d, hd, hdp⟩ := hp.exists_derivation
    obtain ⟨q, hq, hqimage⟩ := ParseTree.exists_of_derivation hd
    obtain rfl := hunique hscan hp hq
    exact ⟨tokens, d, hscan, hd, Option.some.inj (hqimage.symm.trans himage)⟩

end ArithScript
