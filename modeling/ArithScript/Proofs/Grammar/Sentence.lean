import ArithScript.Proofs.Grammar.Lossless

/-! Sentences of the grammar, as sequences of terminals, and what can follow the beginning of a
sentence. -/
namespace ArithScript

/-- The rules derive the terminals from the start symbol. -/
def Sentence (start : StartSymbol) (terminals : List Terminal) : Prop :=
  ∃ p tokens, ParseTree.Derives start p tokens ∧ tokens.map Token.terminal = terminals

/-- The terminals are the beginning of a sentence. -/
def Viable (start : StartSymbol) (terminals : List Terminal) : Prop :=
  ∃ more, Sentence start (terminals ++ more)

/-- What can come next after the terminals: a terminal with which they still begin a sentence, or
the end if they are a sentence. -/
def CanFollow (start : StartSymbol) (terminals : List Terminal) : Lookahead → Prop
  | some t => Viable start (terminals ++ [t])
  | none => Sentence start terminals

namespace Derivation
variable {start : StartSymbol}

mutual

theorem exists_with_yield (d : Derivation) (hv : d.Valid) {tokens : List Token}
    (ht : tokens.map Token.terminal = d.yield.map Token.terminal) :
    ∃ e : Derivation, e.Valid ∧ e.symbol = d.symbol ∧ e.yield = tokens := by
  match d with
  | .leaf token =>
    obtain ⟨other, rfl, hother⟩ := List.map_eq_singleton_iff.mp ht
    exact ⟨.leaf other, trivial, congrArg GrammarSymbol.terminal hother, rfl⟩
  | .node p ds =>
    obtain ⟨es, hes, hsymbols, hyield⟩ := exists_with_yieldAll ds hv.2 ht
    exact ⟨.node p es, ⟨hsymbols.trans hv.1, hes⟩, rfl, hyield⟩

theorem exists_with_yieldAll (ds : List Derivation) (hv : ValidAll ds) {tokens : List Token}
    (ht : tokens.map Token.terminal = (yieldAll ds).map Token.terminal) :
    ∃ es : List Derivation, ValidAll es ∧ es.map symbol = ds.map symbol ∧ yieldAll es = tokens := by
  match ds with
  | [] => exact ⟨[], trivial, rfl, (List.map_eq_nil_iff.mp ht).symm⟩
  | d :: ds =>
    rw [yieldAll, List.map_append] at ht
    obtain ⟨first, later, rfl, hfirst, hlater⟩ := List.map_eq_append_iff.mp ht
    obtain ⟨e, he, hsymbol, rfl⟩ := exists_with_yield d hv.1 hfirst
    obtain ⟨es, hes, hsymbols, rfl⟩ := exists_with_yieldAll ds hv.2 hlater
    exact ⟨e :: es, ⟨he, hes⟩, by rw [List.map_cons, List.map_cons, hsymbol, hsymbols], rfl⟩

end

theorem Derives.hasTerminal {d : Derivation} {tokens : List Token} (h : d.Derives start tokens) :
    ∀ token ∈ tokens, start.hasTerminal token.terminal = true := by
  cases start with
  | script =>
    intro token _
    rfl
  | expr =>
    obtain ⟨tree, hshape, -⟩ := Derivable.shape ⟨d, h.valid, h.symbol_eq, h.yield_eq, rfl⟩
    exact hshape.hasTerminal

end Derivation

theorem Derivable.eq {start : StartSymbol} {tokens : List Token} {trees trees' : List Tree}
    (h : Derivable (.nonterminal start.nonterminal) tokens trees)
    (h' : Derivable (.nonterminal start.nonterminal) tokens trees')
    (ht : ∀ token ∈ tokens, start.hasTerminal token.terminal = true) : trees = trees' := by
  obtain ⟨d, hv, hs, rfl, rfl⟩ := h
  obtain ⟨d', hv', hs', hy, rfl⟩ := h'
  have hread := Stack.derivation?_complete hv hs ht
  have hread' := Stack.derivation?_complete hv' hs' (hy ▸ ht)
  rw [hy, hread] at hread'
  rw [Option.some.inj hread']

namespace ShapedStatement
variable {tokens others : List Token} {tree tree' : Tree}

theorem tree_eq (h : ShapedStatement tokens tree) (h' : ShapedStatement tokens tree') :
    tree = tree' := by
  have hscript := Derivable.script (ScriptParts.lined_one (p := ⟨tokens, tree⟩) h)
  have hscript' := Derivable.script (ScriptParts.lined_one (p := ⟨tokens, tree'⟩) h')
  have heq := @Derivable.eq .script _ _ _ hscript hscript' fun _ _ => rfl
  injection List.singleton_inj.mp heq with _ _ hchildren
  exact List.singleton_inj.mp hchildren

theorem exists_of_terminals (h : ShapedStatement tokens tree)
    (ht : others.map Token.terminal = tokens.map Token.terminal) :
    ∃ other, ShapedStatement others other := by
  obtain ⟨d, hv, hs, rfl, -⟩ := Derivable.statement h
  obtain ⟨e, he, hsymbol, hyield⟩ := d.exists_with_yield hv ht
  obtain ⟨other, hother, -⟩ := Derivable.shape ⟨e, he, hsymbol.trans hs, hyield, rfl⟩
  exact ⟨other, hother⟩

end ShapedStatement

namespace Sentence
variable {start : StartSymbol} {tokens : List Token} {ts : List Terminal}

theorem of_derives {d : Derivation} (h : d.Derives start tokens) :
    Sentence start (tokens.map Token.terminal) := by
  obtain ⟨p, hp, -⟩ := ParseTree.exists_of_derivation h
  exact ⟨p, tokens, hp, rfl⟩

theorem exists_derives (h : Sentence start (tokens.map Token.terminal)) :
    ∃ d : Derivation, d.Derives start tokens := by
  obtain ⟨p, others, hp, hothers⟩ := h
  obtain ⟨d, hd, -⟩ := hp.exists_derivation
  have hterminals : tokens.map Token.terminal = d.yield.map Token.terminal := by
    rw [hd.yield_eq, hothers]
  obtain ⟨e, hv, hsymbol, hyield⟩ := d.exists_with_yield hd.valid hterminals
  exact ⟨e, hv, hsymbol.trans hd.symbol_eq, hyield⟩

end Sentence

namespace Viable
variable {start : StartSymbol} {ts more : List Terminal}

theorem of_append (h : Viable start (ts ++ more)) : Viable start ts := by
  obtain ⟨later, h⟩ := h
  exact ⟨more ++ later, by rwa [← List.append_assoc]⟩

/-- The beginning of a sentence that is none itself has a sentence that is longer. -/
theorem exists_longer (h : Viable start ts) (hs : ¬ Sentence start ts) :
    ∃ t more, Sentence start (ts ++ t :: more) := by
  obtain ⟨more, h⟩ := h
  cases more with
  | nil => exact absurd (by rwa [List.append_nil] at h) hs
  | cons t more => exact ⟨t, more, h⟩

end Viable
end ArithScript
