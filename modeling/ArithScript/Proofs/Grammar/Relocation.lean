import Mathlib.Data.List.Forall2
import ArithScript.Proofs.Grammar.Reading
import ArithScript.Proofs.Grammar.Respacing

/-!
Trees over the same tokens at other places. Respaced text is read as the same tree, with its places
changed, and what stands right after a sign stays there where that is kept.
-/
namespace ArithScript

namespace Tree

mutual

/-- The tree without places. -/
def unplaced : Tree → Tree
  | .token kind text _ _ => .token kind text none none
  | .node kind _ children => .node kind none (unplacedAll children)

def unplacedAll : List Tree → List Tree
  | [] => []
  | tree :: rest => unplaced tree :: unplacedAll rest

end

/-- What follows a sign comes without a gap exactly if it did before and that is kept. -/
def Adjoins (kept : Nat → Prop) (sign inner sign' inner' : Tree) : Prop :=
  ∃ stop : Nat, sign.extent.stop = stop ∧
    (inner'.extent.start = sign'.extent.stop ↔ inner.extent.start = sign.extent.stop ∧ kept stop)

/-- The node is the same but for its places, and those below it; a sign adjoins what follows it. -/
structure Relocated (kept : Nat → Prop) (t t' : Tree) : Prop where
  unplaced_eq : t'.unplaced = t.unplaced
  adjoins : ∀ sign inner sign' inner', t.kind = .construct .unary → t.children = [sign, inner] →
    t'.children = [sign', inner'] → Adjoins kept sign inner sign' inner'

def Relocates (kept : Nat → Prop) (tree tree' : Tree) : Prop :=
  List.Forall₂ (Relocated kept) tree.subtrees tree'.subtrees

end Tree

variable {start : StartSymbol} {kept : Nat → Prop} {source source' : Source}
  {tokens tokens' more : List Token} {tree tree' : Tree} {trees trees' : List Tree}

namespace Tree

theorem unplacedAll_eq (trees : List Tree) : unplacedAll trees = trees.map unplaced := by
  induction trees with
  | nil => rfl
  | cons tree trees ih => rw [unplacedAll, ih, List.map_cons]

theorem kind_unplaced (tree : Tree) : tree.unplaced.kind = tree.kind := by
  cases tree <;> rfl

theorem children_unplaced (tree : Tree) :
    tree.unplaced.children = tree.children.map unplaced := by
  cases tree with
  | token => rfl
  | node => exact unplacedAll_eq _

theorem unplaced_spanning (construct : Construct) (tokens : List Token) (children : List Tree) :
    (spanning construct tokens children).unplaced =
      .node (.construct construct) none (children.map unplaced) := by
  rw [spanning, unplaced, unplacedAll_eq]

namespace Relocates

theorem unplaced_eq (h : Relocates kept tree tree') : tree'.unplaced = tree.unplaced := by
  rw [Relocates, subtrees_eq, subtrees_eq] at h
  exact (List.forall₂_cons.mp h).1.unplaced_eq

theorem map_unplaced (h : List.Forall₂ (Relocates kept) trees trees') :
    trees'.map unplaced = trees.map unplaced := by
  induction h with
  | nil => rfl
  | cons first rest ih => rw [List.map_cons, List.map_cons, first.unplaced_eq, ih]

theorem flatMap (h : List.Forall₂ (Relocates kept) trees trees') :
    List.Forall₂ (Relocated kept) (trees.flatMap subtrees) (trees'.flatMap subtrees) := by
  induction h with
  | nil => exact .nil
  | cons first rest ih =>
    rw [List.flatMap_cons, List.flatMap_cons]
    exact List.rel_append first ih

theorem ofToken {token token' : Token} (ht : token'.terminal = token.terminal)
    (hx : token'.text = token.text) : Relocates kept (ofToken token) (ofToken token') := by
  refine .cons ⟨?_, nofun⟩ .nil
  exact congrArg₂ (Tree.token · · none none) (congrArg Kind.terminal ht) hx

theorem spanning {construct : Construct} (h : List.Forall₂ (Relocates kept) trees trees')
    (hs : ∀ sign inner sign' inner', construct = .unary → trees = [sign, inner] →
      trees' = [sign', inner'] → Adjoins kept sign inner sign' inner') :
    Relocates kept (spanning construct tokens trees) (spanning construct tokens' trees') := by
  rw [Relocates, subtrees_eq, subtrees_eq]
  refine .cons ⟨?_, fun sign inner sign' inner' hk => ?_⟩ (flatMap h)
  · rw [unplaced_spanning, unplaced_spanning, map_unplaced h]
  · exact hs sign inner sign' inner' (Kind.construct.inj hk)

end Relocates
end Tree

open ArithScript.Tree

theorem Touching.of_append {stop stop' : Nat} {ts us : List Token}
    (h : Touching kept stop stop' (tokens ++ more) (ts ++ us)) : Touching kept stop stop' tokens ts :=
  fun next hnext hn next' hnext' => h next (List.mem_head?_append_of_mem_head? hnext) hn next'
    (List.mem_head?_append_of_mem_head? hnext')

theorem Alike.of_append (h : Alike kept (tokens ++ more) tokens') :
    ∃ ts us, tokens' = ts ++ us ∧ Alike kept tokens ts ∧ Alike kept more us := by
  induction tokens generalizing tokens' with
  | nil => exact ⟨[], tokens', rfl, .nil, h⟩
  | cons token tokens ih =>
    cases h with
    | newline ht ht' later =>
      obtain ⟨ts, us, rfl, hts, hus⟩ := ih later
      exact ⟨_ :: ts, us, rfl, .newline ht ht' hts, hus⟩
    | token hn ht hx next later =>
      obtain ⟨ts, us, rfl, hts, hus⟩ := ih later
      exact ⟨_ :: ts, us, rfl, .token hn ht hx next.of_append hts, hus⟩

def Movable (kept : Nat → Prop) (x : GrammarSymbol) (tokens : List Token) (trees : List Tree) :
    Prop :=
  Derivable x tokens trees ∧ ∀ tokens', Alike kept tokens tokens' →
    ∃ trees', Derivable x tokens' trees' ∧ List.Forall₂ (Relocates kept) trees trees'

namespace Movable
variable {x : GrammarSymbol} {xs : List GrammarSymbol}

theorem leaf (token : Token) : Movable kept (.terminal token.terminal) [token] token.leaves := by
  refine ⟨.leaf token, fun tokens' h => ?_⟩
  cases h with
  | newline ht ht' later =>
    cases later
    refine ⟨[], ht ▸ .newline ht', ?_⟩
    rw [Token.leaves, if_pos ht]
    exact .nil
  | @token _ token' _ _ hn ht hx next later =>
    cases later
    refine ⟨[.ofToken token'], .ofToken ht hn, ?_⟩
    rw [Token.leaves, if_neg hn]
    exact .cons (.ofToken ht hx) .nil

theorem derivable (h : Along (Movable kept) xs tokens trees) : Along Derivable xs tokens trees := by
  induction h with
  | nil => exact .nil
  | cons first rest ih => exact .cons first.1 ih

theorem along (h : Along (Movable kept) xs tokens trees) (ha : Alike kept tokens tokens') :
    ∃ trees', Along Derivable xs tokens' trees' ∧ List.Forall₂ (Relocates kept) trees trees' := by
  induction h generalizing tokens' with
  | nil =>
    cases ha
    exact ⟨[], .nil, .nil⟩
  | cons first rest ih =>
    obtain ⟨ts, us, rfl, hts, hus⟩ := ha.of_append
    obtain ⟨trees₁, hd₁, hr₁⟩ := first.2 ts hts
    obtain ⟨trees₂, hd₂, hr₂⟩ := ih hus
    exact ⟨trees₁ ++ trees₂, .cons hd₁ hd₂, List.rel_append hr₁ hr₂⟩

theorem exists_sign {op : SignOp} {sign inner : Tree}
    (h : Along Derivable (Production.signed op).rhs tokens [sign, inner]) :
    ∃ token first rest, tokens = token :: first :: rest ∧ sign = .ofToken token ∧
      token.terminal ≠ .newline ∧ first.terminal ≠ .newline ∧ inner.extent.start = first.start := by
  obtain ⟨ts, us, ts', us', hsign, hinner, rfl, htrees⟩ := h.of_cons
  obtain ⟨token, ht, rfl, rfl⟩ := hsign.shape
  obtain ⟨tree, hshape, rfl⟩ := hinner.of_one.shape
  obtain ⟨first, rest, rfl⟩ := List.exists_cons_of_ne_nil hshape.tokens_ne_nil
  have hne : token.terminal ≠ .newline := by
    rw [ht]
    cases op <;> decide
  rw [Token.leaves, if_neg hne] at htrees
  obtain ⟨rfl, rfl⟩ : sign = .ofToken token ∧ inner = tree := by simpa using htrees
  refine ⟨token, first, rest, rfl, rfl, hne, hshape.terminal_ne first List.mem_cons_self, ?_⟩
  rw [hshape.extent_eq]

theorem adjoins {op : SignOp} {sign inner sign' inner' : Tree}
    (h : Along Derivable (Production.signed op).rhs tokens [sign, inner])
    (h' : Along Derivable (Production.signed op).rhs tokens' [sign', inner'])
    (ha : Alike kept tokens tokens') : Adjoins kept sign inner sign' inner' := by
  obtain ⟨token, first, rest, rfl, rfl, hsign, hfirst, hstart⟩ := exists_sign h
  obtain ⟨token', first', rest', rfl, rfl, -, -, hstart'⟩ := exists_sign h'
  have htouching : first'.start = token'.stop ↔ first.start = token.stop ∧ kept token.stop := by
    cases ha with
    | newline ht => exact absurd ht hsign
    | token hn ht hx next later => exact next first rfl hfirst first' rfl
  refine ⟨token.stop, rfl, ?_⟩
  rw [hstart, hstart']
  exact (Int.natCast_inj.trans htouching).trans (and_congr_left' Int.natCast_inj.symm)

theorem node (p : Production) (tokens : List Token) (trees : List Tree)
    (h : Along (Movable kept) p.rhs tokens trees) :
    Movable kept (.nonterminal p.lhs) tokens (p.leaves tokens trees) := by
  refine ⟨.node p (derivable h), fun tokens' ha => ?_⟩
  obtain ⟨trees', hd, hr⟩ := along h ha
  refine ⟨_, .node p hd, ?_⟩
  rw [Production.leaves, Production.leaves]
  cases hc : p.construct? with
  | none => exact hr
  | some construct =>
    refine .cons (.spanning hr ?_) .nil
    rintro sign inner sign' inner' rfl rfl rfl
    obtain ⟨op, rfl⟩ : ∃ op, p = .signed op := by
      cases p <;> simp [Production.construct?] at hc
      exact ⟨_, rfl⟩
    exact adjoins (derivable h) hd ha

end Movable

/-- A text with the same tokens at other places is read as the same tree at other places. -/
theorem Tree.exists_relocated_of_alike (h : Tree.read start source = .ok tree)
    (hscan : Token.scan start source.chars.toList = some tokens)
    (hscan' : Token.scan start source'.chars.toList = some tokens')
    (ha : Alike kept tokens tokens') :
    ∃ tree', Tree.read start source' = .ok tree' ∧ Relocates kept tree tree' := by
  obtain ⟨found, hfound, hd⟩ := Tree.read_iff_derivable.mp h
  obtain rfl := Option.some.inj (hscan.symm.trans hfound)
  obtain ⟨trees', hd', hr⟩ := (Derivable.induct Movable.leaf Movable.node hd).2 tokens' ha
  obtain ⟨tree', later, hfirst, hrest, rfl⟩ := List.forall₂_cons_left_iff.mp hr
  obtain rfl := List.forall₂_nil_left_iff.mp hrest
  exact ⟨tree', Tree.read_iff_derivable.mpr ⟨tokens', hscan', hd'⟩, hfirst⟩

theorem Tree.exists_tidy (h : Tree.read start source = .ok tree) :
    ∃ tokens, Token.scan start source.chars.toList = some tokens ∧ Tidy tokens := by
  obtain ⟨tokens, hscan, hd⟩ := Tree.read_iff_derivable.mp h
  exact ⟨tokens, hscan, Derivable.tidy hd⟩

/-- Respaced text is read as the same tree at other places. -/
theorem Tree.exists_relocated (h : Tree.read start source = .ok tree)
    (hr : Respaced start kept 0 source.chars.toList source'.chars.toList) :
    ∃ tree', Tree.read start source' = .ok tree' ∧ Relocates kept tree tree' := by
  obtain ⟨tokens, hscan, htidy⟩ := Tree.exists_tidy h
  obtain ⟨tokens', hscan', halike, -⟩ := hr.scan_some 0 hscan htidy
  exact Tree.exists_relocated_of_alike h hscan hscan' halike

end ArithScript
