import ArithScript.Proofs.Grammar.Reading
import ArithScript.Proofs.Lowering.Fragment
import ArithScript.Proofs.Tree.Leaves

/-!
The concrete tree of a text keeps all of the text but line breaks and what is ignored.

Its leaves are tokens of the text in order, and the nodes cover what their leaves cover. The
extents of nodes are recorded from the tokens read, line breaks included, so they can differ from
those of the leaves at a script and nowhere else.
-/
namespace ArithScript

/-- The parts that a text is divided into. -/
inductive Segment
  | token (token : Token)
  | ignored (start stop : Nat)

/-- The tokens among the parts. -/
def Segment.tokens (segments : List Segment) : List Token :=
  segments.filterMap fun
    | .token t => some t
    | .ignored .. => none

/-- The parts follow each other from the offset to the end of the text without a gap. Each is a
token or one piece of ignored text. -/
def Tiles (text : List Char) : Nat → List Segment → Prop
  | offset, [] => offset = text.length
  | offset, .token token :: rest =>
    token.start = offset ∧ token.StandsIn text ∧ Tiles text token.stop rest
  | offset, .ignored start stop :: rest =>
    start = offset ∧ start < stop ∧ Lexeme.ignored (text.drop start) = stop - start ∧
      Tiles text stop rest

variable {text : List Char} {offset : Nat} {tokens : List Token}

theorem exists_tiles {start : StartSymbol} (ho : offset ≤ text.length)
    (h : Token.scanFrom start offset (text.drop offset) = some tokens) :
    ∃ segments, Tiles text offset segments ∧ Segment.tokens segments = tokens := by
  generalize hrest : text.drop offset = rest at h
  fun_induction Token.scanFrom start offset rest generalizing tokens with
  | case1 offset =>
    have hend : offset = text.length := by
      have := List.drop_eq_nil_iff.mp hrest
      omega
    exact ⟨[], hend, by simpa [Segment.tokens] using h⟩
  | case2 offset rest hne n hn ih =>
    subst hrest
    have hle := Lexeme.ignored_le (text.drop offset)
    rw [hn, List.length_drop] at hle
    obtain ⟨segments, htiles, htokens⟩ := ih (by omega) (by rw [List.drop_drop]) h
    refine ⟨.ignored offset (offset + (n + 1)) :: segments, ⟨rfl, by omega, ?_, htiles⟩, htokens⟩
    rw [hn]
    omega
  | case3 offset rest hne hi t n hfirst ih =>
    subst hrest
    obtain ⟨later, hlater, rfl⟩ := Option.map_eq_some_iff.mp h
    have hstands := Token.standsIn_ofPrefix hfirst
    obtain ⟨segments, htiles, htokens⟩ := ih hstands.le (by rw [List.drop_drop]) hlater
    refine ⟨.token _ :: segments, ⟨rfl, hstands, htiles⟩, ?_⟩
    rw [Segment.tokens, List.filterMap_cons]
    exact congrArg _ htokens
  | case4 => contradiction

namespace Tree

theorem leaves_ofToken (token : Token) : (ofToken token).leaves = [ofToken token] := rfl

theorem leaves_spanning (construct : Construct) (tokens : List Token) (children : List Tree) :
    (spanning construct tokens children).leaves = leavesAll children := rfl

/-- The node is no script, and the extent recorded for it is the one that it would have by its leaves
without it. Tokens are such by themselves. -/
def Recorded : Tree → Prop
  | .token .. => True
  | .node kind extent children =>
    kind ≠ .construct .script ∧ extent = some (Tree.node kind none children).extent

theorem extent_of_leavesAll {kind : Kind} {children : List Tree}
    (h : leavesAll children = tokens.map ofToken) :
    (Tree.node kind none children).extent = (Token.extent? tokens).getD ⟨0, 0⟩ := by
  rw [extent_node, h, List.head?_map, List.getLast?_map, Token.extent?]
  cases tokens.head? <;> cases tokens.getLast? <;> rfl

theorem recorded_ofToken (token : Token) : ∀ t ∈ (ofToken token).subtrees, t.Recorded :=
  (forall_subtrees_ofToken token).mpr trivial

theorem recorded_spanning {construct : Construct} {children : List Tree}
    (hc : construct ≠ .script) (hne : tokens ≠ []) (hleaves : leavesAll children = tokens.map ofToken)
    (h : ∀ child ∈ children, ∀ t ∈ child.subtrees, t.Recorded) :
    ∀ t ∈ (spanning construct tokens children).subtrees, t.Recorded := by
  obtain ⟨token, rest, rfl⟩ := List.exists_cons_of_ne_nil hne
  refine (forall_subtrees _).mpr ⟨⟨by simpa using hc, ?_⟩, h⟩
  rw [extent_of_leavesAll hleaves, extent?_cons]
  rfl

end Tree

open ArithScript.Tree

namespace ArgumentList

theorem leavesAll_children {list : ArgumentList}
    (h : ∀ p ∈ list.pieces, p.tree.leaves = p.tokens.map ofToken) :
    leavesAll list.children = list.tokens.map ofToken := by
  cases list with
  | none left right => rfl
  | some left first later trailing right =>
    have hfirst := h first List.mem_cons_self
    have hlater : leavesAll (later.flatMap fun x => [.ofToken x.1, x.2.tree]) =
        (later.flatMap fun x => x.1 :: x.2.tokens).map ofToken := by
      have hpieces : ∀ x ∈ later, x.2.tree.leaves = x.2.tokens.map ofToken := fun x hx =>
        h x.2 (List.mem_cons_of_mem _ (List.mem_map_of_mem hx))
      clear h
      induction later with
      | nil => rfl
      | cons x later ih =>
        have hx := hpieces x List.mem_cons_self
        have hrest := ih fun y hy => hpieces y (List.mem_cons_of_mem _ hy)
        simp [List.flatMap_cons, leavesAll, leaves_ofToken, hx, hrest]
    cases trailing <;>
      simp [children, laterTrees, ArgumentList.tokens, leavesAll, leavesAll_append, leaves_ofToken,
        hfirst, hlater]

theorem mem_children {list : ArgumentList} {t : Tree} (h : t ∈ list.children) :
    (∃ token ∈ list.tokens, t = .ofToken token) ∨ ∃ p ∈ list.pieces, t = p.tree := by
  cases list with
  | none left right =>
    simp only [children, List.mem_cons, List.not_mem_nil, or_false] at h
    rcases h with rfl | rfl
    · exact .inl ⟨left, by simp [ArgumentList.tokens], rfl⟩
    · exact .inl ⟨right, by simp [ArgumentList.tokens], rfl⟩
  | some left first later trailing right =>
    simp only [children, laterTrees, List.mem_cons, List.mem_append, List.mem_flatMap,
      List.mem_map, List.not_mem_nil, or_false] at h
    rcases h with rfl | rfl | ⟨x, hx, rfl | rfl⟩ | ⟨comma, hcomma, rfl⟩ | rfl
    · exact .inl ⟨left, by simp [ArgumentList.tokens], rfl⟩
    · exact .inr ⟨first, List.mem_cons_self, rfl⟩
    · have hmem : x.1 ∈ later.flatMap fun x => x.1 :: x.2.tokens :=
        List.mem_flatMap.mpr ⟨x, hx, List.mem_cons_self⟩
      exact .inl ⟨x.1, by simp [ArgumentList.tokens, hmem], rfl⟩
    · exact .inr ⟨x.2, List.mem_cons_of_mem _ (List.mem_map_of_mem hx), rfl⟩
    · exact .inl ⟨comma, by simp [ArgumentList.tokens, Option.mem_toList.mp hcomma], rfl⟩
    · exact .inl ⟨right, by simp [ArgumentList.tokens], rfl⟩

theorem hasTerminal {list : ArgumentList} (hp : list.Punctuated)
    (h : ∀ p ∈ list.pieces, ∀ token ∈ p.tokens, StartSymbol.expr.hasTerminal token.terminal = true) :
    ∀ token ∈ list.tokens, StartSymbol.expr.hasTerminal token.terminal = true := by
  intro token ht
  cases list with
  | none left right =>
    simp only [ArgumentList.tokens, List.mem_cons, List.not_mem_nil, or_false] at ht
    rcases ht with rfl | rfl
    · rw [hp.1]
      rfl
    · rw [hp.2]
      rfl
  | some left first later trailing right =>
    obtain ⟨hleft, hcommas, htrailing, hright⟩ := hp
    simp only [ArgumentList.tokens, List.mem_cons, List.mem_append, List.mem_flatMap,
      Option.mem_toList, List.not_mem_nil, or_false] at ht
    rcases ht with rfl | ht | ⟨x, hx, rfl | ht⟩ | ht | rfl
    · rw [hleft]
      rfl
    · exact h first List.mem_cons_self token ht
    · rw [hcommas x hx]
      rfl
    · exact h x.2 (List.mem_cons_of_mem _ (List.mem_map_of_mem hx)) token ht
    · rw [htrailing token ht]
      rfl
    · rw [hright]
      rfl

end ArgumentList

namespace Shaped
variable {n : Tier} {tree : Tree}

theorem leaves_eq (h : Shaped n tokens tree) : tree.leaves = tokens.map ofToken := by
  induction h with
  | operand => rfl
  | paren hl hr inner ih =>
    rw [leaves_spanning]
    simp [leavesAll, leaves_ofToken, ih]
  | call hn function hp arguments ih iha =>
    have hlist := ArgumentList.leavesAll_children iha
    rw [leaves_spanning, leavesAll, leavesAll, leavesAll, ih, ArgumentList.tree, leaves_spanning,
      hlist, List.append_nil, List.map_append]
  | signed hn hs inner ih =>
    rw [leaves_spanning]
    simp [leavesAll, leaves_ofToken, ih]
  | infixed hn ho left right ihl ihr =>
    rw [leaves_spanning]
    simp [leavesAll, leaves_ofToken, ihl, ihr]

theorem hasTerminal (h : Shaped n tokens tree) :
    ∀ token ∈ tokens, StartSymbol.expr.hasTerminal token.terminal = true := by
  have hall {t : Terminal} {ts : List Terminal} (ht : t ∈ ts)
      (hts : ts.all StartSymbol.expr.hasTerminal = true) : StartSymbol.expr.hasTerminal t = true :=
    List.all_eq_true.mp hts t ht
  induction h with
  | operand ht =>
    intro token htoken
    rw [List.mem_singleton.mp htoken]
    exact hall ht (by decide)
  | paren hl hr inner ih =>
    intro token ht
    rw [List.mem_cons, List.mem_append, List.mem_singleton] at ht
    rcases ht with rfl | ht | rfl
    · rw [hl]
      rfl
    · exact ih token ht
    · rw [hr]
      rfl
  | call hn function hp arguments ih iha =>
    intro token ht
    rcases List.mem_append.mp ht with ht | ht
    · exact ih token ht
    · exact ArgumentList.hasTerminal hp iha token ht
  | signed hn hs inner ih =>
    intro token ht
    rcases List.mem_cons.mp ht with rfl | ht
    · exact hall hs (by decide)
    · exact ih token ht
  | @infixed n m op _ _ _ _ hn ho left right ihl ihr =>
    intro token ht
    rw [List.mem_append, List.mem_cons] at ht
    rcases ht with ht | rfl | ht
    · exact ihl token ht
    · exact hall ho (by cases m <;> decide)
    · exact ihr token ht

theorem terminal_ne (h : Shaped n tokens tree) : ∀ token ∈ tokens, token.terminal ≠ .newline := by
  intro token ht hn
  have hterminal := h.hasTerminal token ht
  rw [hn] at hterminal
  contradiction

theorem recorded (h : Shaped n tokens tree) : ∀ t ∈ tree.subtrees, t.Recorded := by
  induction h with
  | operand => exact recorded_ofToken _
  | paren hl hr inner ih =>
    have hleaves := (paren (n := .atom) hl hr inner).leaves_eq
    refine recorded_spanning (by decide) (by simp) hleaves ?_
    rw [List.forall_mem_cons, List.forall_mem_cons, List.forall_mem_singleton]
    exact ⟨recorded_ofToken _, ih, recorded_ofToken _⟩
  | @call n _ _ list hn function hp arguments ih iha =>
    have hshape := call hn function hp arguments
    refine recorded_spanning (by decide) hshape.tokens_ne_nil hshape.leaves_eq ?_
    rw [List.forall_mem_cons, List.forall_mem_singleton]
    have hlist := ArgumentList.leavesAll_children fun p hp => (arguments p hp).leaves_eq
    refine ⟨ih, recorded_spanning (by decide) list.tokens_ne_nil hlist fun child hchild => ?_⟩
    rcases ArgumentList.mem_children hchild with ⟨token, -, rfl⟩ | ⟨p, hp, rfl⟩
    · exact recorded_ofToken token
    · exact iha p hp
  | signed hn hs inner ih =>
    have hleaves := (signed hn hs inner).leaves_eq
    refine recorded_spanning (by decide) (by simp) hleaves ?_
    rw [List.forall_mem_cons, List.forall_mem_singleton]
    exact ⟨recorded_ofToken _, ih⟩
  | infixed hn ho left right ihl ihr =>
    have hleaves := (infixed hn ho left right).leaves_eq
    refine recorded_spanning (by decide) (by simp) hleaves ?_
    rw [List.forall_mem_cons, List.forall_mem_cons, List.forall_mem_singleton]
    exact ⟨ihl, recorded_ofToken _, ihr⟩

end Shaped

namespace ShapedStatement
variable {tree : Tree}

theorem leaves_eq (h : ShapedStatement tokens tree) : tree.leaves = tokens.map ofToken := by
  cases h with
  | assignment hn hs value =>
    rw [leaves_spanning]
    simp [leavesAll, leaves_ofToken, value.leaves_eq]
  | expr value =>
    rw [leaves_spanning]
    simp [leavesAll, value.leaves_eq]

theorem terminal_ne (h : ShapedStatement tokens tree) :
    ∀ token ∈ tokens, token.terminal ≠ .newline := by
  cases h with
  | assignment hn hs value =>
    rw [List.forall_mem_cons, List.forall_mem_cons]
    exact ⟨by simp [hn], by simp [hs], value.terminal_ne⟩
  | expr value => exact value.terminal_ne

theorem recorded (h : ShapedStatement tokens tree) : ∀ t ∈ tree.subtrees, t.Recorded := by
  have hleaves := h.leaves_eq
  cases h with
  | assignment hn hs value =>
    refine recorded_spanning (by decide) (by simp) hleaves ?_
    rw [List.forall_mem_cons, List.forall_mem_cons, List.forall_mem_singleton]
    exact ⟨recorded_ofToken _, recorded_ofToken _, value.recorded⟩
  | expr value =>
    refine recorded_spanning (by decide) value.tokens_ne_nil hleaves ?_
    rw [List.forall_mem_singleton]
    exact value.recorded

end ShapedStatement

/-- The tokens that are kept as leaves. -/
def kept (tokens : List Token) : List Token := tokens.filter (·.terminal ≠ .newline)

theorem kept_append (tokens more : List Token) : kept (tokens ++ more) = kept tokens ++ kept more :=
  List.filter_append ..

theorem kept_eq_self (h : ∀ token ∈ tokens, token.terminal ≠ .newline) : kept tokens = tokens :=
  List.filter_eq_self.mpr fun token ht => by simpa using h token ht

theorem kept_newline {token : Token} (h : token.terminal = .newline) : kept [token] = [] := by
  simp [kept, h]

theorem leavesAll_lines (lines : List (Piece × Token))
    (hs : ∀ x ∈ lines, ShapedStatement x.1.tokens x.1.tree)
    (hb : ∀ x ∈ lines, x.2.terminal = .newline) :
    leavesAll (lines.map fun x => x.1.tree) =
      (kept (lines.flatMap fun x => x.1.tokens ++ [x.2])).map ofToken := by
  induction lines with
  | nil => rfl
  | cons x lines ih =>
    have hx := hs x List.mem_cons_self
    have hlater := ih (fun y hy => hs y (List.mem_cons_of_mem _ hy))
      fun y hy => hb y (List.mem_cons_of_mem _ hy)
    rw [List.map_cons, leavesAll, List.flatMap_cons, kept_append, kept_append,
      kept_eq_self hx.terminal_ne, kept_newline (hb x List.mem_cons_self), List.append_nil,
      List.map_append, hx.leaves_eq, hlater]

theorem ScriptParts.leaves_tree {parts : ScriptParts} (h : parts.Lined) :
    parts.tree.leaves = (kept parts.tokens).map ofToken := by
  have hlines := leavesAll_lines parts.lines
    (fun x hx => h.statements x.1 (List.mem_append_left _ (List.mem_map_of_mem hx))) h.breaks
  have hlast : leavesAll (parts.last.toList.map Piece.tree) =
      (kept (parts.last.elim [] Piece.tokens)).map ofToken := by
    cases hp : parts.last with
    | none => rfl
    | some p =>
      have hs := h.statements p (List.mem_append_right _ (by simp [hp]))
      simp [leavesAll, hs.leaves_eq, kept_eq_self hs.terminal_ne]
  have hleading : kept parts.leading.toList = [] := by
    cases hp : parts.leading with
    | none => rfl
    | some token => exact kept_newline (h.leading token hp)
  rw [tree, leaves_spanning, statements, List.map_append, List.map_map, leavesAll_append,
    ScriptParts.tokens, kept_append, kept_append, hleading, List.nil_append, List.map_append, hlast]
  exact congrArg (· ++ _) hlines

/-- The tree keeps the text, divided into the given parts: its leaves are all the tokens but line
breaks, with their texts, one after the other; every node covers what its leaves cover, except that
a script, which is the whole tree, reaches from the first to the last token with line breaks. -/
structure Tree.Keeps (source : Source) (segments : List Segment) (tree : Tree) : Prop where
  tiles : Tiles source.chars.toList 0 segments
  leaves_eq : tree.leaves = (kept (Segment.tokens segments)).map ofToken
  spelling_eq : ∀ leaf ∈ tree.leaves, leaf.spelling = leaf.textIn source
  extent_lt : ∀ leaf ∈ tree.leaves, leaf.extent.start < leaf.extent.stop
  pairwise : tree.leaves.Pairwise fun leaf next => leaf.extent.stop ≤ next.extent.start
  recorded : ∀ t ∈ tree.subtrees, t.Recorded ∨
    t = tree ∧ t.kind = .construct .script ∧
      t.extent = (Token.extent? (Segment.tokens segments)).getD ⟨0, 0⟩

namespace Tree
variable {start : StartSymbol} {source : Source} {tree : Tree}

theorem exists_keeps (hscan : Token.scan start source.chars.toList = some tokens)
    (hleaves : tree.leaves = (kept tokens).map ofToken)
    (hrecorded : ∀ t ∈ tree.subtrees, t.Recorded ∨
      t = tree ∧ t.kind = .construct .script ∧ t.extent = (Token.extent? tokens).getD ⟨0, 0⟩) :
    ∃ segments, tree.Keeps source segments := by
  obtain ⟨segments, htiles, rfl⟩ := exists_tiles (Nat.zero_le _) hscan
  have hl := laidOut_of_scan hscan
  have hleaf : ∀ leaf ∈ tree.leaves, ∃ token, token.StandsIn source.chars.toList ∧
      leaf = ofToken token := by
    intro leaf hmem
    rw [hleaves] at hmem
    obtain ⟨token, htoken, rfl⟩ := List.mem_map.mp hmem
    exact ⟨token, hl.standsIn token (List.mem_of_mem_filter htoken), rfl⟩
  refine ⟨segments, htiles, hleaves, fun leaf hmem => ?_, fun leaf hmem => ?_, ?_, hrecorded⟩
  · obtain ⟨token, hstands, rfl⟩ := hleaf leaf hmem
    rw [spelling_ofToken, textIn_ofToken hstands]
  · obtain ⟨token, hstands, rfl⟩ := hleaf leaf hmem
    exact Int.ofNat_lt.mpr hstands.lt
  · rw [hleaves, List.pairwise_map]
    exact (hl.pairwise.filter _).imp fun h => Int.ofNat_le.mpr h

theorem extent_script {parts : ScriptParts} (h : parts.Lined) :
    parts.tree.extent = (Token.extent? parts.tokens).getD ⟨0, 0⟩ := by
  rcases hp : parts.tokens with _ | ⟨token, rest⟩
  · have hleaves := ScriptParts.leaves_tree h
    rw [ScriptParts.tree, leaves_spanning, hp] at hleaves
    rw [ScriptParts.tree, hp]
    exact extent_of_leavesAll hleaves
  · rw [ScriptParts.tree, hp, spanning, extent?_cons]
    rfl

/-- Reading a text as a tree loses nothing of it. -/
theorem exists_keeps_of_read (h : Tree.read start source = .ok tree) :
    ∃ segments, tree.Keeps source segments := by
  obtain ⟨tokens, hscan, hd⟩ := Tree.read_iff_derivable.mp h
  cases start with
  | script =>
    obtain ⟨parts, hp, rfl, htree⟩ := hd.shape
    obtain rfl := List.singleton_inj.mp htree
    refine exists_keeps hscan (ScriptParts.leaves_tree hp) ?_
    refine (forall_subtrees _).mpr ⟨.inr ⟨rfl, rfl, extent_script hp⟩, fun child hc t ht => ?_⟩
    obtain ⟨p, hmem, rfl⟩ := List.mem_map.mp hc
    exact .inl ((hp.statements p hmem).recorded t ht)
  | expr =>
    obtain ⟨t, ht, htree⟩ := hd.shape
    obtain rfl := List.singleton_inj.mp htree
    have hleaves : tree.leaves = (kept tokens).map ofToken := by
      rw [kept_eq_self ht.terminal_ne, ht.leaves_eq]
    exact exists_keeps hscan hleaves fun u hu => .inl (ht.recorded u hu)

/-- The script of `a` and a comment covers both, and its statement the name alone. -/
theorem exists_keeps_name :
    let name := Tree.token (.terminal .name) "a" (some 0) (some 1)
    let tree := Tree.node (.construct .script) (some ⟨0, 5⟩)
      [.node (.construct .exprStatement) (some ⟨0, 1⟩) [name]]
    Tree.read .script (.ofString "a # b") = .ok tree ∧
      ∃ segments, tree.Keeps (.ofString "a # b") segments := by
  intro name tree
  let a : Token := ⟨.name, "a", 0, 1⟩
  let comment : Token := ⟨.newline, "# b", 2, 5⟩
  let line : Piece := ⟨[a], .spanning .exprStatement [a] [name]⟩
  have hline : ShapedStatement line.tokens line.tree := .expr (.operand (by decide))
  have hp : ScriptParts.Lined ⟨none, [(line, comment)], none⟩ := by
    refine ⟨by simp, by simp [comment], fun p hp => ?_⟩
    rw [ScriptParts.statements, List.map_singleton, Option.toList_none, List.append_nil] at hp
    rw [List.mem_singleton.mp hp]
    exact hline
  have hscan : Token.scan .script "a # b".toList = some [a, comment] := by decide +kernel
  have h : Tree.read .script (.ofString "a # b") = .ok tree :=
    Tree.read_script_iff.mpr ⟨_, hp, hscan, rfl⟩
  exact ⟨h, exists_keeps_of_read h⟩

end Tree
end ArithScript
