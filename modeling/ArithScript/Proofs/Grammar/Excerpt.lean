import ArithScript.Proofs.Grammar.Lossless
import ArithScript.Proofs.Grammar.Truncation

/-!
A part of a text, from the first to the last of some tokens, as a text of its own.

It is divided into the same tokens, moved to its front, and it is read as the same tree, if the
tokens are those of an expression or a statement.
-/
namespace ArithScript

/-- The part of a text between two offsets. -/
def Source.excerpt (source : Source) (start stop : Nat) : Source :=
  .ofString (source.slice start stop)

theorem Source.toList_excerpt (source : Source) {start stop : Nat} (hle : start ≤ stop)
    (hlen : stop ≤ source.chars.toList.length) :
    (source.excerpt start stop).chars.toList = source.chars.toList.extract start stop := by
  have hslice : (source.excerpt start stop).chars.toList = (source.slice start stop).toList := rfl
  rw [hslice, source.slice_nat hle hlen, String.toList_ofList, List.extract_eq_take_drop]

def Token.back (d : Nat) (token : Token) : Token :=
  { token with start := token.start - d, stop := token.stop - d }

variable {text : List Char} {offset a b : Nat} {token : Token} {tokens : List Token}

theorem drop_extract (text : List Char) {offset : Nat} (ha : a ≤ offset) :
    (text.extract a b).drop (offset - a) = (text.drop offset).take (b - offset) := by
  rw [List.extract_eq_take_drop, List.drop_take, List.drop_drop,
    show a + (offset - a) = offset by omega, show b - a - (offset - a) = b - offset by omega]

theorem Skips.back {stop : Nat} (h : Skips text offset stop) (ha : a ≤ offset) (hb : stop ≤ b) :
    Skips (text.extract a b) (offset - a) (stop - a) := by
  induction h with
  | none => exact .none _
  | @some offset n stop hi rest ih =>
    have hle := rest.le
    have hignored : Lexeme.ignored ((text.extract a b).drop (offset - a)) = n + 1 := by
      rw [drop_extract text ha, Lexeme.ignored_take (by omega) (by omega), hi]
    refine .some hignored ?_
    rw [show offset - a + (n + 1) = offset + (n + 1) - a by omega]
    exact ih (by omega) hb

theorem Token.StandsIn.back (h : token.StandsIn text) (ha : a ≤ token.start)
    (hb : token.stop ≤ b) : (token.back a).StandsIn (text.extract a b) := by
  have hlt := h.lt
  have hle := h.le
  have hdrop : (text.extract a b).drop (token.back a).start =
      (text.drop token.start).take (b - token.start) := drop_extract text ha
  have hlength : (token.back a).stop - (token.back a).start = token.stop - token.start := by
    simp only [Token.back]
    omega
  refine ⟨?_, ?_, ?_, ?_⟩
  · have hlexeme := h.lexeme
    have hne : Lexeme.ofTerminal token.terminal (text.drop token.start) ≠ 0 := by omega
    rw [hdrop, hlength]
    exact (Lexeme.ofTerminal_take hne (by omega)).trans hlexeme
  · simp only [Token.back]
    omega
  · rw [List.extract_eq_take_drop, List.length_take, List.length_drop]
    simp only [Token.back]
    omega
  · rw [hdrop, hlength, List.take_take, Nat.min_eq_left (by omega)]
    exact h.text_eq

theorem stopOf_back (offset : Nat) (tokens : List Token) :
    stopOf (offset - a) (tokens.map (Token.back a)) = stopOf offset tokens - a := by
  induction tokens generalizing offset with
  | nil => rfl
  | cons token tokens ih => exact ih token.stop

theorem LaidOut.back (hl : LaidOut text offset tokens) (ha : a ≤ offset)
    (hb : stopOf offset tokens ≤ b) :
    LaidOut (text.extract a b) (offset - a) (tokens.map (Token.back a)) := by
  induction tokens generalizing offset with
  | nil => trivial
  | cons token tokens ih =>
    obtain ⟨hskips, hstands, hlater⟩ := hl
    have hstart := hskips.le
    have hlt := hstands.lt
    have hstop := hlater.le_stopOf
    rw [stopOf] at hb
    refine ⟨hskips.back ha (by omega), ?_, ?_⟩
    · exact hstands.back (by omega) (by omega)
    · exact ih hlater (by omega) hb

def Beyond (d : Nat) (tokens : List Token) : Prop :=
  ∀ token ∈ tokens, d ≤ token.start ∧ d ≤ token.stop

theorem LaidOut.beyond (hl : LaidOut text offset tokens) (ha : a ≤ offset) : Beyond a tokens := by
  intro token ht
  have hstart := hl.le_start token ht
  have hlt := (hl.standsIn token ht).lt
  omega

theorem Beyond.le_stopOf (h : Beyond a tokens) (ha : a ≤ offset) : a ≤ stopOf offset tokens := by
  induction tokens generalizing offset with
  | nil => exact ha
  | cons token tokens ih =>
    exact ih (fun t ht => h t (List.mem_cons_of_mem _ ht)) (h token List.mem_cons_self).2

/-- Cut out of a text, with ignored text behind them or not, the tokens are found again. -/
theorem scan_excerpt {start : StartSymbol} (hl : LaidOut text a tokens)
    (hend : Skips text (stopOf a tokens) b) (hb : b ≤ text.length)
    (ht : ∀ token ∈ tokens, start.hasTerminal token.terminal = true)
    (he : ∀ token ∈ tokens, token.terminal = .equal → Lexeme.compOp (text.drop token.start) = 0) :
    Token.scan start (text.extract a b) = some (tokens.map (Token.back a)) := by
  have hstart := hl.le_stopOf
  have hstop := hend.le
  have hback := hl.back (Nat.le_refl a) hstop
  rw [Nat.sub_self] at hback
  refine scanFrom_of_laidOut hback ?_ ?_ ?_
  · have hskips := hend.back hstart (Nat.le_refl b)
    have hlength : (text.extract a b).length = b - a := by
      rw [List.extract_eq_take_drop, List.length_take, List.length_drop]
      omega
    rw [← stopOf_back, Nat.sub_self] at hskips
    rwa [hlength]
  · intro token hmem
    obtain ⟨t, htokens, rfl⟩ := List.mem_map.mp hmem
    exact ht t htokens
  · intro token hmem hequal
    obtain ⟨t, htokens, rfl⟩ := List.mem_map.mp hmem
    have hlong := he t htokens hequal
    have hdrop := drop_extract text (b := b) (hl.le_start t htokens)
    rw [Token.back, hdrop, Lexeme.compOp_take (by omega), hlong]

def Extent.back (d : Nat) (extent : Extent) : Extent := ⟨extent.start - d, extent.stop - d⟩

mutual

/-- The tree over the text without the first characters, with all extents recorded. -/
def Tree.back (d : Nat) : Tree → Tree
  | .token kind text start stop =>
    .token kind text (some ((tokenExtent text start stop).back d).start)
      (some ((tokenExtent text start stop).back d).stop)
  | .node kind extent children =>
    .node kind (some ((Tree.node kind extent children).extent.back d)) (backAll d children)

def Tree.backAll (d : Nat) : List Tree → List Tree
  | [] => []
  | tree :: rest => Tree.back d tree :: Tree.backAll d rest

end

namespace Tree
variable {d : Nat} {tree : Tree}

theorem backAll_eq (trees : List Tree) : backAll d trees = trees.map (Tree.back d) := by
  induction trees with
  | nil => rfl
  | cons tree trees ih => rw [backAll, ih, List.map_cons]

@[simp] theorem extent_back : (tree.back d).extent = tree.extent.back d := by
  cases tree <;> rfl

theorem ofToken_back (hstart : d ≤ token.start) (hstop : d ≤ token.stop) :
    ofToken (token.back d) = (ofToken token).back d := by
  simp only [ofToken, Token.back, back, tokenExtent, Extent.back, Option.getD_some,
    Int.ofNat_sub hstart, Int.ofNat_sub hstop]

theorem spanning_back {construct : Construct} {children : List Tree} (hne : tokens ≠ [])
    (h : Beyond d tokens) :
    spanning construct (tokens.map (Token.back d)) (children.map (Tree.back d)) =
      (spanning construct tokens children).back d := by
  obtain ⟨token, rest, rfl⟩ := List.exists_cons_of_ne_nil hne
  obtain ⟨hstart, hstop⟩ := h token List.mem_cons_self
  have hend := Beyond.le_stopOf (fun t ht => h t (List.mem_cons_of_mem _ ht)) hstop
  have hextent : Token.extent? ((token :: rest).map (Token.back d)) =
      some ((spanning construct (token :: rest) children).extent.back d) := by
    rw [List.map_cons, extent?_cons, Token.back, stopOf_back, spanning, extent?_cons, Tree.extent,
      Extent.back, Int.ofNat_sub hstart, Int.ofNat_sub hend]
  rw [spanning, hextent, spanning, Tree.back, backAll_eq]

end Tree

def Piece.back (d : Nat) (piece : Piece) : Piece :=
  ⟨piece.tokens.map (Token.back d), piece.tree.back d⟩

theorem Piece.tokens_back (d : Nat) (piece : Piece) :
    (piece.back d).tokens = piece.tokens.map (Token.back d) := rfl

theorem Piece.tree_back (d : Nat) (piece : Piece) : (piece.back d).tree = piece.tree.back d := rfl

def ArgumentList.back (d : Nat) : ArgumentList → ArgumentList
  | .none left right => .none (left.back d) (right.back d)
  | .some left first later trailing right =>
    .some (left.back d) (first.back d) (later.map fun x => (x.1.back d, x.2.back d))
      (trailing.map (Token.back d)) (right.back d)

namespace ArgumentList
variable {d : Nat} {list : ArgumentList}

theorem tokens_back : (list.back d).tokens = list.tokens.map (Token.back d) := by
  cases list with
  | none => rfl
  | some left first later trailing right =>
    cases trailing <;>
      simp [back, tokens, Piece.tokens_back, List.flatMap_map, List.map_flatMap]

theorem pieces_back : (list.back d).pieces = list.pieces.map (Piece.back d) := by
  cases list with
  | none => rfl
  | some => simp [back, pieces]

theorem punctuated_back (hp : list.Punctuated) : (list.back d).Punctuated := by
  cases list with
  | none => exact hp
  | some left first later trailing right =>
    obtain ⟨hleft, hcommas, htrailing, hright⟩ := hp
    refine ⟨hleft, fun x hx => ?_, fun comma hc => ?_, hright⟩
    · obtain ⟨y, hy, rfl⟩ := List.mem_map.mp hx
      exact hcommas y hy
    · obtain ⟨t, ht, rfl⟩ := Option.map_eq_some_iff.mp hc
      exact htrailing t ht

theorem children_back (h : Beyond d list.tokens) :
    (list.back d).children = list.children.map (Tree.back d) := by
  have htoken : ∀ token ∈ list.tokens, Tree.ofToken (token.back d) = (Tree.ofToken token).back d :=
    fun token ht => Tree.ofToken_back (h token ht).1 (h token ht).2
  cases list with
  | none left right =>
    rw [back, children, htoken left (by simp [tokens]), htoken right (by simp [tokens])]
    rfl
  | some left first later trailing right =>
    have hlater : ∀ x ∈ later, Tree.ofToken (x.1.back d) = (Tree.ofToken x.1).back d := fun x hx =>
      htoken x.1 (by
        simp only [tokens, List.mem_cons, List.mem_append, List.mem_flatMap]
        exact .inr (.inr (.inl ⟨x, hx, .inl rfl⟩)))
    have hseparated : (later.map fun x => (x.1.back d, x.2.back d)).flatMap
        (fun x => [Tree.ofToken x.1, x.2.tree]) =
          (later.flatMap fun x => [Tree.ofToken x.1, x.2.tree]).map (Tree.back d) := by
      rw [List.flatMap_map, List.map_flatMap]
      refine List.flatMap_congr fun x hx => ?_
      rw [hlater x hx, Piece.tree_back]
      rfl
    have htrailing : (trailing.map (Token.back d)).toList.map Tree.ofToken =
        (trailing.toList.map Tree.ofToken).map (Tree.back d) := by
      cases trailing with
      | none => rfl
      | some comma => simp [htoken comma (by simp [tokens])]
    simp only [back, children, laterTrees, hseparated, htrailing, Piece.tree_back, List.map_cons,
      List.map_append, List.map_nil, htoken left (by simp [tokens]),
      htoken right (by simp [tokens])]

theorem tree_back (h : Beyond d list.tokens) : (list.back d).tree = list.tree.back d := by
  rw [tree, tokens_back, children_back h, Tree.spanning_back list.tokens_ne_nil h, tree]

end ArgumentList

theorem Beyond.ofToken_back {d : Nat} (h : Beyond d tokens) (token : Token) (ht : token ∈ tokens) :
    Tree.ofToken (token.back d) = (Tree.ofToken token).back d :=
  Tree.ofToken_back (h token ht).1 (h token ht).2

theorem Shaped.back {n : Tier} {d : Nat} {tree : Tree} (h : Shaped n tokens tree)
    (hd : Beyond d tokens) : Shaped n (tokens.map (Token.back d)) (tree.back d) := by
  induction h with
  | operand ht =>
    rw [← hd.ofToken_back _ List.mem_cons_self]
    exact .operand ht
  | @paren n left right ts t hl hr inner ih =>
    have hshape := ih fun u hu => hd u (by simp [hu])
    rw [← Tree.spanning_back (by simp) hd]
    simp only [List.map_cons, List.map_append, List.map_nil, ← hd.ofToken_back left (by simp),
      ← hd.ofToken_back right (by simp)]
    exact .paren hl hr hshape
  | @call n ts callee list hn function hp arguments ih iha =>
    have hfunction := ih fun u hu => hd u (List.mem_append_left _ hu)
    have hlist : Beyond d list.tokens := fun u hu => hd u (List.mem_append_right _ hu)
    have harguments : ∀ p ∈ (list.back d).pieces, Shaped .expr p.tokens p.tree := by
      rw [ArgumentList.pieces_back, List.forall_mem_map]
      exact fun p hmem =>
        iha p hmem fun u hu => hlist u ((ArgumentList.tokens_within hmem).subset hu)
    rw [← Tree.spanning_back (call hn function hp arguments).tokens_ne_nil hd]
    simp only [List.map_cons, List.map_append, List.map_nil, ← ArgumentList.tokens_back,
      ← ArgumentList.tree_back hlist]
    exact .call hn hfunction (ArgumentList.punctuated_back hp) harguments
  | @signed n sign ts t hn hs inner ih =>
    have hshape := ih fun u hu => hd u (List.mem_cons_of_mem _ hu)
    rw [← Tree.spanning_back (by simp) hd]
    simp only [List.map_cons, List.map_nil, ← hd.ofToken_back sign List.mem_cons_self]
    exact .signed hn hs hshape
  | @infixed n m op ts ts' t t' hn ho left right ihl ihr =>
    have hleft := ihl fun u hu => hd u (List.mem_append_left _ hu)
    have hright := ihr fun u hu => hd u (List.mem_append_right _ (List.mem_cons_of_mem _ hu))
    rw [← Tree.spanning_back (by simp) hd]
    simp only [List.map_cons, List.map_append, List.map_nil,
      ← hd.ofToken_back op (by simp)]
    exact .infixed hn ho hleft hright

theorem ShapedStatement.back {d : Nat} {tree : Tree} (h : ShapedStatement tokens tree)
    (hd : Beyond d tokens) : ShapedStatement (tokens.map (Token.back d)) (tree.back d) := by
  cases h with
  | @assignment name sign ts t hn hs value =>
    have hvalue := value.back (d := d) fun u hu => hd u (by simp [hu])
    rw [← Tree.spanning_back (by simp) hd]
    simp only [List.map_cons, List.map_nil, ← hd.ofToken_back name (by simp),
      ← hd.ofToken_back sign (by simp)]
    exact .assignment hn hs hvalue
  | expr value =>
    rw [← Tree.spanning_back value.tokens_ne_nil hd]
    exact .expr (value.back hd)

end ArithScript
