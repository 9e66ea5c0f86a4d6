import ArithScript.Proofs.Grammar.Excerpt
import ArithScript.Proofs.Lowering.Supported

/-!
What the trees of an excerpt stand for: the same as in the whole text, with all places moved to the
front of the excerpt.
-/
namespace ArithScript

def Span.moved (source : Source) (d : Nat) (span : Span) : Span :=
  match span.start, span.stop with
  | some start, some stop => .ofOffsets source (start - d) (stop - d)
  | _, _ => span

def Expr.moved (source : Source) (d : Nat) : Expr → Expr
  | .number value loc => .number value (loc.map (Span.moved source d))
  | .ident name loc => .ident name (loc.map (Span.moved source d))
  | .call1 f argument loc => .call1 f (argument.moved source d) (loc.map (Span.moved source d))
  | .call2 f first second loc =>
    .call2 f (first.moved source d) (second.moved source d) (loc.map (Span.moved source d))
  | .binary op left right loc =>
    .binary op (left.moved source d) (right.moved source d) (loc.map (Span.moved source d))
  | .unknown => .unknown

def Stmt.moved (source : Source) (d : Nat) : Stmt → Stmt
  | .define name value loc =>
    .define name (value.moved source d) (loc.map (Span.moved source d))
  | .expr e loc => .expr (e.moved source d) (loc.map (Span.moved source d))
  | .unknown => .unknown

variable {source : Source} {offset a b : Nat} {tokens : List Token} {tree : Tree}

namespace Tree

theorem children_back {d : Nat} : (tree.back d).children = tree.children.map (Tree.back d) := by
  cases tree with
  | token => rfl
  | node => exact backAll_eq _

theorem location_back :
    (tree.back a).location (source.excerpt a b) =
      (tree.location source).moved (source.excerpt a b) a := by
  rw [location, extent_back]
  rfl

theorem textIn_back {x y : Nat} (he : tree.extent = ⟨x, y⟩) (ha : a ≤ x) (hxy : x ≤ y) (hb : y ≤ b)
    (hlen : b ≤ source.chars.toList.length) :
    (tree.back a).textIn (source.excerpt a b) = tree.textIn source := by
  have hchars := source.toList_excerpt (Nat.le_trans (Nat.le_trans ha hxy) hb) hlen
  have hlength : y - a ≤ (source.excerpt a b).chars.toList.length := by
    rw [hchars, List.extract_eq_take_drop, List.length_take, List.length_drop]
    omega
  rw [textIn, extent_back, he, Extent.back, ← Int.ofNat_sub ha, ← Int.ofNat_sub (by omega : a ≤ y),
    Source.slice_nat _ (by omega) hlength, hchars, drop_extract _ ha, List.take_take,
    show min (y - a - (x - a)) (b - x) = y - x by omega, textIn, he]
  exact (source.slice_nat hxy (by omega)).symm

theorem toNumber_back {problem : Problem} {e : Expr}
    (ht : (tree.back a).textIn (source.excerpt a b) = tree.textIn source)
    (he : tree.toNumber source problem = .ok e) :
    (tree.back a).toNumber (source.excerpt a b) problem = .ok (e.moved (source.excerpt a b) a) := by
  obtain ⟨value, hvalue, rfl⟩ := toNumber_eq_ok_iff.mp he
  exact toNumber_eq_ok_iff.mpr ⟨value, by rw [ht, hvalue], by rw [location_back]; rfl⟩

/-! Extents do not count for what is supported, but for those of a sign and its number, which move
together. -/

variable {d : Nat}

theorem kind_back : (tree.back d).kind = tree.kind := by
  cases tree <;> rfl

mutual

theorem spelling_back (d : Nat) (tree : Tree) : (tree.back d).spelling = tree.spelling := by
  match tree with
  | .token .. => rfl
  | .node _ _ children => exact spellingAll_backAll d children

theorem spellingAll_backAll (d : Nat) (trees : List Tree) :
    spellingAll (backAll d trees) = spellingAll trees := by
  match trees with
  | [] => rfl
  | tree :: rest => rw [backAll, spellingAll, spellingAll, spelling_back, spellingAll_backAll]

end

theorem length_arguments_back : (tree.back d).arguments.length = tree.arguments.length := by
  rw [arguments, children_back, List.filter_map, List.length_map, arguments]
  simp only [Function.comp_def, kind_back]

theorem supported_back : (tree.back d).Supported ↔ tree.Supported := by
  rw [Supported, Supported, kind_back, children_back]
  split
  · rfl
  · rfl
  · rcases tree.children with _ | ⟨left, _ | ⟨op, _ | ⟨right, _ | _⟩⟩⟩ <;> simp [kind_back]
  · rcases tree.children with _ | ⟨sign, _ | ⟨number, _ | _⟩⟩ <;> simp [kind_back, Extent.back]
  · rcases tree.children with _ | ⟨callee, _ | ⟨list, _ | _⟩⟩ <;>
      simp [kind_back, spelling_back, length_arguments_back]
  · rfl

mutual

theorem forall_supported_back (d : Nat) (tree : Tree) :
    (∀ t ∈ (tree.back d).subtrees, t.Supported) ↔ ∀ t ∈ tree.subtrees, t.Supported := by
  match tree with
  | .token kind text start stop =>
    have hself := @supported_back (.token kind text start stop) d
    exact List.forall_mem_singleton.trans (hself.trans List.forall_mem_singleton.symm)
  | .node kind extent children =>
    have hself := @supported_back (.node kind extent children) d
    rw [back] at hself
    rw [back, subtrees, subtrees, List.forall_mem_cons, List.forall_mem_cons, hself,
      forall_supported_backAll d children]

theorem forall_supported_backAll (d : Nat) (trees : List Tree) :
    (∀ t ∈ subtreesAll (backAll d trees), t.Supported) ↔
      ∀ t ∈ subtreesAll trees, t.Supported := by
  match trees with
  | [] => rfl
  | tree :: rest =>
    rw [backAll, subtreesAll, subtreesAll, List.forall_mem_append, List.forall_mem_append,
      forall_supported_back d tree, forall_supported_backAll d rest]

end

end Tree

theorem Expr.ofCall_moved {name : String} {arguments : List Expr} {loc : Span} {e : Expr}
    (d : Nat) (h : Expr.ofCall name arguments loc = .ok e) :
    Expr.ofCall name (arguments.map (Expr.moved source d)) (loc.moved source d) =
      .ok (e.moved source d) := by
  rcases Expr.ofCall_eq_ok_iff.mp h with ⟨f, x, rfl, hf, rfl⟩ | ⟨f, x, y, rfl, hf, rfl⟩
  · exact Expr.ofCall_eq_ok_iff.mpr (.inl ⟨f, _, rfl, hf, rfl⟩)
  · exact Expr.ofCall_eq_ok_iff.mpr (.inr ⟨f, _, _, rfl, hf, rfl⟩)

theorem Token.StandsIn.textIn_back {token : Token} (h : token.StandsIn source.chars.toList)
    (ha : a ≤ token.start) (hb : token.stop ≤ b) (hlen : b ≤ source.chars.toList.length) :
    ((Tree.ofToken token).back a).textIn (source.excerpt a b) =
      (Tree.ofToken token).textIn source :=
  Tree.textIn_back rfl ha (Nat.le_of_lt h.lt) hb hlen

theorem Shaped.textIn_back {n : Tier} (h : Shaped n tokens tree)
    (hl : LaidOut source.chars.toList offset tokens) (ha : a ≤ offset)
    (hb : stopOf offset tokens ≤ b) (hlen : b ≤ source.chars.toList.length) :
    (tree.back a).textIn (source.excerpt a b) = tree.textIn source := by
  obtain ⟨token, rest, rfl⟩ := List.exists_cons_of_ne_nil h.tokens_ne_nil
  have hstart := hl.1.le
  exact Tree.textIn_back h.extent_eq (by omega) hl.start_le_stopOf hb hlen

/-- In an excerpt with its tokens, the tree of an expression stands for the same. -/
theorem Shaped.toExpr_back {n : Tier} (h : Shaped n tokens tree)
    (hl : LaidOut source.chars.toList offset tokens) (ha : a ≤ offset)
    (hb : stopOf offset tokens ≤ b) (hlen : b ≤ source.chars.toList.length) {e : Expr}
    (he : tree.toExpr source = .ok e) :
    (tree.back a).toExpr (source.excerpt a b) = .ok (e.moved (source.excerpt a b) a) := by
  induction h generalizing offset e with
  | @operand n token ht =>
    have htext := (Shaped.operand (n := n) ht).textIn_back hl ha hb hlen
    simp only [List.mem_cons, List.not_mem_nil, or_false] at ht
    rcases ht with ht | ht | ht
    · rw [Tree.toExpr_number (congrArg _ ht)] at he
      rw [Tree.toExpr_number (congrArg _ ht)]
      exact Tree.toNumber_back htext he
    · rw [Tree.toExpr_name (congrArg _ ht)] at he
      rw [Tree.toExpr_name (congrArg _ ht), htext, Tree.location_back, ← Except.ok.inj he]
      rfl
    · rw [Tree.toExpr_unsupported (.inl (congrArg _ ht))] at he
      contradiction
  | paren =>
    rw [Tree.toExpr_unsupported (.inr rfl)] at he
    contradiction
  | @call n ts callee list hn function hp arguments ih iha =>
    obtain ⟨hlaidFunction, hlaidList⟩ := laidOut_append.mp hl
    rw [stopOf_append] at hb
    have hstart := hlaidFunction.le_stopOf
    have hstop := hlaidList.le_stopOf
    have hbeyond : Beyond a list.tokens := hlaidList.beyond (by omega)
    obtain ⟨args, hargs, hcall⟩ := (Tree.Mirrored.toExpr_call_eq_ok_iff hp arguments e).mp he
    have hpieces : ∀ q ∈ (list.back a).pieces, Shaped .expr q.tokens q.tree := by
      rw [ArgumentList.pieces_back, List.forall_mem_map]
      exact fun p hmem => (arguments p hmem).back fun u hu =>
        hbeyond u ((ArgumentList.tokens_within hmem).subset hu)
    have hback : (list.tree.back a).toArguments (source.excerpt a b) =
        .ok (args.map (Expr.moved (source.excerpt a b) a)) := by
      rw [← ArgumentList.tree_back hbeyond, ArgumentList.toArguments_tree
        (ArgumentList.punctuated_back hp) hpieces, ArgumentList.pieces_back, mapM_eq_ok_iff_forall₂]
      rw [mapM_eq_ok_iff_forall₂, List.forall₂_map_left_iff] at hargs
      rw [List.forall₂_map_left_iff, List.forall₂_map_left_iff, List.forall₂_map_right_iff]
      refine forall₂_imp_of_mem hargs fun p hmem x hx => ?_
      obtain ⟨o, ho, hlaid, hend⟩ := hlaidList.within (ArgumentList.tokens_within hmem)
      exact iha p hmem hlaid (by omega) (by omega) hx
    refine (Tree.toExpr_call_eq_ok_iff rfl Tree.children_back).mpr ⟨_, hback, ?_⟩
    rw [function.textIn_back hlaidFunction ha (by omega) hlen, Tree.location_back]
    exact Expr.ofCall_moved a hcall
  | @signed n sign ts t hn hs inner ih =>
    obtain ⟨hskips, hsign, hlater⟩ := id hl
    have hstart := hskips.le
    have hstop : sign.stop ≤ b := Nat.le_trans hlater.le_stopOf hb
    have htext := (Shaped.signed hn hs inner).textIn_back hl ha hb hlen
    rw [Tree.toExpr_unary rfl (Tree.children_spanning ..)] at he
    rw [Tree.toExpr_unary rfl Tree.children_back, hsign.textIn_back (by omega) hstop hlen]
    split at he
    · rename_i hsigned
      rw [if_pos hsigned]
      exact Tree.toNumber_back htext he
    · contradiction
  | @infixed n m op ts ts' t t' hn ho left right ihl ihr =>
    obtain ⟨hlaidLeft, hskips, hop, hlaidRight⟩ := laidOut_append.mp hl
    rw [stopOf_append, stopOf] at hb
    have hstart := hlaidLeft.le_stopOf
    have hsep := hskips.le
    have hlt := hop.lt
    have hstop := hlaidRight.le_stopOf
    obtain ⟨first, o, second, hfirst, hsymbol, hsecond, rfl⟩ :=
      (Tree.toExpr_binary_eq_ok_iff rfl (Tree.children_spanning ..)).mp he
    refine (Tree.toExpr_binary_eq_ok_iff rfl Tree.children_back).mpr
      ⟨_, o, _, ihl hlaidLeft ha (by omega) hfirst, ?_, ihr hlaidRight (by omega) hb hsecond, ?_⟩
    · rw [hop.textIn_back (by omega) (by omega) hlen, hsymbol]
    · rw [Tree.location_back]
      rfl

theorem ShapedStatement.toStmt_back (h : ShapedStatement tokens tree)
    (hl : LaidOut source.chars.toList offset tokens) (ha : a ≤ offset)
    (hb : stopOf offset tokens ≤ b) (hlen : b ≤ source.chars.toList.length) {s : Stmt}
    (hs : tree.toStmt source = .ok s) :
    (tree.back a).toStmt (source.excerpt a b) = .ok (s.moved (source.excerpt a b) a) := by
  cases h with
  | @assignment name sign ts t hn he value =>
    obtain ⟨hskips, hname, hskips', hsign, hlater⟩ := hl
    have hlt := hname.lt
    have hlt' := hsign.lt
    have hstart := hskips.le
    have hsep := hskips'.le
    have hstop := hlater.le_stopOf
    rw [stopOf, stopOf] at hb
    rw [Tree.toStmt_assignment rfl (Tree.children_spanning ..), map_eq_ok_iff] at hs
    obtain ⟨e, hvalue, rfl⟩ := hs
    have hback := value.toExpr_back (a := a) hlater (by omega) hb hlen hvalue
    rw [Tree.toStmt_assignment rfl Tree.children_back, map_eq_ok_iff]
    refine ⟨_, hback, ?_⟩
    rw [hname.textIn_back (by omega) (by omega) hlen, Tree.location_back]
    rfl
  | expr value =>
    rw [Tree.toStmt_expr rfl (Tree.children_spanning ..), map_eq_ok_iff] at hs
    obtain ⟨e, hvalue, rfl⟩ := hs
    rw [Tree.toStmt_expr rfl Tree.children_back, map_eq_ok_iff]
    exact ⟨_, value.toExpr_back hl ha hb hlen hvalue, by rw [Tree.location_back]; rfl⟩

theorem ShapedStatement.exists_toStmt_of_back (h : ShapedStatement tokens tree)
    (hl : LaidOut source.chars.toList offset tokens) (ha : a ≤ offset)
    (hb : stopOf offset tokens ≤ b) (hlen : b ≤ source.chars.toList.length) {s : Stmt}
    (hs : (tree.back a).toStmt (source.excerpt a b) = .ok s) :
    ∃ s', tree.toStmt source = .ok s' := by
  have hle : a ≤ b := Nat.le_trans ha (Nat.le_trans hl.le_stopOf hb)
  have hback := hl.back ha hb
  rw [← source.toList_excerpt hle hlen] at hback
  have hshape := h.back (d := a) (hl.beyond ha)
  obtain ⟨hsupported, -⟩ := (hshape.toStmt_eq_ok_iff hback s).mp hs
  rw [Tree.forall_supported_back] at hsupported
  exact ⟨_, (h.toStmt_eq_ok_iff hl _).mpr ⟨hsupported, rfl⟩⟩

end ArithScript
