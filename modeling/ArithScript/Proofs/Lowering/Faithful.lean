import Mathlib.Data.List.Forall2
import ArithScript.Proofs.Lowering.Fragment
import ArithScript.Proofs.Lowering.Meaning

/-! A tree that was read from a text stands for a program exactly if every node of it is supported,
and it then stands for the program that it mirrors. -/
namespace ArithScript

variable {α β ε : Type}

theorem mapM_cons_eq_ok {f : α → Except ε β} {x : α} {xs : List α} {ys : List β} :
    (x :: xs).mapM f = .ok ys ↔ ∃ y ys', f x = .ok y ∧ xs.mapM f = .ok ys' ∧ y :: ys' = ys := by
  rw [List.mapM_cons]
  cases f x with
  | error => simp [bind, Except.bind]
  | ok y =>
    cases xs.mapM f with
    | error => simp [bind, Except.bind]
    | ok ys' => simp [bind, Except.bind, pure, Except.pure]

theorem mapM_eq_ok_iff {f : α → Except ε β} {g : α → β} {P : α → Prop} {xs : List α}
    (h : ∀ x ∈ xs, ∀ y, f x = .ok y ↔ P x ∧ g x = y) (ys : List β) :
    xs.mapM f = .ok ys ↔ (∀ x ∈ xs, P x) ∧ xs.map g = ys := by
  induction xs generalizing ys with
  | nil => simp [pure, Except.pure]
  | cons x xs ih =>
    have hfirst := h x List.mem_cons_self
    have hlater := ih fun x' hx' => h x' (List.mem_cons_of_mem _ hx')
    rw [mapM_cons_eq_ok, List.forall_mem_cons, List.map_cons]
    constructor
    · rintro ⟨y, ys', hy, hys, rfl⟩
      obtain ⟨hx, rfl⟩ := (hfirst y).mp hy
      obtain ⟨hxs, rfl⟩ := (hlater ys').mp hys
      exact ⟨⟨hx, hxs⟩, rfl⟩
    · rintro ⟨⟨hx, hxs⟩, rfl⟩
      exact ⟨g x, xs.map g, (hfirst _).mpr ⟨hx, rfl⟩, (hlater _).mpr ⟨hxs, rfl⟩, rfl⟩

theorem mapM_eq_ok_iff_forall₂ {f : α → Except ε β} {xs : List α} {ys : List β} :
    xs.mapM f = .ok ys ↔ List.Forall₂ (fun x y => f x = .ok y) xs ys := by
  induction xs generalizing ys with
  | nil => simp [pure, Except.pure, eq_comm]
  | cons x xs ih =>
    rw [mapM_cons_eq_ok, List.forall₂_cons_left_iff]
    simp only [ih, exists_and_left, eq_comm]

theorem forall₂_imp_of_mem {R S : α → β → Prop} {xs : List α} {ys : List β}
    (hr : List.Forall₂ R xs ys) (h : ∀ x ∈ xs, ∀ y, R x y → S x y) : List.Forall₂ S xs ys := by
  have hmem : List.Forall₂ (fun x y => x ∈ xs ∧ R x y) xs ys :=
    (List.forall₂_and_left _ _).mpr ⟨fun _ hx => hx, hr⟩
  exact hmem.imp fun x y hxy => h x hxy.1 y hxy.2

theorem exists_of_mapM_eq_ok {f : α → Except ε β} {xs : List α} {ys : List β}
    (h : xs.mapM f = .ok ys) : ∀ y ∈ ys, ∃ x ∈ xs, f x = .ok y := by
  induction xs generalizing ys with
  | nil =>
    obtain rfl := Except.ok.inj h
    simp
  | cons x xs ih =>
    obtain ⟨y, ys', hy, hys, rfl⟩ := mapM_cons_eq_ok.mp h
    intro z hz
    rcases List.mem_cons.mp hz with rfl | hz
    · exact ⟨x, List.mem_cons_self, hy⟩
    · obtain ⟨x', hx', hz'⟩ := ih hys z hz
      exact ⟨x', List.mem_cons_of_mem _ hx', hz'⟩

theorem map_eq_pair {f : α → β} {xs : List α} {y z : β} (h : xs.map f = [y, z]) :
    ∃ x x', xs = [x, x'] ∧ f x = y ∧ f x' = z := by
  obtain ⟨x, later, rfl, rfl, hlater⟩ := List.map_eq_cons_iff.mp h
  obtain ⟨x', rfl, rfl⟩ := List.map_eq_singleton_iff.mp hlater
  exact ⟨x, x', rfl, rfl, rfl⟩

variable {source : Source} {offset : Nat} {tokens : List Token} {tree : Tree}

theorem LaidOut.of_within {text : List Char} {ts : List Token}
    (hl : LaidOut text offset tokens) (h : ts <:+: tokens) : ∃ o, LaidOut text o ts := by
  obtain ⟨o, -, ho, -⟩ := hl.within h
  exact ⟨o, ho⟩

theorem Shaped.isPunctuation_eq_false {n : Tier} (h : Shaped n tokens tree) :
    tree.kind.isPunctuation = false := by
  cases h with
  | operand ht =>
    rename_i token
    change (Kind.terminal token.terminal).isPunctuation = false
    revert ht
    cases token.terminal <;> decide
  | _ => rfl

namespace ArgumentList
variable {list : ArgumentList}

theorem children_tree : list.tree.children = list.children := rfl

theorem isPunctuation_ofToken (token : Token) (h : token.terminal ∈ [.lpar, .comma, .rpar]) :
    (Tree.ofToken token).kind.isPunctuation = true := by
  change (Kind.terminal token.terminal).isPunctuation = true
  revert h
  cases token.terminal <;> decide

theorem arguments_later {later : List (Token × Piece)} (hc : ∀ x ∈ later, x.1.terminal = .comma)
    (hs : ∀ x ∈ later, x.2.tree.kind.isPunctuation = false) :
    (later.flatMap fun x => [Tree.ofToken x.1, x.2.tree]).filter (!·.kind.isPunctuation) =
      later.map (·.2.tree) := by
  induction later with
  | nil => rfl
  | cons x later ih =>
    have hcomma := isPunctuation_ofToken x.1 (by simp [hc x List.mem_cons_self])
    have hx := hs x List.mem_cons_self
    have hrest := ih (fun y hy => hc y (List.mem_cons_of_mem _ hy))
      (fun y hy => hs y (List.mem_cons_of_mem _ hy))
    rw [List.flatMap_cons, List.filter_append, hrest, List.map_cons,
      List.filter_cons_of_neg (by simp [hcomma]), List.filter_cons_of_pos (by simp [hx])]
    rfl

theorem arguments_tree (hp : list.Punctuated)
    (hs : ∀ p ∈ list.pieces, Shaped .expr p.tokens p.tree) :
    list.tree.arguments = list.pieces.map Piece.tree := by
  rw [Tree.arguments, children_tree]
  cases list with
  | none left right =>
    have hl := isPunctuation_ofToken left (by simp [hp.1])
    have hr := isPunctuation_ofToken right (by simp [hp.2])
    simp [children, pieces, hl, hr]
  | some left first later trailing right =>
    obtain ⟨hl, hc, ht, hr⟩ := hp
    have hleft := isPunctuation_ofToken left (by simp [hl])
    have hright := isPunctuation_ofToken right (by simp [hr])
    have hfirst := (hs first List.mem_cons_self).isPunctuation_eq_false
    have hlater := arguments_later hc fun x hx =>
      (hs x.2 (List.mem_cons_of_mem _ (List.mem_map_of_mem hx))).isPunctuation_eq_false
    have htrailing : (trailing.toList.map Tree.ofToken).filter (!·.kind.isPunctuation) = [] := by
      cases trailing with
      | none => rfl
      | some comma => simp [isPunctuation_ofToken comma (by simp [ht comma rfl])]
    rw [children, laterTrees, List.filter_cons_of_neg (by simp [hleft]),
      List.filter_cons_of_pos (by simp [hfirst]), List.filter_append, List.filter_append, hlater,
      htrailing, List.filter_cons_of_neg (by simp [hright])]
    simp [pieces]

theorem supported_iff (hp : list.Punctuated) :
    (∀ t ∈ list.tree.subtrees, t.Supported) ↔
      ∀ p ∈ list.pieces, ∀ t ∈ p.tree.subtrees, t.Supported := by
  rw [Tree.forall_subtrees, children_tree]
  have hself : list.tree.Supported := trivial
  have htoken : ∀ {token : Token}, token.terminal ≠ .string →
      ∀ t ∈ (Tree.ofToken token).subtrees, t.Supported :=
    fun h => (Tree.forall_subtrees_ofToken _).mpr (Tree.supported_ofToken h)
  constructor
  · rintro ⟨-, hbelow⟩ p hmem
    refine hbelow p.tree ?_
    cases list with
    | none left right => contradiction
    | some left first later trailing right =>
      rcases List.mem_cons.mp hmem with rfl | hmem
      · simp [children, laterTrees]
      · obtain ⟨x, hx, rfl⟩ := List.mem_map.mp hmem
        have hx' : x.2.tree ∈ later.flatMap fun x => [Tree.ofToken x.1, x.2.tree] :=
          List.mem_flatMap.mpr ⟨x, hx, by simp⟩
        simp [children, laterTrees, hx']
  · intro h
    refine ⟨hself, fun child hc => ?_⟩
    cases list with
    | none left right =>
      simp only [children, List.mem_cons, List.not_mem_nil, or_false] at hc
      rcases hc with rfl | rfl
      · exact htoken (by simp [hp.1])
      · exact htoken (by simp [hp.2])
    | some left first later trailing right =>
      obtain ⟨hl, hcommas, ht, hr⟩ := hp
      simp only [children, laterTrees, List.mem_cons, List.mem_append, List.mem_flatMap,
        List.mem_map, List.not_mem_nil, or_false] at hc
      rcases hc with rfl | rfl | ⟨x, hx, rfl | rfl⟩ | ⟨comma, hcomma, rfl⟩ | rfl
      · exact htoken (by simp [hl])
      · exact h first List.mem_cons_self
      · exact htoken (by simp [hcommas x hx])
      · exact h x.2 (List.mem_cons_of_mem _ (List.mem_map_of_mem hx))
      · exact htoken (by simp [ht comma (by simpa using hcomma)])
      · exact htoken (by simp [hr])

theorem argumentsOf_laterTrees {first : Piece} {later : List (Token × Piece)}
    {trailing : Option Token} {right : Token} (hc : ∀ x ∈ later, x.1.terminal = .comma)
    (ht : ∀ comma ∈ trailing, comma.terminal = .comma) (hr : right.terminal = .rpar)
    (hs : ∀ p ∈ first :: later.map Prod.snd, p.tree.kind.isPunctuation = false) :
    Tree.argumentsOf source (laterTrees first later trailing right) =
      ((first :: later.map Prod.snd).map Piece.tree).mapM (Tree.toExpr source) := by
  have hne : ∀ {t : Tree}, t.kind.isPunctuation = false → t.kind ≠ .terminal .rpar := by
    intro t h he
    rw [he] at h
    contradiction
  have hrpar : (Tree.ofToken right).kind = .terminal .rpar := congrArg _ hr
  have hcomma : ∀ {token : Token}, token.terminal = .comma →
      (Tree.ofToken token).kind ≠ .terminal .rpar := by
    intro token h he
    rw [show (Tree.ofToken token).kind = .terminal token.terminal from rfl, h] at he
    contradiction
  induction later generalizing first with
  | nil =>
    rw [laterTrees, Tree.argumentsOf_cons (hne (hs first List.mem_cons_self)), List.map_cons,
      List.mapM_cons]
    have hend : Tree.laterArguments source (trailing.toList.map .ofToken ++ [.ofToken right]) =
        .ok [] := by
      cases trailing with
      | none => exact if_pos hrpar
      | some comma =>
        refine (if_neg (hcomma (ht comma rfl))).trans ?_
        exact Tree.argumentsOf_rpar hrpar
    rw [List.flatMap_nil, List.nil_append, hend]
    cases first.tree.toExpr source <;> rfl
  | cons x later ih =>
    have hrest := ih (fun y hy => hc y (List.mem_cons_of_mem _ hy))
      (fun p hp => hs p (List.mem_cons_of_mem _ hp))
    rw [laterTrees, Tree.argumentsOf_cons (hne (hs first List.mem_cons_self)), List.map_cons,
      List.mapM_cons, List.map_cons, ← hrest]
    have hx : Tree.laterArguments source ((x :: later).flatMap
        (fun x => [.ofToken x.1, x.2.tree]) ++ (trailing.toList.map .ofToken ++ [.ofToken right])) =
          Tree.argumentsOf source (laterTrees x.2 later trailing right) :=
      if_neg (hcomma (hc x List.mem_cons_self))
    rw [hx]
    cases first.tree.toExpr source <;> cases Tree.argumentsOf source _ <;> rfl

theorem toArguments_tree (hp : list.Punctuated)
    (hs : ∀ p ∈ list.pieces, Shaped .expr p.tokens p.tree) :
    list.tree.toArguments source = (list.pieces.map Piece.tree).mapM (Tree.toExpr source) := by
  cases list with
  | none left right =>
    have hl : (Tree.ofToken left).kind = .terminal .lpar := congrArg _ hp.1
    have hr : (Tree.ofToken right).kind = .terminal .rpar := congrArg _ hp.2
    rw [Tree.toArguments_cons rfl rfl, if_pos hl, Tree.argumentsOf_rpar hr]
    rfl
  | some left first later trailing right =>
    obtain ⟨hleft, hc, ht, hr⟩ := hp
    have hl : (Tree.ofToken left).kind = .terminal .lpar := congrArg _ hleft
    rw [Tree.toArguments_cons rfl rfl, if_pos hl]
    exact argumentsOf_laterTrees hc ht hr fun p hp => (hs p hp).isPunctuation_eq_false

theorem exists_piece_of_mapM_eq_ok (list : ArgumentList)
    (hl : LaidOut source.chars.toList offset list.tokens) {arguments : List Expr}
    (h : (list.pieces.map Piece.tree).mapM (Tree.toExpr source) = .ok arguments) :
    ∀ x ∈ arguments, ∃ p ∈ list.pieces,
      (∃ o, LaidOut source.chars.toList o p.tokens) ∧ p.tree.toExpr source = .ok x := by
  intro x hx
  obtain ⟨t, ht, htx⟩ := exists_of_mapM_eq_ok h x hx
  obtain ⟨p, hp, rfl⟩ := List.mem_map.mp ht
  exact ⟨p, hp, hl.of_within (tokens_within hp), htx⟩

end ArgumentList

theorem UnaryBuiltin.exists_ofName?_iff {name : String} :
    (∃ f, UnaryBuiltin.ofName? name = some f) ↔ name ∈ ["print", "abs"] := by
  constructor
  · rintro ⟨f, h⟩
    have hname : f.name = name := by simpa using List.find?_some h
    rw [← hname]
    cases f <;> simp [UnaryBuiltin.name]
  · intro h
    simp only [List.mem_cons, List.not_mem_nil, or_false] at h
    rcases h with rfl | rfl
    · exact ⟨.print, rfl⟩
    · exact ⟨.abs, rfl⟩

theorem BinaryBuiltin.exists_ofName?_iff {name : String} :
    (∃ f, BinaryBuiltin.ofName? name = some f) ↔ name ∈ ["max", "min", "pow"] := by
  constructor
  · rintro ⟨f, h⟩
    have hname : f.name = name := by simpa using List.find?_some h
    rw [← hname]
    cases f <;> simp [BinaryBuiltin.name]
  · intro h
    simp only [List.mem_cons, List.not_mem_nil, or_false] at h
    rcases h with rfl | rfl | rfl
    · exact ⟨.max, rfl⟩
    · exact ⟨.min, rfl⟩
    · exact ⟨.pow, rfl⟩

theorem Expr.ofCall_eq_ok_iff {name : String} {arguments : List Expr} {loc : Span} {e : Expr} :
    Expr.ofCall name arguments loc = .ok e ↔
      (∃ f x, arguments = [x] ∧ UnaryBuiltin.ofName? name = some f ∧ .call1 f x loc = e) ∨
        ∃ f x y, arguments = [x, y] ∧ BinaryBuiltin.ofName? name = some f ∧
          .call2 f x y loc = e := by
  rcases arguments with _ | ⟨x, _ | ⟨y, _ | ⟨z, rest⟩⟩⟩
  · simp [Expr.ofCall]
  · cases hf : UnaryBuiltin.ofName? name <;> simp [Expr.ofCall, hf]
  · cases hf : BinaryBuiltin.ofName? name <;> simp [Expr.ofCall, hf]
  · simp [Expr.ofCall]

theorem isAlpha_of_mem_names {name : String}
    (h : name ∈ ["print", "abs"] ∨ name ∈ ["max", "min", "pow"]) :
    ∀ c ∈ name.toList, c.isAlpha = true := by
  have hall : name.toList.all Char.isAlpha = true := by
    simp only [List.mem_cons, List.not_mem_nil, or_false] at h
    rcases h with (rfl | rfl) | rfl | rfl | rfl <;> decide
  exact List.all_eq_true.mp hall

theorem Shaped.eq_ofToken_of_kind {n : Tier} {t : Terminal} (h : Shaped n tokens tree)
    (hk : tree.kind = .terminal t) :
    ∃ token, tokens = [token] ∧ tree = .ofToken token ∧ token.terminal = t := by
  cases h with
  | operand => exact ⟨_, rfl, rfl, Kind.terminal.inj hk⟩
  | _ => contradiction

theorem Shaped.textIn_eq_spelling {n : Tier} {t : Terminal} (h : Shaped n tokens tree)
    (hl : LaidOut source.chars.toList offset tokens) (hk : tree.kind = .terminal t) :
    tree.textIn source = tree.spelling := by
  obtain ⟨token, rfl, rfl, -⟩ := h.eq_ofToken_of_kind hk
  exact textIn_ofToken hl.2.1

theorem Shaped.kind_of_mem_names (h : Shaped .call tokens tree)
    (hl : LaidOut source.chars.toList offset tokens)
    (hmem : tree.textIn source ∈ ["print", "abs"] ∨
      tree.textIn source ∈ ["max", "min", "pow"]) : tree.kind = .terminal .name := by
  obtain ⟨token, ts, rfl⟩ := List.exists_cons_of_ne_nil h.tokens_ne_nil
  obtain ⟨hname, -, rfl⟩ := h.eq_name_of_isAlpha hl (isAlpha_of_mem_names hmem)
  exact congrArg _ hname

theorem Token.StandsIn.exists_readNumber {token : Token} {text : List Char}
    (h : token.StandsIn text) (ht : token.terminal = .number) :
    ∃ value, readNumber token.text = some value := by
  obtain ⟨n, hn, htext⟩ := h.numeral ht
  have hsign : IsSign none := by
    intro c hc
    contradiction
  exact ⟨_, by simpa [htext] using readNumber_chars hsign hn⟩

/-- The tree stands for an expression exactly if everything in it is supported, and then for the one
that it mirrors. -/
def Tree.Mirrored (source : Source) (tree : Tree) : Prop :=
  ∀ e, tree.toExpr source = .ok e ↔
    (∀ t ∈ tree.subtrees, t.Supported) ∧ tree.asExpr source = e

namespace Tree.Mirrored

theorem of_unsupported (ht : ∀ e, tree.toExpr source ≠ .ok e) (hs : ¬tree.Supported) :
    tree.Mirrored source := by
  intro e
  constructor
  · intro h
    exact absurd h (ht e)
  · rintro ⟨h, -⟩
    exact absurd ((forall_subtrees tree).mp h).1 hs

theorem number {token : Token} (hl : LaidOut source.chars.toList offset [token])
    (ht : token.terminal = .number) : (ofToken token).Mirrored source := by
  have hk : (ofToken token).kind = .terminal .number := congrArg _ ht
  obtain ⟨value, hread⟩ := hl.2.1.exists_readNumber ht
  intro e
  rw [toExpr_number hk, asExpr_literal (.inl hk) hread, toNumber, textIn_ofToken hl.2.1, hread,
    forall_subtrees_ofToken]
  simp [supported_ofToken, ht]

theorem name {token : Token} (hl : LaidOut source.chars.toList offset [token])
    (ht : token.terminal = .name) : (ofToken token).Mirrored source := by
  have hk : (ofToken token).kind = .terminal .name := congrArg _ ht
  intro e
  rw [toExpr_name hk, asExpr_name hk, textIn_ofToken hl.2.1, forall_subtrees_ofToken]
  simp [spelling_ofToken, supported_ofToken, ht]

theorem infixed {left right : Tree} {op : Token} {m : Tier} {ts : List Token}
    (ho : op.terminal ∈ m.operators) (hop : op.StandsIn source.chars.toList)
    (hleft : left.Mirrored source) (hright : right.Mirrored source) :
    (Tree.spanning .binary ts [left, .ofToken op, right]).Mirrored source := by
  have hc : (Tree.spanning .binary ts [left, .ofToken op, right]).children =
      [left, .ofToken op, right] := rfl
  have hsymbol := hop.ofSymbol?_text ho
  have hkind : (ofToken op).kind ∈ [.terminal .plus, .terminal .minus, .terminal .star] ↔
      op.terminal.operator? ≠ none := by
    rw [kind_ofToken]
    cases op.terminal <;> simp [Terminal.operator?]
  have hself : (Tree.spanning .binary ts [left, .ofToken op, right]).Supported ↔
      op.terminal.operator? ≠ none := (supported_binary rfl hc).trans hkind
  have hbelow : (∀ child ∈ [left, ofToken op, right], ∀ t ∈ child.subtrees, t.Supported) ↔
      (∀ t ∈ left.subtrees, t.Supported) ∧ ∀ t ∈ right.subtrees, t.Supported := by
    have hne : op.terminal ≠ .string := by
      intro h
      rw [h] at ho
      revert ho
      cases m <;> decide
    simp [forall_subtrees_ofToken, supported_ofToken hne]
  intro e
  rw [toExpr_binary_eq_ok_iff rfl hc, textIn_ofToken hop, hsymbol, forall_subtrees, hself, hc, hbelow]
  constructor
  · rintro ⟨first, o, second, hfirst, hterm, hsecond, rfl⟩
    obtain ⟨hls, rfl⟩ := (hleft first).mp hfirst
    obtain ⟨hrs, rfl⟩ := (hright second).mp hsecond
    refine ⟨⟨by simp [hterm], hls, hrs⟩, ?_⟩
    exact asExpr_binary rfl hc (hsymbol.trans hterm)
  · rintro ⟨⟨hterm, hls, hrs⟩, rfl⟩
    obtain ⟨o, ho⟩ := Option.ne_none_iff_exists'.mp hterm
    refine ⟨_, o, _, (hleft _).mpr ⟨hls, rfl⟩, ho, (hright _).mpr ⟨hrs, rfl⟩, ?_⟩
    exact (asExpr_binary rfl hc (hsymbol.trans ho)).symm

theorem excluded (hk : tree.kind = .terminal .string ∨ tree.kind = .construct .paren) :
    tree.Mirrored source := by
  refine of_unsupported (fun e he => ?_) ?_
  · rw [toExpr_unsupported hk] at he
    contradiction
  · rcases hk with hk | hk <;> simp [Supported, hk]

/-- A sign is supported exactly if what follows it is one number token, with no gap between. -/
theorem supported_signed_iff {sign token : Token} {ts : List Token} {inner : Tree}
    (hs : sign.terminal ∈ [.plus, .minus]) (h : Shaped .factor (token :: ts) inner) :
    (Tree.spanning .unary (sign :: token :: ts) [.ofToken sign, inner]).Supported ↔
      token.terminal = .number ∧ ts = [] ∧ token.start = sign.stop := by
  have hkind : (ofToken sign).kind ∈ [.terminal .plus, .terminal .minus] := by
    simpa [kind_ofToken] using hs
  rw [supported_unary rfl (children_spanning ..), and_iff_right hkind]
  constructor
  · rintro ⟨hk, hgap⟩
    obtain ⟨t, hts, rfl, ht⟩ := h.eq_ofToken_of_kind hk
    obtain ⟨rfl, rfl⟩ := List.cons.inj hts
    exact ⟨ht, rfl, Int.ofNat.inj hgap⟩
  · rintro ⟨ht, rfl, hgap⟩
    obtain ⟨rfl, -⟩ := h.eq_ofToken
    exact ⟨congrArg _ ht, congrArg _ hgap⟩

theorem signed {sign : Token} {inner : Tree} (hs : sign.terminal ∈ [.plus, .minus, .tilde])
    (h : Shaped .factor tokens inner) (hl : LaidOut source.chars.toList offset (sign :: tokens)) :
    (Tree.spanning .unary (sign :: tokens) [.ofToken sign, inner]).Mirrored source := by
  obtain ⟨token, ts, rfl⟩ := List.exists_cons_of_ne_nil h.tokens_ne_nil
  have hc : (Tree.spanning .unary (sign :: token :: ts) [.ofToken sign, inner]).children =
      [.ofToken sign, inner] := rfl
  have heq : (Tree.spanning .unary (sign :: token :: ts) [.ofToken sign, inner]).toExpr source = _ :=
    toExpr_unary rfl hc
  have htext := (Shaped.signed (Nat.le_refl _) hs h).textIn_eq hl
  have hsign := hl.2.1.isSign_text hs
  rw [textIn_ofToken hl.2.1, toNumber, htext] at heq
  by_cases hst : sign.terminal ∈ [.plus, .minus]
  · rw [if_pos (hsign.mpr hst)] at heq
    have hread := readNumber_signed_iff (hsign.mpr hst) hl
    by_cases hnumber : token.terminal = .number ∧ ts = [] ∧ token.start = sign.stop
    · obtain ⟨ht, rfl, hgap⟩ := hnumber
      obtain ⟨rfl, -⟩ := h.eq_ofToken
      have hspelling : String.ofList (coveredText source sign [token]) =
          (Tree.spanning .unary [sign, token] [.ofToken sign, .ofToken token]).spelling := by
        rw [coveredText_adjacent hl hgap, String.ofList_append, String.ofList_toList,
          String.ofList_toList]
        simp [Tree.spanning, spelling, spellingAll, ofToken]
      obtain ⟨value, hvalue⟩ := Option.isSome_iff_exists.mp (hread.mpr ⟨ht, rfl, hgap⟩)
      rw [hvalue] at heq
      rw [hspelling] at hvalue
      have hself := (supported_signed_iff hst h).mpr ⟨ht, rfl, hgap⟩
      have hsign' : (ofToken sign).Supported := by
        refine supported_ofToken fun h => ?_
        rw [h] at hst
        contradiction
      have htoken : (ofToken token).Supported := supported_ofToken (by simp [ht])
      intro e
      rw [heq, asExpr_literal (.inr rfl) hvalue, forall_subtrees, hc]
      simp [forall_subtrees_ofToken, hself, hsign', htoken]
    · have hnone : readNumber (String.ofList (coveredText source sign (token :: ts))) = none := by
        rw [← Option.not_isSome_iff_eq_none, hread]
        exact hnumber
      rw [hnone] at heq
      refine of_unsupported (fun e he => ?_) (mt (supported_signed_iff hst h).mp hnumber)
      rw [heq] at he
      contradiction
  · rw [if_neg (mt hsign.mp hst)] at heq
    refine of_unsupported (fun e he => ?_) ?_
    · rw [heq] at he
      contradiction
    · rw [supported_unary rfl hc, kind_ofToken]
      simp only [List.mem_cons, List.not_mem_nil, or_false, not_or] at hst
      simp [hst]

theorem toExpr_call_eq_ok_iff {callee : Tree} {list : ArgumentList} {ts : List Token}
    (hp : list.Punctuated) (hs : ∀ p ∈ list.pieces, Shaped .expr p.tokens p.tree) (e : Expr) :
    (Tree.spanning .call ts [callee, list.tree]).toExpr source = .ok e ↔
      ∃ arguments, (list.pieces.map Piece.tree).mapM (toExpr source) = .ok arguments ∧
        Expr.ofCall (callee.textIn source) arguments
          ((Tree.spanning .call ts [callee, list.tree]).location source) = .ok e := by
  rw [Tree.toExpr_call_eq_ok_iff rfl (children_spanning ..), ArgumentList.toArguments_tree hp hs]

theorem call {callee : Tree} {list : ArgumentList} {ts : List Token}
    (hf : Shaped .call tokens callee) (hl : LaidOut source.chars.toList offset tokens)
    (hp : list.Punctuated) (hs : ∀ p ∈ list.pieces, Shaped .expr p.tokens p.tree)
    (hm : ∀ p ∈ list.pieces, p.tree.Mirrored source) :
    (Tree.spanning .call ts [callee, list.tree]).Mirrored source := by
  have hc : (Tree.spanning .call ts [callee, list.tree]).children = [callee, list.tree] := rfl
  have hk : (Tree.spanning .call ts [callee, list.tree]).kind = .construct .call := rfl
  have hlist := list.arguments_tree hp hs
  have hmapM : ∀ arguments, (list.pieces.map Piece.tree).mapM (toExpr source) = .ok arguments ↔
      (∀ t ∈ list.tree.subtrees, t.Supported) ∧
        (list.pieces.map Piece.tree).map (asExpr source) = arguments := by
    intro arguments
    rw [mapM_eq_ok_iff (P := fun t => ∀ s ∈ t.subtrees, s.Supported) (g := asExpr source) (by
      intro t ht
      obtain ⟨p, hp, rfl⟩ := List.mem_map.mp ht
      exact hm p hp), ArgumentList.supported_iff hp]
    simp
  have hcallee : callee.kind = .terminal .name → callee.textIn source = callee.spelling ∧
      ∀ t ∈ callee.subtrees, t.Supported := by
    intro hname
    refine ⟨hf.textIn_eq_spelling hl hname, ?_⟩
    obtain ⟨token, -, rfl, ht⟩ := hf.eq_ofToken_of_kind hname
    rw [forall_subtrees_ofToken]
    exact supported_ofToken (by simp [ht])
  intro e
  rw [toExpr_call_eq_ok_iff hp hs, forall_subtrees, hc, List.forall_mem_cons,
    List.forall_mem_singleton]
  constructor
  · rintro ⟨arguments, hok, hcall⟩
    obtain ⟨hsupported, rfl⟩ := (hmapM arguments).mp hok
    rw [← hlist] at hcall
    rcases Expr.ofCall_eq_ok_iff.mp hcall with ⟨f, x, hx, hof, rfl⟩ | ⟨f, x, y, hxy, hof, rfl⟩
    · have hmem := UnaryBuiltin.exists_ofName?_iff.mp ⟨f, hof⟩
      have hname := hf.kind_of_mem_names hl (.inl hmem)
      obtain ⟨htext, hbelow⟩ := hcallee hname
      rw [htext] at hmem hof
      obtain ⟨argument, hargument, rfl⟩ := List.map_eq_singleton_iff.mp hx
      refine ⟨⟨(supported_call hk hc).mpr ⟨hname, .inl ⟨hmem, ?_⟩⟩, hbelow, hsupported⟩, ?_⟩
      · rw [hargument]
        rfl
      · exact asExpr_call1 hk hc hargument hof
    · have hmem := BinaryBuiltin.exists_ofName?_iff.mp ⟨f, hof⟩
      have hname := hf.kind_of_mem_names hl (.inr hmem)
      obtain ⟨htext, hbelow⟩ := hcallee hname
      rw [htext] at hmem hof
      obtain ⟨first, second, hpair, rfl, rfl⟩ := map_eq_pair hxy
      refine ⟨⟨(supported_call hk hc).mpr ⟨hname, .inr ⟨hmem, ?_⟩⟩, hbelow, hsupported⟩, ?_⟩
      · rw [hpair]
        rfl
      · exact asExpr_call2 hk hc hpair hof
  · rintro ⟨⟨hself, -, hsupported⟩, rfl⟩
    refine ⟨_, (hmapM _).mpr ⟨hsupported, rfl⟩, ?_⟩
    obtain ⟨hname, hcount⟩ := (supported_call hk hc).mp hself
    rw [(hcallee hname).1, ← hlist, Expr.ofCall_eq_ok_iff]
    rcases hcount with ⟨hmem, hone⟩ | ⟨hmem, htwo⟩
    · obtain ⟨f, hof⟩ := UnaryBuiltin.exists_ofName?_iff.mpr hmem
      obtain ⟨argument, hargument⟩ := List.length_eq_one_iff.mp hone
      refine .inl ⟨f, argument.asExpr source, ?_, hof, (asExpr_call1 hk hc hargument hof).symm⟩
      rw [hargument]
      rfl
    · obtain ⟨f, hof⟩ := BinaryBuiltin.exists_ofName?_iff.mpr hmem
      obtain ⟨first, second, hpair⟩ := List.length_eq_two.mp htwo
      refine .inr ⟨f, first.asExpr source, second.asExpr source, ?_, hof,
        (asExpr_call2 hk hc hpair hof).symm⟩
      rw [hpair]
      rfl

end Tree.Mirrored

/-- An expression that was read from a text stands for what it mirrors. -/
theorem Shaped.mirrored {n : Tier} (h : Shaped n tokens tree)
    (hl : LaidOut source.chars.toList offset tokens) : tree.Mirrored source := by
  induction h generalizing offset with
  | operand ht =>
    simp only [List.mem_cons, List.not_mem_nil, or_false] at ht
    rcases ht with ht | ht | ht
    · exact .number hl ht
    · exact .name hl ht
    · exact .excluded (.inl (congrArg _ ht))
  | paren => exact .excluded (.inr rfl)
  | call hn function hp arguments ih iha =>
    have hsplit := laidOut_append.mp hl
    refine .call function hsplit.1 hp arguments fun p hmem => ?_
    obtain ⟨o, ho⟩ := hsplit.2.of_within (ArgumentList.tokens_within hmem)
    exact iha p hmem ho
  | signed hn hs inner ih => exact .signed hs inner hl
  | infixed hn ho left right ihl ihr =>
    have hsplit := laidOut_append.mp hl
    exact .infixed ho hsplit.2.2.1 (ihl hsplit.1) (ihr hsplit.2.2.2)

end ArithScript
