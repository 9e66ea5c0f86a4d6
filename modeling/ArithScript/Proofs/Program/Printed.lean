import ArithScript.Proofs.Lowering.Faithful
import ArithScript.Proofs.Numeric.Notation
import ArithScript.Proofs.Program.Scanning

/-! The tokens and the tree that a printed expression is read as. Without binary expressions the tree
stands for the expression; with some, it is refused at the first outermost one. -/
namespace ArithScript

/-- The failure says that the text of the expression is not supported, and where it is. -/
structure Failure.PointsAt (failure : Failure) (source : Source) (e : Expr) : Prop where
  code : failure.code = .unsupportedExpr
  text : (failure.span source).text source = e.text

/-- The printed expression at the offset has the tokens and is read as the tree. -/
structure Expr.PrintedAs (e : Expr) (offset : Nat) (tokens : List Token) (tree : Tree) : Prop where
  shaped : Shaped .factor tokens tree
  supported : e.outermostBinaries = [] → ∀ t ∈ tree.subtrees, t.Supported
  image : e.outermostBinaries = [] → ∀ source, (tree.asExpr source).bare = e.bare
  rejected : ∀ b later, e.outermostBinaries = b :: later → ∀ (source : Source) (o : Nat),
    LaidOut source.chars.toList o tokens → e.text.toList <+: source.chars.toList.drop offset →
      ∃ failure, tree.toExpr source = .error failure ∧ failure.PointsAt source b

theorem mapM_map_eq_error {α β γ δ ε : Type} {t : α → β} {f : β → Except ε γ} {g : α → List δ}
    {P : ε → δ → Prop} {xs : List α} (hok : ∀ x ∈ xs, g x = [] → ∃ y, f (t x) = .ok y)
    (herror : ∀ x ∈ xs, ∀ b later, g x = b :: later → ∃ e, f (t x) = .error e ∧ P e b)
    {b : δ} {later : List δ} (h : xs.flatMap g = b :: later) :
    ∃ e, (xs.map t).mapM f = .error e ∧ P e b := by
  induction xs with
  | nil => contradiction
  | cons x xs ih =>
    rw [List.map_cons, List.mapM_cons]
    cases hx : g x with
    | nil =>
      obtain ⟨y, hy⟩ := hok x List.mem_cons_self hx
      rw [List.flatMap_cons, hx, List.nil_append] at h
      obtain ⟨e, he, hp⟩ := ih (fun z hz => hok z (List.mem_cons_of_mem _ hz))
        (fun z hz => herror z (List.mem_cons_of_mem _ hz)) h
      refine ⟨e, ?_, hp⟩
      rw [hy, he]
      rfl
    | cons b' later' =>
      obtain ⟨e, he, hp⟩ := herror x List.mem_cons_self b' later' hx
      rw [List.flatMap_cons, hx, List.cons_append] at h
      obtain ⟨rfl, -⟩ := List.cons.inj h
      refine ⟨e, ?_, hp⟩
      rw [he]
      rfl

theorem prefix_drop {xs ys chars : List Char} {offset : Nat} (h : xs ++ ys <+: chars.drop offset) :
    ys <+: chars.drop (offset + xs.length) := by
  obtain ⟨rest, hrest⟩ := h
  refine ⟨rest, ?_⟩
  rw [← List.drop_drop, ← hrest, List.append_assoc, List.drop_left]

theorem prefix_left {xs ys chars : List Char} (h : xs ++ ys <+: chars) : xs <+: chars :=
  (List.prefix_append xs ys).trans h

variable {offset : Nat} {rest : List Char} {tokens : List Token} {tree : Tree}

namespace Expr.PrintedAs

theorem toExpr_eq_ok {e : Expr} (h : e.PrintedAs offset tokens tree)
    (he : e.outermostBinaries = []) {source : Source} {o : Nat}
    (hl : LaidOut source.chars.toList o tokens) : ∃ e', tree.toExpr source = .ok e' :=
  ⟨_, (h.shaped.mirrored hl _).mpr ⟨h.supported he, rfl⟩⟩

end Expr.PrintedAs

theorem Expr.printedAs_ident (name : String) (loc : Option Span) (offset : Nat) :
    (ident name loc).PrintedAs offset [.at .name offset name.toList]
      (.ofToken (.at .name offset name.toList)) where
  shaped := .operand (List.mem_cons_of_mem _ List.mem_cons_self)
  supported _ := (Tree.forall_subtrees_ofToken _).mpr (Tree.supported_ofToken (by simp [Token.at]))
  image _ source := by
    rw [Tree.asExpr_name rfl, Tree.spelling_ofToken]
    simp [Token.at, bare]
  rejected b later h := by contradiction

theorem Expr.printedAs_number {x : Binary64} (hx : x.isFinite = true) {n : Numeral}
    (hchars : x.programChars = n.chars) (loc : Option Span) (offset : Nat) :
    (number x loc).PrintedAs offset [.at .number offset n.chars]
      (.ofToken (.at .number offset n.chars)) where
  shaped := .operand List.mem_cons_self
  supported _ := (Tree.forall_subtrees_ofToken _).mpr (Tree.supported_ofToken (by simp [Token.at]))
  image _ source := by
    have hread := Binary64.readNumber_programText hx
    have hspelling : (Tree.ofToken (.at .number offset n.chars)).spelling =
        String.ofList n.chars := rfl
    rw [Binary64.programText, hchars, ← hspelling] at hread
    rw [Tree.asExpr_literal (.inl rfl) hread]
    rfl
  rejected b later h := by contradiction

/-- A negative number is a sign and a number, with nothing in between. -/
theorem Expr.printedAs_negative {x : Binary64} (hx : x.isFinite = true) {n : Numeral}
    (hchars : x.programChars = '-' :: n.chars) (loc : Option Span) (offset : Nat) :
    (number x loc).PrintedAs offset [.at .minus offset ['-'], .at .number (offset + 1) n.chars]
      (.spanning .unary [.at .minus offset ['-'], .at .number (offset + 1) n.chars]
        [.ofToken (.at .minus offset ['-']), .ofToken (.at .number (offset + 1) n.chars)]) where
  shaped := .signed (Nat.le_refl _) (List.mem_cons_of_mem _ List.mem_cons_self)
    (.operand List.mem_cons_self)
  supported _ := by
    rw [Tree.forall_subtrees, Tree.children_spanning]
    refine ⟨⟨_, _, rfl, ?_, rfl, rfl⟩, ?_⟩
    · exact List.mem_cons_of_mem _ List.mem_cons_self
    · simp [Tree.forall_subtrees_ofToken, Tree.supported_ofToken, Token.at]
  image _ source := by
    have hread := Binary64.readNumber_programText hx
    have hspelling : (Tree.spanning .unary [.at .minus offset ['-'], .at .number (offset + 1) n.chars]
        [.ofToken (.at .minus offset ['-']),
          .ofToken (.at .number (offset + 1) n.chars)]).spelling = String.ofList ('-' :: n.chars) := by
      simp [Tree.spanning, Tree.spelling, Tree.spellingAll, Tree.ofToken, Token.at]
    rw [Binary64.programText, hchars, ← hspelling] at hread
    rw [Tree.asExpr_literal (.inr rfl) hread]
    rfl
  rejected b later h := by contradiction

structure PlacedExpr where
  expr : Expr
  offset : Nat
  piece : Piece

def PlacedExpr.Printed (a : PlacedExpr) : Prop :=
  a.expr.PrintedAs a.offset a.piece.tokens a.piece.tree

theorem toExpr_call_eq_error {callee : Tree} {list : ArgumentList} {source : Source}
    (hp : list.Punctuated) (hs : ∀ p ∈ list.pieces, Shaped .expr p.tokens p.tree) {failure : Failure}
    (h : (list.pieces.map Piece.tree).mapM (Tree.toExpr source) = .error failure) :
    (Tree.spanning .call tokens [callee, list.tree]).toExpr source = .error failure := by
  rw [Tree.toExpr_call rfl (Tree.children_spanning ..), Tree.callParts,
    ArgumentList.toArguments_tree hp hs, h]
  rfl

theorem Expr.PrintedAs.of_call {e : Expr} {name : Token} {list : ArgumentList}
    {args : List PlacedExpr} (hname : name.terminal = .name) (hp : list.Punctuated)
    (hpieces : list.pieces = args.map PlacedExpr.piece) (hargs : ∀ a ∈ args, a.Printed)
    (hbinaries : e.outermostBinaries = args.flatMap (·.expr.outermostBinaries))
    (htext : ∀ a ∈ args, ∀ chars : List Char, e.text.toList <+: chars.drop offset →
      a.expr.text.toList <+: chars.drop a.offset)
    (hself : (Tree.spanning .call (name :: list.tokens) [.ofToken name, list.tree]).Supported)
    (himage : e.outermostBinaries = [] → ∀ source,
      ((Tree.spanning .call (name :: list.tokens) [.ofToken name, list.tree]).asExpr source).bare =
        e.bare) :
    e.PrintedAs offset (name :: list.tokens)
      (.spanning .call (name :: list.tokens) [.ofToken name, list.tree]) := by
  have hshaped : ∀ p ∈ list.pieces, Shaped .expr p.tokens p.tree := by
    intro p hmem
    rw [hpieces] at hmem
    obtain ⟨a, ha, rfl⟩ := List.mem_map.mp hmem
    exact (hargs a ha).shaped.mono (by decide)
  have hfunction : Shaped .call [name] (.ofToken name) := .operand (by simp [hname])
  refine ⟨.call (Nat.le_succ _) hfunction hp hshaped, ?_, himage, ?_⟩
  · intro he
    rw [hbinaries, List.flatMap_eq_nil_iff] at he
    rw [Tree.forall_subtrees, Tree.children_spanning, List.forall_mem_cons,
      List.forall_mem_singleton, Tree.forall_subtrees_ofToken, ArgumentList.supported_iff hp]
    refine ⟨hself, Tree.supported_ofToken (by simp [hname]), fun p hmem => ?_⟩
    rw [hpieces] at hmem
    obtain ⟨a, ha, rfl⟩ := List.mem_map.mp hmem
    exact (hargs a ha).supported (he a ha)
  · intro b later h source o hl hfront
    have hlaid : ∀ a ∈ args, ∃ o, LaidOut source.chars.toList o a.piece.tokens := by
      intro a ha
      refine hl.2.2.of_within (ArgumentList.tokens_within ?_)
      rw [hpieces]
      exact List.mem_map_of_mem ha
    rw [hbinaries] at h
    obtain ⟨failure, hfailure, hpoints⟩ := mapM_map_eq_error
      (t := fun a : PlacedExpr => a.piece.tree) (f := Tree.toExpr source)
      (P := fun failure b => failure.PointsAt source b)
      (by
        intro a ha he
        obtain ⟨o, ho⟩ := hlaid a ha
        exact (hargs a ha).toExpr_eq_ok he ho)
      (by
        intro a ha b later hb
        obtain ⟨o, ho⟩ := hlaid a ha
        exact (hargs a ha).rejected b later hb source o ho (htext a ha _ hfront)) h
    refine ⟨failure, toExpr_call_eq_error hp hshaped ?_, hpoints⟩
    rw [hpieces, List.map_map]
    exact hfailure

/-- Wherever the expression is printed, it is read as a tree for it. -/
def Expr.Prints (e : Expr) : Prop :=
  ∀ offset rest, Boundary rest →
    ∃ tokens tree, Scans offset e.text.toList tokens rest ∧ e.PrintedAs offset tokens tree

theorem Scans.lpar {offset : Nat} {rest : List Char} :
    Scans offset ['('] [.at .lpar offset ['(']] rest :=
  single rfl (by decide)

theorem Scans.rpar {offset : Nat} {rest : List Char} :
    Scans offset [')'] [.at .rpar offset [')']] rest :=
  single rfl (by decide)

theorem Scans.comma {offset : Nat} {rest : List Char} :
    Scans offset [','] [.at .comma offset [',']] rest :=
  single rfl (by decide)

theorem boundary_cons {c : Char} (hc : c ∈ ['(', ')', ',', ' ', '\n']) (rest : List Char) :
    Boundary (c :: rest) := by
  intro d hd
  obtain rfl := Option.some.inj hd
  exact hc

theorem UnaryBuiltin.isName_name (f : UnaryBuiltin) : isName f.name = true := by
  cases f <;> decide

theorem BinaryBuiltin.isName_name (f : BinaryBuiltin) : isName f.name = true := by
  cases f <;> decide

theorem UnaryBuiltin.ofName?_name (f : UnaryBuiltin) : ofName? f.name = some f := by
  cases f <;> rfl

theorem BinaryBuiltin.ofName?_name (f : BinaryBuiltin) : ofName? f.name = some f := by
  cases f <;> rfl

theorem Expr.prints_call1 {argument : Expr} (ih : argument.Prints) (f : UnaryBuiltin)
    (loc : Option Span) : (call1 f argument loc).Prints := by
  intro offset rest hr
  have hname := f.isName_name
  obtain ⟨ts, tree, hscan, hprinted⟩ := ih (offset + f.name.toList.length + 1) ([')'] ++ rest)
    (boundary_cons (by decide) rest)
  have hwhole : Scans offset (f.name.toList ++ (['('] ++ (argument.text.toList ++ [')']))) _ rest :=
    (Scans.name hname (boundary_cons (by decide) _).not_isNamePart).append
      (Scans.lpar.append (hscan.append Scans.rpar))
  rw [← toList_text_call1 f argument loc] at hwhole
  let a : PlacedExpr := ⟨argument, offset + f.name.toList.length + 1, ⟨ts, tree⟩⟩
  let list : ArgumentList :=
    .some (.at .lpar (offset + f.name.toList.length) ['(']) a.piece [] none
      (.at .rpar (offset + f.name.toList.length + 1 + argument.text.toList.length) [')'])
  have hp : list.Punctuated := ⟨rfl, by simp, by simp, rfl⟩
  have hpieces : list.pieces = [a].map PlacedExpr.piece := rfl
  have harguments : list.tree.arguments = [tree] :=
    ArgumentList.arguments_tree hp fun p hmem => by
      rw [List.mem_singleton.mp hmem]
      exact hprinted.shaped.mono (by decide)
  have hspelling : (Tree.ofToken (.at .name offset f.name.toList)).spelling = f.name :=
    String.ofList_toList
  refine ⟨_, _, hwhole, .of_call rfl hp hpieces ?_ ?_ ?_ ?_ ?_⟩
  · intro a' ha
    rw [List.mem_singleton.mp ha]
    exact hprinted
  · exact (List.append_nil _).symm
  · intro a' ha chars hfront
    rw [toList_text_call1] at hfront
    rw [List.mem_singleton.mp ha]
    exact prefix_left (prefix_drop (prefix_drop hfront))
  · refine ⟨_, _, rfl, rfl, .inl ⟨?_, ?_⟩⟩
    · rw [hspelling]
      exact UnaryBuiltin.exists_ofName?_iff.mp ⟨f, f.ofName?_name⟩
    · rw [harguments]
      rfl
  · intro he source
    rw [Tree.asExpr_call1 rfl (Tree.children_spanning ..) harguments (by rw [hspelling, f.ofName?_name])]
    exact congrArg (Expr.call1 f · none) (hprinted.image he source)

theorem Expr.prints_call2 {first second : Expr} (ih : first.Prints) (ih' : second.Prints)
    (hsolid : ∀ rest, Solid (second.text.toList ++ rest)) (f : BinaryBuiltin)
    (loc : Option Span) : (call2 f first second loc).Prints := by
  intro offset rest hr
  have hname := f.isName_name
  obtain ⟨ts, tree, hscan, hprinted⟩ := ih (offset + f.name.toList.length + 1)
    (([','] ++ ([' '] ++ (second.text.toList ++ [')']))) ++ rest)
    (boundary_cons (by decide) _)
  obtain ⟨ts', tree', hscan', hprinted'⟩ :=
    ih' (offset + f.name.toList.length + 1 + first.text.toList.length + 1 + 1) ([')'] ++ rest)
      (boundary_cons (by decide) rest)
  have hblank : Solid ((second.text.toList ++ [')']) ++ rest) := by
    rw [List.append_assoc]
    exact hsolid _
  let a : PlacedExpr := ⟨first, offset + f.name.toList.length + 1, ⟨ts, tree⟩⟩
  let a' : PlacedExpr :=
    ⟨second, offset + f.name.toList.length + 1 + first.text.toList.length + 1 + 1, ⟨ts', tree'⟩⟩
  let comma : Token :=
    .at .comma (offset + f.name.toList.length + 1 + first.text.toList.length) [',']
  let list : ArgumentList :=
    .some (.at .lpar (offset + f.name.toList.length) ['(']) a.piece [(comma, a'.piece)] none
      (.at .rpar (a'.offset + second.text.toList.length) [')'])
  have hwhole : Scans offset (call2 f first second loc).text.toList
      (.at .name offset f.name.toList :: list.tokens) rest := by
    have htokens : list.tokens = [.at .lpar (offset + f.name.toList.length) ['(']] ++
        (ts ++ ([comma] ++ ([] ++ (ts' ++
          [.at .rpar (a'.offset + second.text.toList.length) [')']])))) := by
      simp [list, ArgumentList.tokens, a, a']
    rw [toList_text_call2, htokens]
    exact (Scans.name hname (boundary_cons (by decide) _).not_isNamePart).append
      (Scans.lpar.append (hscan.append (Scans.comma.append ((Scans.blank hblank).append
        (hscan'.append Scans.rpar)))))
  have hp : list.Punctuated := ⟨rfl, by simp [comma, Token.at], by simp, rfl⟩
  have hpieces : list.pieces = [a, a'].map PlacedExpr.piece := rfl
  have hargs : ∀ b ∈ [a, a'], b.Printed := by
    intro b hb
    simp only [List.mem_cons, List.not_mem_nil, or_false] at hb
    rcases hb with rfl | rfl
    · exact hprinted
    · exact hprinted'
  have harguments : list.tree.arguments = [tree, tree'] :=
    ArgumentList.arguments_tree hp fun p hmem => by
      rw [hpieces] at hmem
      obtain ⟨b, hb, rfl⟩ := List.mem_map.mp hmem
      exact (hargs b hb).shaped.mono (by decide)
  have hspelling : (Tree.ofToken (.at .name offset f.name.toList)).spelling = f.name :=
    String.ofList_toList
  refine ⟨_, _, hwhole, .of_call rfl hp hpieces hargs ?_ ?_ ?_ ?_⟩
  · simp [outermostBinaries, a, a']
  · intro b hb chars hfront
    rw [toList_text_call2] at hfront
    have hfirst := prefix_drop (prefix_drop hfront)
    have hsecond := prefix_drop (prefix_drop (prefix_drop hfirst))
    simp only [List.mem_cons, List.not_mem_nil, or_false] at hb
    rcases hb with rfl | rfl
    · exact prefix_left hfirst
    · exact prefix_left hsecond
  · refine ⟨_, _, rfl, rfl, .inr ⟨?_, ?_⟩⟩
    · rw [hspelling]
      exact BinaryBuiltin.exists_ofName?_iff.mp ⟨f, f.ofName?_name⟩
    · rw [harguments]
      rfl
  · intro he source
    obtain ⟨hfirst, hsecond⟩ := List.append_eq_nil_iff.mp he
    rw [Tree.asExpr_call2 rfl (Tree.children_spanning ..) harguments (by rw [hspelling, f.ofName?_name])]
    change call2 f (tree.asExpr source).bare (tree'.asExpr source).bare none = _
    rw [hprinted.image hfirst source, hprinted'.image hsecond source]
    rfl

def Operator.terminal : Operator → Terminal
  | .add => .plus
  | .sub => .minus
  | .mul => .star

def Operator.tier : Operator → Tier
  | .add | .sub => .sum
  | .mul => .product

theorem Operator.terminal_mem (op : Operator) : op.terminal ∈ op.tier.operators := by
  cases op <;> decide

theorem Scans.operator (op : Operator) {offset : Nat} {rest : List Char} :
    Scans offset op.symbol.toList [.at op.terminal offset op.symbol.toList] rest := by
  cases op with
  | add => exact single rfl (by decide)
  | sub => exact single rfl (by decide)
  | mul => exact single rfl (by decide)

theorem Operator.solid_symbol (op : Operator) (rest : List Char) :
    Solid (op.symbol.toList ++ rest) := by
  intro c hc
  cases op <;> · obtain rfl := Option.some.inj hc; decide

/-- What is in parentheses is refused with its own text. -/
theorem toExpr_paren {source : Source} {left right : Token} {chars : List Char} (hne : chars ≠ [])
    (hstop : right.stop = left.start + chars.length)
    (hfront : chars <+: source.chars.toList.drop left.start) :
    ∃ failure, (Tree.spanning .paren (left :: (tokens ++ [right]))
        [.ofToken left, tree, .ofToken right]).toExpr source = .error failure ∧
      failure.code = .unsupportedExpr ∧
        (failure.span source).text source = String.ofList chars := by
  obtain ⟨later, hlater⟩ := hfront
  have hlen := congrArg List.length hlater
  have hpos := List.length_pos_iff.mpr hne
  rw [List.length_append, List.length_drop] at hlen
  have hlast : stopOf left.stop (tokens ++ [right]) = right.stop := by
    rw [stopOf_append]
    rfl
  have hextent : (Tree.spanning .paren (left :: (tokens ++ [right]))
      [.ofToken left, tree, .ofToken right]).extent = ⟨left.start, right.stop⟩ := by
    rw [Tree.spanning, extent?_cons, Tree.extent, hlast]
  refine ⟨_, Tree.toExpr_unsupported (.inr rfl), rfl, ?_⟩
  rw [hextent]
  change source.slice left.start right.stop = _
  rw [source.slice_nat (by omega) (by omega), ← hlater]
  have htake : right.stop - left.start = chars.length := by omega
  rw [htake, List.take_left]

theorem Expr.prints_binary {left right : Expr} (ih : left.Prints) (ih' : right.Prints)
    (hsolid : ∀ rest, Solid (right.text.toList ++ rest)) (op : Operator) (loc : Option Span) :
    (binary op left right loc).Prints := by
  intro offset rest hr
  obtain ⟨ts, tree, hscan, hprinted⟩ := ih (offset + 1)
    (([' '] ++ (op.symbol.toList ++ ([' '] ++ (right.text.toList ++ [')'])))) ++ rest)
    (boundary_cons (by decide) _)
  let opToken : Token := .at op.terminal (offset + 1 + left.text.toList.length + 1) op.symbol.toList
  obtain ⟨ts', tree', hscan', hprinted'⟩ := ih' (opToken.stop + 1) ([')'] ++ rest)
    (boundary_cons (by decide) rest)
  let open' : Token := .at .lpar offset ['(']
  let close' : Token := .at .rpar (opToken.stop + 1 + right.text.toList.length) [')']
  have hleft : Solid ((op.symbol.toList ++ ([' '] ++ (right.text.toList ++ [')']))) ++ rest) := by
    rw [List.append_assoc]
    exact op.solid_symbol _
  have hright : Solid ((right.text.toList ++ [')']) ++ rest) := by
    rw [List.append_assoc]
    exact hsolid _
  have hwhole : Scans offset (binary op left right loc).text.toList
      (open' :: ((ts ++ opToken :: ts') ++ [close'])) rest := by
    have htokens : open' :: ((ts ++ opToken :: ts') ++ [close']) =
        [open'] ++ (ts ++ ([] ++ ([opToken] ++ ([] ++ (ts' ++ [close']))))) := by simp
    rw [toList_text_binary, htokens]
    exact Scans.lpar.append (hscan.append ((Scans.blank hleft).append
      ((Scans.operator op).append ((Scans.blank hright).append (hscan'.append Scans.rpar)))))
  have hbelow : Tier.factor.rank ≤ op.tier.below.rank := by cases op <;> decide
  have htier : Tier.factor.rank ≤ op.tier.rank := by cases op <;> decide
  have hexpr : op.tier.rank ≤ Tier.expr.rank := by cases op <;> decide
  have hinner : Shaped .expr (ts ++ opToken :: ts')
      (.spanning .binary (ts ++ opToken :: ts') [tree, .ofToken opToken, tree']) :=
    .infixed hexpr op.terminal_mem (hprinted.shaped.mono htier) (hprinted'.shaped.mono hbelow)
  refine ⟨_, _, hwhole, .paren rfl rfl hinner, ?_, ?_, ?_⟩
  · intro h
    contradiction
  · intro h
    contradiction
  · intro b later h source o hl hfront
    obtain ⟨rfl, -⟩ := List.cons.inj h
    have hne : (binary op left right loc).text.toList ≠ [] := by
      rw [toList_text_binary]
      simp
    have hstop : close'.stop = open'.start + (binary op left right loc).text.toList.length := by
      rw [toList_text_binary]
      simp [close', open', opToken, Token.at]
      omega
    obtain ⟨failure, hfailure, hcode, htext⟩ := toExpr_paren hne hstop hfront
    exact ⟨failure, hfailure, hcode, by rw [htext, String.ofList_toList]⟩

theorem solid_of_leading {c : Char} {t : Terminal} (h : Lexeme.leading? c = some t)
    (ht : t ≠ .newline) (rest : List Char) : Solid (c :: rest) := by
  intro d hd
  obtain rfl := Option.some.inj hd
  constructor
  · by_contra hblank
    rw [Bool.not_eq_false] at hblank
    simp only [Lexeme.isBlank, Bool.or_eq_true, decide_eq_true_eq] at hblank
    rcases hblank with (rfl | rfl) | rfl <;> contradiction
  · intro hmem
    simp only [List.mem_cons, List.not_mem_nil, or_false] at hmem
    have hnewline : Lexeme.leading? c = some .newline := by
      rcases hmem with rfl | rfl | rfl <;> rfl
    exact ht (Option.some.inj (h.symm.trans hnewline))

theorem leading_name {name : String} (hn : isName name = true) :
    ∃ c rest, name.toList = c :: rest ∧ Lexeme.leading? c = some .name := by
  unfold isName at hn
  split at hn
  · contradiction
  · rename_i c rest hchars
    rw [Bool.and_eq_true] at hn
    obtain ⟨hd, hp⟩ := Lexeme.not_isDecimalDigit_of_isNameStart hn.1
    exact ⟨c, rest, hchars, by simp [Lexeme.leading?, hd, hp, hn.1]⟩

theorem leading_numeral {n : Numeral} (hn : n.WellFormed) :
    ∃ c rest, n.chars = c :: rest ∧ Lexeme.leading? c = some .number := by
  obtain ⟨c, rest, hchars, hc⟩ := Numeral.exists_cons hn
  refine ⟨c, rest, hchars, ?_⟩
  rcases hc with h | rfl
  · simp [Lexeme.leading?, h]
  · rfl

theorem solid_name {name : String} (hn : isName name = true) (rest : List Char) :
    Solid (name.toList ++ rest) := by
  obtain ⟨c, later, hchars, hlead⟩ := leading_name hn
  rw [hchars]
  exact solid_of_leading hlead (by decide) _

namespace Expr

def leads : Expr → List Terminal
  | .number .. => [.number, .minus]
  | .ident .. | .call1 .. | .call2 .. => [.name]
  | .binary .. => [.lpar]
  | .unknown => []

theorem exists_leading {e : Expr} (he : e.Printable) :
    ∃ c rest, e.text.toList = c :: rest ∧ ∃ t ∈ e.leads, Lexeme.leading? c = some t := by
  cases e with
  | number x loc =>
    obtain ⟨n, hn, hchars, -⟩ := Binary64.programChars_eq he
    obtain ⟨c, rest, hc, hlead⟩ := leading_numeral hn
    rw [toList_text_number, hchars, hc]
    unfold Binary64.sign?
    split
    · exact ⟨'-', _, rfl, .minus, by simp [leads], rfl⟩
    · exact ⟨c, rest, rfl, .number, by simp [leads], hlead⟩
  | ident name loc =>
    obtain ⟨c, rest, hc, hlead⟩ := leading_name he
    exact ⟨c, rest, hc, .name, by simp [leads], hlead⟩
  | call1 f argument loc =>
    obtain ⟨c, rest, hc, hlead⟩ := leading_name f.isName_name
    rw [toList_text_call1, hc]
    exact ⟨c, _, rfl, .name, by simp [leads], hlead⟩
  | call2 f first second loc =>
    obtain ⟨c, rest, hc, hlead⟩ := leading_name f.isName_name
    rw [toList_text_call2, hc]
    exact ⟨c, _, rfl, .name, by simp [leads], hlead⟩
  | binary op left right loc =>
    rw [toList_text_binary]
    exact ⟨'(', _, rfl, .lpar, by simp [leads], rfl⟩
  | unknown => contradiction

theorem newline_not_mem_leads (e : Expr) : .newline ∉ e.leads := by
  cases e <;> simp [leads]

theorem solid_text {e : Expr} (he : e.Printable) (rest : List Char) :
    Solid (e.text.toList ++ rest) := by
  obtain ⟨c, later, htext, t, ht, hlead⟩ := exists_leading he
  rw [htext]
  exact solid_of_leading hlead (fun h => newline_not_mem_leads e (h ▸ ht)) _

theorem prints_number {x : Binary64} (hx : x.isFinite = true) (loc : Option Span) :
    (number x loc).Prints := by
  intro offset rest hr
  obtain ⟨n, hn, hchars, -⟩ := Binary64.programChars_eq hx
  rw [toList_text_number]
  cases hneg : x.negative with
  | true =>
    have hminus : x.programChars = '-' :: n.chars := by
      rw [hchars, Binary64.sign?, hneg]
      rfl
    have hscan : Scans offset (['-'] ++ n.chars) _ rest :=
      (Scans.operator .sub).append (Scans.numeral hn hr.stops)
    rw [hminus]
    exact ⟨_, _, hscan, printedAs_negative hx hminus loc offset⟩
  | false =>
    have hplain : x.programChars = n.chars := by
      rw [hchars, Binary64.sign?, hneg]
      rfl
    rw [hplain]
    exact ⟨_, _, Scans.numeral hn hr.stops, printedAs_number hx hplain loc offset⟩

/-- What is printed for an expression is read as a tree for it. -/
theorem prints {e : Expr} (he : e.Printable) : e.Prints := by
  induction e with
  | number x loc => exact prints_number he loc
  | ident name loc =>
    intro offset rest hr
    exact ⟨_, _, Scans.name he hr.not_isNamePart, printedAs_ident name loc offset⟩
  | call1 f argument loc ih => exact prints_call1 (ih he) f loc
  | call2 f first second loc ih ih' =>
    exact prints_call2 (ih he.1) (ih' he.2) (solid_text he.2) f loc
  | binary op left right loc ih ih' =>
    exact prints_binary (ih he.1) (ih' he.2) (solid_text he.2) op loc
  | unknown => contradiction

end Expr
end ArithScript
