import ArithScript.Proofs.Lowering.Excerpt

/-!
The places that are recorded when a program is read.

The place of an expression or a statement is where its own text stands, inside that of what it is
part of and apart from those beside it. Read by itself, this text gives the same again.
-/
namespace ArithScript

namespace Expr

def loc : Expr → Option Span
  | .number _ loc | .ident _ loc | .call1 _ _ loc | .call2 _ _ _ loc | .binary _ _ _ loc => loc
  | .unknown => none

/-- The expressions directly below an expression, as they stand in the text. -/
def children : Expr → List Expr
  | .call1 _ argument _ => [argument]
  | .call2 _ first second _ => [first, second]
  | .binary _ left right _ => [left, right]
  | _ => []

/-- The expression and all expressions below it. -/
def subexprs : Expr → List Expr
  | .call1 f argument loc => .call1 f argument loc :: argument.subexprs
  | .call2 f first second loc => .call2 f first second loc :: (first.subexprs ++ second.subexprs)
  | .binary op left right loc => .binary op left right loc :: (left.subexprs ++ right.subexprs)
  | e => [e]

theorem forall_subexprs {P Q : Expr → Prop} (hp : ∀ e, P e → Q e)
    (hc : ∀ e, P e → ∀ child ∈ e.children, P child) (e : Expr) (he : P e) :
    ∀ x ∈ e.subexprs, Q x := by
  have hself := hp e he
  have hchildren := hc e he
  induction e with
  | number | ident | unknown => simpa [subexprs] using hself
  | call1 f argument loc ih =>
    have hargument := hchildren argument (by simp [children])
    simpa [subexprs, hself] using ih hargument (hp _ hargument) (hc _ hargument)
  | call2 f first second loc ih ih' =>
    have hfirst := hchildren first (by simp [children])
    have hsecond := hchildren second (by simp [children])
    rw [subexprs, List.forall_mem_cons, List.forall_mem_append]
    exact ⟨hself, ih hfirst (hp _ hfirst) (hc _ hfirst), ih' hsecond (hp _ hsecond) (hc _ hsecond)⟩
  | binary op left right loc ih ih' =>
    have hleft := hchildren left (by simp [children])
    have hright := hchildren right (by simp [children])
    rw [subexprs, List.forall_mem_cons, List.forall_mem_append]
    exact ⟨hself, ih hleft (hp _ hleft) (hc _ hleft), ih' hright (hp _ hright) (hc _ hright)⟩

end Expr

namespace Stmt

def loc : Stmt → Option Span
  | .define _ _ loc | .expr _ loc => loc
  | .unknown => none

/-- The expression directly below a statement. -/
def children : Stmt → List Expr
  | .define _ value _ => [value]
  | .expr e _ => [e]
  | .unknown => []

end Stmt

/-- The places are stretches of the text between two offsets, none of them empty, one after the
other and without an overlap. -/
def InOrder (source : Source) : Nat → Nat → List (Option Span) → Prop
  | lo, hi, [] => lo ≤ hi
  | lo, hi, loc :: rest =>
    ∃ start stop : Nat, lo ≤ start ∧ start < stop ∧ loc = some (.ofOffsets source start stop) ∧
      InOrder source stop hi rest

/-- The expression stands at its place: what is directly below it lies there in order, and the text
there, read as an expression, gives this one with its places counted from there. -/
def Expr.Recoverable (source : Source) (e : Expr) : Prop :=
  ∃ start stop : Nat, start < stop ∧ stop ≤ source.length ∧
    e.loc = some (.ofOffsets source start stop) ∧
    InOrder source start stop (e.children.map Expr.loc) ∧
    Expr.read (source.excerpt start stop) = .ok (e.moved (source.excerpt start stop) start)

/-- The statement stands at its place: its expression lies there, and the text there, read as a
program, gives this statement alone with its places counted from there. -/
def Stmt.Recoverable (source : Source) (s : Stmt) : Prop :=
  ∃ start stop : Nat, start < stop ∧ stop ≤ source.length ∧
    s.loc = some (.ofOffsets source start stop) ∧
    InOrder source start stop (s.children.map Expr.loc) ∧
    Program.read (source.excerpt start stop) = .ok [s.moved (source.excerpt start stop) start]

variable {source : Source} {offset a : Nat} {tokens : List Token} {tree : Tree}

theorem InOrder.mono {lo lo' hi hi' : Nat} {locs : List (Option Span)}
    (h : InOrder source lo hi locs) (hlo : lo' ≤ lo) (hhi : hi ≤ hi') :
    InOrder source lo' hi' locs := by
  induction locs generalizing lo lo' with
  | nil => exact Nat.le_trans hlo (Nat.le_trans h hhi)
  | cons loc rest ih =>
    obtain ⟨start, stop, hstart, hlt, hloc, hrest⟩ := h
    exact ⟨start, stop, Nat.le_trans hlo hstart, hlt, hloc, ih hrest (Nat.le_refl _)⟩

theorem Spread.inOrder {pieces : List Piece} {locs : List (Option Span)}
    (h : Spread pieces tokens) (hl : LaidOut source.chars.toList offset tokens)
    (hp : ∀ p ∈ pieces, Token.extent? p.tokens = some p.tree.extent)
    (hlocs : List.Forall₂ (fun p loc => loc = some (p.tree.location source)) pieces locs) :
    InOrder source offset (stopOf offset tokens) locs := by
  induction h generalizing offset locs with
  | nil =>
    cases hlocs
    exact Nat.le_refl _
  | skip token rest ih =>
    obtain ⟨hskips, hstands, hlater⟩ := hl
    have hstart := hskips.le
    have hlt := hstands.lt
    exact (ih hlater hp hlocs).mono (by omega) (Nat.le_refl _)
  | @piece _ tokens p rest ih =>
    obtain ⟨hpiece, hlater⟩ := laidOut_append.mp hl
    obtain ⟨hextent, hrest⟩ := List.forall_mem_cons.mp hp
    obtain ⟨start, hle, hlt, -, hstop, -, hextent⟩ := hpiece.exists_start hextent
    cases hlocs with
    | cons hloc hlocs =>
      rw [stopOf_append]
      refine ⟨start, stopOf offset p.tokens, hle, hstop ▸ hlt, ?_, ih hlater hrest hlocs⟩
      rw [hloc, Tree.location, hextent, hstop]

/-- The expression is what some tokens of the text stand for. -/
def Expr.ReadFrom (source : Source) (e : Expr) : Prop :=
  ∃ n tokens tree offset, Shaped n tokens tree ∧ LaidOut source.chars.toList offset tokens ∧
    tree.toExpr source = .ok e

/-- The expression is what some tokens between two offsets of the text stand for. -/
def Expr.ReadBetween (source : Source) (lo hi : Nat) (e : Expr) : Prop :=
  ∃ n tokens tree offset, Shaped n tokens tree ∧ LaidOut source.chars.toList offset tokens ∧
    lo ≤ offset ∧ stopOf offset tokens ≤ hi ∧ tree.toExpr source = .ok e

def ReadInOrder (source : Source) (tokens : List Token) (es : List Expr) : Prop :=
  ∃ pieces, Spread pieces tokens ∧ (∀ p ∈ pieces, ∃ m, Shaped m p.tokens p.tree) ∧
    List.Forall₂ (fun p e => p.tree.toExpr source = .ok e) pieces es

theorem readInOrder_nil (source : Source) (tokens : List Token) : ReadInOrder source tokens [] :=
  ⟨[], .none tokens, by simp, .nil⟩

/-- The place of an expression is that of its tree, and what is directly below it was read from
pieces of its tokens. -/
theorem Shaped.readInOrder {n : Tier} {e : Expr} (h : Shaped n tokens tree)
    (he : tree.toExpr source = .ok e) :
    e.loc = some (tree.location source) ∧ ReadInOrder source tokens e.children := by
  cases h with
  | @operand _ token ht =>
    simp only [List.mem_cons, List.not_mem_nil, or_false] at ht
    rcases ht with ht | ht | ht
    · rw [Tree.toExpr_number (congrArg _ ht)] at he
      obtain ⟨value, -, rfl⟩ := Tree.toNumber_eq_ok_iff.mp he
      exact ⟨rfl, readInOrder_nil source _⟩
    · rw [Tree.toExpr_name (congrArg _ ht)] at he
      rw [← Except.ok.inj he]
      exact ⟨rfl, readInOrder_nil source _⟩
    · rw [Tree.toExpr_unsupported (.inl (congrArg _ ht))] at he
      contradiction
  | paren =>
    rw [Tree.toExpr_unsupported (.inr rfl)] at he
    contradiction
  | @call _ ts callee list hn function hp arguments =>
    obtain ⟨args, hargs, hcall⟩ := (Tree.Mirrored.toExpr_call_eq_ok_iff hp arguments e).mp he
    rw [mapM_eq_ok_iff_forall₂, List.forall₂_map_left_iff] at hargs
    have hspread : Spread list.pieces (ts ++ list.tokens) := (Spread.none ts).append list.spread
    have hshapes : ∀ p ∈ list.pieces, ∃ m, Shaped m p.tokens p.tree :=
      fun p hmem => ⟨.expr, arguments p hmem⟩
    rcases Expr.ofCall_eq_ok_iff.mp hcall with ⟨f, x, rfl, -, rfl⟩ | ⟨f, x, y, rfl, -, rfl⟩
    · exact ⟨rfl, _, hspread, hshapes, hargs⟩
    · exact ⟨rfl, _, hspread, hshapes, hargs⟩
  | signed hn hs inner =>
    rw [Tree.toExpr_unary rfl (Tree.children_spanning ..)] at he
    split at he
    · obtain ⟨value, -, rfl⟩ := Tree.toNumber_eq_ok_iff.mp he
      exact ⟨rfl, readInOrder_nil source _⟩
    · contradiction
  | @infixed n m op ts ts' t t' hn ho left right =>
    obtain ⟨first, o, second, hfirst, -, hsecond, rfl⟩ :=
      (Tree.toExpr_binary_eq_ok_iff rfl (Tree.children_spanning ..)).mp he
    refine ⟨rfl, [⟨ts, t⟩, ⟨ts', t'⟩], .piece ⟨ts, t⟩ (.skip op (.one ⟨ts', t'⟩)), ?_,
      .cons hfirst (.cons hsecond .nil)⟩
    rw [List.forall_mem_cons, List.forall_mem_singleton]
    exact ⟨⟨m, left⟩, ⟨m.below, right⟩⟩

namespace ReadInOrder
variable {es : List Expr}

theorem inOrder (h : ReadInOrder source tokens es) (hl : LaidOut source.chars.toList offset tokens) :
    InOrder source offset (stopOf offset tokens) (es.map Expr.loc) := by
  obtain ⟨pieces, hspread, hshapes, hes⟩ := h
  refine hspread.inOrder hl (fun p hmem => ?_) ?_
  · obtain ⟨m, hm⟩ := hshapes p hmem
    exact hm.extent?_eq
  · rw [List.forall₂_map_right_iff]
    refine forall₂_imp_of_mem hes fun p hmem e he => ?_
    obtain ⟨m, hm⟩ := hshapes p hmem
    exact (hm.readInOrder he).1

theorem readBetween {lo hi : Nat} (h : ReadInOrder source tokens es)
    (hl : LaidOut source.chars.toList offset tokens) (hlo : lo ≤ offset)
    (hhi : stopOf offset tokens ≤ hi) : ∀ e ∈ es, e.ReadBetween source lo hi := by
  obtain ⟨pieces, hspread, hshapes, hes⟩ := h
  intro e he
  obtain ⟨p, hmem, hpe⟩ := exists_of_mapM_eq_ok (mapM_eq_ok_iff_forall₂.mpr hes) e he
  obtain ⟨m, hm⟩ := hshapes p hmem
  obtain ⟨o, hle, ho, hstop⟩ := hl.within (hspread.within hmem)
  exact ⟨m, p.tokens, p.tree, o, hm, ho, Nat.le_trans hlo hle, Nat.le_trans hstop hhi, hpe⟩

theorem readFrom (h : ReadInOrder source tokens es)
    (hl : LaidOut source.chars.toList offset tokens) : ∀ e ∈ es, e.ReadFrom source := by
  intro e he
  obtain ⟨n, ts, tree, o, hs, ho, -, -, hts⟩ :=
    h.readBetween hl (Nat.le_refl _) (Nat.le_refl _) e he
  exact ⟨n, ts, tree, o, hs, ho, hts⟩

end ReadInOrder

namespace Expr.ReadBetween
variable {lo hi : Nat} {e : Expr}

theorem children (h : e.ReadBetween source lo hi) :
    ∀ child ∈ e.children, child.ReadBetween source lo hi := by
  obtain ⟨n, tokens, tree, offset, hs, hl, hlo, hhi, he⟩ := h
  exact (hs.readInOrder he).2.readBetween hl hlo hhi

theorem exists_loc (h : e.ReadBetween source lo hi) :
    ∃ start stop : Nat, lo ≤ start ∧ start < stop ∧ stop ≤ hi ∧
      e.loc = some (.ofOffsets source start stop) := by
  obtain ⟨n, tokens, tree, offset, hs, hl, hlo, hhi, he⟩ := h
  obtain ⟨start, hstart, hlt, -, hstop, -, hextent⟩ := hl.exists_start hs.extent?_eq
  refine ⟨start, stopOf start tokens, Nat.le_trans hlo hstart, hlt, hstop ▸ hhi, ?_⟩
  rw [(hs.readInOrder he).1, Tree.location, hextent]

end Expr.ReadBetween

theorem Shaped.read_excerpt {n : Tier} {e : Expr} (h : Shaped n tokens tree)
    (hl : LaidOut source.chars.toList a tokens) (ha : a ≤ source.chars.toList.length)
    (he : tree.toExpr source = .ok e) :
    Expr.read (source.excerpt a (stopOf a tokens)) =
      .ok (e.moved (source.excerpt a (stopOf a tokens)) a) := by
  have hstop := hl.stopOf_le ha
  have hscan : Token.scan .expr (source.excerpt a (stopOf a tokens)).chars.toList =
      some (tokens.map (Token.back a)) := by
    rw [source.toList_excerpt hl.le_stopOf hstop]
    -- no assignment sign is among the tokens, so none can be cut off from a comparison
    refine scan_excerpt hl (.none _) hstop h.hasTerminal fun token ht hequal => ?_
    have hterminal := h.hasTerminal token ht
    rw [hequal] at hterminal
    contradiction
  have hshape : Shaped .expr (tokens.map (Token.back a)) (tree.back a) :=
    (h.mono (by cases n <;> decide)).back (hl.beyond (Nat.le_refl a))
  exact Expr.read_eq_ok_iff.mpr ⟨tree.back a,
    Tree.read_iff_derivable.mpr ⟨_, hscan, hshape.derivable⟩,
    h.toExpr_back hl (Nat.le_refl a) (Nat.le_refl _) hstop he⟩

theorem ShapedStatement.read_excerpt {s : Stmt} (h : ShapedStatement tokens tree)
    (hl : LaidOut source.chars.toList a tokens) (ha : a ≤ source.chars.toList.length)
    (hlone : ∀ token ∈ tokens, token.terminal = .equal →
      Lexeme.compOp (source.chars.toList.drop token.start) = 0)
    (hs : tree.toStmt source = .ok s) :
    Program.read (source.excerpt a (stopOf a tokens)) =
      .ok [s.moved (source.excerpt a (stopOf a tokens)) a] := by
  have hstop := hl.stopOf_le ha
  have hscan : Token.scan .script (source.excerpt a (stopOf a tokens)).chars.toList =
      some (tokens.map (Token.back a)) := by
    rw [source.toList_excerpt hl.le_stopOf hstop]
    exact scan_excerpt hl (.none _) hstop (fun _ _ => rfl) hlone
  let parts : ScriptParts := .one ⟨tokens.map (Token.back a), tree.back a⟩
  have hlined : parts.Lined := ScriptParts.lined_one (h.back (hl.beyond (Nat.le_refl a)))
  have hback := h.toStmt_back hl (Nat.le_refl a) (Nat.le_refl _) hstop hs
  refine Program.read_eq_ok_iff.mpr ⟨parts.tree,
    Tree.read_script_iff.mpr ⟨parts, hlined, hscan, rfl⟩, ?_⟩
  rw [Tree.toProgram_cons rfl rfl, mapM_eq_ok_iff_forall₂]
  exact .cons hback .nil

theorem Expr.ReadFrom.children {e : Expr} (h : e.ReadFrom source) :
    ∀ child ∈ e.children, child.ReadFrom source := by
  obtain ⟨n, tokens, tree, offset, hs, hl, he⟩ := h
  exact (hs.readInOrder he).2.readFrom hl

theorem Expr.ReadFrom.recoverable {e : Expr} (h : e.ReadFrom source) : e.Recoverable source := by
  obtain ⟨n, tokens, tree, offset, hs, hl, he⟩ := h
  obtain ⟨hloc, hchildren⟩ := hs.readInOrder he
  obtain ⟨start, -, hlt, hle, -, hlaid, hextent⟩ := hl.exists_start hs.extent?_eq
  refine ⟨start, stopOf start tokens, hlt, hle, ?_, hchildren.inOrder hlaid,
    hs.read_excerpt hlaid (by omega) he⟩
  rw [hloc, Tree.location, hextent]

theorem ShapedStatement.readInOrder {s : Stmt} (h : ShapedStatement tokens tree)
    (hs : tree.toStmt source = .ok s) :
    s.loc = some (tree.location source) ∧ ReadInOrder source tokens s.children := by
  cases h with
  | @assignment name sign ts t hn he value =>
    rw [Tree.toStmt_assignment rfl (Tree.children_spanning ..), map_eq_ok_iff] at hs
    obtain ⟨e, hvalue, rfl⟩ := hs
    exact ⟨rfl, [⟨ts, t⟩], .skip name (.skip sign (.one ⟨ts, t⟩)), by simpa using ⟨.expr, value⟩,
      .cons hvalue .nil⟩
  | @expr _ t value =>
    rw [Tree.toStmt_expr rfl (Tree.children_spanning ..), map_eq_ok_iff] at hs
    obtain ⟨e, hvalue, rfl⟩ := hs
    exact ⟨rfl, [⟨tokens, t⟩], .one ⟨tokens, t⟩, by simpa using ⟨.expr, value⟩, .cons hvalue .nil⟩

theorem ScriptParts.forall₂_of_toProgram {parts : ScriptParts} {p : Program}
    (h : parts.tree.toProgram source = .ok p) :
    List.Forall₂ (fun q s => q.tree.toStmt source = .ok s) parts.statements p := by
  cases hc : parts.tree.children with
  | nil =>
    rw [Tree.toProgram_nil rfl hc] at h
    contradiction
  | cons first rest =>
    rw [Tree.toProgram_cons rfl hc, ← hc, mapM_eq_ok_iff_forall₂] at h
    exact List.forall₂_map_left_iff.mp h

theorem ShapedStatement.recoverable {s : Stmt} (h : ShapedStatement tokens tree)
    (hl : LaidOut source.chars.toList offset tokens)
    (hlone : ∀ token ∈ tokens, token.terminal = .equal →
      Lexeme.compOp (source.chars.toList.drop token.start) = 0)
    (hs : tree.toStmt source = .ok s) :
    s.Recoverable source ∧ ∀ e ∈ s.children, e.ReadFrom source := by
  obtain ⟨hloc, hchildren⟩ := h.readInOrder hs
  obtain ⟨start, -, hlt, hle, -, hlaid, hextent⟩ := hl.exists_start h.extent?_eq
  refine ⟨⟨start, stopOf start tokens, hlt, hle, ?_, ?_, ?_⟩, ?_⟩
  · rw [hloc, Tree.location, hextent]
  · exact hchildren.inOrder hlaid
  · exact h.read_excerpt hlaid (by omega) hlone hs
  · exact hchildren.readFrom hl

/-- Every statement of a program that was read, and every expression in it, has its exact place:
places lie within the text and are not empty, those of statements and of the parts of each node are
in order without an overlap, and inside that of the node. The text at a place gives the same
expression or statement again when it is read alone. -/
theorem Program.recoverable_of_read {p : Program} (h : Program.read source = .ok p) :
    InOrder source 0 source.length (p.map Stmt.loc) ∧
      ∀ s ∈ p, s.Recoverable source ∧
        ∀ child ∈ s.children, ∀ e ∈ child.subexprs, e.Recoverable source := by
  obtain ⟨tree, htree, hp⟩ := Program.read_eq_ok_iff.mp h
  obtain ⟨parts, hlined, hscan, rfl⟩ := Tree.read_script_iff.mp htree
  have hl := laidOut_of_scan hscan
  have hfrom : Token.scanFrom .script 0 (source.chars.toList.drop 0) = some parts.tokens := hscan
  have hlone := compOp_of_scanFrom hfrom
  constructor
  · have hlocs : List.Forall₂ (fun q loc => loc = some (q.tree.location source)) parts.statements
        (p.map Stmt.loc) := by
      rw [List.forall₂_map_right_iff]
      exact forall₂_imp_of_mem (ScriptParts.forall₂_of_toProgram hp) fun q hq s hs =>
        ((hlined.statements q hq).readInOrder hs).1
    have horder := parts.spread.inOrder hl (fun q hq => (hlined.statements q hq).extent?_eq) hlocs
    exact horder.mono (Nat.le_refl 0) (hl.stopOf_le (Nat.zero_le _))
  · intro s hs
    obtain ⟨q, hq, ⟨o, ho⟩, hqs⟩ :=
      ScriptParts.exists_piece_of_toProgram_eq_ok hlined hl hp s hs
    obtain ⟨hself, hbelow⟩ := (hlined.statements q hq).recoverable ho
      (fun token ht => hlone token ((ScriptParts.tokens_within hq).subset ht)) hqs
    exact ⟨hself, fun child hc => Expr.forall_subexprs (fun e he => he.recoverable)
      (fun e he => he.children) child (hbelow child hc)⟩

theorem Program.recoverable_sum :
    let source := Source.ofString "x = -0 + \\\n y"
    let loc := fun start stop => some (Span.ofOffsets source start stop)
    let sum := Expr.binary .add (.number (.zero true) (loc 4 6)) (.ident "y" (loc 12 13)) (loc 4 13)
    let p := [Stmt.define "x" sum (loc 0 13)]
    Program.read source = .ok p ∧ InOrder source 0 source.length (p.map Stmt.loc) ∧
      ∀ s ∈ p, s.Recoverable source ∧
        ∀ child ∈ s.children, ∀ e ∈ child.subexprs, e.Recoverable source := by
  intro source loc sum p
  have h : Program.read source = .ok p := by decide +kernel
  exact ⟨h, recoverable_of_read h⟩

end ArithScript
