import ArithScript.Proofs.Grammar.Reading
import ArithScript.Proofs.Lowering.Faithful
import ArithScript.Proofs.Lowering.Refinement

/-! Which texts hold a program, and which program they hold. -/
namespace ArithScript

def Operator.level : Operator → Nat
  | .add | .sub => 1
  | .mul => 2

/-- How tightly the outermost operator of an expression binds; what has none cannot come apart. -/
def Expr.level : Expr → Nat
  | .binary op .. => op.level
  | _ => 3

/-- Every node has a known form, and every binary expression groups as text without parentheses
does: to the left, and a product before a sum. -/
def Expr.Grouped : Expr → Prop
  | .call1 _ argument _ => Grouped argument
  | .call2 _ first second _ => Grouped first ∧ Grouped second
  | .binary op left right _ =>
    op.level ≤ left.level ∧ op.level < right.level ∧ Grouped left ∧ Grouped right
  | .unknown => False
  | _ => True

def Stmt.Grouped : Stmt → Prop
  | .define _ value _ => value.Grouped
  | .expr e _ => e.Grouped
  | .unknown => False

variable {source : Source} {offset : Nat} {tokens : List Token} {tree : Tree}

theorem map_eq_ok_iff {α β ε : Type} {f : α → β} {x : Except ε α} {y : β} :
    x.map f = .ok y ↔ ∃ a, x = .ok a ∧ f a = y := by
  cases x <;> simp [Except.map]

theorem ShapedStatement.toStmt_eq_ok_iff (h : ShapedStatement tokens tree)
    (hl : LaidOut source.chars.toList offset tokens) (s : Stmt) :
    tree.toStmt source = .ok s ↔
      (∀ t ∈ tree.subtrees, t.Supported) ∧ tree.asStmt source = s := by
  cases h with
  | assignment hn hs value =>
    rename_i name sign ts t
    have hc : (Tree.spanning .assignment (name :: sign :: ts)
        [.ofToken name, .ofToken sign, t]).children = [.ofToken name, .ofToken sign, t] := rfl
    have hself : (Tree.spanning .assignment (name :: sign :: ts)
        [.ofToken name, .ofToken sign, t]).Supported := trivial
    have hname : (Tree.ofToken name).Supported := Tree.supported_ofToken (by simp [hn])
    have hsign : (Tree.ofToken sign).Supported := Tree.supported_ofToken (by simp [hs])
    have hvalue := value.mirrored hl.2.2.2.2
    rw [Tree.toStmt_assignment rfl hc, map_eq_ok_iff, textIn_ofToken hl.2.1, Tree.assignedValue,
      Tree.forall_subtrees, hc]
    simp only [List.forall_mem_cons, Tree.forall_subtrees_ofToken, hself, hname, hsign, true_and,
      List.not_mem_nil, false_implies, implies_true, and_true]
    constructor
    · rintro ⟨e, he, rfl⟩
      obtain ⟨hsupported, rfl⟩ := (hvalue e).mp he
      exact ⟨hsupported, rfl⟩
    · rintro ⟨hsupported, rfl⟩
      exact ⟨_, (hvalue _).mpr ⟨hsupported, rfl⟩, rfl⟩
  | expr value =>
    rename_i t
    have hc : (Tree.spanning .exprStatement tokens [t]).children = [t] := rfl
    have hself : (Tree.spanning .exprStatement tokens [t]).Supported := trivial
    have hvalue := value.mirrored hl
    rw [Tree.toStmt_expr rfl hc, map_eq_ok_iff, Tree.forall_subtrees, hc, List.forall_mem_singleton]
    constructor
    · rintro ⟨e, he, rfl⟩
      obtain ⟨hsupported, rfl⟩ := (hvalue e).mp he
      exact ⟨⟨hself, hsupported⟩, rfl⟩
    · rintro ⟨⟨-, hsupported⟩, rfl⟩
      exact ⟨_, (hvalue _).mpr ⟨hsupported, rfl⟩, rfl⟩

def Tier.level : Tier → Nat
  | .atom | .call | .factor => 3
  | .product => 2
  | .sum | .comparison | .expr => 1

theorem Tier.level_anti {n m : Tier} (h : m.rank ≤ n.rank) : n.level ≤ m.level := by
  revert h
  cases n <;> cases m <;> decide

theorem Tier.level_of_operator {m : Tier} {t : Terminal} {o : Operator} (ht : t ∈ m.operators)
    (ho : t.operator? = some o) : o.level = m.level ∧ o.level < m.below.level := by
  revert ht ho
  cases m <;> cases t <;> cases o <;> decide

theorem Tier.level_le (n : Tier) : n.level ≤ 3 := by
  cases n <;> decide

theorem Tree.grouped_of_toNumber {problem : Problem} {e : Expr} (n : Tier)
    (h : tree.toNumber source problem = .ok e) : n.level ≤ e.level ∧ e.Grouped := by
  obtain ⟨value, -, rfl⟩ := toNumber_eq_ok_iff.mp h
  exact ⟨n.level_le, trivial⟩

/-- What an expression of a level stands for binds as tightly as the level, and it is grouped. -/
theorem Shaped.grouped {n : Tier} (h : Shaped n tokens tree)
    (hl : LaidOut source.chars.toList offset tokens) {e : Expr} (he : tree.toExpr source = .ok e) :
    n.level ≤ e.level ∧ e.Grouped := by
  induction h generalizing offset e with
  | operand ht =>
    rename_i n token
    simp only [List.mem_cons, List.not_mem_nil, or_false] at ht
    rcases ht with ht | ht | ht
    · rw [Tree.toExpr_number (congrArg _ ht)] at he
      exact Tree.grouped_of_toNumber n he
    · rw [Tree.toExpr_name (congrArg _ ht)] at he
      obtain rfl := Except.ok.inj he
      exact ⟨n.level_le, trivial⟩
    · rw [Tree.toExpr_unsupported (.inl (congrArg _ ht))] at he
      contradiction
  | paren hlpar hrpar inner ih =>
    rw [Tree.toExpr_unsupported (.inr rfl)] at he
    contradiction
  | call hn function hp arguments ih iha =>
    rename_i n ts callee list
    have hlist := (laidOut_append.mp hl).2
    obtain ⟨args, hargs, hcall⟩ := (Tree.Mirrored.toExpr_call_eq_ok_iff hp arguments e).mp he
    have hargument : ∀ x ∈ args, x.Grouped := by
      intro x hx
      obtain ⟨p, hmem, ⟨o, ho⟩, hpx⟩ := list.exists_piece_of_mapM_eq_ok hlist hargs x hx
      exact (iha p hmem ho hpx).2
    rcases Expr.ofCall_eq_ok_iff.mp hcall with ⟨f, x, rfl, -, rfl⟩ | ⟨f, x, y, rfl, -, rfl⟩
    · exact ⟨n.level_le, hargument x (by simp)⟩
    · exact ⟨n.level_le, hargument x (by simp), hargument y (by simp)⟩
  | signed hn hs inner ih =>
    rename_i n sign ts t
    rw [Tree.toExpr_unary rfl (Tree.children_spanning ..)] at he
    split at he
    · exact Tree.grouped_of_toNumber n he
    · contradiction
  | infixed hn ho left right ihl ihr =>
    rename_i n m op ts ts' t t'
    obtain ⟨hlaidLeft, -, hop, hlaidRight⟩ := laidOut_append.mp hl
    obtain ⟨first, o, second, hfirst, hsymbol, hsecond, rfl⟩ :=
      (Tree.toExpr_binary_eq_ok_iff rfl (Tree.children_spanning ..)).mp he
    rw [textIn_ofToken hop, hop.ofSymbol?_text ho] at hsymbol
    -- the left operand may be of the same level, the right one only of a tighter one
    obtain ⟨hlevel, hbelow⟩ := Tier.level_of_operator ho hsymbol
    obtain ⟨hll, hgl⟩ := ihl hlaidLeft hfirst
    obtain ⟨hlr, hgr⟩ := ihr hlaidRight hsecond
    refine ⟨?_, ?_, ?_, hgl, hgr⟩
    · exact Nat.le_trans (Tier.level_anti hn) (Nat.le_of_eq hlevel.symm)
    · exact hlevel ▸ hll
    · exact Nat.lt_of_lt_of_le hbelow hlr

theorem ShapedStatement.grouped (h : ShapedStatement tokens tree)
    (hl : LaidOut source.chars.toList offset tokens) {s : Stmt} (hs : tree.toStmt source = .ok s) :
    s.Grouped := by
  cases h with
  | assignment hn he value =>
    rw [Tree.toStmt_assignment rfl (Tree.children_spanning ..), map_eq_ok_iff] at hs
    obtain ⟨e, hvalue, rfl⟩ := hs
    exact (value.grouped hl.2.2.2.2 hvalue).2
  | expr value =>
    rw [Tree.toStmt_expr rfl (Tree.children_spanning ..), map_eq_ok_iff] at hs
    obtain ⟨e, hvalue, rfl⟩ := hs
    exact (value.grouped hl hvalue).2

theorem ScriptParts.toProgram_eq_ok_iff {parts : ScriptParts} (h : parts.Lined)
    (hl : LaidOut source.chars.toList offset parts.tokens) (p : Program) :
    parts.tree.toProgram source = .ok p ↔
      parts.tree.children ≠ [] ∧ (∀ t ∈ parts.tree.subtrees, t.Supported) ∧
        parts.tree.children.map (Tree.asStmt source) = p := by
  have hk : parts.tree.kind = .construct .script := rfl
  have hself : parts.tree.Supported := trivial
  have hchild : ∀ t ∈ parts.tree.children, ∀ s, t.toStmt source = .ok s ↔
      (∀ u ∈ t.subtrees, u.Supported) ∧ t.asStmt source = s := by
    intro t ht
    obtain ⟨piece, hpiece, rfl⟩ := List.mem_map.mp ht
    obtain ⟨o, ho⟩ := hl.of_within (tokens_within hpiece)
    exact (h.statements piece hpiece).toStmt_eq_ok_iff ho
  rw [Tree.forall_subtrees]
  cases hc : parts.tree.children with
  | nil =>
    rw [Tree.toProgram_nil hk hc]
    simp [Tree.reject]
  | cons first rest =>
    rw [hc] at hchild
    rw [Tree.toProgram_cons hk hc,
      mapM_eq_ok_iff (P := fun t => ∀ u ∈ t.subtrees, u.Supported) hchild]
    simp only [ne_eq, reduceCtorEq, not_false_eq_true, true_and, hself]

theorem ScriptParts.exists_piece_of_toProgram_eq_ok {parts : ScriptParts} (h : parts.Lined)
    (hl : LaidOut source.chars.toList offset parts.tokens) {p : Program}
    (hp : parts.tree.toProgram source = .ok p) :
    ∀ s ∈ p, ∃ piece ∈ parts.statements,
      (∃ o, LaidOut source.chars.toList o piece.tokens) ∧ piece.tree.toStmt source = .ok s := by
  intro s hs
  obtain ⟨-, hsupported, rfl⟩ := (toProgram_eq_ok_iff h hl p).mp hp
  obtain ⟨t, ht, rfl⟩ := List.mem_map.mp hs
  have hbelow := ((Tree.forall_subtrees _).mp hsupported).2 t ht
  obtain ⟨piece, hpiece, rfl⟩ := List.mem_map.mp ht
  obtain ⟨o, ho⟩ := hl.of_within (tokens_within hpiece)
  exact ⟨piece, hpiece, ⟨o, ho⟩,
    ((h.statements piece hpiece).toStmt_eq_ok_iff ho _).mpr ⟨hbelow, rfl⟩⟩

theorem Walk.over_of_tree {α : Type} {start : StartSymbol} {walk : Walk α}
    {result : Tree → Except Failure α} (hw : ∀ c, Walk.Computes walk c (result c.node))
    (h : Tree.read start source = .ok tree) :
    Walk.over start source walk = (result tree).mapError Fault.rejected := by
  rw [Walk.over, h]
  exact congrArg Prod.fst (hw (Cursor.ofRoot tree))

theorem Walk.over_eq_ok_iff {α : Type} {start : StartSymbol} {walk : Walk α}
    {result : Tree → Except Failure α} (hw : ∀ c, Walk.Computes walk c (result c.node)) {a : α} :
    Walk.over start source walk = .ok a ↔
      ∃ tree, Tree.read start source = .ok tree ∧ result tree = .ok a := by
  cases htree : Tree.read start source with
  | error failure =>
    rw [Walk.over, htree]
    simp
  | ok tree =>
    rw [Walk.over_of_tree hw htree]
    cases ha : result tree <;> simp [ha, Except.mapError]

theorem Program.read_of_tree (h : Tree.read .script source = .ok tree) :
    Program.read source = (tree.toProgram source).mapError Fault.rejected :=
  Walk.over_of_tree (Walk.program_computes source) h

theorem Program.read_eq_ok_iff {p : Program} :
    Program.read source = .ok p ↔
      ∃ tree, Tree.read .script source = .ok tree ∧ tree.toProgram source = .ok p :=
  Walk.over_eq_ok_iff (Walk.program_computes source)

theorem Expr.read_eq_ok_iff {e : Expr} :
    Expr.read source = .ok e ↔
      ∃ tree, Tree.read .expr source = .ok tree ∧ tree.toExpr source = .ok e :=
  Walk.over_eq_ok_iff (Walk.expr_computes source)

/-- A text holds a program exactly if it is read as a script with at least one statement in which
everything is supported. The program then mirrors the script, statement for statement. No node of
it is unknown, and its binary expressions are grouped as the text without parentheses asks. -/
theorem Program.read_iff_supported (source : Source) :
    (∀ p, Program.read source = .ok p ↔
      ∃ tree, Tree.read .script source = .ok tree ∧ tree.children ≠ [] ∧
        (∀ t ∈ tree.subtrees, t.Supported) ∧ tree.children.map (Tree.asStmt source) = p) ∧
    ∀ p, Program.read source = .ok p → ∀ s ∈ p, s.Grouped := by
  have hprogram : ∀ tree, Tree.read .script source = .ok tree → ∀ p,
      tree.toProgram source = .ok p ↔ tree.children ≠ [] ∧ (∀ t ∈ tree.subtrees, t.Supported) ∧
        tree.children.map (Tree.asStmt source) = p := by
    intro tree htree
    obtain ⟨parts, hp, hscan, rfl⟩ := Tree.read_script_iff.mp htree
    exact ScriptParts.toProgram_eq_ok_iff hp (laidOut_of_scan hscan)
  constructor
  · intro p
    rw [read_eq_ok_iff]
    constructor
    · rintro ⟨tree, htree, hp⟩
      exact ⟨tree, htree, (hprogram tree htree p).mp hp⟩
    · rintro ⟨tree, htree, hp⟩
      exact ⟨tree, htree, (hprogram tree htree p).mpr hp⟩
  · intro p hp s hs
    obtain ⟨tree, htree, htp⟩ := read_eq_ok_iff.mp hp
    obtain ⟨parts, hlined, hscan, rfl⟩ := Tree.read_script_iff.mp htree
    obtain ⟨piece, hpiece, ⟨o, ho⟩, hps⟩ :=
      ScriptParts.exists_piece_of_toProgram_eq_ok hlined (laidOut_of_scan hscan) htp s hs
    exact (hlined.statements piece hpiece).grouped ho hps

end ArithScript
