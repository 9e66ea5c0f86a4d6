import ArithScript.Proofs.Lowering.Faithful
import ArithScript.Proofs.Lowering.Parts
import ArithScript.Proofs.Lowering.Refinement

/-!
Which concrete trees are lowered, built by hand or read from a text.

Every node that is lowered is checked on its own: it must have certain children first. Children
after them are dropped in silence, and separators may be anything, so the nodes of a tree that is
lowered need not have the shapes of the grammar.
-/
namespace ArithScript

def Kind.isExpr : Kind → Bool
  | .terminal .number | .terminal .name => true
  | .construct .call | .construct .unary | .construct .binary => true
  | _ => false

def Kind.isStmt : Kind → Bool
  | .construct .assignment | .construct .exprStatement => true
  | _ => false

namespace Tree

/-- The trees that are to be lowered, by the roles of the first ones. -/
def loweredParts : List Role → List Tree → List Tree
  | .lowered :: roles, tree :: rest => tree :: loweredParts roles rest
  | .passed :: roles, _ :: rest => loweredParts roles rest
  | _, _ => []

def lowered (tree : Tree) : List Tree := loweredParts tree.roles tree.children

mutual

/-- The nodes and tokens that lowering consumes: the tree itself, and what is consumed below it. -/
def consumed : Tree → List Tree
  | .token kind text start stop => [.token kind text start stop]
  | .node kind extent children =>
    .node kind extent children ::
      consumedParts (Tree.node kind extent children).roles children

def consumedParts : List Role → List Tree → List Tree
  | .lowered :: roles, tree :: rest => consumed tree ++ consumedParts roles rest
  | .passed :: roles, _ :: rest => consumedParts roles rest
  | _, _ => []

end

/-- What lowering checks of a node alone: the parts that it reads are there, with the right labels
and texts. -/
def Accepted (source : Source) (tree : Tree) : Prop :=
  match tree.kind with
  | .terminal .name => True
  | .terminal .number => ∃ value, readNumber (tree.textIn source) = some value
  | .construct .unary =>
    ∃ sign later, tree.children = sign :: later ∧ isSign (sign.textIn source) = true ∧
      ∃ value, readNumber (tree.textIn source) = some value
  | .construct .binary =>
    ∃ left op right later, tree.children = left :: op :: right :: later ∧
      left.kind.isExpr = true ∧ (∃ o, Operator.ofSymbol? (op.textIn source) = some o) ∧
        right.kind.isExpr = true
  | .construct .call =>
    ∃ callee list later, tree.children = callee :: list :: later ∧
      list.kind = .construct .argList ∧
        (callee.textIn source ∈ ["print", "abs"] ∧ list.lowered.length = 1 ∨
          callee.textIn source ∈ ["max", "min", "pow"] ∧ list.lowered.length = 2)
  | .construct .argList => tree.children ≠ [] ∧ ∀ t ∈ tree.lowered, t.kind.isExpr = true
  | .construct .assignment =>
    ∃ target sign value later, tree.children = target :: sign :: value :: later ∧
      value.kind.isExpr = true
  | .construct .exprStatement => ∃ e later, tree.children = e :: later ∧ e.kind.isExpr = true
  | .construct .script => tree.children ≠ [] ∧ ∀ t ∈ tree.children, t.kind.isStmt = true
  | _ => False

/-- All that lowering consumes of the tree is accepted. -/
def Lowerable (source : Source) (tree : Tree) : Prop := ∀ t ∈ tree.consumed, t.Accepted source

variable {source : Source} {tree : Tree}

theorem consumedParts_eq (roles : List Role) (trees : List Tree) :
    consumedParts roles trees = (loweredParts roles trees).flatMap consumed := by
  induction trees generalizing roles with
  | nil => rcases roles with _ | ⟨_ | _, _⟩ <;> rfl
  | cons tree rest ih =>
    rcases roles with _ | ⟨_ | _, roles⟩
    · rfl
    · rw [consumedParts, loweredParts, ih, List.flatMap_cons]
    · rw [consumedParts, loweredParts, ih]

theorem consumed_eq (tree : Tree) : tree.consumed = tree :: tree.lowered.flatMap consumed := by
  cases tree with
  | token =>
    rw [lowered, ← consumedParts_eq, children, consumed, consumedParts.eq_def]
    split <;> simp_all
  | node => rw [consumed, consumedParts_eq]; rfl

theorem lowerable_iff :
    tree.Lowerable source ↔
      tree.Accepted source ∧ ∀ child ∈ tree.lowered, child.Lowerable source := by
  rw [Lowerable, consumed_eq, List.forall_mem_cons]
  simp only [List.mem_flatMap, Lowerable]
  exact and_congr_right' ⟨fun h child hc t ht => h t ⟨child, hc, ht⟩,
    fun h t ⟨child, hc, ht⟩ => h child hc t ht⟩

theorem loweredParts_map (trees : List Tree) :
    loweredParts (trees.map fun _ => .lowered) trees = trees := by
  induction trees with
  | nil => rfl
  | cons tree rest ih => rw [List.map_cons, loweredParts, ih]

def LowersIfAccepted (source : Source) (tree : Tree) : Prop :=
  ((∃ e, tree.toExpr source = .ok e) ↔ tree.kind.isExpr = true ∧ tree.Lowerable source) ∧
    ((∃ es, tree.toArguments source = .ok es) ↔
      tree.kind = .construct .argList ∧ tree.Lowerable source)

theorem exists_toNumber_iff {problem : Problem} :
    (∃ e, tree.toNumber source problem = .ok e) ↔
      ∃ value, readNumber (tree.textIn source) = some value := by
  simp [toNumber_eq_ok_iff]

theorem exists_toExpr_unary_iff (hk : tree.kind = .construct .unary) :
    (∃ e, tree.toExpr source = .ok e) ↔ tree.Lowerable source := by
  have hroles : tree.roles = [.passed] := by simp only [roles, hk]
  rw [lowerable_iff, Accepted, lowered, hroles]
  simp only [hk]
  cases hc : tree.children with
  | nil => simp [toExpr_unary_nil hk hc, reject]
  | cons sign later =>
    rw [toExpr_unary hk hc]
    by_cases hs : isSign (sign.textIn source) = true
    · rw [if_pos hs, exists_toNumber_iff]
      simp [loweredParts, hs]
    · simp [hs, reject]

theorem exists_toExpr_binary_iff (hk : tree.kind = .construct .binary)
    (ih : ∀ t ∈ tree.children, LowersIfAccepted source t) :
    (∃ e, tree.toExpr source = .ok e) ↔ tree.Lowerable source := by
  have hroles : tree.roles = [.lowered, .passed, .lowered] := by simp only [roles, hk]
  rw [lowerable_iff, Accepted, lowered, hroles]
  simp only [hk]
  rcases hc : tree.children with _ | ⟨left, _ | ⟨op, _ | ⟨right, later⟩⟩⟩
  · simp [toExpr_binary_nil hk hc, reject]
  · rw [toExpr_binary hk hc]
    cases left.toExpr source <;> simp [rightSide, reject, Except.map]
  · rw [toExpr_binary hk hc, rightSide]
    cases left.toExpr source <;> cases op.toOperator source <;> simp [reject, Except.map]
  · have hl := (ih left (by simp [hc])).1
    have hr := (ih right (by simp [hc])).1
    simp only [toExpr_binary_eq_ok_iff hk hc, loweredParts, List.forall_mem_cons]
    constructor
    · rintro ⟨_, first, o, second, hfirst, ho, hsecond, -⟩
      obtain ⟨hlk, hlb⟩ := hl.mp ⟨first, hfirst⟩
      obtain ⟨hrk, hrb⟩ := hr.mp ⟨second, hsecond⟩
      exact ⟨⟨left, op, right, later, rfl, hlk, ⟨o, ho⟩, hrk⟩, hlb, hrb, by simp⟩
    · rintro ⟨⟨l, p, r, _, hchildren, hlk, ⟨o, ho⟩, hrk⟩, hlb, hrb, -⟩
      obtain ⟨rfl, rfl, rfl, -⟩ : left = l ∧ op = p ∧ right = r ∧ _ := by simpa using hchildren
      obtain ⟨first, hfirst⟩ := hl.mpr ⟨hlk, hlb⟩
      obtain ⟨second, hsecond⟩ := hr.mpr ⟨hrk, hrb⟩
      exact ⟨_, first, o, second, hfirst, ho, hsecond, rfl⟩

theorem exists_argumentsOf_iff (trees : List Tree)
    (ih : ∀ t ∈ trees, LowersIfAccepted source t) :
    ((∃ es, argumentsOf source trees = .ok es) ↔
        ∀ t ∈ loweredParts (argumentRoles .lowered trees) trees,
          t.kind.isExpr = true ∧ t.Lowerable source) ∧
      ((∃ es, laterArguments source trees = .ok es) ↔
        ∀ t ∈ loweredParts (argumentRoles .passed trees) trees,
          t.kind.isExpr = true ∧ t.Lowerable source) := by
  induction trees with
  | nil => simp [argumentsOf_nil, laterArguments, argumentRoles, loweredParts]
  | cons tree rest hrest =>
    obtain ⟨hargument, hseparator⟩ := hrest fun t ht => ih t (List.mem_cons_of_mem _ ht)
    by_cases hk : tree.kind = .terminal .rpar
    · simp [argumentRoles, hk, argumentsOf_rpar hk, laterArguments, loweredParts]
    · rw [argumentRoles, if_neg hk, argumentRoles, if_neg hk, Role.next, Role.next, loweredParts,
        loweredParts, laterArguments, if_neg hk]
      refine ⟨?_, hargument⟩
      rw [argumentsOf_cons hk, List.forall_mem_cons, ← (ih tree List.mem_cons_self).1,
        ← hseparator]
      cases tree.toExpr source with
      | error => simp
      | ok e => cases laterArguments source rest <;> simp [Except.map]

theorem length_argumentsOf (trees : List Tree) :
    (∀ es, argumentsOf source trees = .ok es →
        es.length = (loweredParts (argumentRoles .lowered trees) trees).length) ∧
      ∀ es, laterArguments source trees = .ok es →
        es.length = (loweredParts (argumentRoles .passed trees) trees).length := by
  induction trees with
  | nil => simp [argumentsOf_nil, laterArguments, argumentRoles, loweredParts]
  | cons tree rest ih =>
    obtain ⟨hargument, hseparator⟩ := ih
    by_cases hk : tree.kind = .terminal .rpar
    · simp [argumentRoles, hk, argumentsOf_rpar hk, laterArguments, loweredParts]
    · rw [argumentRoles, if_neg hk, argumentRoles, if_neg hk, Role.next, Role.next, loweredParts,
        loweredParts, laterArguments, if_neg hk]
      refine ⟨?_, hargument⟩
      rw [argumentsOf_cons hk]
      cases tree.toExpr source with
      | error => simp
      | ok e =>
        cases hlater : laterArguments source rest with
        | error => simp [Except.map]
        | ok es => simp [Except.map, hseparator es hlater]

theorem toArguments_eq (source : Source) (hk : tree.kind = .construct .argList)
    (hc : tree.children ≠ []) :
    ∃ trees, (∀ t ∈ trees, t ∈ tree.children) ∧
      tree.lowered = loweredParts (argumentRoles .lowered trees) trees ∧
        tree.toArguments source = argumentsOf source trees := by
  obtain ⟨first, rest, hfirst⟩ := List.exists_cons_of_ne_nil hc
  have hroles : tree.roles = listRoles (first :: rest) := by simp only [roles, hk, hfirst]
  rw [toArguments_cons hk hfirst, lowered, hroles, hfirst, listRoles]
  by_cases hl : first.kind = .terminal .lpar
  · refine ⟨rest, fun t ht => List.mem_cons_of_mem _ ht, ?_, if_pos hl⟩
    rw [if_pos hl, loweredParts]
  · refine ⟨first :: rest, fun t ht => ht, ?_, if_neg hl⟩
    rw [if_neg hl]

theorem length_toArguments {es : List Expr} (h : tree.toArguments source = .ok es) :
    es.length = tree.lowered.length := by
  by_cases hk : tree.kind = .construct .argList
  · by_cases hc : tree.children = []
    · simp [toArguments_nil hk hc, reject] at h
    · obtain ⟨trees, -, hlowered, heq⟩ := toArguments_eq source hk hc
      rw [heq] at h
      rw [hlowered]
      exact (length_argumentsOf trees).1 es h
  · simp [toArguments_other hk, reject] at h

theorem exists_toArguments_iff_of_children (ih : ∀ t ∈ tree.children, LowersIfAccepted source t) :
    (∃ es, tree.toArguments source = .ok es) ↔
      tree.kind = .construct .argList ∧ tree.Lowerable source := by
  by_cases hk : tree.kind = .construct .argList
  · rw [lowerable_iff, Accepted]
    simp only [hk, true_and]
    by_cases hc : tree.children = []
    · simp [toArguments_nil hk hc, hc, reject]
    · obtain ⟨trees, hmem, hlowered, heq⟩ := toArguments_eq source hk hc
      rw [heq, (exists_argumentsOf_iff trees fun t ht => ih t (hmem t ht)).1, ← hlowered]
      simp only [hc, ne_eq, not_false_eq_true, true_and, forall_and]
  · simp [toArguments_other hk, hk, reject]

theorem exists_ofCall_iff {name : String} {arguments : List Expr} {loc : Span} :
    (∃ e, Expr.ofCall name arguments loc = .ok e) ↔
      name ∈ ["print", "abs"] ∧ arguments.length = 1 ∨
        name ∈ ["max", "min", "pow"] ∧ arguments.length = 2 := by
  simp only [Expr.ofCall_eq_ok_iff, ← UnaryBuiltin.exists_ofName?_iff,
    ← BinaryBuiltin.exists_ofName?_iff, List.length_eq_one_iff, List.length_eq_two]
  constructor
  · rintro ⟨_, ⟨f, x, hx, hf, -⟩ | ⟨f, x, y, hxy, hf, -⟩⟩
    · exact .inl ⟨⟨f, hf⟩, x, hx⟩
    · exact .inr ⟨⟨f, hf⟩, x, y, hxy⟩
  · rintro (⟨⟨f, hf⟩, x, hx⟩ | ⟨⟨f, hf⟩, x, y, hxy⟩)
    · exact ⟨_, .inl ⟨f, x, hx, hf, rfl⟩⟩
    · exact ⟨_, .inr ⟨f, x, y, hxy, hf, rfl⟩⟩

theorem exists_toExpr_call_iff (hk : tree.kind = .construct .call)
    (ih : ∀ t ∈ tree.children, LowersIfAccepted source t) :
    (∃ e, tree.toExpr source = .ok e) ↔ tree.Lowerable source := by
  have hroles : tree.roles = [.passed, .lowered] := by simp only [roles, hk]
  rw [lowerable_iff, Accepted, lowered, hroles]
  simp only [hk]
  rcases hc : tree.children with _ | ⟨callee, _ | ⟨list, later⟩⟩
  · simp [toExpr_call_nil hk hc, reject]
  · simp [toExpr_call hk hc, callParts, reject]
  · have hl := (ih list (by simp [hc])).2
    have hcall : (∃ e, tree.toExpr source = .ok e) ↔
        ∃ arguments, list.toArguments source = .ok arguments ∧
          ∃ e, Expr.ofCall (callee.textIn source) arguments (tree.location source) = .ok e := by
      simp only [toExpr_call_eq_ok_iff hk hc, ← exists_and_left]
      exact exists_comm
    rw [hcall]
    simp only [exists_ofCall_iff, loweredParts, List.forall_mem_singleton]
    constructor
    · rintro ⟨arguments, hok, hcount⟩
      obtain ⟨hlk, hlb⟩ := hl.mp ⟨arguments, hok⟩
      rw [length_toArguments hok] at hcount
      exact ⟨⟨callee, list, later, rfl, hlk, hcount⟩, hlb⟩
    · rintro ⟨⟨f, l, _, hchildren, hlk, hcount⟩, hlb⟩
      obtain ⟨rfl, rfl, -⟩ : callee = f ∧ list = l ∧ _ := by simpa using hchildren
      obtain ⟨arguments, hok⟩ := hl.mpr ⟨hlk, hlb⟩
      rw [← length_toArguments hok] at hcount
      exact ⟨arguments, hok, hcount⟩

theorem lowersIfAccepted (source : Source) (tree : Tree) : LowersIfAccepted source tree := by
  induction h : tree.size using Nat.strongRecOn generalizing tree with
  | _ n ih =>
  subst h
  have hchildren : ∀ t ∈ tree.children, LowersIfAccepted source t := fun t ht =>
    ih t.size (size_lt_of_mem_children ht) t rfl
  refine ⟨?_, exists_toArguments_iff_of_children hchildren⟩
  have hleaf (hr : tree.roles = []) : tree.Lowerable source ↔ tree.Accepted source := by
    have hparts (trees : List Tree) : loweredParts [] trees = [] := by cases trees <;> rfl
    rw [lowerable_iff, lowered, hr, hparts]
    simp
  by_cases hn : tree.kind = .terminal .number
  · rw [toExpr_number hn, exists_toNumber_iff, hleaf (by simp only [roles, hn]), Accepted]
    simp only [hn, Kind.isExpr, true_and]
  by_cases hi : tree.kind = .terminal .name
  · rw [toExpr_name hi, hleaf (by simp only [roles, hi]), Accepted]
    simp [hi, Kind.isExpr]
  by_cases hc : tree.kind = .construct .call
  · rw [exists_toExpr_call_iff hc hchildren]
    simp only [hc, Kind.isExpr, true_and]
  by_cases hu : tree.kind = .construct .unary
  · rw [exists_toExpr_unary_iff hu]
    simp only [hu, Kind.isExpr, true_and]
  by_cases hb : tree.kind = .construct .binary
  · rw [exists_toExpr_binary_iff hb hchildren]
    simp only [hb, Kind.isExpr, true_and]
  · have hother : tree.kind.isExpr = false := by
      unfold Kind.isExpr
      split <;> simp_all
    simp [toExpr_other hn hi hc hu hb, hother, reject]

theorem exists_toStmt_iff (source : Source) (tree : Tree) :
    (∃ s, tree.toStmt source = .ok s) ↔ tree.kind.isStmt = true ∧ tree.Lowerable source := by
  by_cases ha : tree.kind = .construct .assignment
  · have hroles : tree.roles = [.passed, .passed, .lowered] := by simp only [roles, ha]
    rw [lowerable_iff, Accepted, lowered, hroles]
    simp only [ha, Kind.isStmt, true_and]
    rcases hc : tree.children with _ | ⟨target, _ | ⟨sign, _ | ⟨value, later⟩⟩⟩
    · simp [toStmt_nil (.inl ha) hc, reject]
    · simp [toStmt_assignment ha hc, assignedValue, reject, Except.map]
    · simp [toStmt_assignment ha hc, assignedValue, reject, Except.map]
    · have hv := (lowersIfAccepted source value).1
      have hstmt : (∃ s, tree.toStmt source = .ok s) ↔ ∃ e, value.toExpr source = .ok e := by
        rw [toStmt_assignment ha hc, assignedValue]
        cases value.toExpr source <;> simp [Except.map]
      rw [hstmt, hv]
      simp [loweredParts]
  by_cases he : tree.kind = .construct .exprStatement
  · have hroles : tree.roles = [.lowered] := by simp only [roles, he]
    rw [lowerable_iff, Accepted, lowered, hroles]
    simp only [he, Kind.isStmt, true_and]
    cases hc : tree.children with
    | nil => simp [toStmt_nil (.inr he) hc, reject]
    | cons e later =>
      have hv := (lowersIfAccepted source e).1
      have hstmt : (∃ s, tree.toStmt source = .ok s) ↔ ∃ x, e.toExpr source = .ok x := by
        rw [toStmt_expr he hc]
        cases e.toExpr source <;> simp [Except.map]
      rw [hstmt, hv]
      simp [loweredParts]
  · have hother : tree.kind.isStmt = false := by
      unfold Kind.isStmt
      split <;> simp_all
    simp [toStmt_other ha he, hother, reject]

theorem exists_mapM_iff {α β ε : Type} {f : α → Except ε β} {xs : List α} :
    (∃ ys, xs.mapM f = .ok ys) ↔ ∀ x ∈ xs, ∃ y, f x = .ok y := by
  induction xs with
  | nil => simp [pure, Except.pure]
  | cons x xs ih =>
    rw [List.forall_mem_cons, ← ih]
    simp only [mapM_cons_eq_ok]
    constructor
    · rintro ⟨_, y, ys, hy, hys, -⟩
      exact ⟨⟨y, hy⟩, ys, hys⟩
    · rintro ⟨⟨y, hy⟩, ys, hys⟩
      exact ⟨_, y, ys, hy, hys, rfl⟩

theorem exists_toProgram_iff (source : Source) (tree : Tree) :
    (∃ p, tree.toProgram source = .ok p) ↔
      tree.kind = .construct .script ∧ tree.Lowerable source := by
  by_cases hk : tree.kind = .construct .script
  · have hroles : tree.roles = tree.children.map fun _ => .lowered := by simp only [roles, hk]
    rw [lowerable_iff, Accepted, lowered, hroles, loweredParts_map]
    simp only [hk, true_and]
    cases hc : tree.children with
    | nil => simp [toProgram_nil hk hc, reject]
    | cons first rest =>
      simp only [toProgram_cons hk hc, exists_mapM_iff, exists_toStmt_iff, forall_and, ne_eq,
        List.cons_ne_nil, not_false_eq_true, true_and]
  · simp [toProgram_other hk, hk, reject]

/-- Expressions with one comma after each but the last, which may have one too, and perhaps a
closing parenthesis at the end. -/
def Listed : List Tree → Prop
  | [] => True
  | [last] => last.kind = .terminal .rpar ∨ last.kind.isExpr = true
  | argument :: separator :: rest =>
    argument.kind.isExpr = true ∧
      (separator.kind = .terminal .rpar ∧ rest = [] ∨
        separator.kind = .terminal .comma ∧ Listed rest)

/-- The node has exactly the children that a node of the grammar with its label has. -/
def Exact (tree : Tree) : Prop :=
  match tree.kind with
  | .construct .binary => tree.children.length = 3
  | .construct .unary | .construct .call => tree.children.length = 2
  | .construct .exprStatement => tree.children.length = 1
  | .construct .assignment =>
    ∃ target sign value, tree.children = [target, sign, value] ∧ sign.kind = .terminal .equal
  | .construct .argList =>
    ∃ opening rest, tree.children = opening ++ rest ∧
      (opening = [] ∨ ∃ parenthesis, opening = [parenthesis] ∧ parenthesis.kind = .terminal .lpar) ∧
        Listed rest
  | _ => True

end Tree

namespace Walk

variable {source : Source}

/-- A tree is lowered as a program exactly if it is a script and every node that is consumed has
the parts that are read, whatever else it has; and what else it has makes no difference. -/
theorem program_reads_parts (source : Source) (c : Cursor) :
    ((∃ p, ((program source).runFrom c).1 = .ok p) ↔
      c.node.kind = .construct .script ∧ ∀ t ∈ c.node.consumed, t.Accepted source) ∧
    ((program source).runFrom c).1 =
      ((program source).runFrom (Cursor.ofRoot c.node.pruned)).1 := by
  have hpruned := (program_computes source (Cursor.ofRoot c.node.pruned)).fst_eq
  rw [show (Cursor.ofRoot c.node.pruned).node = c.node.pruned from rfl,
    Tree.toProgram_pruned] at hpruned
  rw [hpruned, (program_computes source c).fst_eq]
  refine ⟨?_, rfl⟩
  refine Iff.trans ?_ (Tree.exists_toProgram_iff source c.node)
  cases c.node.toProgram source <;> simp [Except.mapError]

def nameAt (name : String) (offset : Int) : Tree :=
  .token (.terminal .name) name (some offset) none

/-- The sum of `a` and `b` with a third operand. -/
def tripleSum : Tree :=
  .node (.construct .binary) (some ⟨0, 5⟩)
    [nameAt "a" 0, .token (.terminal .plus) "+" (some 1) none, nameAt "b" 2, nameAt "c" 4]

def tripleSumScript : Tree :=
  .node (.construct .script) (some ⟨0, 5⟩)
    [.node (.construct .exprStatement) (some ⟨0, 5⟩) [tripleSum]]

/-- The nodes that are consumed need not be exactly as in the grammar: a third operand is dropped in
silence. -/
theorem not_exact_of_lowered :
    ¬ ∀ (source : Source) (c : Cursor) (p : Program),
      ((program source).runFrom c).1 = .ok p → ∀ t ∈ c.node.consumed, t.Exact := by
  intro h
  have hexact := h (Source.ofString "a+b c") (Cursor.ofRoot tripleSumScript) _ rfl
  have hthree : tripleSum.children.length = 3 :=
    hexact tripleSum (.tail _ (.tail _ (.head _)))
  exact absurd hthree (by decide)

end Walk
end ArithScript
