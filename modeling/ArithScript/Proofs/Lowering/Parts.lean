import ArithScript.Proofs.Lowering.Meaning

/-!
The parts of a concrete tree that lowering reads.

A node is read by the roles of its first children: some are lowered in turn, of others at most the
label and the covered text are looked at. The children after them are not reached. A tree pruned
to these parts is lowered like the tree itself.
-/
namespace ArithScript

/-- What lowering does with a child: it lowers the child, or it passes over it, looking at no more
than its label and the text it covers. -/
inductive Role
  | lowered | passed
  deriving DecidableEq

def Role.next : Role → Role
  | .lowered => .passed
  | .passed => .lowered

namespace Tree

/-- The roles of the trees in an argument list from one of the given role on: arguments and
separators in turn, up to a closing parenthesis. -/
def argumentRoles : Role → List Tree → List Role
  | _, [] => []
  | role, tree :: rest =>
    if tree.kind = .terminal .rpar then [.passed] else role :: argumentRoles role.next rest

def listRoles : List Tree → List Role
  | [] => []
  | first :: rest =>
    if first.kind = .terminal .lpar then .passed :: argumentRoles .lowered rest
    else argumentRoles .lowered (first :: rest)

/-- The roles of the first children of a tree. -/
def roles (tree : Tree) : List Role :=
  match tree.kind with
  | .construct .script => tree.children.map fun _ => .lowered
  | .construct .assignment => [.passed, .passed, .lowered]
  | .construct .exprStatement => [.lowered]
  | .construct .binary => [.lowered, .passed, .lowered]
  | .construct .unary => [.passed]
  | .construct .call => [.passed, .lowered]
  | .construct .argList => listRoles tree.children
  | _ => []

def leaf (tree : Tree) : Tree := .node tree.kind (some tree.extent) []

mutual

/-- The tree with the parts only that lowering reads, and with their extents recorded. -/
def pruned : Tree → Tree
  | .token kind text start stop => leaf (.token kind text start stop)
  | .node kind extent children =>
    .node kind (some (Tree.node kind extent children).extent)
      (prunedParts (Tree.node kind extent children).roles children)

def prunedParts : List Role → List Tree → List Tree
  | .lowered :: roles, tree :: rest => pruned tree :: prunedParts roles rest
  | .passed :: roles, tree :: rest => leaf tree :: prunedParts roles rest
  | _, _ => []

end

variable {α : Type} {source : Source} {tree : Tree}

@[simp] theorem kind_leaf (tree : Tree) : tree.leaf.kind = tree.kind := rfl

@[simp] theorem kind_pruned (tree : Tree) : tree.pruned.kind = tree.kind := by
  cases tree <;> rfl

@[simp] theorem extent_pruned (tree : Tree) : tree.pruned.extent = tree.extent := by
  cases tree <;> rfl

theorem prunedParts_nil (roles : List Role) : prunedParts roles [] = [] := by
  rcases roles with _ | ⟨_ | _, _⟩ <;> rfl

theorem children_pruned (tree : Tree) :
    tree.pruned.children = prunedParts tree.roles tree.children := by
  cases tree with
  | token => exact (prunedParts_nil _).symm
  | node => rfl

@[simp] theorem textIn_leaf : tree.leaf.textIn source = tree.textIn source := rfl

@[simp] theorem reject_leaf {problem : Problem} :
    (tree.leaf.reject source problem : Except Failure α) = tree.reject source problem := rfl

@[simp] theorem toOperator_leaf : tree.leaf.toOperator source = tree.toOperator source := rfl

@[simp] theorem textIn_pruned : tree.pruned.textIn source = tree.textIn source := by
  rw [textIn, extent_pruned, textIn]

@[simp] theorem location_pruned : tree.pruned.location source = tree.location source := by
  rw [location, extent_pruned, location]

@[simp] theorem reject_pruned {problem : Problem} :
    (tree.pruned.reject source problem : Except Failure α) = tree.reject source problem := by
  rw [reject, extent_pruned, reject]

@[simp] theorem toNumber_pruned {problem : Problem} :
    tree.pruned.toNumber source problem = tree.toNumber source problem := by
  simp only [toNumber, textIn_pruned, location_pruned, reject_pruned]

/-- Pruning changes nothing in the lowering of the tree as an expression or as a list of
arguments. -/
def PrunedAlike (source : Source) (tree : Tree) : Prop :=
  tree.pruned.toExpr source = tree.toExpr source ∧
    tree.pruned.toArguments source = tree.toArguments source

theorem toExpr_pruned_call (hk : tree.kind = .construct .call)
    (ih : ∀ t ∈ tree.children, PrunedAlike source t) :
    tree.pruned.toExpr source = tree.toExpr source := by
  have hp := children_pruned tree
  rw [show tree.roles = [.passed, .lowered] by simp only [roles, hk]] at hp
  cases hc : tree.children with
  | nil =>
    rw [hc] at hp
    rw [toExpr_call_nil (by simpa using hk) hp, toExpr_call_nil hk hc, reject_pruned]
  | cons callee later =>
    rw [hc] at hp
    rw [toExpr_call (by simpa using hk) hp, toExpr_call hk hc]
    cases later with
    | nil =>
      simp only [callParts, prunedParts, reject_leaf]
      rfl
    | cons list rest =>
      have hl := (ih list (by simp [hc])).2
      simp only [callParts, prunedParts, hl, textIn_leaf, location_pruned, reject_pruned]

theorem toExpr_pruned_unary (hk : tree.kind = .construct .unary) :
    tree.pruned.toExpr source = tree.toExpr source := by
  have hp := children_pruned tree
  rw [show tree.roles = [.passed] by simp only [roles, hk]] at hp
  cases hc : tree.children with
  | nil =>
    rw [hc] at hp
    rw [toExpr_unary_nil (by simpa using hk) hp, toExpr_unary_nil hk hc, reject_pruned]
  | cons sign later =>
    rw [hc] at hp
    rw [toExpr_unary (by simpa using hk) hp, toExpr_unary hk hc]
    simp only [textIn_leaf, toNumber_pruned, reject_leaf]

theorem toExpr_pruned_binary (hk : tree.kind = .construct .binary)
    (ih : ∀ t ∈ tree.children, PrunedAlike source t) :
    tree.pruned.toExpr source = tree.toExpr source := by
  have hp := children_pruned tree
  rw [show tree.roles = [.lowered, .passed, .lowered] by simp only [roles, hk]] at hp
  cases hc : tree.children with
  | nil =>
    rw [hc] at hp
    rw [toExpr_binary_nil (by simpa using hk) hp, toExpr_binary_nil hk hc, reject_pruned]
  | cons left later =>
    have hl := (ih left (by simp [hc])).1
    rw [hc] at hp
    rw [toExpr_binary (by simpa using hk) hp, toExpr_binary hk hc, hl, location_pruned]
    suffices h : rightSide source left.pruned (prunedParts [.passed, .lowered] later) =
        rightSide source left later by rw [h]
    rcases later with _ | ⟨op, _ | ⟨right, rest⟩⟩
    · simp only [prunedParts, rightSide, reject_pruned]
    · simp only [prunedParts, rightSide, toOperator_leaf, reject_leaf]
    · have hr := (ih right (by simp [hc])).1
      simp only [prunedParts, rightSide, toOperator_leaf, hr]

theorem argumentsOf_pruned (trees : List Tree) (ih : ∀ t ∈ trees, PrunedAlike source t) :
    argumentsOf source (prunedParts (argumentRoles .lowered trees) trees) =
        argumentsOf source trees ∧
      laterArguments source (prunedParts (argumentRoles .passed trees) trees) =
        laterArguments source trees := by
  induction trees with
  | nil => exact ⟨rfl, rfl⟩
  | cons tree rest hrest =>
    obtain ⟨hargument, hseparator⟩ := hrest fun t ht => ih t (List.mem_cons_of_mem _ ht)
    by_cases hk : tree.kind = .terminal .rpar
    · have hleaf : tree.leaf.kind = .terminal .rpar := hk
      rw [argumentRoles, if_pos hk, argumentRoles, if_pos hk, prunedParts, argumentsOf_rpar hk,
        argumentsOf_rpar hleaf, laterArguments, if_pos hleaf, laterArguments, if_pos hk]
      exact ⟨rfl, rfl⟩
    · rw [argumentRoles, if_neg hk, argumentRoles, if_neg hk, prunedParts, prunedParts, Role.next,
        Role.next, laterArguments, kind_leaf, if_neg hk, laterArguments, if_neg hk]
      refine ⟨?_, hargument⟩
      have hpruned : tree.pruned.kind ≠ .terminal .rpar := by simpa using hk
      rw [argumentsOf_cons hk, argumentsOf_cons hpruned,
        (ih tree List.mem_cons_self).1, hseparator]

theorem toArguments_pruned_of_children (ih : ∀ t ∈ tree.children, PrunedAlike source t) :
    tree.pruned.toArguments source = tree.toArguments source := by
  by_cases hk : tree.kind = .construct .argList
  · have hp := children_pruned tree
    cases hc : tree.children with
    | nil =>
      rw [hc, prunedParts_nil] at hp
      rw [toArguments_nil (by simpa using hk) hp, toArguments_nil hk hc, reject_pruned]
    | cons first rest =>
      rw [hc] at ih hp
      rw [toArguments_cons hk hc]
      split
      next hl =>
        rw [show tree.roles = .passed :: argumentRoles .lowered rest by
          simp only [roles, hk, hc, listRoles, if_pos hl]] at hp
        simp only [prunedParts] at hp
        rw [toArguments_cons (by simpa using hk) hp, kind_leaf, if_pos hl]
        exact (argumentsOf_pruned rest fun t ht => ih t (List.mem_cons_of_mem _ ht)).1
      next hl =>
        rw [show tree.roles = argumentRoles .lowered (first :: rest) by
          simp only [roles, hk, hc, listRoles, if_neg hl]] at hp
        have hparts := (argumentsOf_pruned _ ih).1
        rw [← hparts]
        by_cases hr : first.kind = .terminal .rpar
        · simp only [argumentRoles, if_pos hr, prunedParts] at hp ⊢
          rw [toArguments_cons (by simpa using hk) hp, kind_leaf, if_neg hl]
        · simp only [argumentRoles, if_neg hr, prunedParts] at hp ⊢
          rw [toArguments_cons (by simpa using hk) hp, kind_pruned, if_neg hl]
  · rw [toArguments_other hk, toArguments_other (by simpa using hk), reject_pruned]

theorem prunedAlike (source : Source) (tree : Tree) : PrunedAlike source tree := by
  induction h : tree.size using Nat.strongRecOn generalizing tree with
  | _ n ih =>
  subst h
  have hchildren : ∀ t ∈ tree.children, PrunedAlike source t := fun t ht =>
    ih t.size (size_lt_of_mem_children ht) t rfl
  refine ⟨?_, toArguments_pruned_of_children hchildren⟩
  by_cases hn : tree.kind = .terminal .number
  · rw [toExpr_number hn, toExpr_number (by simpa using hn), toNumber_pruned]
  by_cases hi : tree.kind = .terminal .name
  · rw [toExpr_name hi, toExpr_name (by simpa using hi), textIn_pruned, location_pruned]
  by_cases hc : tree.kind = .construct .call
  · exact toExpr_pruned_call hc hchildren
  by_cases hu : tree.kind = .construct .unary
  · exact toExpr_pruned_unary hu
  by_cases hb : tree.kind = .construct .binary
  · exact toExpr_pruned_binary hb hchildren
  · rw [toExpr_other hn hi hc hu hb, toExpr_other (by simpa using hn) (by simpa using hi)
      (by simpa using hc) (by simpa using hu) (by simpa using hb), reject_pruned, kind_pruned]

theorem toExpr_pruned (source : Source) (tree : Tree) :
    tree.pruned.toExpr source = tree.toExpr source :=
  (prunedAlike source tree).1

theorem toArguments_pruned (source : Source) (tree : Tree) :
    tree.pruned.toArguments source = tree.toArguments source :=
  (prunedAlike source tree).2

theorem toStmt_pruned (source : Source) (tree : Tree) :
    tree.pruned.toStmt source = tree.toStmt source := by
  have hp := children_pruned tree
  by_cases ha : tree.kind = .construct .assignment
  · have ha' : tree.pruned.kind = .construct .assignment := by simpa using ha
    rw [show tree.roles = [.passed, .passed, .lowered] by simp only [roles, ha]] at hp
    cases hc : tree.children with
    | nil =>
      rw [hc] at hp
      rw [toStmt_nil (.inl ha') hp, toStmt_nil (.inl ha) hc, reject_pruned]
    | cons target later =>
      rw [hc] at hp
      rw [toStmt_assignment ha' hp, toStmt_assignment ha hc, textIn_leaf, location_pruned]
      rcases later with _ | ⟨sign, _ | ⟨value, rest⟩⟩
      · simp only [prunedParts, assignedValue, reject_leaf]
      · simp only [prunedParts, assignedValue, reject_leaf]
      · simp only [prunedParts, assignedValue, toExpr_pruned]
  by_cases he : tree.kind = .construct .exprStatement
  · have he' : tree.pruned.kind = .construct .exprStatement := by simpa using he
    rw [show tree.roles = [.lowered] by simp only [roles, he]] at hp
    cases hc : tree.children with
    | nil =>
      rw [hc] at hp
      rw [toStmt_nil (.inr he') hp, toStmt_nil (.inr he) hc, reject_pruned]
    | cons e later =>
      rw [hc] at hp
      rw [toStmt_expr he' hp, toStmt_expr he hc, toExpr_pruned, location_pruned]
  · rw [toStmt_other ha he, toStmt_other (by simpa using ha) (by simpa using he), reject_pruned,
      kind_pruned]

theorem prunedParts_lowered (trees : List Tree) :
    prunedParts (trees.map fun _ => .lowered) trees = trees.map pruned := by
  induction trees with
  | nil => rfl
  | cons tree rest ih => rw [List.map_cons, prunedParts, ih, List.map_cons]

theorem toProgram_pruned (source : Source) (tree : Tree) :
    tree.pruned.toProgram source = tree.toProgram source := by
  by_cases hk : tree.kind = .construct .script
  · have hk' : tree.pruned.kind = .construct .script := by simpa using hk
    have hp := children_pruned tree
    rw [show tree.roles = tree.children.map fun _ => .lowered by simp only [roles, hk],
      prunedParts_lowered] at hp
    cases hc : tree.children with
    | nil =>
      rw [hc] at hp
      rw [toProgram_nil hk' hp, toProgram_nil hk hc, reject_pruned]
    | cons first rest =>
      rw [hc] at hp
      rw [toProgram_cons hk' hp, toProgram_cons hk hc, ← List.map_cons, List.mapM_map]
      exact congrArg (List.mapM · _) (funext (toStmt_pruned source))
  · rw [toProgram_other hk, toProgram_other (by simpa using hk), reject_pruned, kind_pruned]

end Tree
end ArithScript
