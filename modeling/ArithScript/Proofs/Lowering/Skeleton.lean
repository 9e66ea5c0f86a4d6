import ArithScript.Proofs.Lowering.Refinement
import ArithScript.Proofs.Lowering.Parts

/-!
Lowering at a cursor is a function of the subtree there. Of that subtree only the skeleton counts:
the labels, the extents and the shape.
-/
namespace ArithScript

namespace Tree

mutual

/-- The tree without the texts of its tokens. Each extent is recorded, whether it was before or had
to be computed. -/
def skeleton : Tree → Tree
  | .token kind text start stop => leaf (.token kind text start stop)
  | .node kind extent children =>
    .node kind (some (Tree.node kind extent children).extent) (skeletonAll children)

def skeletonAll : List Tree → List Tree
  | [] => []
  | tree :: rest => skeleton tree :: skeletonAll rest

end

@[simp] theorem kind_skeleton (tree : Tree) : tree.skeleton.kind = tree.kind := by
  cases tree <;> rfl

@[simp] theorem extent_skeleton (tree : Tree) : tree.skeleton.extent = tree.extent := by
  cases tree <;> rfl

theorem skeletonAll_eq (trees : List Tree) : skeletonAll trees = trees.map skeleton := by
  induction trees with
  | nil => rfl
  | cons tree trees ih => rw [skeletonAll, ih, List.map_cons]

theorem children_skeleton (tree : Tree) :
    tree.skeleton.children = tree.children.map skeleton := by
  cases tree with
  | token => rfl
  | node => exact skeletonAll_eq _

theorem argumentRoles_skeleton (role : Role) (trees : List Tree) :
    argumentRoles role (trees.map skeleton) = argumentRoles role trees := by
  induction trees generalizing role with
  | nil => rfl
  | cons tree rest ih => simp only [List.map_cons, argumentRoles, kind_skeleton, ih]

theorem listRoles_skeleton (trees : List Tree) :
    listRoles (trees.map skeleton) = listRoles trees := by
  cases trees with
  | nil => rfl
  | cons first rest =>
    rw [List.map_cons, listRoles, kind_skeleton, ← List.map_cons, argumentRoles_skeleton,
      argumentRoles_skeleton, listRoles]

theorem roles_skeleton (tree : Tree) : tree.skeleton.roles = tree.roles := by
  unfold roles
  rw [kind_skeleton, children_skeleton, listRoles_skeleton, List.map_map]
  rfl

mutual

theorem pruned_skeleton : (tree : Tree) → tree.skeleton.pruned = tree.pruned
  | .token .. => congrArg (Tree.node _ _) (prunedParts_nil _)
  | .node kind extent children => by
    have hroles := roles_skeleton (.node kind extent children)
    rw [skeleton] at hroles ⊢
    rw [pruned, pruned, hroles, prunedParts_skeleton _ children]
    rfl

theorem prunedParts_skeleton (roles : List Role) :
    (trees : List Tree) → prunedParts roles (skeletonAll trees) = prunedParts roles trees
  | [] => rfl
  | tree :: rest => by
    rcases roles with _ | ⟨_ | _, roles⟩
    · rfl
    · rw [skeletonAll, prunedParts, prunedParts, pruned_skeleton tree, prunedParts_skeleton _ rest]
    · rw [skeletonAll, prunedParts, prunedParts, prunedParts_skeleton _ rest, leaf, leaf,
        kind_skeleton, extent_skeleton]

end

example : (token (.terminal .number) "7" none none).skeleton =
    (token (.terminal .number) "?" (some 0) (some 1)).skeleton := rfl

end Tree

namespace Walk

theorem fst_eq_of_pruned_eq {α : Type} {walk : Walk α} {meaning : Tree → Except Failure α}
    (hw : ∀ c, Computes walk c (meaning c.node)) (hm : ∀ t, meaning t.pruned = meaning t)
    {c d : Cursor} (h : c.node.pruned = d.node.pruned) :
    (walk.runFrom c).1 = (walk.runFrom d).1 := by
  rw [(hw c).fst_eq, (hw d).fst_eq, ← hm c.node, h, hm]

/-- Lowering refines the recursion on trees. Wherever the cursor stands it gives what the subtree
there stands for, or the failure that the recursion meets first; and two places with the same
skeleton, in whatever trees and at whatever depths, are lowered alike. -/
theorem lowering_refines_recursion (source : Source) :
    (∀ c : Cursor,
      ((expr source).runFrom c).1 = (c.node.toExpr source).mapError .rejected ∧
      ((stmt source).runFrom c).1 = (c.node.toStmt source).mapError .rejected ∧
      ((argumentList source).runFrom c).1 = (c.node.toArguments source).mapError .rejected ∧
      ((program source).runFrom c).1 = (c.node.toProgram source).mapError .rejected) ∧
    ∀ c d : Cursor, c.node.skeleton = d.node.skeleton →
      ((expr source).runFrom c).1 = ((expr source).runFrom d).1 ∧
      ((stmt source).runFrom c).1 = ((stmt source).runFrom d).1 ∧
      ((argumentList source).runFrom c).1 = ((argumentList source).runFrom d).1 ∧
      ((program source).runFrom c).1 = ((program source).runFrom d).1 := by
  constructor
  · intro c
    exact ⟨(expr_computes source c).fst_eq, (stmt_computes source c).fst_eq,
      (argumentList_computes source c).fst_eq, (program_computes source c).fst_eq⟩
  · intro c d h
    have hp : c.node.pruned = d.node.pruned := by
      rw [← Tree.pruned_skeleton c.node, h, Tree.pruned_skeleton]
    exact ⟨fst_eq_of_pruned_eq (expr_computes source) (Tree.toExpr_pruned source) hp,
      fst_eq_of_pruned_eq (stmt_computes source) (Tree.toStmt_pruned source) hp,
      fst_eq_of_pruned_eq (argumentList_computes source) (Tree.toArguments_pruned source) hp,
      fst_eq_of_pruned_eq (program_computes source) (Tree.toProgram_pruned source) hp⟩

end Walk
end ArithScript
