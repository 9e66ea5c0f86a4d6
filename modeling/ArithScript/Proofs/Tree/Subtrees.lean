import Mathlib.Data.List.Basic
import ArithScript.Tree.Basic

/-! The trees within a concrete tree in document order. -/
namespace ArithScript.Tree

mutual

/-- A tree and all the trees below it, in document order. -/
def subtrees : Tree → List Tree
  | .token kind text start stop => [.token kind text start stop]
  | .node kind extent children => .node kind extent children :: subtreesAll children

def subtreesAll : List Tree → List Tree
  | [] => []
  | tree :: rest => subtrees tree ++ subtreesAll rest

end

theorem subtreesAll_eq (trees : List Tree) : subtreesAll trees = trees.flatMap subtrees := by
  induction trees with
  | nil => rfl
  | cons tree trees ih => rw [subtreesAll, ih, List.flatMap_cons]

theorem subtrees_eq (tree : Tree) : tree.subtrees = tree :: tree.children.flatMap subtrees := by
  cases tree with
  | token => rfl
  | node kind extent children => rw [subtrees, subtreesAll_eq]; rfl

theorem self_mem_subtrees (tree : Tree) : tree ∈ tree.subtrees := by
  rw [subtrees_eq]
  exact List.mem_cons_self

theorem mem_subtrees_of_child {t child tree : Tree} (hc : child ∈ tree.children)
    (ht : t ∈ child.subtrees) : t ∈ tree.subtrees := by
  rw [subtrees_eq]
  exact List.mem_cons_of_mem _ (List.mem_flatMap.mpr ⟨child, hc, ht⟩)

theorem child_mem_subtrees {child tree : Tree} (hc : child ∈ tree.children) : child ∈ tree.subtrees :=
  mem_subtrees_of_child hc child.self_mem_subtrees

theorem mem_subtrees_of_mem_children {t child tree : Tree} (ht : t ∈ tree.subtrees)
    (hc : child ∈ t.children) : child ∈ tree.subtrees := by
  induction hsize : tree.size using Nat.strongRecOn generalizing tree with
  | ind n ih =>
    rw [subtrees_eq] at ht
    rcases List.mem_cons.mp ht with rfl | ht
    · exact child_mem_subtrees hc
    · obtain ⟨below, hbelow, ht⟩ := List.mem_flatMap.mp ht
      exact mem_subtrees_of_child hbelow (ih _ (hsize ▸ size_lt_of_mem_children hbelow) ht rfl)

theorem forall_subtrees {P : Tree → Prop} (tree : Tree) :
    (∀ t ∈ tree.subtrees, P t) ↔ P tree ∧ ∀ child ∈ tree.children, ∀ t ∈ child.subtrees, P t := by
  rw [subtrees_eq, List.forall_mem_cons]
  simp only [List.mem_flatMap]
  constructor
  · rintro ⟨htree, hbelow⟩
    exact ⟨htree, fun child hc t ht => hbelow t ⟨child, hc, ht⟩⟩
  · rintro ⟨htree, hbelow⟩
    exact ⟨htree, fun t ⟨child, hc, ht⟩ => hbelow child hc t ht⟩

end ArithScript.Tree
