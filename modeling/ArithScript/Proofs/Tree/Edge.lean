import Mathlib.Logic.Function.Iterate
import ArithScript.Proofs.Tree.Leaves

/-!
The search for the tokens at the edges of a tree, turn by turn, and the extent of a node that has
none recorded.

A turn keeps the tokens that are still ahead, in document order, and makes the trees that are to be
searched smaller until the search is over. So the search ends, and it ends at the outermost token.
-/
namespace ArithScript.Tree

/-- One turn: a node in front gives way to its children. With a token in front, or with nothing to
search, the search is over and stays so. -/
def Side.turn (side : Side) : List Tree → List Tree
  | .node _ _ children :: rest => side.order children ++ rest
  | trees => trees

/-- A turn loses no token, adds none and keeps their order. -/
theorem leavesAll_order_turn (side : Side) (trees : List Tree) :
    leavesAll (side.order (side.turn trees)) = leavesAll (side.order trees) := by
  match trees with
  | [] => rfl
  | .token .. :: rest => rfl
  | .node kind recorded children :: rest =>
    exact leavesAll_order_open side kind recorded children rest

theorem sizeAll_turn_lt (side : Side) (kind : Kind) (recorded : Option Extent)
    (children rest : List Tree) :
    sizeAll (side.turn (node kind recorded children :: rest)) <
      sizeAll (node kind recorded children :: rest) := by
  rw [Side.turn, sizeAll_append, sizeAll_order, sizeAll, size]
  omega

theorem turn_eq_or_lt (side : Side) (trees : List Tree) :
    side.turn trees = trees ∨ sizeAll (side.turn trees) < sizeAll trees := by
  match trees with
  | [] => exact .inl rfl
  | .token .. :: _ => exact .inl rfl
  | .node kind recorded children :: rest =>
    exact .inr (sizeAll_turn_lt side kind recorded children rest)

theorem head?_of_turn_eq {side : Side} {trees : List Tree} (h : side.turn trees = trees) :
    trees.head? = side.outermost? (leavesAll (side.order trees)) := by
  match trees with
  | [] => cases side <;> rfl
  | .token kind text start stop :: rest => rw [outermost?_order_token, List.head?_cons]
  | .node kind recorded children :: rest =>
    have hlt := sizeAll_turn_lt side kind recorded children rest
    rw [h] at hlt
    exact absurd hlt (Nat.lt_irrefl _)

theorem leavesAll_order_iterate (side : Side) (trees : List Tree) (n : Nat) :
    leavesAll (side.order (side.turn^[n] trees)) = leavesAll (side.order trees) := by
  induction n generalizing trees with
  | zero => rfl
  | succ n ih => rw [Function.iterate_succ_apply, ih, leavesAll_order_turn]

/-- The search is over after as many turns as there are nodes and tokens to be searched. -/
theorem turn_iterate {side : Side} {trees : List Tree} {n : Nat} (h : sizeAll trees ≤ n) :
    side.turn (side.turn^[n] trees) = side.turn^[n] trees := by
  -- every turn leaves fewer nodes and tokens, until the search is over
  induction n generalizing trees with
  | zero => exact (turn_eq_or_lt side trees).resolve_right (by omega)
  | succ n ih =>
    rcases turn_eq_or_lt side trees with hover | hlt
    · rw [Function.iterate_fixed hover, hover]
    · rw [Function.iterate_succ_apply]
      exact ih (by omega)

theorem head?_turn_iterate {side : Side} {trees : List Tree} {n : Nat} (h : sizeAll trees ≤ n) :
    (side.turn^[n] trees).head? = edgeToken? side trees := by
  rw [head?_of_turn_eq (turn_iterate h), leavesAll_order_iterate, edgeToken?_eq]

/-- A node without a recorded extent reaches from the start of its first to the end of its last
token in document order, and is at `0` and empty if it has no token. The search from either side
ends within as many turns as the tree has nodes and tokens, at the outermost token on that side, and
it finds none from one side just if it finds none from the other. -/
theorem unrecorded_extent (kind : Kind) (children : List Tree) :
    let tree := node kind none children
    tree.leaves = tree.subtrees.filter isToken ∧
    edgeToken? .left [tree] = tree.leaves.head? ∧ edgeToken? .right [tree] = tree.leaves.getLast? ∧
    (∀ side n, (side.turn^[tree.size + n] [tree]).head? = edgeToken? side [tree]) ∧
    (edgeToken? .left [tree] = none ↔ edgeToken? .right [tree] = none) ∧
    (tree.leaves = [] ∧ tree.extent = ⟨0, 0⟩ ∨
      ∃ first last, tree.leaves.head? = some first ∧ tree.leaves.getLast? = some last ∧
        tree.extent = ⟨first.extent.start, last.extent.stop⟩) := by
  intro tree
  have hleft : edgeToken? .left [tree] = tree.leaves.head? := edgeToken?_singleton .left tree
  have hright : edgeToken? .right [tree] = tree.leaves.getLast? := edgeToken?_singleton .right tree
  refine ⟨tree.leaves_eq_filter, hleft, hright, fun side n => ?_, ?_, ?_⟩
  · apply head?_turn_iterate
    rw [sizeAll, sizeAll]
    exact Nat.le_add_right _ n
  · rw [hleft, hright, List.head?_eq_none_iff, List.getLast?_eq_none_iff]
  · have hextent := extent_node kind children
    cases hl : leavesAll children with
    | nil =>
      rw [hl] at hextent
      exact .inl ⟨hl, hextent⟩
    | cons first later =>
      have hlast : (leavesAll children).getLast? = some (later.getLast?.getD first) := by
        rw [hl, List.getLast?_cons]
      rw [hlast, hl, List.head?_cons] at hextent
      exact .inr ⟨first, _, congrArg List.head? hl, hlast, hextent⟩

example :
    let empty := node (.other "a") none [node (.other "b") none []]
    let tree := node (.other "c") none
      [empty, node (.other "d") none [empty, token (.other "t") "10" (some 4) none], empty,
        token (.other "t") "3" (some 9) none, node (.other "d") none [empty, empty]]
    tree.extent = ⟨4, 10⟩ := by cbv

end ArithScript.Tree
