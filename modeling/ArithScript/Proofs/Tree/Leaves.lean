import ArithScript.Proofs.Tree.Subtrees

/-! The leaves of a concrete tree in document order, and the extent that they give to a node without
a recorded one. -/
namespace ArithScript.Tree

mutual

/-- The tokens of a tree in document order. -/
def leaves : Tree → List Tree
  | .token kind text start stop => [.token kind text start stop]
  | .node _ _ children => leavesAll children

def leavesAll : List Tree → List Tree
  | [] => []
  | tree :: rest => leaves tree ++ leavesAll rest

end

theorem leavesAll_eq (trees : List Tree) : leavesAll trees = trees.flatMap leaves := by
  induction trees with
  | nil => rfl
  | cons tree trees ih => rw [leavesAll, ih, List.flatMap_cons]

theorem leavesAll_append (trees more : List Tree) :
    leavesAll (trees ++ more) = leavesAll trees ++ leavesAll more := by
  simp only [leavesAll_eq, List.flatMap_append]

def isToken : Tree → Bool
  | .token .. => true
  | .node .. => false

mutual

theorem leaves_eq_filter : (tree : Tree) → tree.leaves = tree.subtrees.filter isToken
  | .token .. => rfl
  | .node _ _ children => leavesAll_eq_filter children

theorem leavesAll_eq_filter : (trees : List Tree) →
    leavesAll trees = (subtreesAll trees).filter isToken
  | [] => rfl
  | tree :: rest => by
    rw [leavesAll, subtreesAll, List.filter_append, leaves_eq_filter tree, leavesAll_eq_filter rest]

end

theorem isToken_of_mem_leavesAll {t : Tree} {trees : List Tree} (h : t ∈ leavesAll trees) :
    t.isToken = true := by
  rw [leavesAll_eq_filter] at h
  exact List.of_mem_filter h

/-- The tree that stands outermost at a side. -/
def Side.outermost? : Side → List Tree → Option Tree
  | .left, trees => trees.head?
  | .right, trees => trees.getLast?

theorem leavesAll_order_open (side : Side) (kind : Kind) (recorded : Option Extent)
    (children rest : List Tree) :
    leavesAll (side.order (side.order children ++ rest)) =
      leavesAll (side.order (node kind recorded children :: rest)) := by
  cases side with
  | left => rw [Side.order, Side.order, Side.order, leavesAll_append, leavesAll, leaves]
  | right =>
    rw [Side.order, Side.order, Side.order, List.reverse_append, List.reverse_reverse,
      List.reverse_cons, leavesAll_append, leavesAll_append, leavesAll, leaves, leavesAll,
      List.append_nil]

theorem outermost?_order_token (side : Side) (kind : Kind) (text : String) (start stop : Option Int)
    (rest : List Tree) :
    side.outermost? (leavesAll (side.order (token kind text start stop :: rest))) =
      some (token kind text start stop) := by
  cases side with
  | left => rfl
  | right =>
    rw [Side.order, Side.outermost?, List.reverse_cons, leavesAll_append, leavesAll, leaves,
      leavesAll, List.append_nil, List.getLast?_concat]

/-- The search from a side finds the outermost leaf at that side. -/
theorem edgeToken?_eq (side : Side) (trees : List Tree) :
    edgeToken? side trees = side.outermost? (leavesAll (side.order trees)) := by
  fun_induction edgeToken? side trees with
  | case1 => cases side <;> rfl
  | case2 kind text start stop rest => exact (outermost?_order_token ..).symm
  | case3 kind recorded children rest ih => rw [ih, leavesAll_order_open]

theorem edgeToken?_singleton (side : Side) (tree : Tree) :
    edgeToken? side [tree] = side.outermost? tree.leaves := by
  have horder : side.order [tree] = [tree] := by cases side <;> rfl
  rw [edgeToken?_eq, horder, leavesAll, leavesAll, List.append_nil]

theorem extent_node (kind : Kind) (children : List Tree) :
    (node kind none children).extent =
      match (leavesAll children).head?, (leavesAll children).getLast? with
      | some first, some last => ⟨first.extent.start, last.extent.stop⟩
      | _, _ => ⟨0, 0⟩ := by
  rw [extent, edgeToken?_singleton, edgeToken?_singleton, leaves, Side.outermost?, Side.outermost?]
  cases hfirst : (leavesAll children).head? with
  | none => rfl
  | some first =>
    cases hlast : (leavesAll children).getLast? with
    | none => cases first <;> rfl
    | some last =>
      have htokens : first.isToken = true ∧ last.isToken = true :=
        ⟨isToken_of_mem_leavesAll (List.mem_of_head? hfirst),
          isToken_of_mem_leavesAll (List.mem_of_getLast? hlast)⟩
      cases first with
      | node => cases htokens.1
      | token =>
        cases last with
        | node => cases htokens.2
        | token => rfl

end ArithScript.Tree
