import ArithScript.Proofs.Tree.Route
import ArithScript.Proofs.Tree.Subtrees

/-!
The walk through a tree with one cursor: to the first child, else to the next sibling, else up until
there is a next sibling. It meets every cursor of the tree once, in document order, and ends at the
root.
-/
namespace ArithScript.Cursor

/-- The number of nodes that the walk has before it after those below a path: the later siblings on
the way, with all that is below them. -/
def ahead : List TreeStep → Nat
  | [] => 0
  | step :: up => Tree.sizeAll (step.parent.children.drop (step.index + 1)) + ahead up

def remaining (c : Cursor) : Nat := Tree.sizeAll c.node.children + ahead c.path

theorem remaining_down_lt {c : Cursor} {index : Nat} {child : Tree}
    (h : c.node.children[index]? = some child) :
    (c.down index child).remaining < Tree.sizeAll (c.node.children.drop index) + ahead c.path := by
  obtain ⟨hi, rfl⟩ := List.getElem?_eq_some_iff.1 h
  have hc := Tree.sizeAll_children_lt c.node.children[index]
  rw [List.drop_eq_getElem_cons hi, Tree.sizeAll]
  simp only [remaining, down, ahead]
  omega

/-- Up until there is a next sibling, and to it; whether there was one before the root. -/
def onward (c : Cursor) : Cursor × Bool :=
  match c.nextSibling? with
  | some sibling => (sibling, true)
  | none =>
    match _hp : c.parent? with
    | some parent => parent.onward
    | none => (c, false)
termination_by c.depth
decreasing_by
  obtain ⟨tree, _ | ⟨step, up⟩⟩ := c <;> cases _hp
  exact Nat.lt_succ_self _

def proceed (c : Cursor) : Cursor × Bool :=
  match c.firstChild? with
  | some child => (child, true)
  | none => c.onward

/-- The first of the remaining children of a node; without one, what is onward of the node. -/
def toward (c : Cursor) (index : Nat) : List Tree → Cursor × Bool
  | [] => c.onward
  | child :: _ => (c.down index child, true)

theorem onward_ofRoot (root : Tree) : (ofRoot root).onward = (ofRoot root, false) := by
  rw [onward]
  rfl

theorem onward_down (c : Cursor) (index : Nat) (child : Tree) :
    (c.down index child).onward = c.toward (index + 1) (c.node.children.drop (index + 1)) := by
  rw [onward, nextSibling?_down, ← List.head?_drop]
  cases c.node.children.drop (index + 1) <;> rfl

theorem proceed_eq (c : Cursor) : c.proceed = c.toward 0 c.node.children := by
  rw [proceed, firstChild?_eq, ← List.head?_eq_getElem?]
  cases c.node.children <;> rfl

theorem remaining_onward_lt {tree : Tree} {path : List TreeStep} {d : Cursor}
    (h : (mk tree path).onward = (d, true)) : d.remaining < ahead path := by
  induction path generalizing tree with
  | nil =>
    cases (onward_ofRoot tree).symm.trans h
  | cons step up ih =>
    replace h := (onward_down ⟨step.parent, up⟩ step.index tree).symm.trans h
    rw [ahead]
    cases hd : step.parent.children.drop (step.index + 1) with
    | nil =>
      rw [hd] at h
      exact Nat.lt_of_lt_of_le (ih h) (Nat.le_add_left _ _)
    | cons sibling later =>
      rw [hd] at h
      cases h
      have hnext : step.parent.children[step.index + 1]? = some sibling := by
        rw [← List.head?_drop, hd, List.head?_cons]
      rw [← hd]
      exact remaining_down_lt (c := ⟨step.parent, up⟩) hnext

theorem remaining_proceed_lt {c d : Cursor} (h : c.proceed = (d, true)) :
    d.remaining < c.remaining := by
  rw [proceed_eq] at h
  cases hc : c.node.children with
  | nil =>
    rw [hc] at h
    exact Nat.lt_of_lt_of_le (remaining_onward_lt h) (Nat.le_add_left _ _)
  | cons child later =>
    rw [hc] at h
    cases h
    have hfirst : c.node.children[0]? = some child := by rw [hc, List.getElem?_cons_zero]
    exact remaining_down_lt hfirst

/-- The walk from a cursor on: where it stands in turn, and where it ends. -/
def traverse (c : Cursor) : List Cursor × Cursor :=
  match _h : c.proceed with
  | (d, true) => (c :: d.traverse.1, d.traverse.2)
  | (d, false) => ([c], d)
termination_by c.remaining
decreasing_by all_goals exact remaining_proceed_lt _h

mutual

/-- The cursors at a tree that a path leads to and at all trees below it, in document order. -/
def cursorsAt (path : List TreeStep) : Tree → List Cursor
  | .token kind text start stop => [⟨.token kind text start stop, path⟩]
  | .node kind extent children =>
    ⟨.node kind extent children, path⟩ ::
      cursorsAmong ⟨.node kind extent children, path⟩ 0 children

/-- The cursors at children of a node, from an index on, and at all trees below them. -/
def cursorsAmong (c : Cursor) (index : Nat) : List Tree → List Cursor
  | [] => []
  | child :: later => cursorsAt (c.down index child).path child ++ cursorsAmong c (index + 1) later

end

/-- The rest of the walk after a step. -/
def resume : Cursor × Bool → List Cursor × Cursor
  | (c, true) => c.traverse
  | (c, false) => ([], c)

theorem traverse_eq (c : Cursor) :
    c.traverse = Prod.map (c :: ·) id (resume (c.toward 0 c.node.children)) := by
  rw [← proceed_eq, traverse]
  split <;> rename_i h <;> rw [h] <;> rfl

mutual

theorem traverse_at (path : List TreeStep) : (tree : Tree) →
    traverse ⟨tree, path⟩ = Prod.map (cursorsAt path tree ++ ·) id (resume (onward ⟨tree, path⟩))
  | .token kind text start stop => traverse_eq _
  | .node kind extent children => by
    rw [traverse_eq, Tree.children, resume_toward _ 0 children rfl, cursorsAt]
    rfl

theorem resume_toward (c : Cursor) (index : Nat) : (trees : List Tree) →
    c.node.children.drop index = trees →
    resume (c.toward index trees) = Prod.map (cursorsAmong c index trees ++ ·) id (resume c.onward)
  | [], _ => rfl
  | child :: later, h => by
    have hlater : c.node.children.drop (index + 1) = later := by
      rw [← List.drop_drop, h]
      rfl
    -- first what is at and below the child, then onward of it: its later siblings, if there are any
    have hchild := traverse_at (c.down index child).path child
    rw [toward, resume, cursorsAmong]
    refine hchild.trans ?_
    change Prod.map _ id (resume (c.down index child).onward) = _
    rw [onward_down, hlater, resume_toward c (index + 1) later hlater, Prod.map_map]
    simp only [Function.comp_def, List.append_assoc]
    rfl

end

/-- From the root the walk visits the cursors of the tree in document order, and it ends there. -/
theorem traverse_ofRoot (root : Tree) :
    (ofRoot root).traverse = (cursorsAt [] root, ofRoot root) := by
  rw [ofRoot, traverse_at, ← ofRoot, onward_ofRoot, resume, Prod.map_apply, List.append_nil]
  rfl

mutual

theorem map_node_cursorsAt (path : List TreeStep) : (tree : Tree) →
    (cursorsAt path tree).map node = tree.subtrees
  | .token kind text start stop => rfl
  | .node kind extent children => by
    rw [cursorsAt, List.map_cons, map_node_cursorsAmong, Tree.subtrees]

theorem map_node_cursorsAmong (c : Cursor) (index : Nat) : (trees : List Tree) →
    (cursorsAmong c index trees).map node = Tree.subtreesAll trees
  | [] => rfl
  | child :: later => by
    rw [cursorsAmong, List.map_append, map_node_cursorsAt, map_node_cursorsAmong, Tree.subtreesAll]

end

/-- The path of a cursor goes through another one, and leads from there to its node. -/
def Under (d c : Cursor) : Prop := ∃ steps, d.path = steps ++ c.path ∧ c.node.Leads steps d.node

variable {c d e : Cursor}

theorem Under.refl (c : Cursor) : c.Under c := ⟨[], rfl, rfl⟩

theorem under_ofRoot {root : Tree} : d.Under (ofRoot root) ↔ d.StandsIn root := by
  constructor
  · rintro ⟨steps, hp, hl⟩
    rw [StandsIn, hp, ofRoot, List.append_nil]
    exact hl
  · exact fun h => ⟨d.path, (List.append_nil _).symm, h⟩

theorem under_iff :
    d.Under c ↔
      d = c ∨ ∃ index child, c.node.children[index]? = some child ∧ d.Under (c.down index child) := by
  obtain ⟨tree, path⟩ := d
  constructor
  · rintro ⟨steps, hp, hl⟩
    rcases List.eq_nil_or_concat' steps with rfl | ⟨later, first, rfl⟩
    · cases hl
      cases hp
      exact .inl rfl
    · obtain ⟨hparent, child, hc, hl⟩ := Tree.leads_concat.1 hl
      refine .inr ⟨first.index, child, hc, later, ?_, hl⟩
      rw [hp, List.append_assoc, down, ← hparent]
      rfl
  · rintro (rfl | ⟨index, child, hc, steps, hp, hl⟩)
    · exact Under.refl _
    · refine ⟨steps ++ [⟨c.node, index⟩], ?_, Tree.leads_concat.2 ⟨rfl, child, hc, hl⟩⟩
      rw [hp, List.append_assoc]
      rfl

mutual

theorem mem_cursorsAt (path : List TreeStep) : (tree : Tree) →
    (d ∈ cursorsAt path tree ↔ d.Under ⟨tree, path⟩)
  | .token kind text start stop => by
    rw [cursorsAt, List.mem_singleton, under_iff]
    simp [Tree.children]
  | .node kind extent children => by
    rw [cursorsAt, List.mem_cons, mem_cursorsAmong, under_iff, Tree.children]
    simp only [Nat.zero_add]

theorem mem_cursorsAmong (c : Cursor) (index : Nat) : (trees : List Tree) →
    (d ∈ cursorsAmong c index trees ↔
      ∃ i child, trees[i]? = some child ∧ d.Under (c.down (index + i) child))
  | [] => by simp [cursorsAmong]
  | child :: later => by
    rw [cursorsAmong, List.mem_append, mem_cursorsAt, mem_cursorsAmong]
    constructor
    · rintro (h | ⟨i, tree, hi, h⟩)
      · exact ⟨0, child, rfl, h⟩
      · exact ⟨i + 1, tree, hi, by rwa [Nat.add_right_comm] at h⟩
    · rintro ⟨_ | i, tree, hi, h⟩
      · cases hi
        exact .inl h
      · exact .inr ⟨i, tree, hi, by rwa [Nat.add_right_comm]⟩

end

/-- The place of the one comes before that of the other: a node before those below it, and these
before those at and below its later siblings. -/
def Precedes (c d : Cursor) : Prop := c.place.reverse < d.place.reverse

theorem Under.place {index : Nat} {child : Tree} (h : d.Under (c.down index child)) :
    ∃ more, d.place.reverse = c.place.reverse ++ index :: more := by
  obtain ⟨steps, hp, -⟩ := h
  refine ⟨(steps.map TreeStep.index).reverse, ?_⟩
  rw [Cursor.place, hp, List.map_append, List.reverse_append, ← Cursor.place, down_place,
    List.reverse_cons, List.append_assoc]
  rfl

theorem precedes_of_under {index : Nat} {child : Tree} (h : d.Under (c.down index child)) :
    c.Precedes d := by
  obtain ⟨more, h⟩ := h.place
  rw [Precedes, h]
  nth_rewrite 1 [← List.append_nil c.place.reverse]
  exact List.append_left_lt (List.nil_lt_cons index more)

theorem precedes_of_lt {i j : Nat} {child later : Tree} (hd : d.Under (c.down i child))
    (he : e.Under (c.down j later)) (h : i < j) : d.Precedes e := by
  obtain ⟨below, hd⟩ := hd.place
  obtain ⟨below', he⟩ := he.place
  rw [Precedes, hd, he]
  exact List.append_left_lt (List.cons_lt_cons_iff.2 (.inl h))

mutual

theorem pairwise_cursorsAt (path : List TreeStep) : (tree : Tree) →
    (cursorsAt path tree).Pairwise Precedes
  | .token kind text start stop => List.pairwise_singleton _ _
  | .node kind extent children => by
    refine List.pairwise_cons.2 ⟨fun d hd => ?_, pairwise_cursorsAmong _ 0 children⟩
    obtain ⟨i, child, -, hd⟩ := (mem_cursorsAmong _ 0 children).1 hd
    exact precedes_of_under hd

theorem pairwise_cursorsAmong (c : Cursor) (index : Nat) : (trees : List Tree) →
    (cursorsAmong c index trees).Pairwise Precedes
  | [] => .nil
  | child :: later => by
    refine List.pairwise_append.2
      ⟨pairwise_cursorsAt _ child, pairwise_cursorsAmong c (index + 1) later, fun d hd e he => ?_⟩
    obtain ⟨i, sibling, -, he⟩ := (mem_cursorsAmong c (index + 1) later).1 he
    exact precedes_of_lt ((mem_cursorsAt _ child).1 hd) he (by omega)

end

/-- The cursors are those of the tree, each of them once, in document order. -/
structure Tours (root : Tree) (visited : List Cursor) : Prop where
  mem_iff : ∀ c, c ∈ visited ↔ c.StandsIn root
  ordered : visited.Pairwise Precedes
  nodes : visited.map node = root.subtrees

theorem tours_traverse (root : Tree) : Tours root (ofRoot root).traverse.1 := by
  rw [traverse_ofRoot]
  exact {
    mem_iff := fun c => (mem_cursorsAt [] root).trans under_ofRoot
    ordered := pairwise_cursorsAt [] root
    nodes := map_node_cursorsAt [] root }

end ArithScript.Cursor
