import Mathlib.Tactic.Common
import ArithScript.Tree.Cursor

/-!
Routes from the root of a tree.

The steps of a cursor describe a route if each of them selects, among the children of the node it
starts from, the one that the next step starts from. A tree has one such cursor at each of its
places and no other, and a move from one leads to the cursor at the place it asks for.
-/
namespace ArithScript

namespace Cursor

def down (c : Cursor) (index : Nat) (child : Tree) : Cursor :=
  ⟨child, ⟨c.node, index⟩ :: c.path⟩

variable {c : Cursor} {index : Nat} {child : Tree}

@[simp] theorem down_node : (c.down index child).node = child := rfl

@[simp] theorem down_kind : (c.down index child).kind = child.kind := rfl

@[simp] theorem down_place : (c.down index child).place = index :: c.place := rfl

@[simp] theorem familySize_down : (c.down index child).familySize = c.node.children.length := rfl

theorem nextSibling?_down :
    (c.down index child).nextSibling? =
      (c.node.children[index + 1]?).map (c.down (index + 1)) := rfl

theorem firstChild?_eq (c : Cursor) : c.firstChild? = (c.node.children[0]?).map (c.down 0) := by
  rw [firstChild?, List.head?_eq_getElem?]
  rfl

theorem firstChild?_eq_none (h : c.node.children = []) : c.firstChild? = none := by
  simp [firstChild?, h]

theorem firstChild?_eq_some {rest : List Tree} (h : c.node.children = child :: rest) :
    c.firstChild? = some (c.down 0 child) := by
  simp [firstChild?, h, down]

theorem samePlace_self (c : Cursor) : c.samePlace c = true := samePlace_iff.2 rfl

end Cursor

/-- The steps, the last one first, lead from the root to the node: each selects the node that is
reached by it among the children of the one before. -/
def Tree.Leads (root : Tree) : List TreeStep → Tree → Prop
  | [], tree => tree = root
  | step :: up, tree => step.parent.children[step.index]? = some tree ∧ root.Leads up step.parent

theorem Tree.leads_concat {root tree : Tree} {steps : List TreeStep} {first : TreeStep} :
    root.Leads (steps ++ [first]) tree ↔
      first.parent = root ∧ ∃ child, root.children[first.index]? = some child ∧
        child.Leads steps tree := by
  induction steps generalizing tree with
  | nil =>
    constructor
    · rintro ⟨hc, rfl⟩
      exact ⟨rfl, tree, hc, rfl⟩
    · rintro ⟨rfl, child, hc, rfl⟩
      exact ⟨hc, rfl⟩
  | cons step up ih =>
    rw [List.cons_append, Leads, ih]
    constructor
    · rintro ⟨hstep, hfirst, child, hc, hup⟩
      exact ⟨hfirst, child, hc, hstep, hup⟩
    · rintro ⟨hfirst, child, hc, hstep, hup⟩
      exact ⟨hstep, hfirst, child, hc, hup⟩

namespace Cursor

variable {root : Tree} {c : Cursor}

/-- The path of the cursor is a route from the root to its node. -/
def StandsIn (c : Cursor) (root : Tree) : Prop := root.Leads c.path c.node

/-- The cursor at the place with the given indices, the last one first, if the tree has it. -/
def at? (root : Tree) : List Nat → Option Cursor
  | [] => some (ofRoot root)
  | index :: up => (at? root up).bind fun c => (c.node.children[index]?).map (c.down index)

theorem ofRoot_standsIn (root : Tree) : (ofRoot root).StandsIn root := rfl

theorem StandsIn.down (h : c.StandsIn root) {index : Nat} {child : Tree}
    (hc : c.node.children[index]? = some child) : (c.down index child).StandsIn root :=
  ⟨hc, h⟩

theorem StandsIn.parent {tree : Tree} {step : TreeStep} {up : List TreeStep}
    (h : (mk tree (step :: up)).StandsIn root) : (mk step.parent up).StandsIn root :=
  h.2

theorem StandsIn.at?_place (h : c.StandsIn root) : at? root c.place = some c := by
  obtain ⟨node, path⟩ := c
  induction path generalizing node with
  | nil => cases h; rfl
  | cons step up ih =>
    obtain ⟨hc, hup⟩ := h
    have hparent : at? root (up.map TreeStep.index) = some ⟨step.parent, up⟩ := ih _ hup
    rw [place, List.map_cons, at?, hparent, Option.bind_some, hc]
    rfl

theorem standsIn_of_at? {place : List Nat} (h : at? root place = some c) :
    c.StandsIn root ∧ c.place = place := by
  induction place generalizing c with
  | nil =>
    cases h
    exact ⟨ofRoot_standsIn root, rfl⟩
  | cons index up ih =>
    obtain ⟨parent, hparent, h⟩ := Option.bind_eq_some_iff.1 h
    obtain ⟨child, hc, rfl⟩ := Option.map_eq_some_iff.1 h
    obtain ⟨hs, rfl⟩ := ih hparent
    exact ⟨hs.down hc, rfl⟩

theorem standsIn_iff : c.StandsIn root ↔ at? root c.place = some c :=
  ⟨StandsIn.at?_place, fun h => (standsIn_of_at? h).1⟩

end Cursor

/-- The moves of a cursor. -/
inductive Move
  | firstChild | nextSibling | parent

namespace Move

/-- The place that a move asks for; the root has no sibling and no parent. -/
def request : Move → List Nat → Option (List Nat)
  | .firstChild, place => some (0 :: place)
  | .nextSibling, index :: up => some ((index + 1) :: up)
  | .parent, _ :: up => some up
  | _, [] => none

/-- Where a move leads. -/
def target? : Move → Cursor → Option Cursor
  | .firstChild => Cursor.firstChild?
  | .nextSibling => Cursor.nextSibling?
  | .parent => Cursor.parent?

/-- A move leads to the place it asks for if the tree has it, and nowhere otherwise. -/
theorem target?_eq {root : Tree} {c : Cursor} (h : c.StandsIn root) (move : Move) :
    move.target? c = (move.request c.place).bind (Cursor.at? root) := by
  obtain ⟨node, path⟩ := c
  cases move with
  | firstChild =>
    rw [target?, Cursor.firstChild?_eq, request, Option.bind_some, Cursor.at?, h.at?_place]
    rfl
  | nextSibling =>
    cases path with
    | nil => rfl
    | cons step up =>
      have hparent : Cursor.at? root (up.map TreeStep.index) = some ⟨step.parent, up⟩ :=
        h.parent.at?_place
      rw [Cursor.place, List.map_cons, request, Option.bind_some, Cursor.at?, hparent]
      rfl
  | parent =>
    cases path with
    | nil => rfl
    | cons step up => exact h.parent.at?_place.symm

theorem target?_standsIn {root : Tree} {c d : Cursor} (h : c.StandsIn root) (move : Move)
    (hd : move.target? c = some d) : d.StandsIn root := by
  rw [target?_eq h] at hd
  obtain ⟨place, -, hd⟩ := Option.bind_eq_some_iff.1 hd
  exact (Cursor.standsIn_of_at? hd).1

theorem getD_standsIn {root : Tree} {c : Cursor} (h : c.StandsIn root) (move : Move) :
    ((move.target? c).getD c).StandsIn root := by
  cases hm : move.target? c with
  | none => exact h
  | some d => exact target?_standsIn h move hm

end Move
end ArithScript
