import ArithScript.Tree.Basic
import ArithScript.Text.Quoted

/-!
Cursors: a place in a concrete tree, with the way to it from the root.

A move gives the cursor at the new place, or nothing if the tree has no such place. A place is
known by the indices of the children on the way to it, so two equal subtrees at different places
are told apart.
-/
namespace ArithScript

structure TreeStep where
  parent : Tree
  index : Nat

/-- A place in a tree: the subtree there and the way to it, the last step first. -/
structure Cursor where
  node : Tree
  path : List TreeStep

namespace Cursor

def ofRoot (root : Tree) : Cursor := ⟨root, []⟩

def depth (c : Cursor) : Nat := c.path.length

/-- The indices of the children on the way from the root, the last one first. -/
def place (c : Cursor) : List Nat := c.path.map TreeStep.index

def samePath : List TreeStep → List TreeStep → Bool
  | [], [] => true
  | step :: up, step' :: up' => step.index = step'.index && samePath up up'
  | _, _ => false

def samePlace (c d : Cursor) : Bool := samePath c.path d.path

theorem samePath_iff {path path' : List TreeStep} :
    samePath path path' = true ↔ path.map TreeStep.index = path'.map TreeStep.index := by
  induction path generalizing path' with
  | nil => cases path' <;> simp [samePath]
  | cons step up ih => cases path' <;> simp [samePath, ih]

theorem samePlace_iff {c d : Cursor} : c.samePlace d = true ↔ c.place = d.place := samePath_iff

def kind (c : Cursor) : Kind := c.node.kind

def extent (c : Cursor) : Extent := c.node.extent

def firstChild? (c : Cursor) : Option Cursor :=
  c.node.children.head?.map fun child => ⟨child, ⟨c.node, 0⟩ :: c.path⟩

def nextSibling? (c : Cursor) : Option Cursor :=
  match c.path with
  | [] => none
  | step :: up =>
    step.parent.children[step.index + 1]?.map fun child =>
      ⟨child, ⟨step.parent, step.index + 1⟩ :: up⟩

def parent? (c : Cursor) : Option Cursor :=
  match c.path with
  | [] => none
  | step :: up => some ⟨step.parent, up⟩

/-- The number of children of the parent; the root stands alone. -/
def familySize (c : Cursor) : Nat :=
  match c.path with
  | [] => 1
  | step :: _ => step.parent.children.length

def description (c : Cursor) : String :=
  "TreeCursor(kind=" ++ quoted c.kind.name ++ ", start=" ++ toString c.extent.start ++ ", end=" ++
    toString c.extent.stop ++ ", depth=" ++ toString c.depth ++ ")"

end Cursor
end ArithScript
