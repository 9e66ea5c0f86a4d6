import ArithScript.Failure
import ArithScript.Tree.Cursor

/-!
Walks over a concrete tree with one cursor.

A walk ends with a result or a fault, and in either case with the cursor somewhere. `descend` runs
a walk below the current node. It leaves the cursor on that node again when the walk fails, and
checks that it is there when the walk succeeds.
-/
namespace ArithScript

/-- Why a walk ends without a result: it refuses what it found, or it did not come back to the node
from which it descended. -/
inductive Fault
  | rejected (failure : Failure)
  | notRestored
  deriving DecidableEq

/-- A computation that moves a cursor and may fail; the cursor stays where the failure occurred. -/
abbrev Walk := ExceptT Fault (StateM Cursor)

namespace Walk

variable {α : Type}

def refuse (source : Source) (problem : Problem) : Walk α := do
  let c ← getThe Cursor
  throw (.rejected (Failure.ofProblem source problem c.extent))

def move (target : Cursor → Option Cursor) : Walk Bool := do
  match target (← getThe Cursor) with
  | some c => set c; pure true
  | none => pure false

/-- Moves up the given number of levels, or to the root if they are fewer. -/
def ascend : Nat → Walk Unit
  | 0 => pure ()
  | n + 1 => do
    let _ ← move Cursor.parent?
    ascend n

/-- Moves up the given number of levels if the walk fails. -/
def orAscend (levels : Nat) (walk : Walk α) : Walk α :=
  tryCatch walk fun fault => do
    ascend levels
    throw fault

def enter (source : Source) (problem : Problem) : Walk Unit := do
  unless ← move Cursor.firstChild? do refuse source problem

/-- Moves up from the children of a node, which must be the one at `entry`. -/
def leave (entry : Cursor) : Walk Unit := do
  ascend 1
  unless (← getThe Cursor).samePlace entry do throw .notRestored

/-- Runs a walk from the first child of the current node on, whose absence is the given problem. -/
def descend (source : Source) (problem : Problem) (walk : Walk α) : Walk α := do
  let entry ← getThe Cursor
  enter source problem
  let result ← orAscend 1 walk
  leave entry
  pure result

/-- Moves to the next sibling, which holds the given part of the construct. -/
def advance (source : Source) (part : Part) : Walk Unit := do
  unless ← move Cursor.nextSibling? do refuse source (.missing part)

def kind : Walk Kind := return (← getThe Cursor).kind

def text (source : Source) : Walk String := do
  let extent := (← getThe Cursor).extent
  pure (source.slice extent.start extent.stop)

def location (source : Source) : Walk Span := do
  let extent := (← getThe Cursor).extent
  pure (Span.ofOffsets source extent.start extent.stop)

/-- The outcome of a walk from a given place, and where it ends. -/
def runFrom (walk : Walk α) (cursor : Cursor) : Except Fault α × Cursor := (walk.run cursor).run

end Walk
end ArithScript
