import ArithScript.Lowering.Program

/-!
Sessions: sequences of actions on one cursor, with a report of each.

A descent runs its actions below a node and ends with the first that fails; its failure is that of
the descent. At the outermost level every action is run, from wherever the cursor is.
-/
namespace ArithScript

/-- What the cursor can lower. -/
inductive Entry
  | expr | stmt | arguments | program

/-- The result of lowering. -/
inductive Lowered
  | expr (e : Expr)
  | stmt (s : Stmt)
  | arguments (es : List Expr)
  | program (p : Program)

/-- What can be done with a cursor: move it, describe it, lower what is there, or descend. -/
inductive Action
  | firstChild
  | nextSibling
  | parent
  | describe
  | lower (entry : Entry)
  | descend (problem : Problem) (body : List Action)

/-- Where a cursor is: the label and extent of its node, and its depth. -/
structure Standing where
  kind : Kind
  extent : Extent
  depth : Nat

def Cursor.standing (c : Cursor) : Standing := ⟨c.kind, c.extent, c.depth⟩

inductive Report
  | moved (success : Bool) (after : Standing)
  | described (text : String) (after : Standing)
  | lowered (result : Except Fault Lowered) (restored : Bool) (after : Standing)
  | descended (fault : Option Fault) (inner : List Report) (after : Standing)

/-- Lowers what is at the cursor. -/
def Entry.walk (source : Source) : Entry → Walk Lowered
  | .expr => return .expr (← Walk.expr source)
  | .stmt => return .stmt (← Walk.stmt source)
  | .arguments => return .arguments (← Walk.argumentList source)
  | .program => return .program (← Walk.program source)

/-- What an action leads to: its report, its fault and the cursor after it. -/
structure Effect where
  report : Report
  fault : Option Fault
  cursor : Cursor

/-- What a body leads to: the reports of its actions, the fault that ended it and the cursor. -/
structure BodyEffect where
  reports : List Report
  fault : Option Fault
  cursor : Cursor

def faultOf? {α : Type} : Except Fault α → Option Fault
  | .ok _ => none
  | .error fault => some fault

namespace Action

def moveEffect (target : Option Cursor) (c : Cursor) : Effect :=
  let after := target.getD c
  ⟨.moved target.isSome after.standing, none, after⟩

/-- The effect of a descent from `c` that ended with the given fault and reports. -/
def descentEffect (inner : List Report) (fault : Option Fault) (after : Cursor) : Effect :=
  ⟨.descended fault inner after.standing, fault, after⟩

mutual

/-- Runs an action. -/
def perform (source : Source) (c : Cursor) : Action → Effect
  | .firstChild => moveEffect c.firstChild? c
  | .nextSibling => moveEffect c.nextSibling? c
  | .parent => moveEffect c.parent? c
  | .describe => ⟨.described c.description c.standing, none, c⟩
  | .lower entry =>
    let (result, after) := (entry.walk source).runFrom c
    ⟨.lowered result (after.samePlace c) after.standing, faultOf? result, after⟩
  | .descend problem body =>
    match (Walk.enter source problem).runFrom c with
    | (.error fault, after) => descentEffect [] (some fault) after
    | (.ok _, child) =>
      let inner := performBody source child body
      match inner.fault with
      | some fault =>
        descentEffect inner.reports (some fault) ((Walk.ascend 1).runFrom inner.cursor).2
      | none =>
        let (left, after) := (Walk.leave c).runFrom inner.cursor
        descentEffect inner.reports (faultOf? left) after

/-- Runs actions up to the first that fails. -/
def performBody (source : Source) (c : Cursor) : List Action → BodyEffect
  | [] => ⟨[], none, c⟩
  | action :: rest =>
    let effect := perform source c action
    match effect.fault with
    | some fault => ⟨[effect.report], some fault, effect.cursor⟩
    | none =>
      let later := performBody source effect.cursor rest
      ⟨effect.report :: later.reports, later.fault, later.cursor⟩

end

/-- Runs every action in turn. -/
def performEach (source : Source) (c : Cursor) : List Action → List Report
  | [] => []
  | action :: rest =>
    let effect := perform source c action
    effect.report :: performEach source effect.cursor rest

end Action
end ArithScript
