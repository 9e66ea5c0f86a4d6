import ArithScript.Lowering.Walk
import ArithScript.Lowering.Meaning
import ArithScript.Proofs.Tree.Route

/-!
Running walks: one equation for each primitive, and the rule for descents. A walk of the lowering
ends where it began; the body of a descent may end at any child of the node it was entered from.
-/
namespace ArithScript

namespace Walk

variable {α β : Type} {source : Source}

theorem runFrom_pure (a : α) (c : Cursor) : (pure a : Walk α).runFrom c = (.ok a, c) := rfl

theorem runFrom_get (c : Cursor) : (getThe Cursor : Walk Cursor).runFrom c = (.ok c, c) := rfl

theorem runFrom_bind (walk : Walk α) (next : α → Walk β) (c : Cursor) :
    (walk >>= next).runFrom c =
      match walk.runFrom c with
      | (.ok a, d) => (next a).runFrom d
      | (.error fault, d) => (.error fault, d) := by
  change ExceptT.bindCont next (walk c).1 (walk c).2 = match walk c with
    | (.ok a, d) => next a d
    | (.error fault, d) => (.error fault, d)
  rcases walk c with ⟨_ | _, _⟩ <;> rfl

theorem runFrom_bind_ok {walk : Walk α} {next : α → Walk β} {c d : Cursor} {a : α}
    (h : walk.runFrom c = (.ok a, d)) : (walk >>= next).runFrom c = (next a).runFrom d := by
  rw [runFrom_bind, h]

theorem runFrom_bind_error {walk : Walk α} {next : α → Walk β} {c d : Cursor} {fault : Fault}
    (h : walk.runFrom c = (.error fault, d)) : (walk >>= next).runFrom c = (.error fault, d) := by
  rw [runFrom_bind, h]

theorem runFrom_tryCatch (walk : Walk α) (handle : Fault → Walk α) (c : Cursor) :
    (tryCatch walk handle).runFrom c =
      match walk.runFrom c with
      | (.ok a, d) => (.ok a, d)
      | (.error fault, d) => (handle fault).runFrom d := by
  simp only [runFrom, tryCatch, tryCatchThe, MonadExceptOf.tryCatch, ExceptT.tryCatch, ExceptT.run,
    ExceptT.mk, bind, StateT.bind]
  rcases walk c with ⟨_ | _, _⟩ <;> rfl

theorem runFrom_move (target : Cursor → Option Cursor) (c : Cursor) :
    (move target).runFrom c = (.ok (target c).isSome, (target c).getD c) := by
  rw [move, runFrom_bind_ok (runFrom_get c)]
  cases target c <;> rfl

theorem runFrom_kind (c : Cursor) : kind.runFrom c = (.ok c.kind, c) := rfl

theorem runFrom_text (c : Cursor) : (text source).runFrom c = (.ok (c.node.textIn source), c) := rfl

theorem runFrom_location (c : Cursor) :
    (location source).runFrom c = (.ok (c.node.location source), c) := rfl

theorem runFrom_ascend_down (levels : Nat) (c : Cursor) (index : Nat) (child : Tree) :
    (ascend (levels + 1)).runFrom (c.down index child) = (ascend levels).runFrom c := by
  rw [ascend, runFrom_bind_ok (runFrom_move _ _)]
  rfl

theorem runFrom_ascend_one (c : Cursor) : (ascend 1).runFrom c = (.ok (), c.parent?.getD c) := by
  rw [ascend, runFrom_bind_ok (runFrom_move _ _)]
  rfl

theorem orAscend_ok {walk : Walk α} {levels : Nat} {c d : Cursor} {a : α}
    (h : walk.runFrom c = (.ok a, d)) : (orAscend levels walk).runFrom c = (.ok a, d) := by
  rw [orAscend, runFrom_tryCatch, h]

theorem orAscend_error {walk : Walk α} {levels : Nat} {c d e : Cursor} {fault : Fault}
    (h : walk.runFrom c = (.error fault, d)) (ha : (ascend levels).runFrom d = (.ok (), e)) :
    (orAscend levels walk).runFrom c = (.error fault, e) := by
  rw [orAscend, runFrom_tryCatch, h]
  exact runFrom_bind_ok ha

theorem enter_none {problem : Problem} {c : Cursor} (h : c.node.children = []) :
    (enter source problem).runFrom c =
      (.error (.rejected (Failure.ofProblem source problem c.extent)), c) := by
  rw [enter, runFrom_bind_ok (runFrom_move _ _), Cursor.firstChild?_eq_none h]
  rfl

theorem enter_some {problem : Problem} {c : Cursor} {first : Tree} {rest : List Tree}
    (h : c.node.children = first :: rest) :
    (enter source problem).runFrom c = (.ok (), c.down 0 first) := by
  rw [enter, runFrom_bind_ok (runFrom_move _ _), Cursor.firstChild?_eq_some h]
  rfl

theorem runFrom_leave (entry c : Cursor) :
    (leave entry).runFrom c =
      (if (c.parent?.getD c).samePlace entry then .ok () else .error .notRestored,
        c.parent?.getD c) := by
  rw [leave, runFrom_bind_ok (runFrom_ascend_one c), runFrom_bind_ok (runFrom_get _)]
  split <;> rfl

theorem leave_down (c : Cursor) (index : Nat) (child : Tree) :
    (leave c).runFrom (c.down index child) = (.ok (), c) := by
  have hparent : (c.down index child).parent?.getD (c.down index child) = c := rfl
  rw [runFrom_leave, hparent, if_pos c.samePlace_self]

theorem next_none {c : Cursor} {index : Nat} {child : Tree} (hd : c.node.children.drop index = [child]) :
    (move Cursor.nextSibling?).runFrom (c.down index child) = (.ok false, c.down index child) := by
  have hn : c.node.children[index + 1]? = none := by rw [← List.getElem?_drop, hd]; rfl
  rw [runFrom_move, Cursor.nextSibling?_down, hn]
  rfl

theorem next_some {c : Cursor} {index : Nat} {child next : Tree} {later : List Tree}
    (hd : c.node.children.drop index = child :: next :: later) :
    (move Cursor.nextSibling?).runFrom (c.down index child) = (.ok true, c.down (index + 1) next) := by
  have hn : c.node.children[index + 1]? = some next := by rw [← List.getElem?_drop, hd]; rfl
  rw [runFrom_move, Cursor.nextSibling?_down, hn]
  rfl

theorem advance_none {part : Part} {c : Cursor} {index : Nat} {child : Tree}
    (hd : c.node.children.drop index = [child]) :
    (advance source part).runFrom (c.down index child) =
      (.error (.rejected (Failure.ofProblem source (.missing part) child.extent)),
        c.down index child) := by
  rw [advance, runFrom_bind_ok (next_none hd)]
  rfl

theorem advance_some {part : Part} {c : Cursor} {index : Nat} {child next : Tree}
    {later : List Tree} (hd : c.node.children.drop index = child :: next :: later) :
    (advance source part).runFrom (c.down index child) = (.ok (), c.down (index + 1) next) := by
  rw [advance, runFrom_bind_ok (next_some hd)]
  rfl

/-- The walk gives the result, a failure being refused, and ends where it began. -/
def Computes (walk : Walk α) (c : Cursor) (result : Except Failure α) : Prop :=
  walk.runFrom c = (result.mapError Fault.rejected, c)

/-- The walk, begun at `d`, gives the result and ends at a child of the node at `c`. -/
def EndsBelow (walk : Walk α) (c d : Cursor) (result : Except Failure α) : Prop :=
  ∃ index child, walk.runFrom d = (result.mapError Fault.rejected, c.down index child)

theorem descend_nil {walk : Walk α} {problem : Problem} {c : Cursor}
    (h : c.node.children = []) :
    Computes (descend source problem walk) c (c.node.reject source problem) := by
  rw [Computes, descend, runFrom_bind_ok (runFrom_get c), runFrom_bind_error (enter_none h)]
  rfl

theorem descend_cons {walk : Walk α} {problem : Problem} {c : Cursor} {first : Tree}
    {rest : List Tree} {result : Except Failure α} (h : c.node.children = first :: rest)
    (hw : EndsBelow walk c (c.down 0 first) result) :
    Computes (descend source problem walk) c result := by
  obtain ⟨index, child, hw⟩ := hw
  rw [Computes, descend, runFrom_bind_ok (runFrom_get c), runFrom_bind_ok (enter_some h)]
  cases result with
  | ok a =>
    rw [runFrom_bind_ok (orAscend_ok hw), runFrom_bind_ok (leave_down c index child)]
    rfl
  | error failure =>
    exact runFrom_bind_error (orAscend_error hw (runFrom_ascend_one (c.down index child)))

theorem Computes.fst_eq {walk : Walk α} {c : Cursor} {result : Except Failure α}
    (h : Computes walk c result) : (walk.runFrom c).1 = result.mapError Fault.rejected :=
  congrArg Prod.fst h

theorem Computes.endsBelow {walk : Walk α} {c : Cursor} {index : Nat} {child : Tree}
    {result : Except Failure α} (h : Computes walk (c.down index child) result) :
    EndsBelow walk c (c.down index child) result :=
  ⟨index, child, h⟩

theorem EndsBelow.bind_ok {walk : Walk α} {next : α → Walk β} {c d e : Cursor} {a : α}
    {result : Except Failure β} (h : walk.runFrom d = (.ok a, e))
    (hn : EndsBelow (next a) c e result) : EndsBelow (walk >>= next) c d result := by
  obtain ⟨index, child, hn⟩ := hn
  exact ⟨index, child, (runFrom_bind_ok h).trans hn⟩

end Walk
end ArithScript
