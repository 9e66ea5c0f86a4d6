import ArithScript.Proofs.Lowering.Wandering
import ArithScript.Proofs.Tree.Traversal

/-!
Sessions keep the cursor in its tree.

Whatever is done with a cursor that was put on the root, its path is a route from the root to its
node after every action, at every depth of nested descents: bodies that end at an unrelated node,
bodies that fail and descents that do not come back lead it to a node of the tree all the same.
-/
namespace ArithScript

mutual

/-- Where the cursor was after each action that a report is about, those in bodies included. -/
def Report.standings : Report → List Standing
  | .moved _ after => [after]
  | .described _ after => [after]
  | .lowered _ _ after => [after]
  | .descended _ inner after => standingsAll inner ++ [after]

def Report.standingsAll : List Report → List Standing
  | [] => []
  | report :: rest => report.standings ++ standingsAll rest

end

namespace Action

mutual

/-- The cursors after each action in the body of a descent, which begins at the first child, and in
the bodies of descents in it. -/
def inside (source : Source) (c : Cursor) : Action → List Cursor
  | .descend _ body =>
    match c.firstChild? with
    | none => []
    | some child => bodyCourse source child body
  | _ => []

/-- The cursors after each action of a body, up to the first that fails. -/
def bodyCourse (source : Source) (c : Cursor) : List Action → List Cursor
  | [] => []
  | action :: rest =>
    let effect := perform source c action
    inside source c action ++
      effect.cursor :: if effect.fault.isSome then [] else bodyCourse source effect.cursor rest

end

/-- The cursors after each action of a session, those in bodies included. -/
def course (source : Source) (c : Cursor) : List Action → List Cursor
  | [] => []
  | action :: rest =>
    let after := (perform source c action).cursor
    inside source c action ++ after :: course source after rest

/-- The action that makes a move. -/
def ofMove : Move → Action
  | .firstChild => .firstChild
  | .nextSibling => .nextSibling
  | .parent => .parent

variable {source : Source} {root : Tree} {c : Cursor}

theorem perform_ofMove (source : Source) (c : Cursor) (move : Move) :
    perform source c (ofMove move) = moveEffect (move.target? c) c := by
  cases move <;> rw [ofMove, perform] <;> rfl

theorem perform_lower_cursor (source : Source) (c : Cursor) (entry : Entry) :
    (perform source c (.lower entry)).cursor = c := by
  rw [perform]
  exact congrArg Prod.snd (entry.computes source c)

theorem perform_descend_none {problem : Problem} {body : List Action}
    (h : c.firstChild? = none) :
    perform source c (.descend problem body) =
      descentEffect [] (some (.rejected (Failure.ofProblem source problem c.extent))) c := by
  cases hc : c.node.children with
  | nil => rw [perform, Walk.enter_none hc]
  | cons first rest => cases (Cursor.firstChild?_eq_some hc).symm.trans h

/-- A descent ends one level above where its body ended. It is refused for what the body was refused
for, or else for not being back. -/
theorem perform_descend_some (source : Source) (problem : Problem) (body : List Action)
    {child : Cursor} (h : c.firstChild? = some child) :
    perform source c (.descend problem body) =
      let inner := performBody source child body
      let after := inner.cursor.parent?.getD inner.cursor
      descentEffect inner.reports
        (inner.fault.or (if after.samePlace c then none else some .notRestored)) after := by
  cases hc : c.node.children with
  | nil => cases (Cursor.firstChild?_eq_none hc).symm.trans h
  | cons first rest =>
    cases (Cursor.firstChild?_eq_some hc).symm.trans h
    rw [perform, Walk.enter_some hc]
    dsimp only
    cases (performBody source (c.down 0 first) body).fault with
    | some fault => rw [Walk.runFrom_ascend_one]; rfl
    | none =>
      rw [Walk.runFrom_leave]
      dsimp only
      split <;> rfl

mutual

theorem standings_perform (c : Cursor) : (action : Action) →
    (perform source c action).report.standings =
      (inside source c action ++ [(perform source c action).cursor]).map Cursor.standing
  | .firstChild => by rw [perform]; rfl
  | .nextSibling => by rw [perform]; rfl
  | .parent => by rw [perform]; rfl
  | .describe => by rw [perform]; rfl
  | .lower entry => by rw [perform]; rfl
  | .descend problem body => by
    cases hc : c.firstChild? with
    | none =>
      rw [perform_descend_none hc, inside, hc]
      rfl
    | some child =>
      rw [perform_descend_some source problem body hc, inside, hc, descentEffect,
        Report.standings, standings_performBody, List.map_append]
      rfl

theorem standings_performBody (c : Cursor) : (body : List Action) →
    Report.standingsAll (performBody source c body).reports =
      (bodyCourse source c body).map Cursor.standing
  | [] => by rw [performBody, bodyCourse]; rfl
  | action :: rest => by
    rw [performBody, bodyCourse]
    cases hf : (perform source c action).fault with
    | some fault =>
      simp only [Report.standingsAll, standings_perform, List.append_nil, Option.isSome_some,
        if_true]
    | none =>
      simp only [Report.standingsAll, standings_perform, standings_performBody, List.map_append,
        List.map_cons, List.map_nil, List.append_assoc, List.singleton_append, Option.isSome_none,
        Bool.false_eq_true, if_false]

end

theorem standings_performEach (source : Source) (c : Cursor) (actions : List Action) :
    Report.standingsAll (performEach source c actions) =
      (course source c actions).map Cursor.standing := by
  induction actions generalizing c with
  | nil => rfl
  | cons action rest ih =>
    rw [performEach, course, Report.standingsAll, standings_perform, ih]
    simp only [List.map_append, List.map_cons, List.map_nil, List.append_assoc,
      List.singleton_append]

mutual

theorem perform_standsIn {c : Cursor} (h : c.StandsIn root) : (action : Action) →
    ∀ d ∈ inside source c action ++ [(perform source c action).cursor], d.StandsIn root
  | .firstChild => by
    rw [perform]
    exact List.forall_mem_singleton.2 (Move.getD_standsIn h .firstChild)
  | .nextSibling => by
    rw [perform]
    exact List.forall_mem_singleton.2 (Move.getD_standsIn h .nextSibling)
  | .parent => by
    rw [perform]
    exact List.forall_mem_singleton.2 (Move.getD_standsIn h .parent)
  | .describe => by
    rw [perform]
    exact List.forall_mem_singleton.2 h
  | .lower entry => by
    rw [perform_lower_cursor]
    exact List.forall_mem_singleton.2 h
  | .descend problem body => by
    cases hc : c.firstChild? with
    | none =>
      rw [perform_descend_none hc, inside, hc]
      exact List.forall_mem_singleton.2 h
    | some child =>
      have hchild : child.StandsIn root := Move.target?_standsIn h .firstChild hc
      obtain ⟨hend, hinside⟩ := performBody_standsIn hchild body
      rw [perform_descend_some source problem body hc, inside, hc, List.forall_mem_append,
        List.forall_mem_singleton]
      -- wherever the body ended, the descent goes up from there
      exact ⟨hinside, Move.getD_standsIn hend .parent⟩

theorem performBody_standsIn {c : Cursor} (h : c.StandsIn root) : (body : List Action) →
    (performBody source c body).cursor.StandsIn root ∧
      ∀ d ∈ bodyCourse source c body, d.StandsIn root
  | [] => by
    rw [performBody, bodyCourse]
    exact ⟨h, List.forall_mem_nil _⟩
  | action :: rest => by
    obtain ⟨hinside, hafter⟩ := List.forall_mem_append.1 (perform_standsIn h action)
    rw [List.forall_mem_singleton] at hafter
    rw [performBody, bodyCourse]
    cases hf : (perform source c action).fault with
    | some fault =>
      refine ⟨hafter, List.forall_mem_append.2 ⟨hinside, ?_⟩⟩
      exact List.forall_mem_singleton.2 hafter
    | none =>
      obtain ⟨hend, hrest⟩ := performBody_standsIn hafter rest
      refine ⟨hend, List.forall_mem_append.2 ⟨hinside, ?_⟩⟩
      exact List.forall_mem_cons.2 ⟨hafter, hrest⟩

end

theorem course_standsIn (h : c.StandsIn root) (actions : List Action) :
    ∀ d ∈ course source c actions, d.StandsIn root := by
  induction actions generalizing c with
  | nil => exact List.forall_mem_nil _
  | cons action rest ih =>
    obtain ⟨hinside, hafter⟩ := List.forall_mem_append.1 (perform_standsIn h action)
    rw [List.forall_mem_singleton] at hafter
    exact List.forall_mem_append.2 ⟨hinside, List.forall_mem_cons.2 ⟨hafter, ih hafter⟩⟩

theorem perform_move (h : c.StandsIn root) (source : Source) (move : Move) :
    perform source c (ofMove move) =
      match (move.request c.place).bind (Cursor.at? root) with
      | some d => ⟨.moved true d.standing, none, d⟩
      | none => ⟨.moved false c.standing, none, c⟩ := by
  rw [perform_ofMove, Move.target?_eq h]
  cases (move.request c.place).bind (Cursor.at? root) <;> rfl

/-- In a session that begins at the root the path of the cursor is a route from the root after every
action, and its place alone tells the cursor; so it is after any walk, with whatever choices and
however it fails. A move succeeds exactly where the tree has the place it asks for, and else changes
nothing. The walk to the first child, else to the next sibling, else up to one with a next sibling,
tours the tree and ends at the root. -/
theorem sessions_keep_route (source : Source) (root : Tree) :
    (∀ actions,
      Report.standingsAll (performEach source (Cursor.ofRoot root) actions) =
        (course source (Cursor.ofRoot root) actions).map Cursor.standing ∧
      ∀ c ∈ course source (Cursor.ofRoot root) actions,
        c.StandsIn root ∧ Cursor.at? root c.place = some c) ∧
    (∀ {α : Type} (walk : Walk α), walk.Wandering source → walk.StaysIn root) ∧
    (∀ c : Cursor, c.StandsIn root → ∀ move : Move,
      perform source c (ofMove move) =
        match (move.request c.place).bind (Cursor.at? root) with
        | some d => ⟨.moved true d.standing, none, d⟩
        | none => ⟨.moved false c.standing, none, c⟩) ∧
    Cursor.Tours root (Cursor.ofRoot root).traverse.1 ∧
      (Cursor.ofRoot root).traverse.2 = Cursor.ofRoot root := by
  refine ⟨fun actions => ⟨standings_performEach source _ actions, fun c hc => ?_⟩,
    fun walk h => h.staysIn root, fun c h move => perform_move h source move,
    Cursor.tours_traverse root, congrArg Prod.snd (Cursor.traverse_ofRoot root)⟩
  have h := course_standsIn (Cursor.ofRoot_standsIn root) actions c hc
  exact ⟨h, h.at?_place⟩

def nameScript : Tree :=
  .node (.construct .script) none
    [.node (.construct .exprStatement) none [.token (.terminal .name) "x" none none]]

/-- A descent whose body goes down a level ends one level too low, and is refused for it; the cursor
is then at the statement, which has no sibling. -/
theorem wandering_descent_keeps_route :
    let source := Source.ofString "x"
    let actions := [.descend .noChild [.firstChild], .nextSibling]
    let reports := performEach source (Cursor.ofRoot nameScript) actions
    (∃ inner after last, reports =
      [.descended (some .notRestored) inner after, .moved false last]) ∧
      (course source (Cursor.ofRoot nameScript) actions).map Cursor.place = [[0, 0], [0], [0]] ∧
      ∀ c ∈ course source (Cursor.ofRoot nameScript) actions, c.StandsIn nameScript := by
  intro source actions reports
  obtain ⟨h, -⟩ := sessions_keep_route source nameScript
  exact ⟨⟨_, _, _, rfl⟩, rfl, fun c hc => ((h actions).2 c hc).1⟩

end Action
end ArithScript
