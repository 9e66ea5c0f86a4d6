import ArithScript.Proofs.Lowering.Refinement

/-!
Walks without discipline. A walk that moves the cursor as it likes, fails where it likes and descends
with bodies of the same kind still leaves the cursor at a node of its tree.
-/
namespace ArithScript.Walk

variable {source : Source} {α β : Type} {root : Tree}

/-- Walks made of moves, lowering and descents, in any order and with any choices; a fault may be
raised or caught anywhere, and bodies need not come back. -/
inductive Wandering (source : Source) : {α : Type} → Walk α → Prop
  | pure {α : Type} (a : α) : Wandering source (Pure.pure a)
  | raise {α : Type} (fault : Fault) : Wandering source (throw fault : Walk α)
  | look : Wandering source (getThe Cursor)
  | move (m : Move) : Wandering source (move m.target?)
  | lower (entry : Entry) : Wandering source (entry.walk source)
  | descend {α : Type} (problem : Problem) {body : Walk α} :
    Wandering source body → Wandering source (descend source problem body)
  | bind {α β : Type} {walk : Walk α} {next : α → Walk β} :
    Wandering source walk → (∀ a, Wandering source (next a)) → Wandering source (walk >>= next)
  | recover {α : Type} {walk : Walk α} {handle : Fault → Walk α} :
    Wandering source walk → (∀ fault, Wandering source (handle fault)) →
    Wandering source (tryCatch walk handle)

/-- Begun at a node of the tree, the walk ends at one. -/
def StaysIn (walk : Walk α) (root : Tree) : Prop :=
  ∀ c : Cursor, c.StandsIn root → (walk.runFrom c).2.StandsIn root

/-- However a descent ends, the cursor is one level above where the body has left it. -/
theorem runFrom_descend_snd (source : Source) (problem : Problem) (body : Walk α) (c : Cursor) :
    ((descend source problem body).runFrom c).2 =
      match c.firstChild? with
      | none => c
      | some child =>
        let d := (body.runFrom child).2
        d.parent?.getD d := by
  rw [descend, runFrom_bind_ok (runFrom_get c)]
  cases hc : c.node.children with
  | nil => rw [runFrom_bind_error (enter_none hc), Cursor.firstChild?_eq_none hc]
  | cons first rest =>
    rw [runFrom_bind_ok (enter_some hc), Cursor.firstChild?_eq_some hc]
    dsimp only
    cases hb : body.runFrom (c.down 0 first) with
    | mk result d =>
      cases result with
      | error fault => rw [runFrom_bind_error (orAscend_error hb (runFrom_ascend_one d))]
      | ok a =>
        rw [runFrom_bind_ok (orAscend_ok hb), runFrom_bind, runFrom_leave]
        split <;> rename_i h <;> split at h <;> cases h <;> rfl

theorem StaysIn.descend {body : Walk α} (hb : StaysIn body root) (problem : Problem) :
    StaysIn (descend source problem body) root := by
  intro c h
  rw [runFrom_descend_snd]
  cases hc : c.firstChild? with
  | none => exact h
  | some child =>
    have hchild : child.StandsIn root := Move.target?_standsIn h .firstChild hc
    exact Move.getD_standsIn (hb child hchild) .parent

theorem StaysIn.bind {walk : Walk α} {next : α → Walk β} (hw : StaysIn walk root)
    (hn : ∀ a, StaysIn (next a) root) : StaysIn (walk >>= next) root := by
  intro c h
  have hd := hw c h
  rw [runFrom_bind]
  rcases hr : walk.runFrom c with ⟨_ | a, d⟩
  · rw [hr] at hd
    exact hd
  · rw [hr] at hd
    exact hn a d hd

theorem StaysIn.recover {walk : Walk α} {handle : Fault → Walk α} (hw : StaysIn walk root)
    (hh : ∀ fault, StaysIn (handle fault) root) : StaysIn (tryCatch walk handle) root := by
  intro c h
  have hd := hw c h
  rw [runFrom_tryCatch]
  rcases hr : walk.runFrom c with ⟨fault | _, d⟩
  · rw [hr] at hd
    exact hh fault d hd
  · rw [hr] at hd
    exact hd

theorem Wandering.staysIn {walk : Walk α} (h : Wandering source walk) (root : Tree) :
    StaysIn walk root := by
  induction h with
  | pure a => exact fun _ hc => hc
  | raise fault => exact fun _ hc => hc
  | look => exact fun _ hc => hc
  | move m =>
    intro c hc
    rw [runFrom_move]
    exact Move.getD_standsIn hc m
  | lower entry =>
    intro c hc
    rw [entry.computes source c]
    exact hc
  | descend problem _ ih => exact ih.descend problem
  | bind _ _ ihw ihn => exact ihw.bind ihn
  | recover _ _ ihw ihh => exact ihw.recover ihh

end ArithScript.Walk
