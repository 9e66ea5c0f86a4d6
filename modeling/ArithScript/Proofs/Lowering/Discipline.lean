import ArithScript.Proofs.Lowering.Refinement

/-!
Walks leave the cursor as they found it.

Lowering ends on the node where it began, whether it succeeds or fails, and so does every descent
whose body only moves on to siblings, lowers, and descends in the same way. The check that the
cursor is back never fails in them. Trees are arbitrary, and so is the place of the cursor.
-/
namespace ArithScript.Walk

variable {source : Source}

/-- The walk ends where it began, with a result or a refusal. -/
def Restores {α : Type} (walk : Walk α) : Prop :=
  ∀ c, (walk.runFrom c).2 = c ∧ (walk.runFrom c).1 ≠ .error .notRestored

/-- From any child of a node the walk ends at a child of that node, with a result or a refusal. -/
def StaysBelow {α : Type} (walk : Walk α) : Prop :=
  ∀ c index child, ∃ result, EndsBelow walk c (c.down index child) result

/-- Bodies of descents, in any order and with any choices: what the cursor is at may be asked for,
a failure may be raised or caught, and the cursor is moved by steps to the next sibling only. -/
inductive Disciplined (source : Source) : {α : Type} → Walk α → Prop
  | pure {α : Type} (a : α) : Disciplined source (Pure.pure a)
  | raise {α : Type} (failure : Failure) : Disciplined source (throw (.rejected failure) : Walk α)
  | look : Disciplined source (getThe Cursor)
  | nextSibling : Disciplined source (move Cursor.nextSibling?)
  | expr : Disciplined source (expr source)
  | stmt : Disciplined source (stmt source)
  | argumentList : Disciplined source (argumentList source)
  | program : Disciplined source (program source)
  | descend {α : Type} (problem : Problem) {body : Walk α} :
    Disciplined source body → Disciplined source (descend source problem body)
  | bind {α β : Type} {walk : Walk α} {next : α → Walk β} :
    Disciplined source walk → (∀ a, Disciplined source (next a)) →
    Disciplined source (walk >>= next)
  | recover {α : Type} {walk : Walk α} {handle : Fault → Walk α} :
    Disciplined source walk → (∀ fault, Disciplined source (handle fault)) →
    Disciplined source (tryCatch walk handle)

variable {α β : Type}

theorem Computes.restores {walk : Walk α} (h : ∀ c, ∃ result, Computes walk c result) :
    Restores walk := by
  intro c
  obtain ⟨result, hc⟩ := h c
  rw [hc]
  cases result <;> simp [Except.mapError]

theorem descend_computes {body : Walk α} (hb : StaysBelow body) (problem : Problem) (c : Cursor) :
    ∃ result, Computes (descend source problem body) c result := by
  cases hc : c.node.children with
  | nil => exact ⟨_, descend_nil hc⟩
  | cons first rest =>
    obtain ⟨result, hr⟩ := hb c 0 first
    exact ⟨result, descend_cons hc hr⟩

theorem staysBelow_of_computes {walk : Walk α} (h : ∀ c, ∃ result, Computes walk c result) :
    StaysBelow walk := by
  intro c index child
  obtain ⟨result, hc⟩ := h (c.down index child)
  exact ⟨result, hc.endsBelow⟩

theorem StaysBelow.bind {walk : Walk α} {next : α → Walk β} (hw : StaysBelow walk)
    (hn : ∀ a, StaysBelow (next a)) : StaysBelow (walk >>= next) := by
  intro c index child
  obtain ⟨result, i, d, hd⟩ := hw c index child
  cases result with
  | error failure => exact ⟨.error failure, i, d, runFrom_bind_error hd⟩
  | ok a =>
    obtain ⟨result, hr⟩ := hn a c i d
    exact ⟨result, EndsBelow.bind_ok hd hr⟩

theorem StaysBelow.recover {walk : Walk α} {handle : Fault → Walk α} (hw : StaysBelow walk)
    (hh : ∀ fault, StaysBelow (handle fault)) : StaysBelow (tryCatch walk handle) := by
  intro c index child
  obtain ⟨result, i, d, hd⟩ := hw c index child
  cases result with
  | ok a => exact ⟨.ok a, i, d, by rw [runFrom_tryCatch, hd]; rfl⟩
  | error failure =>
    obtain ⟨result, j, e, he⟩ := hh (.rejected failure) c i d
    exact ⟨result, j, e, by rw [runFrom_tryCatch, hd]; exact he⟩

theorem Disciplined.staysBelow {body : Walk α} (h : Disciplined source body) : StaysBelow body := by
  induction h with
  | pure a => exact fun c index child => ⟨.ok a, index, child, rfl⟩
  | raise failure => exact fun c index child => ⟨.error failure, index, child, rfl⟩
  | look => exact fun c index child => ⟨.ok (c.down index child), index, child, rfl⟩
  | nextSibling =>
    intro c index child
    cases hn : c.node.children[index + 1]? with
    | none =>
      refine ⟨.ok false, index, child, ?_⟩
      rw [runFrom_move, Cursor.nextSibling?_down, hn]
      rfl
    | some next =>
      refine ⟨.ok true, index + 1, next, ?_⟩
      rw [runFrom_move, Cursor.nextSibling?_down, hn]
      rfl
  | expr => exact staysBelow_of_computes fun c => ⟨_, expr_computes source c⟩
  | stmt => exact staysBelow_of_computes fun c => ⟨_, stmt_computes source c⟩
  | argumentList => exact staysBelow_of_computes fun c => ⟨_, argumentList_computes source c⟩
  | program => exact staysBelow_of_computes fun c => ⟨_, program_computes source c⟩
  | descend problem _ ih => exact staysBelow_of_computes (descend_computes ih problem)
  | bind _ _ ihw ihn => exact ihw.bind ihn
  | recover _ _ ihw ihh => exact ihw.recover ihh

/-- Lowering restores the cursor, and so does a descent with a disciplined body. -/
theorem lowering_and_descents_restore (source : Source) :
    Restores (expr source) ∧ Restores (stmt source) ∧ Restores (argumentList source) ∧
      Restores (program source) ∧
      ∀ (problem : Problem) (body : Walk α), Disciplined source body →
        Restores (descend source problem body) := by
  refine ⟨?_, ?_, ?_, ?_, fun problem _ h => ?_⟩
  · exact Computes.restores fun c => ⟨_, expr_computes source c⟩
  · exact Computes.restores fun c => ⟨_, stmt_computes source c⟩
  · exact Computes.restores fun c => ⟨_, argumentList_computes source c⟩
  · exact Computes.restores fun c => ⟨_, program_computes source c⟩
  · exact Computes.restores (descend_computes h.staysBelow problem)

def danglingSum : Tree :=
  .node (.construct .binary) none
    [.token (.terminal .number) "1" none none, .token (.terminal .plus) "+" (some 1) none]

/-- From the operator of a dangling sum a descent fails, and the cursor is on the sum again. -/
theorem descent_into_danglingSum_restores :
    let source := Source.ofString "1+"
    let body : Walk Expr := do
      let _ ← move Cursor.nextSibling?
      descend source .noChild (expr source)
    ((descend source .noChild body).runFrom (Cursor.ofRoot danglingSum)).2 =
      Cursor.ofRoot danglingSum := by
  intro source body
  have hb : Disciplined source body := .bind .nextSibling fun _ => .descend .noChild .expr
  obtain ⟨-, -, -, -, h⟩ := lowering_and_descents_restore source
  exact (h .noChild body hb (Cursor.ofRoot danglingSum)).1

end ArithScript.Walk
