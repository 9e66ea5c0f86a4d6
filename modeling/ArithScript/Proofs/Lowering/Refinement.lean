import ArithScript.Session
import ArithScript.Proofs.Lowering.Meaning
import ArithScript.Proofs.Lowering.Walk

/-!
The walks of the lowering compute what the tree at the cursor stands for, and end where they began.
-/
namespace ArithScript

namespace Walk

variable {source : Source} {c : Cursor} {bound : Nat} {operand : Walk Expr}

theorem operator_computes (c : Cursor) : Computes (operator source) c (c.node.toOperator source) := by
  rw [Computes, operator, runFrom_bind_ok (runFrom_text c), Operator.ofSymbol, Tree.toOperator]
  cases Operator.ofSymbol? (c.node.textIn source) <;> rfl

theorem number_computes (c : Cursor) :
    Computes (number source) c (c.node.toNumber source .badNumber) := by
  rw [Computes, number, runFrom_bind_ok (runFrom_text c), Tree.toNumber]
  cases readNumber (c.node.textIn source) <;> rfl

theorem sign_computes {sign : Tree} {later : List Tree} (hc : c.node.children = sign :: later) :
    Computes (descend source .noChild do unless isSign (← text source) do refuse source .unknownSign)
      c (if isSign (sign.textIn source) then .ok () else sign.reject source .unknownSign) := by
  refine descend_cons hc ⟨0, sign, ?_⟩
  rw [runFrom_bind_ok (runFrom_text _), Cursor.down_node]
  split <;> rfl

theorem signed_computes (hk : c.kind = .construct .unary) :
    Computes (signed source) c (c.node.toExpr source) := by
  cases hc : c.node.children with
  | nil =>
    rw [Tree.toExpr_unary_nil hk hc, Computes, signed]
    exact runFrom_bind_error (descend_nil hc)
  | cons sign later =>
    rw [Tree.toExpr_unary hk hc, Computes, signed]
    have hs : Computes _ c (if isSign (sign.textIn source) then _ else _) := sign_computes hc
    split at hs
    · rename_i h
      rw [runFrom_bind_ok hs, runFrom_bind_ok (runFrom_text c), if_pos h, Tree.toNumber]
      cases readNumber (c.node.textIn source) <;> rfl
    · rename_i h
      rw [if_neg h]
      exact runFrom_bind_error hs

/-- The operand walk computes every expression of the given size. -/
def Lowers (source : Source) (operand : Walk Expr) (bound : Nat) : Prop :=
  ∀ d : Cursor, d.node.size ≤ bound → Computes operand d (d.node.toExpr source)

theorem size_le_of_drop {index : Nat} {child : Tree} {rest : List Tree}
    (hd : c.node.children.drop index = child :: rest) (hs : c.node.size ≤ bound + 1) :
    child.size ≤ bound := by
  have hm : child ∈ c.node.children := List.mem_of_mem_drop (hd ▸ List.mem_cons_self)
  have := Tree.sizeAll_children_lt c.node
  have := Tree.size_le_sizeAll hm
  omega

theorem drop_succ {α : Type} {xs rest : List α} {index : Nat} {x : α}
    (hd : xs.drop index = x :: rest) : xs.drop (index + 1) = rest := by
  rw [← List.drop_drop, hd]
  rfl

theorem map_push {α : Type} (more : Except Failure (List α)) (a : α) (read : List α) :
    (more.map (a :: ·)).map (read.reverse ++ ·) = more.map ((a :: read).reverse ++ ·) := by
  cases more <;> simp [Except.map]

theorem endsBelow_stop {α : Type} (index : Nat) (child : Tree) (read : List α) :
    EndsBelow (pure read.reverse) c (c.down index child) ((.ok [] : Except Failure _).map
      (read.reverse ++ ·)) :=
  ⟨index, child, by simp [runFrom_pure, Except.map, Except.mapError]⟩

/-- The loop over arguments, from any child on, with the arguments before it already read. -/
theorem argumentItems_endsBelow (ho : Lowers source operand bound) (hs : c.node.size ≤ bound + 1)
    (count index : Nat) (child : Tree) (rest : List Tree) (read : List Expr)
    (hd : c.node.children.drop index = child :: rest) (hcount : rest.length < count) :
    EndsBelow (argumentItems operand count read) c (c.down index child)
      ((Tree.argumentsOf source (child :: rest)).map (read.reverse ++ ·)) := by
  -- on the number of children that may still be read; fewer than that are left after this one
  induction count generalizing index child rest read with
  | zero => omega
  | succ count ih =>
    rw [argumentItems]
    refine EndsBelow.bind_ok (runFrom_kind _) ?_
    by_cases hr : child.kind = .terminal .rpar
    · rw [Cursor.down_kind, if_pos hr, Tree.argumentsOf_rpar hr]
      exact endsBelow_stop index child read
    rw [Cursor.down_kind, if_neg hr, Tree.argumentsOf_cons hr]
    have hchild := ho (c.down index child) (size_le_of_drop hd hs)
    rw [Cursor.down_node] at hchild
    cases he : child.toExpr source with
    | error failure =>
      rw [he] at hchild
      exact ⟨index, child, runFrom_bind_error hchild⟩
    | ok argument =>
      rw [he] at hchild
      refine EndsBelow.bind_ok hchild ?_
      change EndsBelow _ _ _ (((Tree.laterArguments source rest).map (argument :: ·)).map _)
      rw [map_push]
      cases rest with
      | nil =>
        refine EndsBelow.bind_ok (next_none hd) ?_
        exact endsBelow_stop index child (argument :: read)
      | cons separator later =>
        refine EndsBelow.bind_ok (next_some hd) (EndsBelow.bind_ok (runFrom_kind _) ?_)
        have hd' := drop_succ hd
        -- the child after an argument is passed over, whatever it is, unless it closes the list
        rw [List.length_cons] at hcount
        rw [Cursor.down_kind, Tree.laterArguments]
        by_cases hr : separator.kind = .terminal .rpar
        · rw [if_neg (not_not_intro hr), if_pos hr, ← Tree.argumentsOf_rpar hr]
          exact ih (index + 1) separator later (argument :: read) hd' (by omega)
        rw [if_pos hr, if_neg hr]
        cases later with
        | nil =>
          rw [Tree.argumentsOf_nil]
          exact EndsBelow.bind_ok (next_none hd') (endsBelow_stop _ separator (argument :: read))
        | cons next later =>
          refine EndsBelow.bind_ok (next_some hd') ?_
          rw [List.length_cons] at hcount
          exact ih (index + 2) next later (argument :: read) (drop_succ hd') (by omega)

theorem argumentItems_all (ho : Lowers source operand bound) (hs : c.node.size ≤ bound + 1)
    {index : Nat} {child : Tree} {rest : List Tree}
    (hd : c.node.children.drop index = child :: rest) :
    EndsBelow (do argumentItems operand (← getThe Cursor).familySize []) c (c.down index child)
      (Tree.argumentsOf source (child :: rest)) := by
  refine EndsBelow.bind_ok (runFrom_get _) ?_
  have hl : c.node.children.length - index = rest.length + 1 := by
    rw [← List.length_drop, hd, List.length_cons]
  rw [← id_eq (Tree.argumentsOf source (child :: rest)), ← Except.map_id]
  exact argumentItems_endsBelow ho hs c.node.children.length index child rest [] hd (by omega)

theorem arguments_computes (ho : Lowers source operand bound) (hs : c.node.size ≤ bound + 1) :
    Computes (arguments source operand) c (c.node.toArguments source) := by
  rw [Computes, arguments, runFrom_bind_ok (runFrom_kind c)]
  dsimp only
  by_cases hk : c.kind = .construct .argList
  · rw [if_neg (not_not_intro hk)]
    cases hc : c.node.children with
    | nil =>
      rw [Tree.toArguments_nil hk hc]
      exact descend_nil hc
    | cons first rest =>
      rw [Tree.toArguments_cons hk hc]
      refine descend_cons hc (EndsBelow.bind_ok (runFrom_kind _) ?_)
      have hd : c.node.children.drop 0 = first :: rest := hc
      by_cases hl : first.kind = .terminal .lpar
      · rw [Cursor.down_kind, if_pos hl, if_pos hl]
        cases rest with
        | nil =>
          rw [Tree.argumentsOf_nil]
          exact EndsBelow.bind_ok (next_none hd) ⟨0, first, rfl⟩
        | cons next later =>
          exact EndsBelow.bind_ok (next_some hd) (argumentItems_all ho hs (drop_succ hd))
      · rw [Cursor.down_kind, if_neg hl, if_neg hl]
        exact argumentItems_all ho hs hd
  · rw [if_pos hk, Tree.toArguments_other hk]
    rfl

theorem callParts_computes (ho : Lowers source operand bound) (hs : c.node.size ≤ bound + 1)
    {callee : Tree} {later : List Tree} (hc : c.node.children = callee :: later) :
    Computes
      (descend source .noChild do
        let callee ← text source
        advance source .argumentList
        return (callee, ← arguments source operand))
      c (Tree.callParts source callee later) := by
  refine descend_cons hc (EndsBelow.bind_ok (runFrom_text _) ?_)
  cases later with
  | nil =>
    exact ⟨0, callee, runFrom_bind_error (advance_none hc)⟩
  | cons list later =>
    have hd : c.node.children.drop 1 = list :: later := drop_succ hc
    have hl : list.size ≤ bound + 1 := Nat.le_succ_of_le (size_le_of_drop hd hs)
    have ha : Computes (arguments source operand) (c.down 1 list) (list.toArguments source) :=
      arguments_computes ho hl
    refine EndsBelow.bind_ok (advance_some hc) ⟨1, list, ?_⟩
    rw [Tree.callParts]
    cases h : list.toArguments source with
    | error failure =>
      rw [h] at ha
      exact runFrom_bind_error ha
    | ok read =>
      rw [h] at ha
      exact runFrom_bind_ok ha

theorem call_computes (ho : Lowers source operand bound) (hs : c.node.size ≤ bound + 1)
    (hk : c.kind = .construct .call) :
    Computes (call source operand) c (c.node.toExpr source) := by
  rw [Computes, call, runFrom_bind_ok (runFrom_location c)]
  cases hc : c.node.children with
  | nil =>
    rw [Tree.toExpr_call_nil hk hc]
    exact runFrom_bind_error (descend_nil hc)
  | cons callee later =>
    rw [Tree.toExpr_call hk hc]
    have hp := callParts_computes ho hs hc
    cases h : Tree.callParts source callee later with
    | error failure =>
      rw [h] at hp
      exact runFrom_bind_error hp
    | ok parts =>
      rw [h] at hp
      rw [runFrom_bind_ok hp]
      dsimp only
      cases Expr.ofCall parts.1 parts.2 (c.node.location source) <;> rfl

theorem rightSide_endsBelow (ho : Lowers source operand bound) (hs : c.node.size ≤ bound + 1)
    {left : Tree} {later : List Tree} (hc : c.node.children = left :: later) :
    EndsBelow (rightSide source operand) c (c.down 0 left) (Tree.rightSide source left later) := by
  rw [rightSide]
  cases later with
  | nil =>
    exact ⟨0, left, runFrom_bind_error (advance_none hc)⟩
  | cons op later =>
    have hop : Computes (operator source) (c.down 1 op) (op.toOperator source) :=
      operator_computes (c.down 1 op)
    refine EndsBelow.bind_ok (advance_some hc) ?_
    have hd : c.node.children.drop 1 = op :: later := drop_succ hc
    cases h : op.toOperator source with
    | error failure =>
      rw [h] at hop
      refine ⟨1, op, (runFrom_bind_error hop).trans ?_⟩
      cases later <;> simp [Tree.rightSide, h, Except.mapError]
    | ok symbol =>
      rw [h] at hop
      refine EndsBelow.bind_ok hop ?_
      cases later with
      | nil =>
        refine ⟨1, op, (runFrom_bind_error (advance_none hd)).trans ?_⟩
        simp only [Tree.rightSide, h]
        rfl
      | cons right later =>
        have hr := ho (c.down 2 right) (size_le_of_drop (drop_succ hd) hs)
        rw [Cursor.down_node] at hr
        refine EndsBelow.bind_ok (advance_some hd) ⟨2, right, ?_⟩
        simp only [Tree.rightSide, h]
        cases he : right.toExpr source with
        | error failure =>
          rw [he] at hr
          exact runFrom_bind_error hr
        | ok second =>
          rw [he] at hr
          exact runFrom_bind_ok hr

/-- From an inner node of a chain on: its expression is handed to the levels around it, and a
failure leads to the node where the chain began. -/
theorem chain_runFrom (ho : Lowers source operand bound) (count : Nat) (levels : List OpenLevel)
    (c root : Cursor) (hcount : c.node.size ≤ count) (hs : c.node.size ≤ bound + 1)
    (hb : c.kind ≠ .construct .binary → c.node.size ≤ bound)
    (hroot : (ascend levels.length).runFrom c = (.ok (), root)) :
    (do
      let levels ← openLevels source count levels
      let left ← orAscend levels.length operand
      finishLevels source operand left levels).runFrom c =
      match c.node.toExpr source with
      | .ok e => (finishLevels source operand e levels).runFrom c
      | .error failure => (.error (.rejected failure), root) := by
  -- on the number of levels that may still be opened; each is finished after its left operand
  induction count generalizing c levels with
  | zero =>
    have := c.node.size_pos
    omega
  | succ count ih =>
    rw [openLevels, bind_assoc, runFrom_bind_ok (runFrom_kind c)]
    by_cases hk : c.kind = .construct .binary
    · rw [if_neg (not_not_intro hk)]
      simp only [bind_assoc]
      rw [runFrom_bind_ok (runFrom_get c), runFrom_bind_ok (runFrom_location c)]
      cases hc : c.node.children with
      | nil =>
        rw [Tree.toExpr_binary_nil hk hc]
        exact runFrom_bind_error (orAscend_error (enter_none hc) hroot)
      | cons left later =>
        have hd : c.node.children.drop 0 = left :: later := hc
        have hleft : left.size ≤ count := size_le_of_drop hd hcount
        have hbound : left.size ≤ bound := size_le_of_drop hd hs
        rw [runFrom_bind_ok (orAscend_ok (enter_some hc))]
        -- below the left operand this level is open, too, and a failure leads one step further up
        rw [ih (⟨c, c.node.location source⟩ :: levels) (c.down 0 left) hleft
          (Nat.le_succ_of_le hbound) (fun _ => hbound)
          ((runFrom_ascend_down levels.length c 0 left).trans hroot)]
        rw [Cursor.down_node, Tree.toExpr_binary hk hc]
        cases left.toExpr source with
        | error failure => rfl
        | ok first =>
          obtain ⟨index, child, hr⟩ := rightSide_endsBelow ho hs hc
          dsimp only
          rw [finishLevels]
          cases h : Tree.rightSide source left later with
          | error failure =>
            rw [h] at hr
            exact runFrom_bind_error (orAscend_error hr
              ((runFrom_ascend_down levels.length c index child).trans hroot))
          | ok parts =>
            rw [h] at hr
            rw [runFrom_bind_ok (orAscend_ok hr)]
            exact runFrom_bind_ok (orAscend_ok (leave_down c index child))
    · rw [if_pos hk, pure_bind]
      -- no binary expression: the chain ends here, and the operand walk reads what is left
      have hl := ho c (hb hk)
      cases he : c.node.toExpr source with
      | error failure =>
        rw [he] at hl
        exact runFrom_bind_error (orAscend_error hl hroot)
      | ok e =>
        rw [he] at hl
        exact runFrom_bind_ok (orAscend_ok hl)

theorem binary_computes (ho : Lowers source operand bound) (hs : c.node.size ≤ bound + 1)
    (hk : c.kind = .construct .binary) :
    Computes (binary source (bound + 1) operand) c (c.node.toExpr source) := by
  rw [Computes, binary]
  refine (chain_runFrom ho (bound + 1) [] c c hs hs (fun h => absurd hk h) rfl).trans ?_
  cases c.node.toExpr source <;> rfl

theorem exprUpTo_lowers (source : Source) (bound : Nat) :
    Lowers source (exprUpTo source bound) bound := by
  induction bound with
  | zero =>
    intro c hs
    have := c.node.size_pos
    omega
  | succ bound ih =>
    intro c hs
    rw [Computes, exprUpTo, runFrom_bind_ok (runFrom_kind c)]
    split
    · rename_i hk
      rw [Tree.toExpr_number hk]
      exact number_computes c
    · rename_i hk
      rw [Tree.toExpr_name hk]
      rfl
    · rename_i hk
      exact call_computes ih hs hk
    · rename_i hk
      exact signed_computes hk
    · rename_i hk
      exact binary_computes ih hs hk
    · rename_i hn hi hc hu hb
      rw [Tree.toExpr_other hn hi hc hu hb]
      rfl

theorem expr_computes (source : Source) (c : Cursor) :
    Computes (expr source) c (c.node.toExpr source) := by
  rw [Computes, expr, runFrom_bind_ok (runFrom_get c)]
  exact exprUpTo_lowers source c.node.size c (Nat.le_refl _)

theorem argumentList_computes (source : Source) (c : Cursor) :
    Computes (argumentList source) c (c.node.toArguments source) := by
  rw [Computes, argumentList, runFrom_bind_ok (runFrom_get c)]
  exact arguments_computes (exprUpTo_lowers source c.node.size) (Nat.le_succ _)

theorem Computes.map {α β : Type} {walk : Walk α} {d : Cursor} {result : Except Failure α}
    (h : Computes walk d result) (f : α → β) :
    Computes (do return f (← walk)) d (result.map f) := by
  cases result with
  | error failure => exact runFrom_bind_error h
  | ok a => exact runFrom_bind_ok h

theorem assignment_endsBelow {target : Tree} {later : List Tree} (loc : Span)
    (hc : c.node.children = target :: later) :
    EndsBelow
      (do
        let name ← text source
        advance source .equalsSign
        advance source .assignedValue
        return Stmt.define name (← expr source) loc)
      c (c.down 0 target)
      ((Tree.assignedValue source target later).map
        (.define (target.textIn source) · loc)) := by
  refine EndsBelow.bind_ok (runFrom_text _) ?_
  cases later with
  | nil =>
    exact ⟨0, target, runFrom_bind_error (advance_none hc)⟩
  | cons sign later =>
    refine EndsBelow.bind_ok (advance_some hc) ?_
    have hd : c.node.children.drop 1 = sign :: later := drop_succ hc
    cases later with
    | nil => exact ⟨1, sign, runFrom_bind_error (advance_none hd)⟩
    | cons value later =>
      refine EndsBelow.bind_ok (advance_some hd) ?_
      exact ((expr_computes source (c.down 2 value)).map _).endsBelow

theorem stmt_computes (source : Source) (c : Cursor) :
    Computes (stmt source) c (c.node.toStmt source) := by
  rw [Computes, stmt, runFrom_bind_ok (runFrom_kind c)]
  split
  · rename_i hk
    rw [runFrom_bind_ok (runFrom_location c)]
    cases hc : c.node.children with
    | nil =>
      rw [Tree.toStmt_nil (.inl hk) hc]
      exact descend_nil hc
    | cons target later =>
      rw [Tree.toStmt_assignment hk hc]
      exact descend_cons hc (assignment_endsBelow (c.node.location source) hc)
  · rename_i hk
    rw [runFrom_bind_ok (runFrom_location c)]
    cases hc : c.node.children with
    | nil =>
      rw [Tree.toStmt_nil (.inr hk) hc]
      exact descend_nil hc
    | cons e later =>
      rw [Tree.toStmt_expr hk hc]
      exact descend_cons hc ((expr_computes source (c.down 0 e)).map _).endsBelow
  · rename_i ha he
    rw [Tree.toStmt_other ha he]
    rfl

theorem mapM_cons_ok {α β ε : Type} {f : α → Except ε β} {x : α} {y : β} (h : f x = .ok y)
    (xs : List α) : (x :: xs).mapM f = (xs.mapM f).map (y :: ·) := by
  rw [List.mapM_cons, h]
  cases xs.mapM f <;> rfl

theorem mapM_cons_error {α β ε : Type} {f : α → Except ε β} {x : α} {e : ε} (h : f x = .error e)
    (xs : List α) : (x :: xs).mapM f = .error e := by
  rw [List.mapM_cons, h]
  rfl

theorem laterStatements_endsBelow (count index : Nat) (child : Tree) (rest : List Tree)
    (read : Program) (hd : c.node.children.drop index = child :: rest)
    (hcount : rest.length < count) :
    EndsBelow (laterStatements source count read) c (c.down index child)
      ((rest.mapM (Tree.toStmt source)).map (read.reverse ++ ·)) := by
  induction count generalizing index child rest read with
  | zero => omega
  | succ count ih =>
    rw [laterStatements]
    cases rest with
    | nil => exact EndsBelow.bind_ok (next_none hd) (endsBelow_stop index child read)
    | cons next later =>
      refine EndsBelow.bind_ok (next_some hd) ?_
      have hn := stmt_computes source (c.down (index + 1) next)
      rw [Cursor.down_node] at hn
      cases hs : next.toStmt source with
      | error failure =>
        rw [hs] at hn
        rw [mapM_cons_error hs]
        exact ⟨index + 1, next, runFrom_bind_error hn⟩
      | ok s =>
        rw [hs] at hn
        rw [mapM_cons_ok hs, map_push]
        rw [List.length_cons] at hcount
        exact EndsBelow.bind_ok hn
          (ih (index + 1) next later (s :: read) (drop_succ hd) (by omega))

theorem statements_endsBelow {first : Tree} {rest : List Tree}
    (hc : c.node.children = first :: rest) :
    EndsBelow
      (do
        let first ← stmt source
        laterStatements source (← getThe Cursor).familySize [first])
      c (c.down 0 first) ((first :: rest).mapM (Tree.toStmt source)) := by
  have hf := stmt_computes source (c.down 0 first)
  rw [Cursor.down_node] at hf
  cases hs : first.toStmt source with
  | error failure =>
    rw [hs] at hf
    rw [mapM_cons_error hs]
    exact ⟨0, first, runFrom_bind_error hf⟩
  | ok s =>
    rw [hs] at hf
    rw [mapM_cons_ok hs]
    refine EndsBelow.bind_ok hf (EndsBelow.bind_ok (runFrom_get _) ?_)
    rw [Cursor.familySize_down, hc]
    exact laterStatements_endsBelow _ 0 first rest [s] hc (Nat.lt_succ_self _)

theorem program_computes (source : Source) (c : Cursor) :
    Computes (program source) c (c.node.toProgram source) := by
  rw [Computes, program, runFrom_bind_ok (runFrom_kind c)]
  dsimp only
  by_cases hk : c.kind = .construct .script
  · rw [if_neg (not_not_intro hk)]
    cases hc : c.node.children with
    | nil =>
      rw [Tree.toProgram_nil hk hc]
      exact descend_nil hc
    | cons first rest =>
      rw [Tree.toProgram_cons hk hc]
      exact descend_cons hc (statements_endsBelow hc)
  · rw [if_pos hk, Tree.toProgram_other hk]
    rfl

end Walk

/-- What a tree stands for when it is lowered as the given kind of thing. -/
def Entry.meaning (source : Source) (tree : Tree) : Entry → Except Failure Lowered
  | .expr => (tree.toExpr source).map .expr
  | .stmt => (tree.toStmt source).map .stmt
  | .arguments => (tree.toArguments source).map .arguments
  | .program => (tree.toProgram source).map .program

theorem Entry.computes (entry : Entry) (source : Source) (c : Cursor) :
    Walk.Computes (entry.walk source) c (entry.meaning source c.node) := by
  cases entry with
  | expr => exact (Walk.expr_computes source c).map _
  | stmt => exact (Walk.stmt_computes source c).map _
  | arguments => exact (Walk.argumentList_computes source c).map _
  | program => exact (Walk.program_computes source c).map _

end ArithScript
