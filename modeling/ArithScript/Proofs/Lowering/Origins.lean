import ArithScript.Proofs.Lowering.Fragment
import ArithScript.Proofs.Lowering.Refinement

/-!
Where failures of lowering come from. Each is that of a problem at one node of the tree that is
lowered: it has the offsets of this node, and its message ends with them and the text they enclose.
-/
namespace ArithScript

variable {α β : Type} {source : Source} {tree : Tree}

/-- The failures of the result are those of problems at nodes of the tree. That a program is empty
is none of them: it is said of a script as a whole. -/
def Tree.FailsWithin (source : Source) (tree : Tree) (result : Except Failure α) : Prop :=
  ∀ failure, result = .error failure → ∃ t ∈ tree.subtrees, ∃ problem : Problem,
    problem.code ≠ .emptyProgram ∧ failure = .ofProblem source problem t.extent

def NotEmpty (result : Except Failure α) : Prop :=
  ∀ failure, result = .error failure → failure.code ≠ .emptyProgram

namespace Tree

namespace FailsWithin

theorem ok (a : α) : tree.FailsWithin source (.ok a : Except Failure α) := nofun

theorem reject {problem : Problem} {t : Tree} (h : problem.code ≠ .emptyProgram)
    (ht : t ∈ tree.subtrees) :
    tree.FailsWithin source (t.reject source problem : Except Failure α) := by
  rintro _ ⟨⟩
  exact ⟨t, ht, problem, h, rfl⟩

theorem of_child {result : Except Failure α} {child : Tree}
    (h : child.FailsWithin source result) (hc : child ∈ tree.children) :
    tree.FailsWithin source result := by
  intro failure hf
  obtain ⟨t, ht, hfailure⟩ := h failure hf
  exact ⟨t, mem_subtrees_of_child hc ht, hfailure⟩

theorem error {result : Except Failure α} {failure : Failure} (h : tree.FailsWithin source result)
    (hf : result = .error failure) :
    tree.FailsWithin source (.error failure : Except Failure β) := by
  rintro _ ⟨⟩
  exact h failure hf

theorem map {result : Except Failure α} (h : tree.FailsWithin source result) (f : α → β) :
    tree.FailsWithin source (result.map f) := by
  cases result with
  | error failure => exact h.error rfl
  | ok a => exact ok (f a)

theorem mapM {f : α → Except Failure β} {as : List α}
    (h : ∀ a ∈ as, tree.FailsWithin source (f a)) : tree.FailsWithin source (as.mapM f) := by
  induction as with
  | nil => exact ok []
  | cons a as ih =>
    obtain ⟨hfirst, hlater⟩ := List.forall_mem_cons.mp h
    rw [List.mapM_cons]
    cases ha : f a with
    | error failure => exact hfirst.error ha
    | ok b =>
      cases has : as.mapM f with
      | error failure => exact (ih hlater).error has
      | ok bs => exact ok (b :: bs)

theorem toNumber {problem : Problem} {t : Tree} (h : problem.code ≠ .emptyProgram)
    (ht : t ∈ tree.subtrees) : tree.FailsWithin source (t.toNumber source problem) := by
  rw [Tree.toNumber]
  split
  · exact ok _
  · exact reject h ht

theorem toOperator {t : Tree} (ht : t ∈ tree.subtrees) :
    tree.FailsWithin source (t.toOperator source) := by
  rw [Tree.toOperator]
  split
  · exact ok _
  · exact reject (by simp [Problem.code]) ht

theorem notEmpty {result : Except Failure α} (h : tree.FailsWithin source result) :
    NotEmpty result := by
  intro failure hf
  obtain ⟨-, -, problem, hcode, rfl⟩ := h failure hf
  exact hcode

end FailsWithin

theorem failsWithin_argumentsOf : (trees : List Tree) →
    (∀ t ∈ trees, tree.FailsWithin source (t.toExpr source)) →
      tree.FailsWithin source (argumentsOf source trees)
  | [], _ => by
    rw [argumentsOf_nil]
    exact .ok []
  | first :: later, h => by
    by_cases hk : first.kind = .terminal .rpar
    · rw [argumentsOf_rpar hk]
      exact .ok []
    · have hfirst := h first List.mem_cons_self
      rw [argumentsOf_cons hk]
      cases he : first.toExpr source with
      | error failure => exact hfirst.error he
      | ok argument =>
        apply FailsWithin.map
        cases later with
        | nil => exact .ok []
        | cons separator later =>
          rw [laterArguments]
          split
          · exact .ok []
          · apply failsWithin_argumentsOf later
            intro t ht
            exact h t (List.mem_cons_of_mem _ (List.mem_cons_of_mem _ ht))

theorem failsWithin_toArguments {list : Tree}
    (h : ∀ t ∈ list.children, t.FailsWithin source (t.toExpr source)) :
    list.FailsWithin source (list.toArguments source) := by
  by_cases hk : list.kind = .construct .argList
  · cases hc : list.children with
    | nil =>
      rw [toArguments_nil hk hc]
      exact .reject (by simp [Problem.code]) list.self_mem_subtrees
    | cons first rest =>
      have hitems : ∀ t ∈ first :: rest, list.FailsWithin source (t.toExpr source) :=
        fun t ht => (h t (hc ▸ ht)).of_child (hc ▸ ht)
      rw [toArguments_cons hk hc]
      split
      · exact failsWithin_argumentsOf rest fun t ht => hitems t (List.mem_cons_of_mem _ ht)
      · exact failsWithin_argumentsOf _ hitems
  · rw [toArguments_other hk]
    exact .reject (by simp [Problem.code]) list.self_mem_subtrees

theorem ofCall_code {name : String} {arguments : List Expr} {loc : Span} {problem : Problem}
    (h : Expr.ofCall name arguments loc = .error problem) : problem.code ≠ .emptyProgram := by
  rw [Expr.ofCall.eq_def] at h
  split at h
  · split at h <;> cases h
    simp [Problem.code]
  · split at h <;> cases h
    simp [Problem.code]
  · cases h
    simp [Problem.code]

theorem failsWithin_call (hk : tree.kind = .construct .call)
    (h : ∀ list ∈ tree.children, list.FailsWithin source (list.toArguments source)) :
    tree.FailsWithin source (tree.toExpr source) := by
  cases hc : tree.children with
  | nil =>
    rw [toExpr_call_nil hk hc]
    exact .reject (by simp [Problem.code]) tree.self_mem_subtrees
  | cons callee later =>
    have hparts : tree.FailsWithin source (callParts source callee later) := by
      cases later with
      | nil => exact .reject (by simp [Problem.code]) (child_mem_subtrees (by simp [hc]))
      | cons list rest =>
        have hlist : list ∈ tree.children := by simp [hc]
        exact ((h list hlist).of_child hlist).map _
    rw [toExpr_call hk hc]
    split
    · exact hparts.error ‹_›
    · split
      · exact .ok _
      · exact .reject (ofCall_code ‹_›) tree.self_mem_subtrees

theorem failsWithin_rightSide {left : Tree} {later : List Tree} (hc : tree.children = left :: later)
    (h : ∀ t ∈ tree.children, t.FailsWithin source (t.toExpr source)) :
    tree.FailsWithin source (rightSide source left later) := by
  rcases later with _ | ⟨op, _ | ⟨right, rest⟩⟩
  · exact .reject (by simp [Problem.code]) (child_mem_subtrees (by simp [hc]))
  · have hop : op ∈ tree.subtrees := child_mem_subtrees (by simp [hc])
    rw [rightSide]
    split
    · exact (FailsWithin.toOperator hop).error ‹_›
    · exact .reject (by simp [Problem.code]) hop
  · have hop : op ∈ tree.subtrees := child_mem_subtrees (by simp [hc])
    have hright : right ∈ tree.children := by simp [hc]
    rw [rightSide]
    split
    · exact (FailsWithin.toOperator hop).error ‹_›
    · exact ((h right hright).of_child hright).map _

theorem failsWithin_binary (hk : tree.kind = .construct .binary)
    (h : ∀ t ∈ tree.children, t.FailsWithin source (t.toExpr source)) :
    tree.FailsWithin source (tree.toExpr source) := by
  cases hc : tree.children with
  | nil =>
    rw [toExpr_binary_nil hk hc]
    exact .reject (by simp [Problem.code]) tree.self_mem_subtrees
  | cons left later =>
    have hleft : left ∈ tree.children := by simp [hc]
    rw [toExpr_binary hk hc]
    split
    · exact ((h left hleft).of_child hleft).error ‹_›
    · exact (failsWithin_rightSide hc h).map _

theorem failsWithin_toExpr (tree : Tree) : tree.FailsWithin source (tree.toExpr source) := by
  -- on the size, as the arguments of a call lie two levels below it
  induction hsize : tree.size using Nat.strongRecOn generalizing tree with
  | ind n ih =>
    have hchild : ∀ t ∈ tree.children, t.FailsWithin source (t.toExpr source) := fun t ht =>
      ih _ (hsize ▸ size_lt_of_mem_children ht) t rfl
    by_cases hnumber : tree.kind = .terminal .number
    · rw [toExpr_number hnumber]
      exact .toNumber (by simp [Problem.code]) tree.self_mem_subtrees
    by_cases hname : tree.kind = .terminal .name
    · rw [toExpr_name hname]
      exact .ok _
    by_cases hcall : tree.kind = .construct .call
    · apply failsWithin_call hcall
      intro list hlist
      apply failsWithin_toArguments
      intro t ht
      have hlt := size_lt_of_mem_children hlist
      exact ih _ (hsize ▸ Nat.lt_trans (size_lt_of_mem_children ht) hlt) t rfl
    by_cases hunary : tree.kind = .construct .unary
    · cases hc : tree.children with
      | nil =>
        rw [toExpr_unary_nil hunary hc]
        exact .reject (by simp [Problem.code]) tree.self_mem_subtrees
      | cons sign later =>
        rw [toExpr_unary hunary hc]
        split
        · exact .toNumber (by simp [Problem.code]) tree.self_mem_subtrees
        · exact .reject (by simp [Problem.code]) (child_mem_subtrees (by simp [hc]))
    by_cases hbinary : tree.kind = .construct .binary
    · exact failsWithin_binary hbinary hchild
    · rw [toExpr_other hnumber hname hcall hunary hbinary]
      exact .reject (by simp [Problem.code]) tree.self_mem_subtrees

theorem failsWithin_toStmt (tree : Tree) : tree.FailsWithin source (tree.toStmt source) := by
  by_cases ha : tree.kind = .construct .assignment
  · rcases hc : tree.children with _ | ⟨target, later⟩
    · rw [toStmt_nil (.inl ha) hc]
      exact .reject (by simp [Problem.code]) tree.self_mem_subtrees
    · rw [toStmt_assignment ha hc]
      apply FailsWithin.map
      rcases later with _ | ⟨sign, _ | ⟨value, rest⟩⟩
      · exact .reject (by simp [Problem.code]) (child_mem_subtrees (by simp [hc]))
      · exact .reject (by simp [Problem.code]) (child_mem_subtrees (by simp [hc]))
      · exact (failsWithin_toExpr value).of_child (by simp [hc])
  by_cases he : tree.kind = .construct .exprStatement
  · rcases hc : tree.children with _ | ⟨e, later⟩
    · rw [toStmt_nil (.inr he) hc]
      exact .reject (by simp [Problem.code]) tree.self_mem_subtrees
    · rw [toStmt_expr he hc]
      exact ((failsWithin_toExpr e).of_child (by simp [hc])).map _
  · rw [toStmt_other ha he]
    exact .reject (by simp [Problem.code]) tree.self_mem_subtrees

theorem toProgram_cases (source : Source) (tree : Tree) :
    tree.FailsWithin source (tree.toProgram source) ∨
      tree.toProgram source = tree.reject source .emptyProgram := by
  by_cases hk : tree.kind = .construct .script
  · cases hc : tree.children with
    | nil => exact .inr (toProgram_nil hk hc)
    | cons first rest =>
      rw [toProgram_cons hk hc]
      refine .inl (.mapM fun t ht => ?_)
      exact (failsWithin_toStmt t).of_child (hc ▸ ht)
  · rw [toProgram_other hk]
    exact .inl (.reject (by simp [Problem.code]) tree.self_mem_subtrees)

end Tree

/-- The failure is placed at a node of the tree. It has the offsets of the node, its message ends
with them and the text between them, and nothing is noted. -/
def Failure.PointsInto (source : Source) (tree : Tree) (failure : Failure) : Prop :=
  ∃ t ∈ tree.subtrees, ∃ what : String,
    failure.start = some t.extent.start ∧ failure.stop = some t.extent.stop ∧
    failure.message = what ++ " at " ++ toString t.extent.start ++ " " ++ toString t.extent.stop ++
      ": " ++ quoted (source.slice t.extent.start t.extent.stop) ∧
    failure.notes = []

theorem Failure.pointsInto_ofProblem {t : Tree} (problem : Problem) (ht : t ∈ tree.subtrees) :
    (ofProblem source problem t.extent).PointsInto source tree :=
  ⟨t, ht, problem.text, rfl, rfl, rfl, rfl⟩

theorem Tree.FailsWithin.pointsInto {result : Except Failure α} {failure : Failure}
    (h : tree.FailsWithin source result) (hf : result = .error failure) :
    failure.PointsInto source tree := by
  obtain ⟨t, ht, problem, -, rfl⟩ := h failure hf
  exact Failure.pointsInto_ofProblem problem ht

theorem Entry.pointsInto_of_meaning (entry : Entry) {failure : Failure}
    (h : entry.meaning source tree = .error failure) : failure.PointsInto source tree := by
  cases entry with
  | expr => exact (tree.failsWithin_toExpr.map _).pointsInto h
  | stmt => exact (tree.failsWithin_toStmt.map _).pointsInto h
  | arguments =>
    have hlist : tree.FailsWithin source (tree.toArguments source) :=
      Tree.failsWithin_toArguments fun t _ => t.failsWithin_toExpr
    exact (hlist.map _).pointsInto h
  | program =>
    rcases Tree.toProgram_cases source tree with hwithin | hempty
    · exact (hwithin.map _).pointsInto h
    · rw [Entry.meaning, hempty] at h
      obtain rfl := Except.error.inj h
      exact Failure.pointsInto_ofProblem _ tree.self_mem_subtrees

theorem Operator.start_of_ofSymbol {symbol : String} {failure : Failure}
    (h : ofSymbol symbol = .error failure) : failure.start = none := by
  rw [ofSymbol] at h
  split at h
  · contradiction
  · obtain rfl := Except.error.inj h
    rfl

/-- Every fault of lowering, wherever it is begun, is a failure placed at a node of the tree below.
The one without a place, that of an operator looked up by its symbol, is not let through. -/
theorem Walk.faults_point_below {entry : Entry} {c : Cursor} {fault : Fault}
    (h : ((entry.walk source).runFrom c).1 = .error fault) :
    ∃ failure, fault = .rejected failure ∧ failure.PointsInto source c.node ∧
      ∀ symbol unplaced, Operator.ofSymbol symbol = .error unplaced → failure ≠ unplaced := by
  rw [(entry.computes source c).fst_eq] at h
  cases hm : entry.meaning source c.node with
  | ok lowered =>
    rw [hm] at h
    contradiction
  | error failure =>
    rw [hm] at h
    obtain rfl := Except.error.inj h
    have hpoints := entry.pointsInto_of_meaning hm
    refine ⟨failure, rfl, hpoints, fun symbol unplaced hs => ?_⟩
    rintro rfl
    obtain ⟨t, -, what, hstart, -⟩ := hpoints
    rw [Operator.start_of_ofSymbol hs] at hstart
    contradiction

def danglingQuotient : Tree :=
  .node (.construct .binary) none
    [.token (.terminal .number) "1" none none, .token (.terminal .slash) "/" (some 1) none]

theorem Walk.danglingQuotient_points_below :
    let source := Source.ofString "1/"
    let statement := Tree.node (.construct .exprStatement) none [danglingQuotient]
    let c := (Cursor.ofRoot statement).down 0 danglingQuotient
    let refused : Failure :=
      { code := .unknownBinaryOp, message := "unknown binary operator at 1 2: '/'"
        start := some 1, stop := some 2 }
    ((Entry.expr.walk source).runFrom c).1 = .error (.rejected refused) ∧
      ∃ failure, Fault.rejected refused = .rejected failure ∧
        failure.PointsInto source c.node ∧
        ∀ symbol unplaced, Operator.ofSymbol symbol = .error unplaced → failure ≠ unplaced := by
  intro source statement c refused
  have hrun : ((Entry.expr.walk source).runFrom c).1.map (fun _ => ()) =
      .error (.rejected refused) := by
    decide +kernel
  have h : ((Entry.expr.walk source).runFrom c).1 = .error (.rejected refused) :=
    map_eq_error_iff.mp hrun
  exact ⟨h, faults_point_below h⟩

end ArithScript
