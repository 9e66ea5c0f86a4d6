import ArithScript.Lowering.Meaning

/-!
What a tree stands for, by its label and its first children: one equation for each construct.
-/
namespace ArithScript

theorem map_eq_error_iff {α β ε : Type} {f : α → β} {x : Except ε α} {e : ε} :
    x.map f = .error e ↔ x = .error e := by
  cases x <;> simp [Except.map]

namespace Tree

variable {source : Source} {tree : Tree}

theorem size_le_sizeAll {trees : List Tree} (h : tree ∈ trees) : tree.size ≤ sizeAll trees := by
  obtain ⟨before, after, rfl⟩ := List.append_of_mem h
  rw [sizeAll_append, sizeAll]
  omega

theorem toNumber_eq_ok_iff {problem : Problem} {e : Expr} :
    tree.toNumber source problem = .ok e ↔
      ∃ value, readNumber (tree.textIn source) = some value ∧
        .number value (some (tree.location source)) = e := by
  unfold toNumber
  cases readNumber (tree.textIn source) <;> simp [reject]

theorem toExpr_number (hk : tree.kind = .terminal .number) :
    tree.toExpr source = tree.toNumber source .badNumber := by
  rw [toExpr, hk]

theorem toExpr_name (hk : tree.kind = .terminal .name) :
    tree.toExpr source = .ok (.ident (tree.textIn source) (tree.location source)) := by
  rw [toExpr, hk]

theorem toExpr_other (hn : tree.kind ≠ .terminal .number) (hi : tree.kind ≠ .terminal .name)
    (hc : tree.kind ≠ .construct .call) (hu : tree.kind ≠ .construct .unary)
    (hb : tree.kind ≠ .construct .binary) :
    tree.toExpr source = tree.reject source (.unsupportedExpr tree.kind) := by
  rw [toExpr]
  split <;> first | contradiction | rfl

theorem toExpr_unsupported (hk : tree.kind = .terminal .string ∨ tree.kind = .construct .paren) :
    tree.toExpr source = tree.reject source (.unsupportedExpr tree.kind) := by
  rcases hk with hk | hk <;>
    exact toExpr_other (by simp [hk]) (by simp [hk]) (by simp [hk]) (by simp [hk]) (by simp [hk])

def callParts (source : Source) (callee : Tree) :
    List Tree → Except Failure (String × List Expr)
  | [] => callee.reject source (.missing .argumentList)
  | list :: _ => (list.toArguments source).map (callee.textIn source, ·)

theorem toExpr_call_nil (hk : tree.kind = .construct .call) (hc : tree.children = []) :
    tree.toExpr source = tree.reject source .noChild := by
  rw [toExpr]
  simp only [hk]
  split <;> simp_all

theorem toExpr_call {callee : Tree} {later : List Tree} (hk : tree.kind = .construct .call)
    (hc : tree.children = callee :: later) :
    tree.toExpr source =
      match callParts source callee later with
      | .error failure => .error failure
      | .ok (name, arguments) =>
        match Expr.ofCall name arguments (tree.location source) with
        | .ok e => .ok e
        | .error problem => tree.reject source problem := by
  rw [toExpr]
  simp only [hk]
  split
  · simp_all
  · rename_i c h
    obtain ⟨rfl, rfl⟩ : c = callee ∧ [] = later := by simp_all
    rfl
  · rename_i c list rest h
    obtain ⟨rfl, rfl⟩ : c = callee ∧ list :: rest = later := by simp_all
    simp only [callParts]
    cases list.toArguments source <;> rfl

theorem toExpr_call_eq_ok_iff {callee list : Tree} {later : List Tree} {e : Expr}
    (hk : tree.kind = .construct .call) (hc : tree.children = callee :: list :: later) :
    tree.toExpr source = .ok e ↔
      ∃ arguments, list.toArguments source = .ok arguments ∧
        Expr.ofCall (callee.textIn source) arguments (tree.location source) = .ok e := by
  rw [toExpr_call hk hc, callParts]
  cases list.toArguments source with
  | error => simp [Except.map]
  | ok arguments =>
    cases hcall : Expr.ofCall (callee.textIn source) arguments (tree.location source) <;>
      simp [Except.map, reject, hcall]

theorem toExpr_unary_nil (hk : tree.kind = .construct .unary) (hc : tree.children = []) :
    tree.toExpr source = tree.reject source .noChild := by
  rw [toExpr]
  simp only [hk, hc]

theorem toExpr_unary {sign : Tree} {later : List Tree} (hk : tree.kind = .construct .unary)
    (hc : tree.children = sign :: later) :
    tree.toExpr source =
      if isSign (sign.textIn source) then tree.toNumber source .signedNonLiteral
      else sign.reject source .unknownSign := by
  rw [toExpr]
  simp only [hk, hc]

def rightSide (source : Source) (left : Tree) : List Tree → Except Failure (Operator × Expr)
  | [] => left.reject source (.missing .binaryOperator)
  | [op] =>
    match op.toOperator source with
    | .error failure => .error failure
    | .ok _ => op.reject source (.missing .rightOperand)
  | op :: right :: _ =>
    match op.toOperator source with
    | .error failure => .error failure
    | .ok operator => (right.toExpr source).map (operator, ·)

theorem toExpr_binary_nil (hk : tree.kind = .construct .binary) (hc : tree.children = []) :
    tree.toExpr source = tree.reject source .noChild := by
  rw [toExpr]
  simp only [hk]
  split <;> simp_all

theorem toExpr_binary {left : Tree} {later : List Tree} (hk : tree.kind = .construct .binary)
    (hc : tree.children = left :: later) :
    tree.toExpr source =
      match left.toExpr source with
      | .error failure => .error failure
      | .ok first =>
        (rightSide source left later).map fun (op, second) =>
          .binary op first second (tree.location source) := by
  rw [toExpr]
  simp only [hk]
  split
  · simp_all
  · rename_i l h
    obtain ⟨rfl, rfl⟩ : l = left ∧ [] = later := by simp_all
    cases l.toExpr source <;> rfl
  · rename_i l op h
    obtain ⟨rfl, rfl⟩ : l = left ∧ [op] = later := by simp_all
    simp only [rightSide]
    cases l.toExpr source <;> cases op.toOperator source <;> rfl
  · rename_i l op right rest h
    obtain ⟨rfl, rfl⟩ : l = left ∧ op :: right :: rest = later := by simp_all
    simp only [rightSide]
    cases l.toExpr source <;> cases op.toOperator source <;> cases right.toExpr source <;> rfl

theorem toExpr_binary_eq_ok_iff {left op right : Tree} {later : List Tree} {e : Expr}
    (hk : tree.kind = .construct .binary) (hc : tree.children = left :: op :: right :: later) :
    tree.toExpr source = .ok e ↔
      ∃ first o second, left.toExpr source = .ok first ∧
        Operator.ofSymbol? (op.textIn source) = some o ∧ right.toExpr source = .ok second ∧
          .binary o first second (tree.location source) = e := by
  rw [toExpr_binary hk hc, rightSide, toOperator]
  cases left.toExpr source with
  | error => simp
  | ok first =>
    cases Operator.ofSymbol? (op.textIn source) with
    | none => simp [reject, Except.map]
    | some o => cases right.toExpr source <;> simp [Except.map]

theorem toArguments_other (hk : tree.kind ≠ .construct .argList) :
    tree.toArguments source = tree.reject source .notArgumentList := by
  rw [toArguments, if_pos hk]

theorem toArguments_nil (hk : tree.kind = .construct .argList) (hc : tree.children = []) :
    tree.toArguments source = tree.reject source .noChild := by
  rw [toArguments, if_neg (not_not_intro hk)]
  split <;> simp_all

theorem toArguments_cons {first : Tree} {rest : List Tree} (hk : tree.kind = .construct .argList)
    (hc : tree.children = first :: rest) :
    tree.toArguments source =
      if first.kind = .terminal .lpar then argumentsOf source rest
      else argumentsOf source (first :: rest) := by
  rw [toArguments, if_neg (not_not_intro hk)]
  split <;> simp_all

theorem argumentsOf_nil : argumentsOf source [] = .ok [] := by rw [argumentsOf]

theorem argumentsOf_rpar {rest : List Tree} (hk : tree.kind = .terminal .rpar) :
    argumentsOf source (tree :: rest) = .ok [] := by
  rw [argumentsOf.eq_def]
  simp only [hk, if_true]

/-- The arguments after one: nothing more, unless a separator other than a closing parenthesis
follows. -/
def laterArguments (source : Source) : List Tree → Except Failure (List Expr)
  | [] => .ok []
  | separator :: later =>
    if separator.kind = .terminal .rpar then .ok [] else argumentsOf source later

theorem argumentsOf_cons {rest : List Tree} (hk : tree.kind ≠ .terminal .rpar) :
    argumentsOf source (tree :: rest) =
      match tree.toExpr source with
      | .error failure => .error failure
      | .ok argument => (laterArguments source rest).map (argument :: ·) := by
  rw [argumentsOf.eq_def]
  simp only [hk, if_false]
  cases tree.toExpr source with
  | error => rfl
  | ok argument =>
    cases rest with
    | nil => rfl
    | cons separator later =>
      simp only [laterArguments]
      split
      · rfl
      · cases argumentsOf source later <;> rfl

def assignedValue (source : Source) (target : Tree) : List Tree → Except Failure Expr
  | [] => target.reject source (.missing .equalsSign)
  | [sign] => sign.reject source (.missing .assignedValue)
  | _ :: value :: _ => value.toExpr source

theorem toStmt_nil (hk : tree.kind = .construct .assignment ∨ tree.kind = .construct .exprStatement)
    (hc : tree.children = []) : tree.toStmt source = tree.reject source .noChild := by
  rcases hk with hk | hk <;> simp only [toStmt, hk, hc]

theorem toStmt_assignment {target : Tree} {later : List Tree}
    (hk : tree.kind = .construct .assignment) (hc : tree.children = target :: later) :
    tree.toStmt source =
      (assignedValue source target later).map
        (.define (target.textIn source) · (tree.location source)) := by
  simp only [toStmt, hk, hc]
  rcases later with _ | ⟨sign, _ | ⟨value, rest⟩⟩ <;> rfl

theorem toStmt_expr {e : Tree} {later : List Tree} (hk : tree.kind = .construct .exprStatement)
    (hc : tree.children = e :: later) :
    tree.toStmt source = (e.toExpr source).map (.expr · (tree.location source)) := by
  simp only [toStmt, hk, hc]
  rfl

theorem toStmt_other (ha : tree.kind ≠ .construct .assignment)
    (he : tree.kind ≠ .construct .exprStatement) :
    tree.toStmt source = tree.reject source (.unsupportedStmt tree.kind) := by
  rw [toStmt]
  split <;> first | contradiction | rfl

theorem toProgram_other (hk : tree.kind ≠ .construct .script) :
    tree.toProgram source = tree.reject source (.unsupportedProgram tree.kind) := by
  rw [toProgram, if_pos hk]

theorem toProgram_nil (hk : tree.kind = .construct .script) (hc : tree.children = []) :
    tree.toProgram source = tree.reject source .emptyProgram := by
  rw [toProgram, if_neg (not_not_intro hk), hc]

theorem toProgram_cons {first : Tree} {rest : List Tree} (hk : tree.kind = .construct .script)
    (hc : tree.children = first :: rest) :
    tree.toProgram source = (first :: rest).mapM (toStmt source) := by
  rw [toProgram, if_neg (not_not_intro hk), hc]

end Tree
end ArithScript
