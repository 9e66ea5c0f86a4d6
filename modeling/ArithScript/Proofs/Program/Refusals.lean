import ArithScript.Proofs.Lowering.Faults
import ArithScript.Proofs.Program.SingleExpression
import ArithScript.Proofs.Program.StatementLines
import ArithScript.Proofs.Rejection

/-!
Why a text is refused. It has no tree, or a node of its tree is one that programs do not have, or it
is a script without statements. Whatever else the lowering guards against never happens to the tree
of a text.
-/
namespace ArithScript

def Token.Blank (tokens : List Token) : Prop :=
  tokens.length ≤ 1 ∧ ∀ token ∈ tokens, token.terminal = .newline

/-- Nothing but ignored text, and line breaks at most once. -/
def Source.Blank (source : Source) : Prop :=
  ∃ tokens, Token.scan .script source.chars.toList = some tokens ∧ Token.Blank tokens

/-- The outcome of reading a text as the start symbol says is a fault. -/
inductive Refused (source : Source) : StartSymbol → Fault → Prop
  | program {fault : Fault} (h : Program.read source = .error fault) : Refused source .script fault
  | expr {fault : Fault} (h : Expr.read source = .error fault) : Refused source .expr fault

/-- What the failure to read a text comes from. -/
inductive Cause (source : Source) (start : StartSymbol) (failure : Failure) : Prop
  | unread (h : Tree.read start source = .error failure)
  | node {tree : Tree} (h : Tree.read start source = .ok tree) (hr : tree.Reports source failure)
  | empty {tokens : List Token} (hs : start = .script)
      (hscan : Token.scan .script source.chars.toList = some tokens) (hb : Token.Blank tokens)
      (hf : failure = .ofProblem source .emptyProgram ((Token.extent? tokens).getD ⟨0, 0⟩))

/-- The failure is reported at the extent. -/
def Failure.At (failure : Failure) (extent : Extent) : Prop :=
  failure.start = some extent.start ∧ failure.stop = some extent.stop

variable {source : Source} {start : StartSymbol} {fault : Fault} {failure : Failure}

namespace ScriptParts
variable {parts : ScriptParts}

theorem blank_of_nil (h : parts.Lined) (hnil : parts.statements = []) :
    Token.Blank parts.tokens := by
  obtain ⟨leading, lines, last⟩ := parts
  obtain ⟨hlines, hlast⟩ := List.append_eq_nil_iff.mp hnil
  obtain rfl := List.map_eq_nil_iff.mp hlines
  obtain rfl := Option.toList_eq_nil_iff.mp hlast
  constructor
  · cases leading <;> simp [ScriptParts.tokens]
  · simpa [ScriptParts.tokens] using h.leading

theorem exists_of_blank {tokens : List Token} (h : Token.Blank tokens) :
    ∃ parts : ScriptParts, parts.Lined ∧ parts.tokens = tokens ∧ parts.statements = [] := by
  obtain ⟨hlength, hnewline⟩ := h
  refine ⟨⟨tokens.head?, [], none⟩, ⟨?_, by simp, by simp [statements]⟩, ?_, rfl⟩
  · intro token ht
    exact hnewline token (List.mem_of_mem_head? ht)
  · rcases tokens with _ | ⟨token, _ | ⟨second, more⟩⟩
    · rfl
    · rfl
    · simp at hlength

end ScriptParts

theorem Walk.over_eq_error {α : Type} {walk : Walk α} {result : Tree → Except Failure α}
    (hw : ∀ c, Walk.Computes walk c (result c.node)) (h : Walk.over start source walk = .error fault) :
    ∃ failure, fault = .rejected failure ∧
      (Tree.read start source = .error failure ∨
        ∃ tree, Tree.read start source = .ok tree ∧ result tree = .error failure) := by
  cases htree : Tree.read start source with
  | error failure =>
    rw [Walk.over, htree] at h
    exact ⟨failure, (Except.error.inj h).symm, .inl rfl⟩
  | ok tree =>
    rw [Walk.over_of_tree hw htree] at h
    cases hresult : result tree with
    | error failure =>
      rw [hresult] at h
      exact ⟨failure, (Except.error.inj h).symm, .inr ⟨tree, rfl, hresult⟩⟩
    | ok a =>
      rw [hresult] at h
      contradiction

theorem Refused.exists_cause (h : Refused source start fault) :
    ∃ failure, fault = .rejected failure ∧ Cause source start failure := by
  cases h with
  | program h =>
    obtain ⟨failure, rfl, hread | ⟨tree, htree, hresult⟩⟩ :=
      Walk.over_eq_error (Walk.program_computes source) h
    · exact ⟨failure, rfl, .unread hread⟩
    · obtain ⟨parts, hp, hscan, rfl⟩ := Tree.read_script_iff.mp htree
      rcases hp.reports (laidOut_of_scan hscan) hresult with ⟨hnil, hf⟩ | ⟨-, hr⟩
      · rw [Tree.extent_script hp] at hf
        exact ⟨failure, rfl, .empty rfl hscan (ScriptParts.blank_of_nil hp hnil) hf⟩
      · exact ⟨failure, rfl, .node htree hr⟩
  | expr h =>
    obtain ⟨failure, rfl, hread | ⟨tree, htree, hresult⟩⟩ :=
      Walk.over_eq_error (Walk.expr_computes source) h
    · exact ⟨failure, rfl, .unread hread⟩
    · obtain ⟨tokens, hscan, hshape⟩ := Tree.read_expr_iff.mp htree
      have hr := hshape.explained (laidOut_of_scan hscan) failure hresult
      exact ⟨failure, rfl, .node htree hr⟩

theorem Refused.cause (h : Refused source start (.rejected failure)) :
    Cause source start failure := by
  obtain ⟨_, ⟨⟩, hcause⟩ := h.exists_cause
  exact hcause

theorem Tree.code_of_unread (h : Tree.read start source = .error failure) :
    failure.code = .badSyntax := by
  obtain ⟨refusal, -, rfl, -⟩ := exists_refusal h
  rfl

theorem callProblem_code (callee : String) (arguments : Nat) :
    (callProblem callee arguments).code = .unknownCall ∨
      (callProblem callee arguments).code = .callArity := by
  rw [callProblem]
  split
  · exact .inl rfl
  · exact .inr rfl

namespace Tree.Faulty
variable {tree : Tree} {problem : Problem} {extent : Extent}

theorem code (h : tree.Faulty source problem extent) :
    problem.code ∈ [.unsupportedExpr, .unknownBinaryOp, .unknownUnaryOp, .unaryNotLiteral,
      .unknownCall, .callArity] := by
  cases h with
  | @call callee list =>
    rcases callProblem_code (callee.textIn source) list.arguments.length with hc | hc <;> simp [hc]
  | _ => simp [Problem.code]

theorem excluded_of_code (h : tree.Faulty source problem extent)
    (hc : problem.code = .unsupportedExpr) :
    (tree.kind = .construct .paren ∨ tree.kind = .terminal .string) ∧ extent = tree.extent := by
  cases h with
  | excluded hk => exact ⟨hk.symm, rfl⟩
  | @call callee list =>
    rcases callProblem_code (callee.textIn source) list.arguments.length with h | h <;>
      exact absurd (h.symm.trans hc) (by decide)
  | _ => contradiction

theorem operator_of_code (h : tree.Faulty source problem extent)
    (hc : problem.code = .unknownBinaryOp) :
    ∃ op ∈ tree.children, op.kind ∈ [.terminal .slash, .terminal .percent, .terminal .compOp] ∧
      extent = op.extent := by
  cases h with
  | @operator left op right hk hchildren ho => exact ⟨op, by simp [hchildren], ho, rfl⟩
  | @call callee list =>
    rcases callProblem_code (callee.textIn source) list.arguments.length with h | h <;>
      exact absurd (h.symm.trans hc) (by decide)
  | _ => contradiction

end Tree.Faulty

namespace Cause

theorem code (h : Cause source start failure) :
    failure.code ∈ [.badSyntax, .emptyProgram, .unsupportedExpr, .unknownBinaryOp, .unknownUnaryOp,
      .unaryNotLiteral, .unknownCall, .callArity] := by
  cases h with
  | unread h => simp [Tree.code_of_unread h]
  | node h hr =>
    obtain ⟨t, -, -, problem, extent, hfaulty, rfl⟩ := hr
    exact List.mem_cons_of_mem _ (List.mem_cons_of_mem _ hfaulty.code)
  | empty hs hscan hb hf => simp [hf, Failure.ofProblem, Problem.code]

theorem exists_faulty (h : Cause source start failure) (hs : failure.code ≠ .badSyntax)
    (he : failure.code ≠ .emptyProgram) :
    ∃ tree, Tree.read start source = .ok tree ∧ ∃ t ∈ tree.subtrees, ¬t.Supported ∧
      ∃ problem extent, t.Faulty source problem extent ∧ failure.code = problem.code ∧
        failure.At extent := by
  cases h with
  | unread h => exact absurd (Tree.code_of_unread h) hs
  | @node tree h hr =>
    obtain ⟨t, ht, hunsupported, problem, extent, hfaulty, rfl⟩ := hr
    exact ⟨tree, h, t, ht, hunsupported, problem, extent, hfaulty, rfl, rfl, rfl⟩
  | empty hscan hb hstart hf =>
    subst hf
    exact absurd rfl he

theorem blank_of_code (h : Cause source start failure) (hc : failure.code = .emptyProgram) :
    start = .script ∧ source.Blank := by
  cases h with
  | unread h =>
    rw [Tree.code_of_unread h] at hc
    contradiction
  | node h hr =>
    obtain ⟨t, -, -, problem, extent, hfaulty, rfl⟩ := hr
    have hmem := hfaulty.code
    rw [show problem.code = .emptyProgram from hc] at hmem
    simp at hmem
  | empty hs hscan hb hf => exact ⟨hs, _, hscan, hb⟩

end Cause

theorem Program.read_empty_iff_blank :
    (∃ failure, Program.read source = .error (.rejected failure) ∧ failure.code = .emptyProgram) ↔
      source.Blank := by
  constructor
  · rintro ⟨failure, hread, hcode⟩
    exact ((Refused.program hread).cause.blank_of_code hcode).2
  · rintro ⟨tokens, hscan, hb⟩
    obtain ⟨parts, hp, rfl, hnil⟩ := ScriptParts.exists_of_blank hb
    have hread := Tree.read_script_iff.mpr ⟨parts, hp, hscan, rfl⟩
    rw [Program.read_of_tree hread, ScriptParts.toProgram_of_nil hnil]
    exact ⟨_, rfl, rfl⟩

theorem Token.exists_readNumber {offered : Terminal → Bool} {text : List Char} {offset n : Nat}
    (h : Lexeme.first? offered (text.drop offset) = some (.number, n)) :
    ∃ value, readNumber (ofPrefix .number offset n (text.drop offset)).text = some value := by
  obtain ⟨m, rfl⟩ := Nat.exists_eq_succ_of_ne_zero (Lexeme.first?_eq_some_iff.mp h).2.2.1
  exact (standsIn_ofPrefix h).exists_readNumber rfl

/-- The grammar and the lowering agree. A text is refused for its syntax, as a program without
statements or for a node that programs do not have, and never because the lowering meets a tree, a
statement or a number that it does not know. Only a blank text is an empty program; what is
unsupported is a string or in parentheses; an unknown operator is one of the grammar; and wherever a
number is found in the text, it can be read. -/
theorem Refused.accounted (source : Source) :
    (∀ start fault, Refused source start fault → ∃ failure, fault = .rejected failure ∧
      failure.code ∉ [.malformed, .badNumber, .unsupportedStmt, .unsupportedProgram] ∧
      (failure.code = .emptyProgram → start = .script) ∧
      (failure.code = .unsupportedExpr → ∃ tree, Tree.read start source = .ok tree ∧
        ∃ t ∈ tree.subtrees, (t.kind = .construct .paren ∨ t.kind = .terminal .string) ∧
          failure.At t.extent) ∧
      (failure.code = .unknownBinaryOp → ∃ tree, Tree.read start source = .ok tree ∧
        ∃ t ∈ tree.subtrees,
          t.kind ∈ [.terminal .slash, .terminal .percent, .terminal .compOp] ∧
          failure.At t.extent)) ∧
    ((∃ failure, Program.read source = .error (.rejected failure) ∧
      failure.code = .emptyProgram) ↔ source.Blank) ∧
    ∀ offered offset n,
      Lexeme.first? offered (source.chars.toList.drop offset) = some (.number, n) →
        ∃ value, readNumber
          (Token.ofPrefix .number offset n (source.chars.toList.drop offset)).text = some value := by
  refine ⟨fun start fault h => ?_, Program.read_empty_iff_blank, fun offered offset n h =>
    Token.exists_readNumber h⟩
  obtain ⟨failure, rfl, hcause⟩ := h.exists_cause
  refine ⟨failure, rfl, ?_, fun hc => (hcause.blank_of_code hc).1, fun hc => ?_, fun hc => ?_⟩
  · have hcode := hcause.code
    intro hmem
    simp only [List.mem_cons, List.not_mem_nil, or_false] at hcode hmem
    rcases hmem with h | h | h | h <;> simp [h] at hcode
  · obtain ⟨tree, htree, t, ht, -, problem, extent, hfaulty, hproblem, hat⟩ :=
      hcause.exists_faulty (by simp [hc]) (by simp [hc])
    obtain ⟨hk, rfl⟩ := hfaulty.excluded_of_code (hproblem.symm.trans hc)
    exact ⟨tree, htree, t, ht, hk, hat⟩
  · obtain ⟨tree, htree, t, ht, -, problem, extent, hfaulty, hproblem, hat⟩ :=
      hcause.exists_faulty (by simp [hc]) (by simp [hc])
    obtain ⟨op, hop, hk, rfl⟩ := hfaulty.operator_of_code (hproblem.symm.trans hc)
    exact ⟨tree, htree, op, Tree.mem_subtrees_of_mem_children ht hop, hk, hat⟩

end ArithScript
