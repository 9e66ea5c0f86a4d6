import Mathlib.Data.List.Infix
import ArithScript.Proofs.Grammar.Lossless
import ArithScript.Proofs.Lowering.Supported

/-!
What is reported of a tree that was read from a text and stands for nothing. The failure is that of
one node in it, and the node tells what is wrong and where.
-/
namespace ArithScript

variable {source : Source} {text : List Char} {offset : Nat} {tokens more : List Token}
  {tree : Tree} {failure : Failure}

/-- The extent is not empty, and it lies in a text of the given length. -/
def Extent.Within (length : Nat) (extent : Extent) : Prop :=
  ∃ start stop : Nat, start < stop ∧ stop ≤ length ∧ extent = ⟨start, stop⟩

/-- The tree covers some consecutive tokens, from the first to the last of them. -/
def Tree.Spans (tokens : List Token) (tree : Tree) : Prop :=
  ∃ part, part <:+: tokens ∧ Token.extent? part = some tree.extent

namespace Tree

theorem Spans.mono (h : tree.Spans tokens) (hm : tokens <:+: more) : tree.Spans more := by
  obtain ⟨part, hpart, hextent⟩ := h
  exact ⟨part, hpart.trans hm, hextent⟩

theorem Spans.within (h : tree.Spans tokens) (hl : LaidOut text offset tokens) :
    tree.extent.Within text.length := by
  obtain ⟨part, hpart, hextent⟩ := h
  obtain ⟨o, ho⟩ := hl.of_within hpart
  obtain ⟨start, -, hlt, hle, -, -, heq⟩ := ho.exists_start hextent
  exact ⟨start, stopOf start part, hlt, hle, heq⟩

theorem spans_spanning {construct : Construct} {children : List Tree} (hne : tokens ≠ [])
    (h : ∀ child ∈ children, ∀ t ∈ child.subtrees, t.Spans tokens) :
    ∀ t ∈ (spanning construct tokens children).subtrees, t.Spans tokens := by
  obtain ⟨token, rest, rfl⟩ := List.exists_cons_of_ne_nil hne
  refine (forall_subtrees _).mpr ⟨⟨_, List.infix_refl _, ?_⟩, h⟩
  rw [spanning, extent?_cons, extent]

theorem spans_ofToken {token : Token} (h : token ∈ tokens) :
    ∀ t ∈ (ofToken token).subtrees, t.Spans tokens :=
  (forall_subtrees_ofToken token).mpr ⟨[token], (List.singleton_infix_iff ..).mpr h, rfl⟩

end Tree

open ArithScript.Tree

theorem Shaped.spans {n : Tier} (h : Shaped n tokens tree) :
    ∀ t ∈ tree.subtrees, t.Spans tokens := by
  induction h with
  | operand => exact spans_ofToken (by simp)
  | @paren _ left right ts _ hl hr inner ih =>
    apply spans_spanning (by simp)
    rw [List.forall_mem_cons, List.forall_mem_cons, List.forall_mem_singleton]
    refine ⟨spans_ofToken (by simp), fun t ht => ?_,
      spans_ofToken (by simp)⟩
    exact (ih t ht).mono ⟨[left], [right], by simp⟩
  | @call _ ts _ list hn function hp arguments ih iha =>
    have hlist : list.tokens <:+: ts ++ list.tokens := (List.suffix_append ..).isInfix
    apply spans_spanning (by simp [list.tokens_ne_nil])
    rw [List.forall_mem_cons, List.forall_mem_singleton]
    refine ⟨fun t ht => (ih t ht).mono (List.prefix_append ..).isInfix, fun t ht => ?_⟩
    refine Spans.mono (spans_spanning list.tokens_ne_nil (fun child hc => ?_) t ht) hlist
    rcases ArgumentList.mem_children hc with ⟨token, hmem, rfl⟩ | ⟨p, hmem, rfl⟩
    · exact spans_ofToken hmem
    · exact fun u hu => (iha p hmem u hu).mono (ArgumentList.tokens_within hmem)
  | signed hn hs inner ih =>
    apply spans_spanning (by simp)
    rw [List.forall_mem_cons, List.forall_mem_singleton]
    refine ⟨spans_ofToken (by simp), fun t ht => ?_⟩
    exact (ih t ht).mono (List.suffix_cons ..).isInfix
  | @infixed _ _ op ts ts' _ _ hn ho left right ihl ihr =>
    apply spans_spanning (by simp)
    rw [List.forall_mem_cons, List.forall_mem_cons, List.forall_mem_singleton]
    refine ⟨fun t ht => (ihl t ht).mono (List.prefix_append ..).isInfix,
      spans_ofToken (by simp), fun t ht => ?_⟩
    exact (ihr t ht).mono ((List.suffix_cons ..).trans (List.suffix_append ..)).isInfix

theorem ShapedStatement.spans (h : ShapedStatement tokens tree) :
    ∀ t ∈ tree.subtrees, t.Spans tokens := by
  cases h with
  | @assignment name sign ts _ hn hs value =>
    apply spans_spanning (by simp)
    rw [List.forall_mem_cons, List.forall_mem_cons, List.forall_mem_singleton]
    refine ⟨spans_ofToken (by simp),
      spans_ofToken (by simp), fun t ht => ?_⟩
    exact (value.spans t ht).mono ⟨[name, sign], [], by simp⟩
  | expr value =>
    apply spans_spanning value.tokens_ne_nil
    rw [List.forall_mem_singleton]
    exact value.spans

def callProblem (callee : String) (arguments : Nat) : Problem :=
  if arguments = 1 ∨ arguments = 2 then .unknownCall callee arguments
  else .callArity arguments callee

/-- What is wrong with a node, and where. -/
inductive Tree.Faulty (source : Source) (tree : Tree) : Problem → Extent → Prop
  | excluded (hk : tree.kind = .terminal .string ∨ tree.kind = .construct .paren) :
      Faulty source tree (.unsupportedExpr tree.kind) tree.extent
  | operator {left op right : Tree} (hk : tree.kind = .construct .binary)
      (hc : tree.children = [left, op, right])
      (ho : op.kind ∈ [.terminal .slash, .terminal .percent, .terminal .compOp]) :
      Faulty source tree .unknownOperator op.extent
  | sign {sign inner : Tree} (hk : tree.kind = .construct .unary)
      (hc : tree.children = [sign, inner]) (hs : sign.kind = .terminal .tilde) :
      Faulty source tree .unknownSign sign.extent
  | signed {sign inner : Tree} (hk : tree.kind = .construct .unary)
      (hc : tree.children = [sign, inner])
      (hs : sign.kind ∈ [.terminal .plus, .terminal .minus])
      (hn : inner.kind ≠ .terminal .number ∨ inner.extent.start ≠ sign.extent.stop) :
      Faulty source tree .signedNonLiteral tree.extent
  | call {callee list : Tree} (hk : tree.kind = .construct .call)
      (hc : tree.children = [callee, list]) :
      Faulty source tree (callProblem (callee.textIn source) list.arguments.length) tree.extent

/-- The failure is that of a node somewhere in the tree that programs do not have. -/
def Tree.Reports (source : Source) (tree : Tree) (failure : Failure) : Prop :=
  ∃ t ∈ tree.subtrees, ¬t.Supported ∧ ∃ problem extent, t.Faulty source problem extent ∧
    failure = .ofProblem source problem extent

namespace Tree

theorem Reports.of_faulty {problem : Problem} {extent : Extent} (hs : ¬tree.Supported)
    (h : tree.Faulty source problem extent) :
    tree.Reports source (.ofProblem source problem extent) :=
  ⟨tree, tree.self_mem_subtrees, hs, problem, extent, h, rfl⟩

theorem Faulty.not_supported {problem : Problem} {extent : Extent}
    (h : tree.Faulty source problem extent) (hk : tree.kind ≠ .construct .call) :
    ¬tree.Supported := by
  cases h with
  | excluded hexcluded => rcases hexcluded with hexcluded | hexcluded <;> simp [Supported, hexcluded]
  | operator hbinary hc ho =>
    rw [supported_binary hbinary hc]
    intro hs
    simp only [List.mem_cons, List.not_mem_nil, or_false] at ho
    rcases ho with ho | ho | ho <;> simp [ho] at hs
  | sign hunary hc hs => simp [supported_unary hunary hc, hs]
  | signed hunary hc hs hn =>
    rw [supported_unary hunary hc, not_and, not_and_or]
    exact fun _ => hn
  | call hcall => exact absurd hcall hk

theorem Reports.of_child {child : Tree} (h : child.Reports source failure)
    (hc : child ∈ tree.children) : tree.Reports source failure := by
  obtain ⟨t, ht, hrest⟩ := h
  exact ⟨t, mem_subtrees_of_child hc ht, hrest⟩

/-- Whenever the tree stands for nothing, the failure is that of a node in it. -/
def Explained (source : Source) (tree : Tree) : Prop :=
  ∀ failure, tree.toExpr source = .error failure → tree.Reports source failure

theorem Explained.of_ok {e : Expr} (h : tree.toExpr source = .ok e) : tree.Explained source := by
  intro failure hf
  rw [h] at hf
  contradiction

theorem explained_excluded (hk : tree.kind = .terminal .string ∨ tree.kind = .construct .paren) :
    tree.Explained source := by
  intro failure hf
  rw [toExpr_unsupported hk] at hf
  obtain rfl := Except.error.inj hf
  have hfaulty : tree.Faulty source _ _ := .excluded hk
  refine .of_faulty (hfaulty.not_supported ?_) hfaulty
  rcases hk with hk | hk <;> simp [hk]

end Tree

theorem exists_of_mapM_eq_error {α β ε : Type} {f : α → Except ε β} {xs : List α} {e : ε}
    (h : xs.mapM f = .error e) : ∃ x ∈ xs, f x = .error e := by
  induction xs with
  | nil => contradiction
  | cons x xs ih =>
    rw [List.mapM_cons] at h
    cases hx : f x with
    | error e' =>
      rw [hx] at h
      obtain rfl := Except.error.inj h
      exact ⟨x, List.mem_cons_self, hx⟩
    | ok y =>
      cases hxs : xs.mapM f with
      | error e' =>
        rw [hx, hxs] at h
        obtain rfl := Except.error.inj h
        obtain ⟨x', hmem, hx'⟩ := ih hxs
        exact ⟨x', List.mem_cons_of_mem _ hmem, hx'⟩
      | ok ys =>
        rw [hx, hxs] at h
        contradiction

theorem Expr.ofCall_eq_error {callee : String} {arguments : List Expr} {loc : Span}
    {problem : Problem} (h : Expr.ofCall callee arguments loc = .error problem) :
    problem = callProblem callee arguments.length := by
  rcases arguments with _ | ⟨x, _ | ⟨y, _ | ⟨z, rest⟩⟩⟩
  · cases h
    rfl
  · rw [Expr.ofCall] at h
    split at h <;> cases h
    rfl
  · rw [Expr.ofCall] at h
    split at h <;> cases h
    rfl
  · cases h
    rfl

theorem Expr.exists_ofCall {callee : String} {arguments : List Expr} {loc : Span}
    (h : callee ∈ ["print", "abs"] ∧ arguments.length = 1 ∨
      callee ∈ ["max", "min", "pow"] ∧ arguments.length = 2) :
    ∃ e, Expr.ofCall callee arguments loc = .ok e := by
  rcases h with ⟨hmem, hone⟩ | ⟨hmem, htwo⟩
  · obtain ⟨f, hf⟩ := UnaryBuiltin.exists_ofName?_iff.mpr hmem
    obtain ⟨x, rfl⟩ := List.length_eq_one_iff.mp hone
    exact ⟨_, Expr.ofCall_eq_ok_iff.mpr (.inl ⟨f, x, rfl, hf, rfl⟩)⟩
  · obtain ⟨f, hf⟩ := BinaryBuiltin.exists_ofName?_iff.mpr hmem
    obtain ⟨x, y, rfl⟩ := List.length_eq_two.mp htwo
    exact ⟨_, Expr.ofCall_eq_ok_iff.mpr (.inr ⟨f, x, y, rfl, hf, rfl⟩)⟩

namespace Tree

theorem explained_infixed {left right : Tree} {op : Token} {m : Tier} {ts : List Token}
    (ho : op.terminal ∈ m.operators) (hop : op.StandsIn source.chars.toList)
    (hleft : left.Explained source) (hright : right.Explained source) :
    (spanning .binary ts [left, .ofToken op, right]).Explained source := by
  have hc : (spanning .binary ts [left, .ofToken op, right]).children =
      [left, .ofToken op, right] := rfl
  have hsymbol := hop.ofSymbol?_text ho
  intro failure hf
  rw [toExpr_binary rfl hc, rightSide, toOperator, textIn_ofToken hop, hsymbol] at hf
  cases hl : left.toExpr source with
  | error f =>
    rw [hl] at hf
    obtain rfl := Except.error.inj hf
    exact (hleft f hl).of_child (by simp [hc])
  | ok first =>
    rw [hl] at hf
    cases hterm : op.terminal.operator? with
    | some o =>
      rw [hterm] at hf
      simp only [map_eq_error_iff] at hf
      exact (hright failure hf).of_child (by simp [hc])
    | none =>
      rw [hterm] at hf
      obtain rfl := Except.error.inj hf
      have hkind : (ofToken op).kind ∈
          [.terminal .slash, .terminal .percent, .terminal .compOp] := by
        rw [kind_ofToken]
        revert ho hterm
        cases m <;> cases op.terminal <;> decide
      have hfaulty : Faulty source (spanning .binary ts [left, .ofToken op, right]) _ _ :=
        .operator rfl hc hkind
      exact .of_faulty (hfaulty.not_supported (by simp [spanning, kind])) hfaulty

theorem explained_signed {sign : Token} {inner : Tree}
    (hs : sign.terminal ∈ [.plus, .minus, .tilde]) (h : Shaped .factor tokens inner)
    (hl : LaidOut source.chars.toList offset (sign :: tokens)) :
    (spanning .unary (sign :: tokens) [.ofToken sign, inner]).Explained source := by
  obtain ⟨token, ts, rfl⟩ := List.exists_cons_of_ne_nil h.tokens_ne_nil
  have hc : (spanning .unary (sign :: token :: ts) [.ofToken sign, inner]).children =
      [.ofToken sign, inner] := rfl
  have htext := (Shaped.signed (Nat.le_refl _) hs h).textIn_eq hl
  have hsign := hl.2.1.isSign_text hs
  intro failure hf
  rw [toExpr_unary rfl hc, textIn_ofToken hl.2.1] at hf
  by_cases hst : sign.terminal ∈ [.plus, .minus]
  · rw [if_pos (hsign.mpr hst), toNumber, htext] at hf
    split at hf
    · contradiction
    · rename_i hnone
      obtain rfl := Except.error.inj hf
      have hread := readNumber_signed_iff (hsign.mpr hst) hl
      rw [hnone, Option.isSome_none, Bool.false_eq_true, false_iff] at hread
      have hsupported := mt (Mirrored.supported_signed_iff hst h).mp hread
      have hkind : (ofToken sign).kind ∈ [.terminal .plus, .terminal .minus] := by
        simpa [kind_ofToken] using hst
      refine .of_faulty hsupported (.signed rfl hc hkind ?_)
      rwa [supported_unary rfl hc, and_iff_right hkind, not_and_or] at hsupported
  · rw [if_neg (mt hsign.mp hst)] at hf
    obtain rfl := Except.error.inj hf
    have htilde : sign.terminal = .tilde := by
      revert hs hst
      cases sign.terminal <;> decide
    have hfaulty : Faulty source (spanning .unary (sign :: token :: ts) [.ofToken sign, inner]) _ _ :=
      .sign rfl hc (congrArg _ htilde)
    exact .of_faulty (hfaulty.not_supported (by simp [spanning, kind])) hfaulty

theorem explained_call {callee : Tree} {list : ArgumentList} {ts : List Token}
    (hf : Shaped .call tokens callee) (hl : LaidOut source.chars.toList offset tokens)
    (hp : list.Punctuated) (hs : ∀ p ∈ list.pieces, Shaped .expr p.tokens p.tree)
    (he : ∀ p ∈ list.pieces, p.tree.Explained source) :
    (spanning .call ts [callee, list.tree]).Explained source := by
  have hc : (spanning .call ts [callee, list.tree]).children = [callee, list.tree] := rfl
  have hlist := list.arguments_tree hp hs
  intro failure hfailure
  rw [toExpr_call rfl hc, callParts, ArgumentList.toArguments_tree hp hs] at hfailure
  cases hargs : (list.pieces.map Piece.tree).mapM (toExpr source) with
  | error f =>
    rw [hargs] at hfailure
    obtain rfl := Except.error.inj hfailure
    obtain ⟨t, ht, hft⟩ := exists_of_mapM_eq_error hargs
    rw [← hlist] at ht
    obtain ⟨p, hmem, rfl⟩ := List.mem_map.mp (hlist ▸ ht)
    exact ((he p hmem f hft).of_child (mem_children_of_mem_arguments ht)).of_child (by simp [hc])
  | ok arguments =>
    rw [hargs] at hfailure
    simp only [Except.map] at hfailure
    have hlength : list.tree.arguments.length = arguments.length := by
      rw [hlist]
      exact (mapM_eq_ok_iff_forall₂.mp hargs).length_eq
    split at hfailure
    · contradiction
    · rename_i problem hcall
      obtain rfl := Except.error.inj hfailure
      obtain rfl := Expr.ofCall_eq_error hcall
      rw [← hlength]
      refine .of_faulty ?_ (.call rfl hc)
      rw [supported_call rfl hc]
      rintro ⟨hname, hcount⟩
      rw [← hf.textIn_eq_spelling hl hname, hlength] at hcount
      obtain ⟨e, he⟩ := Expr.exists_ofCall hcount
      rw [he] at hcall
      contradiction

end Tree

/-- What is wrong with an expression that was read from a text is wrong with a node in it. -/
theorem Shaped.explained {n : Tier} (h : Shaped n tokens tree)
    (hl : LaidOut source.chars.toList offset tokens) : tree.Explained source := by
  induction h generalizing offset with
  | @operand _ token ht =>
    simp only [List.mem_cons, List.not_mem_nil, or_false] at ht
    rcases ht with ht | ht | ht
    · obtain ⟨value, hvalue⟩ := hl.2.1.exists_readNumber ht
      apply Explained.of_ok
      rw [toExpr_number (congrArg _ ht), toNumber, textIn_ofToken hl.2.1, hvalue]
    · exact .of_ok (toExpr_name (congrArg _ ht))
    · exact explained_excluded (.inl (congrArg _ ht))
  | paren => exact explained_excluded (.inr rfl)
  | call hn function hp arguments ih iha =>
    have hsplit := laidOut_append.mp hl
    refine explained_call function hsplit.1 hp arguments fun p hmem => ?_
    obtain ⟨o, ho⟩ := hsplit.2.of_within (ArgumentList.tokens_within hmem)
    exact iha p hmem ho
  | signed hn hs inner ih => exact explained_signed hs inner hl
  | infixed hn ho left right ihl ihr =>
    have hsplit := laidOut_append.mp hl
    exact explained_infixed ho hsplit.2.2.1 (ihl hsplit.1) (ihr hsplit.2.2.2)

theorem ShapedStatement.reports (h : ShapedStatement tokens tree)
    (hl : LaidOut source.chars.toList offset tokens) (hf : tree.toStmt source = .error failure) :
    tree.Reports source failure := by
  cases h with
  | assignment hn hs value =>
    rw [toStmt_assignment rfl (children_spanning ..), map_eq_error_iff] at hf
    exact (value.explained hl.2.2.2.2 failure hf).of_child (by simp [children_spanning])
  | expr value =>
    rw [toStmt_expr rfl (children_spanning ..), map_eq_error_iff] at hf
    exact (value.explained hl failure hf).of_child (by simp [children_spanning])

theorem ScriptParts.Lined.reports {parts : ScriptParts} (h : parts.Lined)
    (hl : LaidOut source.chars.toList offset parts.tokens)
    (hf : parts.tree.toProgram source = .error failure) :
    (parts.statements = [] ∧ failure = .ofProblem source .emptyProgram parts.tree.extent) ∨
      parts.statements ≠ [] ∧ parts.tree.Reports source failure := by
  have hchildren : parts.tree.children = parts.statements.map Piece.tree := rfl
  by_cases hnil : parts.statements = []
  · rw [toProgram_nil rfl (by rw [hchildren, hnil, List.map_nil])] at hf
    exact .inl ⟨hnil, (Except.error.inj hf).symm⟩
  · obtain ⟨q, later, hstatements⟩ := List.exists_cons_of_ne_nil hnil
    rw [hstatements, List.map_cons] at hchildren
    rw [toProgram_cons rfl hchildren] at hf
    obtain ⟨t, ht, hft⟩ := exists_of_mapM_eq_error hf
    rw [← hchildren] at ht
    obtain ⟨p, hmem, rfl⟩ := List.mem_map.mp ht
    obtain ⟨o, ho⟩ := hl.of_within (ScriptParts.tokens_within hmem)
    exact .inr ⟨hnil, ((h.statements p hmem).reports ho hft).of_child ht⟩

end ArithScript
