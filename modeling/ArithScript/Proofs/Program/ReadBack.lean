import ArithScript.Proofs.Program.Lines

/-! Printing a program and reading it again: what is read equals what was printed, unless there are
binary expressions, whose parentheses are refused. -/
namespace ArithScript

theorem code_of_readNumber {text : String} {x : Binary64} (h : readNumber text = some x) :
    x.code ≤ Binary64.infinityCode := by
  unfold readNumber at h
  simp only at h
  split at h
  · obtain rfl := Option.some.inj h
    rw [Decimal.code_nearest]
    exact Binary64.nearestCode_le _ _
  · contradiction

theorem isFinite_of_readNumber {text : String} {x : Binary64} (h : readNumber text = some x)
    (hx : x.isInfinite = false) : x.isFinite = true := by
  have hle := code_of_readNumber h
  have hne : x.code ≠ Binary64.infinityCode := of_decide_eq_false hx
  exact decide_eq_true (by omega)

theorem Token.StandsIn.isName {text : List Char} {token : Token} (h : token.StandsIn text)
    (ht : token.terminal = .name) : ArithScript.isName token.text = true := by
  obtain ⟨c, rest, hd, -⟩ := h.exists_cons
  have hlt := h.lt
  have hlex := h.lexeme
  rw [ht, Lexeme.ofTerminal, hd, Lexeme.name] at hlex
  split at hlex
  · rename_i hc
    have hlen : token.stop - token.start = (rest.takeWhile Lexeme.isNamePart).length + 1 := by omega
    have htake : rest.take (rest.takeWhile Lexeme.isNamePart).length =
        rest.takeWhile Lexeme.isNamePart :=
      (List.prefix_iff_eq_take.mp (List.takeWhile_prefix _)).symm
    have hchars := h.toList_text
    rw [hd, hlen, List.take_succ_cons, htake] at hchars
    unfold ArithScript.isName
    rw [hchars]
    simp [hc, List.all_takeWhile]
  · omega

variable {source : Source} {offset : Nat} {tokens : List Token} {tree : Tree}

/-- What holds of the names and numbers of a text, and of calls and binary expressions if it holds of
their parts, holds of every expression that was read from the text. -/
theorem Shaped.induct {motive : Expr → Prop} {n : Tier} {e : Expr}
    (number : ∀ span value, readNumber (span.text source) = some value →
      motive (.number value (some span)))
    (ident : ∀ name loc, ArithScript.isName name = true → motive (.ident name loc))
    (call1 : ∀ f x loc, motive x → motive (.call1 f x loc))
    (call2 : ∀ f x y loc, motive x → motive y → motive (.call2 f x y loc))
    (binary : ∀ op x y loc, motive x → motive y → motive (.binary op x y loc))
    (h : Shaped n tokens tree) (hl : LaidOut source.chars.toList offset tokens)
    (he : tree.toExpr source = .ok e) : motive e := by
  have hnumber {tree : Tree} {problem : Problem} {e : Expr}
      (he : tree.toNumber source problem = .ok e) : motive e := by
    obtain ⟨value, hvalue, rfl⟩ := Tree.toNumber_eq_ok_iff.mp he
    exact number _ value hvalue
  induction h generalizing offset e with
  | operand ht =>
    rename_i n token
    simp only [List.mem_cons, List.not_mem_nil, or_false] at ht
    rcases ht with ht | ht | ht
    · rw [Tree.toExpr_number (congrArg _ ht)] at he
      exact hnumber he
    · rw [Tree.toExpr_name (congrArg _ ht)] at he
      obtain rfl := Except.ok.inj he
      rw [textIn_ofToken hl.2.1]
      exact ident _ _ (hl.2.1.isName ht)
    · rw [Tree.toExpr_unsupported (.inl (congrArg _ ht))] at he
      contradiction
  | paren hlpar hrpar inner ih =>
    rw [Tree.toExpr_unsupported (.inr rfl)] at he
    contradiction
  | call hn function hp arguments ih iha =>
    rename_i list
    have hlist := (laidOut_append.mp hl).2
    obtain ⟨args, hargs, hcall⟩ := (Tree.Mirrored.toExpr_call_eq_ok_iff hp arguments e).mp he
    have hargument : ∀ x ∈ args, motive x := by
      intro x hx
      obtain ⟨p, hmem, ⟨o, hlaid⟩, hpx⟩ := list.exists_piece_of_mapM_eq_ok hlist hargs x hx
      exact iha p hmem hlaid hpx
    rcases Expr.ofCall_eq_ok_iff.mp hcall with ⟨f, x, rfl, -, rfl⟩ | ⟨f, x, y, rfl, -, rfl⟩
    · exact call1 f x _ (hargument x (by simp))
    · exact call2 f x y _ (hargument x (by simp)) (hargument y (by simp))
  | signed hn hs inner ih =>
    rw [Tree.toExpr_unary rfl (Tree.children_spanning ..)] at he
    split at he
    · exact hnumber he
    · contradiction
  | infixed hn hop left right ihl ihr =>
    obtain ⟨hlaidLeft, -, -, hlaidRight⟩ := laidOut_append.mp hl
    obtain ⟨first, o, second, hfirst, -, hsecond, rfl⟩ :=
      (Tree.toExpr_binary_eq_ok_iff rfl (Tree.children_spanning ..)).mp he
    exact binary o first second _ (ihl hlaidLeft hfirst) (ihr hlaidRight hsecond)

theorem Shaped.printable {n : Tier} (h : Shaped n tokens tree)
    (hl : LaidOut source.chars.toList offset tokens) {e : Expr} (he : tree.toExpr source = .ok e) :
    e.NoOverflow → e.Printable := by
  refine h.induct (motive := fun e => e.NoOverflow → e.Printable) ?_ ?_ ?_ ?_ ?_ hl he
  · exact fun span value hvalue ho => isFinite_of_readNumber hvalue ho
  · exact fun name loc hname _ => hname
  · exact fun f x loc hx => hx
  · exact fun f x y loc hx hy ho => ⟨hx ho.1, hy ho.2⟩
  · exact fun op x y loc hx hy ho => ⟨hx ho.1, hy ho.2⟩

theorem ShapedStatement.printable (h : ShapedStatement tokens tree)
    (hl : LaidOut source.chars.toList offset tokens) {s : Stmt} (hs : tree.toStmt source = .ok s)
    (ho : s.NoOverflow) : s.Printable := by
  cases h with
  | assignment hn he value =>
    rw [Tree.toStmt_assignment rfl (Tree.children_spanning ..), map_eq_ok_iff,
      textIn_ofToken hl.2.1] at hs
    obtain ⟨e, hvalue, rfl⟩ := hs
    exact ⟨hl.2.1.isName hn, value.printable hl.2.2.2.2 hvalue ho⟩
  | expr value =>
    rw [Tree.toStmt_expr rfl (Tree.children_spanning ..), map_eq_ok_iff] at hs
    obtain ⟨e, hvalue, rfl⟩ := hs
    exact value.printable hl hvalue ho

theorem Program.printable_of_read {q : Program} (h : Program.read source = .ok q) :
    q ≠ [] ∧ ((∀ s ∈ q, s.NoOverflow) → ∀ s ∈ q, s.Printable) := by
  obtain ⟨tree, htree, hq⟩ := Program.read_eq_ok_iff.mp h
  obtain ⟨parts, hlined, hscan, rfl⟩ := Tree.read_script_iff.mp htree
  have hl := laidOut_of_scan hscan
  constructor
  · obtain ⟨hne, -, rfl⟩ := (ScriptParts.toProgram_eq_ok_iff hlined hl q).mp hq
    simpa using hne
  · intro ho s hs
    obtain ⟨piece, hpiece, ⟨o, hlaid⟩, hps⟩ :=
      ScriptParts.exists_piece_of_toProgram_eq_ok hlined hl hq s hs
    exact (hlined.statements piece hpiece).printable hlaid hps (ho s hs)

theorem Binary64.sameValue_self {x : Binary64} (hx : x.code ≤ infinityCode) :
    x.sameValue x = true := by
  have hnan : x.isNaN = false := decide_eq_false (by omega)
  simp [sameValue, hnan]

/-- An expression that was read from a text equals itself: no number in it is undefined. -/
theorem Shaped.same_self {n : Tier} (h : Shaped n tokens tree)
    (hl : LaidOut source.chars.toList offset tokens) {e : Expr} (he : tree.toExpr source = .ok e) :
    e.same e = true := by
  refine h.induct (motive := fun e => e.same e = true) ?_ ?_ ?_ ?_ ?_ hl he
  · exact fun span value hvalue => Binary64.sameValue_self (code_of_readNumber hvalue)
  · simp [Expr.same]
  · simp [Expr.same]
  · intro f x y loc hx hy
    simp [Expr.same, hx, hy]
  · intro op x y loc hx hy
    simp [Expr.same, hx, hy]

theorem ShapedStatement.same_self (h : ShapedStatement tokens tree)
    (hl : LaidOut source.chars.toList offset tokens) {s : Stmt} (hs : tree.toStmt source = .ok s) :
    s.same s = true := by
  cases h with
  | assignment hn he value =>
    rw [Tree.toStmt_assignment rfl (Tree.children_spanning ..), map_eq_ok_iff] at hs
    obtain ⟨e, hvalue, rfl⟩ := hs
    simp [Stmt.same, value.same_self hl.2.2.2.2 hvalue]
  | expr value =>
    rw [Tree.toStmt_expr rfl (Tree.children_spanning ..), map_eq_ok_iff] at hs
    obtain ⟨e, hvalue, rfl⟩ := hs
    simp [Stmt.same, value.same_self hl hvalue]

theorem Expr.same_bare (e d : Expr) : e.bare.same d.bare = e.same d := by
  induction e generalizing d with
  | number | ident | unknown => cases d <;> rfl
  | call1 f x loc ih => cases d <;> simp [bare, same, ih]
  | call2 f x y loc ihx ihy => cases d <;> simp [bare, same, ihx, ihy]
  | binary op x y loc ihx ihy => cases d <;> simp [bare, same, ihx, ihy]

theorem Stmt.same_bare (s t : Stmt) : s.bare.same t.bare = s.same t := by
  cases s <;> cases t <;> simp [bare, same, Expr.same_bare]

theorem Program.same_of_bare {p q : Program} (hp : ∀ s ∈ p, s.same s = true)
    (h : q.map Stmt.bare = p.map Stmt.bare) : q.same p = true := by
  induction p generalizing q with
  | nil =>
    obtain rfl := List.map_eq_nil_iff.mp h
    rfl
  | cons s p ih =>
    obtain ⟨s', q', rfl, hs, hq⟩ := List.map_eq_cons_iff.mp h
    have hfirst : s'.same s = true := by
      rw [← Stmt.same_bare, hs, Stmt.same_bare, hp s List.mem_cons_self]
    have hrest := ih (fun t ht => hp t (List.mem_cons_of_mem _ ht)) hq
    rw [Program.same, hfirst, hrest]
    rfl

theorem Expr.Printable.same_self {e : Expr} (he : e.Printable) : e.same e = true := by
  induction e with
  | number x loc => exact Binary64.sameValue_self (Nat.le_of_lt (of_decide_eq_true he))
  | ident => simp [same]
  | call1 f x loc ih => simp [same, ih he]
  | call2 f x y loc ihx ihy => simp [same, ihx he.1, ihy he.2]
  | binary op x y loc ihx ihy => simp [same, ihx he.1, ihy he.2]
  | unknown => contradiction

theorem Stmt.Printable.same_self {s : Stmt} (hs : s.Printable) : s.same s = true := by
  cases s with
  | define name value loc => simp [same, hs.2.same_self]
  | expr e loc => exact Expr.Printable.same_self hs
  | unknown => contradiction

theorem Program.same_of_bare_eq {p q : Program} (hp : ∀ s ∈ p, s.Printable)
    (h : q.map Stmt.bare = p.map Stmt.bare) : q.same p = true :=
  same_of_bare (fun s hs => (hp s hs).same_self) h

/-- A program that is printed and read again is the same, down to the bits of its numbers, if it has
no binary expression. Otherwise it is refused, and the failure points at the text of the first
outermost one. All programs that texts hold can be printed, unless a number overflows. -/
theorem Program.read_text {p : Program} (hne : p ≠ []) (hp : ∀ s ∈ p, s.Printable) :
    (p.outermostBinaries = [] →
      ∃ q, Program.read (.ofString p.text) = .ok q ∧ q.same p = true ∧
        q.map Stmt.bare = p.map Stmt.bare) ∧
    (∀ b later, p.outermostBinaries = b :: later →
      ∃ failure, Program.read (.ofString p.text) = .error (.rejected failure) ∧
        failure.code = .unsupportedExpr ∧
          (failure.span (.ofString p.text)).text (.ofString p.text) = b.text) ∧
    ∀ source q, Program.read source = .ok q →
      q ≠ [] ∧ ((∀ s ∈ q, s.NoOverflow) → ∀ s ∈ q, s.Printable) := by
  obtain ⟨s, later, rfl⟩ := List.exists_cons_of_ne_nil hne
  obtain ⟨parts, placed, hscans, hprinted⟩ := exists_printedAs hp 0
  have hchars : (Source.ofString (Program.text (s :: later))).chars.toList =
      (Program.text (s :: later)).toList := rfl
  have hscan : Token.scan .script (Source.ofString (Program.text (s :: later))).chars.toList =
      some parts.tokens := by
    rw [Scans, List.append_nil, Token.scanFrom_nil, Option.map_some, List.append_nil] at hscans
    rw [hchars]
    exact hscans
  have hread := read_of_tree (Tree.read_script_iff.mpr ⟨parts, hprinted.lined, hscan, rfl⟩)
  have hl := laidOut_of_scan hscan
  refine ⟨fun hnone => ?_, fun b more hb => ?_, fun source q hq => printable_of_read hq⟩
  · obtain ⟨q, hq, hbare⟩ := hprinted.toProgram_eq_ok hne hnone hl
    rw [hq] at hread
    exact ⟨q, hread, same_of_bare_eq hp hbare, hbare⟩
  · obtain ⟨failure, hfailure, hpoints⟩ := hprinted.toProgram_eq_error hb hl (List.prefix_refl _)
    rw [hfailure] at hread
    exact ⟨failure, hread, hpoints.code, hpoints.text⟩

theorem Program.read_zero_and_product :
    (∃ q, Program.read (.ofString "x = -0") = .ok q ∧
      q.map Stmt.bare = [.define "x" (.number (.zero true) none) none]) ∧
    ∃ failure, Program.read (.ofString "abs((x * x))") = .error (.rejected failure) ∧
      (failure.span (.ofString "abs((x * x))")).text (.ofString "abs((x * x))") = "(x * x)" := by
  let product : Expr := .binary .mul (.ident "x" none) (.ident "x" none) none
  have hname : isName "x" = true := by decide
  have hzero : (Binary64.zero true).isFinite = true := by decide
  constructor
  · have hp : ∀ s ∈ [Stmt.define "x" (.number (.zero true) none) none], s.Printable := by
      intro s hs
      rw [List.mem_singleton.mp hs]
      exact ⟨hname, hzero⟩
    have htext : Program.text [.define "x" (.number (.zero true) none) none] = "x = -0" := by decide
    obtain ⟨q, hq, -, hbare⟩ := (read_text (by simp) hp).1 rfl
    rw [htext] at hq
    exact ⟨q, hq, hbare⟩
  · have hp : ∀ s ∈ [Stmt.expr (.call1 .abs product none) none], s.Printable := by
      intro s hs
      rw [List.mem_singleton.mp hs]
      exact ⟨hname, hname⟩
    have htext : Program.text [.expr (.call1 .abs product none) none] = "abs((x * x))" := by decide
    obtain ⟨failure, hfailure, -, hspan⟩ := (read_text (by simp) hp).2.1 product [] rfl
    have hproduct : product.text = "(x * x)" := by decide
    rw [htext] at hfailure hspan
    exact ⟨failure, hfailure, hspan.trans hproduct⟩

end ArithScript
