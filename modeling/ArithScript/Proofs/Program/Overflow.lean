import ArithScript.Proofs.Numeric.Denotation
import ArithScript.Proofs.Program.ReadBack
import ArithScript.Proofs.Program.SingleExpression

/-!
What becomes of the numbers of a program when they are printed. A number reads back unless the
magnitude in the text overflowed: an infinite number is printed as `inf`, which is a name.
-/
namespace ArithScript

variable {source : Source}

theorem Expr.ReadFrom.readNumber {e : Expr} (h : e.ReadFrom source) :
    ∀ x loc, .number x loc ∈ e.subexprs →
      ∃ span, loc = some span ∧ ArithScript.readNumber (span.text source) = some x := by
  obtain ⟨n, tokens, tree, offset, hs, hl, he⟩ := h
  refine hs.induct (motive := fun e => ∀ x loc, .number x loc ∈ e.subexprs →
    ∃ span, loc = some span ∧ ArithScript.readNumber (span.text source) = some x) ?_ ?_ ?_ ?_ ?_ hl he
  · intro span value hvalue x loc hx
    obtain ⟨rfl, rfl⟩ := number.inj (List.mem_singleton.mp hx)
    exact ⟨span, rfl, hvalue⟩
  · simp [subexprs]
  · simp [subexprs]
  · intro f first second loc hfirst hsecond
    simpa [subexprs, or_imp, forall_and] using ⟨hfirst, hsecond⟩
  · intro op left right loc hleft hright
    simpa [subexprs, or_imp, forall_and] using ⟨hleft, hright⟩

theorem Program.children_readFrom {p : Program} (h : Program.read source = .ok p) :
    ∀ s ∈ p, ∀ child ∈ s.children, child.ReadFrom source := by
  obtain ⟨tree, htree, hp⟩ := Program.read_eq_ok_iff.mp h
  obtain ⟨parts, hlined, hscan, rfl⟩ := Tree.read_script_iff.mp htree
  intro s hs
  obtain ⟨q, hq, ⟨o, ho⟩, hqs⟩ :=
    ScriptParts.exists_piece_of_toProgram_eq_ok hlined (laidOut_of_scan hscan) hp s hs
  exact ((hlined.statements q hq).readInOrder hqs).2.readFrom ho

theorem Expr.exists_read_text {e : Expr} (he : e.Printable) (hb : e.outermostBinaries = []) :
    ∃ e', Expr.read (.ofString e.text) = .ok e' ∧ e'.bare = e.bare := by
  obtain ⟨tokens, tree, hscans, hprinted⟩ := prints he 0 [] (by simp [Boundary])
  have hscript : Token.scan .script (Source.ofString e.text).chars.toList = some tokens := by
    rw [Scans, List.append_nil, Token.scanFrom_nil, Option.map_some, List.append_nil] at hscans
    exact hscans
  have hshaped : Shaped .expr tokens tree := hprinted.shaped.mono (by decide)
  have hscan := Token.scanFrom_of_hasTerminal hscript hshaped.hasTerminal
  have htree := Tree.read_expr_iff.mpr ⟨tokens, hscan, hshaped⟩
  obtain ⟨e', he'⟩ := hprinted.toExpr_eq_ok hb (laidOut_of_scan hscript)
  have hmirrored := (hshaped.mirrored (laidOut_of_scan hscript) e').mp he'
  exact ⟨e', Expr.read_eq_ok_iff.mpr ⟨tree, htree, he'⟩, hmirrored.2 ▸ hprinted.image hb _⟩

theorem Expr.exists_of_bare_eq_number {e : Expr} {x : Binary64} (h : e.bare = .number x none) :
    ∃ loc, e = .number x loc := by
  cases e with
  | number y loc =>
    obtain ⟨rfl, -⟩ := number.inj h
    exact ⟨loc, rfl⟩
  | ident | call1 | call2 | binary | unknown => contradiction

namespace Binary64
variable {x : Binary64}

/-- What is printed for the number is read as this number, by itself and as an expression. -/
def ReadsBack (x : Binary64) : Prop :=
  readNumber x.programText = some x ∧
    ∃ loc, Expr.read (.ofString x.programText) = .ok (.number x loc)

/-- What is printed for the number is not read as a number. As an expression it is the name `inf`, or,
for a negative number, it is refused as a sign before something else than a number. -/
def ReadsAsName (x : Binary64) : Prop :=
  readNumber x.programText = none ∧
    if x.negative then
      ∃ failure, Expr.read (.ofString x.programText) = .error (.rejected failure) ∧
        failure.code = .unaryNotLiteral
    else ∃ loc, Expr.read (.ofString x.programText) = .ok (.ident "inf" loc)

theorem readsBack_of_isFinite (hx : x.isFinite = true) : x.ReadsBack := by
  obtain ⟨e, he, hbare⟩ := Expr.exists_read_text (e := .number x none) hx rfl
  obtain ⟨loc, rfl⟩ := Expr.exists_of_bare_eq_number hbare
  exact ⟨readNumber_programText hx, loc, he⟩

theorem eq_infinity (hx : x.isInfinite = true) : x = infinity x.negative := by
  obtain ⟨negative, code, hcode⟩ := x
  obtain rfl : code = infinityCode := of_decide_eq_true hx
  rfl

theorem readsAsName_infinity (negative : Bool) : (infinity negative).ReadsAsName := by
  cases negative with
  | false =>
    refine ⟨by decide +kernel, some (.ofOffsets (.ofString "inf") 0 3), ?_⟩
    decide +kernel
  | true =>
    refine ⟨by decide +kernel, .ofProblem (.ofString "-inf") .signedNonLiteral ⟨0, 4⟩, ?_, rfl⟩
    decide +kernel

/-- A number is infinite exactly if the magnitude that it was rounded from has reached the
threshold. -/
theorem Rounds.isInfinite_iff {q : ℚ} (h : x.Rounds q) :
    x.isInfinite = true ↔ overflowThreshold ≤ q := by
  unfold Rounds at h
  split at h
  · simp [*]
  · rename_i hsmall
    have hlt : x.code < infinityCode := of_decide_eq_true h.1
    simp [hsmall, isInfinite, hlt.ne]

/-- The text denotes a magnitude. Below the threshold of overflow the number reads back, and from the
threshold on it reads as a name. -/
def PrintedFrom (x : Binary64) (text : String) : Prop :=
  ∃ sign n, Numeral.Spells n sign text ∧ (n.rational < overflowThreshold → x.ReadsBack) ∧
    (overflowThreshold ≤ n.rational → x.ReadsAsName)

end Binary64

theorem printedFrom_of_readNumber {text : String} {x : Binary64} (h : readNumber text = some x) :
    x.PrintedFrom text := by
  obtain ⟨sign, n, hspells, hrounds, -⟩ := exists_rounds_of_readNumber h
  have hoverflow := hrounds.isInfinite_iff
  refine ⟨sign, n, hspells, fun hsmall => ?_, fun hbig => ?_⟩
  · have hfinite : x.isInfinite = false :=
      Bool.eq_false_iff.mpr fun hx => (not_le.mpr hsmall) (hoverflow.mp hx)
    exact Binary64.readsBack_of_isFinite (isFinite_of_readNumber h hfinite)
  · rw [Binary64.eq_infinity (hoverflow.mpr hbig)]
    exact Binary64.readsAsName_infinity _

/-- The number of a text is printed as a text that reads as the same number if the magnitude that was
read is below the threshold of overflow, and as a name from the threshold on. Every number of a
program is the number of the text at its place. -/
theorem numbers_printedFrom (text : String) (source : Source) :
    (∀ x, readNumber text = some x → x.PrintedFrom text) ∧
    ∀ p, Program.read source = .ok p → ∀ s ∈ p, ∀ child ∈ s.children, ∀ x loc,
      .number x loc ∈ child.subexprs →
        ∃ span, loc = some span ∧ readNumber (span.text source) = some x ∧
          x.PrintedFrom (span.text source) := by
  constructor
  · intro x hx
    exact printedFrom_of_readNumber hx
  · intro p hp s hs child hchild x loc hx
    obtain ⟨span, hspan, hvalue⟩ :=
      (Program.children_readFrom hp s hs child hchild).readNumber x loc hx
    exact ⟨span, hspan, hvalue, printedFrom_of_readNumber hvalue⟩

theorem infinity_printedFrom :
    let source := Source.ofString "print(1e999)"
    let loc := fun start stop => some (Span.ofOffsets source start stop)
    let number := Expr.number (.infinity false) (loc 6 11)
    let p := [Stmt.expr (.call1 .print number (loc 0 12)) (loc 0 12)]
    Program.read source = .ok p ∧ ∃ span, loc 6 11 = some span ∧
      readNumber (span.text source) = some (.infinity false) ∧
        (Binary64.infinity false).PrintedFrom (span.text source) := by
  intro source loc number p
  have hread : Program.read source = .ok p := by decide +kernel
  refine ⟨hread, (numbers_printedFrom "1e999" source).2 p hread _ List.mem_cons_self
    (.call1 .print number (loc 0 12)) List.mem_cons_self _ _ ?_⟩
  exact List.mem_cons_of_mem _ List.mem_cons_self

/-- The text `1e999` reads as a number that is printed as a text which does not. -/
theorem not_forall_readNumber_programText :
    ¬ ∀ text x, readNumber text = some x → (readNumber x.programText).isSome = true := by
  intro h
  have hread : readNumber "1e999" = some (.infinity false) := by decide +kernel
  have hagain := h _ _ hread
  rw [(Binary64.readsAsName_infinity false).1] at hagain
  contradiction

end ArithScript
