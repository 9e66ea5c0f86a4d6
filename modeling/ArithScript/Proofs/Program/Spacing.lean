import ArithScript.Proofs.Lowering.Relocation
import ArithScript.Proofs.Program.ReadBack
import ArithScript.Proofs.Program.Refusals

/-!
Ignored text next to the tokens of a text makes no difference to its tree, and none to its program
unless it separates a sign from its number.
-/
namespace ArithScript

variable {start : StartSymbol} {kept : Nat → Prop} {source source' : Source} {tree tree' : Tree}
  {tokens : List Token} {gap : List Char} {place : Nat} {p : Program}

theorem Tree.Relocated.problem_eq {problem : Problem} {extent : Extent}
    (h : tree.Relocated kept tree') (hs : tree.Supported) (hu : ¬tree'.Supported)
    (hf : tree'.Faulty source' problem extent) : problem = .signedNonLiteral := by
  have hk : tree.kind = .construct .unary := by
    by_contra hk
    exact hu (h.supported_iff.mpr ⟨hs, fun _ _ hunary => absurd hunary hk⟩)
  have hk' : tree'.kind = .construct .unary := (kind_eq_of_unplaced_eq h.unplaced_eq).trans hk
  obtain ⟨sign, number, hc, hsign, -⟩ := (supported_unary_iff hk).mp hs
  cases hf with
  | excluded hkind =>
    rw [hk'] at hkind
    simp at hkind
  | operator hkind => simp [hk'] at hkind
  | call hkind => simp [hk'] at hkind
  | sign _ hc' htilde =>
    obtain ⟨first, second, hc'', hfirst, -⟩ := exists_children_pair h.unplaced_eq hc
    obtain ⟨rfl, -⟩ := List.cons.inj (hc'.symm.trans hc'')
    rw [← hfirst, htilde] at hsign
    simp at hsign
  | signed => rfl

namespace Program

theorem read_iff_of_tree (h : Tree.read .script source = .ok tree) (p : Program) :
    Program.read source = .ok p ↔ tree.children ≠ [] ∧ (∀ t ∈ tree.subtrees, t.Supported) ∧
      tree.children.map (Tree.asStmt source) = p := by
  obtain ⟨parts, hp, hscan, rfl⟩ := Tree.read_script_iff.mp h
  rw [read_eq_ok_iff, ← ScriptParts.toProgram_eq_ok_iff hp (laidOut_of_scan hscan)]
  constructor
  · rintro ⟨tree, htree, hok⟩
    obtain rfl := Except.ok.inj (h.symm.trans htree)
    exact hok
  · intro hok
    exact ⟨_, h, hok⟩

theorem same_self_of_read (h : Program.read source = .ok p) : ∀ s ∈ p, s.same s = true := by
  intro s hs
  obtain ⟨tree, htree, hok⟩ := read_eq_ok_iff.mp h
  obtain ⟨parts, hp, hscan, rfl⟩ := Tree.read_script_iff.mp htree
  obtain ⟨piece, hpiece, ⟨o, hlaid⟩, hps⟩ :=
    ScriptParts.exists_piece_of_toProgram_eq_ok hp (laidOut_of_scan hscan) hok s hs
  exact (hp.statements piece hpiece).same_self hlaid hps

theorem read_relocated_iff (h : Tree.read .script source = .ok tree)
    (h' : Tree.read .script source' = .ok tree') (hr : tree.Relocates kept tree') (b : Program) :
    (∃ q, Program.read source' = .ok q ∧ q.map Stmt.bare = b) ↔
      (∃ p, Program.read source = .ok p ∧ p.map Stmt.bare = b) ∧
        ∀ t ∈ tree.subtrees, t.KeepsSign kept := by
  have hbare := Tree.map_bare_asStmt hr.unplaced_eq source source'
  have hne := not_congr (Tree.children_eq_nil_iff hr.unplaced_eq)
  simp only [read_iff_of_tree h, read_iff_of_tree h', hr.forall_supported_iff, ne_eq, hne]
  constructor
  · rintro ⟨_, ⟨hne, ⟨hs, hk⟩, rfl⟩, rfl⟩
    exact ⟨⟨_, ⟨hne, hs, rfl⟩, hbare.symm⟩, hk⟩
  · rintro ⟨⟨_, ⟨hne, hs, rfl⟩, rfl⟩, hk⟩
    exact ⟨_, ⟨hne, ⟨hs, hk⟩, rfl⟩, hbare⟩

/-- If a sign is not kept next to its number, that is what the text is refused for. -/
theorem read_separated (hp : Program.read source = .ok p) (h : Tree.read .script source = .ok tree)
    (h' : Tree.read .script source' = .ok tree') (hr : tree.Relocates kept tree')
    (hs : ¬∀ t ∈ tree.subtrees, t.KeepsSign kept) :
    ∃ failure, Program.read source' = .error (.rejected failure) ∧
      failure.code = .unaryNotLiteral := by
  obtain ⟨hne, hsupported, -⟩ := (read_iff_of_tree h p).mp hp
  cases hread : Program.read source' with
  | ok q => exact absurd ((read_relocated_iff h h' hr _).mp ⟨q, hread, rfl⟩).2 hs
  | error fault =>
    obtain ⟨failure, rfl, hcause⟩ := (Refused.program hread).exists_cause
    refine ⟨failure, rfl, ?_⟩
    cases hcause with
    | unread hunread =>
      rw [h'] at hunread
      contradiction
    | empty _ hscan hb =>
      obtain ⟨parts, hp, rfl, hnil⟩ := ScriptParts.exists_of_blank hb
      -- the same tree up to places has statements, so the other text is not blank
      have hblank := Tree.read_script_iff.mpr ⟨parts, hp, hscan, rfl⟩
      obtain rfl := Except.ok.inj (h'.symm.trans hblank)
      have hchildren : parts.tree.children = [] := List.map_eq_nil_iff.mpr hnil
      exact absurd ((Tree.children_eq_nil_iff hr.unplaced_eq).mp hchildren) hne
    | node htree hreports =>
      obtain rfl := Except.ok.inj (h'.symm.trans htree)
      obtain ⟨t', ht', hunsupported, problem, extent, hfaulty, rfl⟩ := hreports
      obtain ⟨t, ht, hnode⟩ := exists_mem_of_forall₂ hr t' ht'
      rw [hnode.problem_eq (hsupported t ht) hunsupported hfaulty]
      rfl

end Program

/-- The text with a gap put in at an offset. -/
def Source.insert (source : Source) (place : Nat) (gap : List Char) : Source where
  chars := (insertAt place gap source.chars.toList).toArray

/-- A sign of a number ends at the offset. -/
def Tree.SignEndsAt (place : Nat) (tree : Tree) : Prop :=
  ∃ t ∈ tree.subtrees, ∃ sign number, t.kind = .construct .unary ∧ t.children = [sign, number] ∧
    number.kind = .terminal .number ∧ sign.extent.stop = place

theorem Tree.keepsSigns_iff (hs : ∀ t ∈ tree.subtrees, t.Supported) (place : Nat)
    (gap : List Char) :
    (∀ t ∈ tree.subtrees, t.KeepsSign fun x => x = place → gap = []) ↔
      (tree.SignEndsAt place → gap = []) := by
  constructor
  · rintro h ⟨t, ht, sign, number, hk, hc, -, hstop⟩
    exact h t ht sign number hk hc place hstop rfl
  · rintro h t ht sign inner hk hc stop hstop rfl
    obtain ⟨s, number, hc', -, hnumber, -⟩ := (supported_unary_iff hk).mp (hs t ht)
    obtain ⟨rfl, rfl⟩ : sign = s ∧ inner = number := by simpa [hc] using hc'
    exact h ⟨t, ht, sign, inner, hk, hc, hnumber, hstop⟩

/-- Blanks and continuations can be put in before and after every token of a text, line breaks
included: it is still read, and as the same tree up to places. If it holds a program, it holds an
equal one, except that a number has to follow its sign without a gap. -/
theorem Tree.read_insert (hread : Tree.read start source = .ok tree)
    (hscan : Token.scan start source.chars.toList = some tokens) (hp : Borders place tokens)
    (hg : Ignorable gap) :
    (∃ tree', Tree.read start (source.insert place gap) = .ok tree' ∧
      tree'.unplaced = tree.unplaced) ∧
    ∀ p, start = .script → Program.read source = .ok p →
      (tree.SignEndsAt place → gap ≠ [] →
        ∃ failure, Program.read (source.insert place gap) = .error (.rejected failure) ∧
          failure.code = .unaryNotLiteral) ∧
      ((tree.SignEndsAt place → gap = []) →
        ∃ q, Program.read (source.insert place gap) = .ok q ∧ q.same p = true ∧
          q.map Stmt.bare = p.map Stmt.bare) := by
  have hrespaced : Respaced start (fun x => x = place → gap = []) 0 source.chars.toList
      (source.insert place gap).chars.toList := Respaced.of_insertAt hscan hg (.inr hp)
  obtain ⟨tree', hread', hr⟩ := Tree.exists_relocated hread hrespaced
  refine ⟨⟨tree', hread', hr.unplaced_eq⟩, ?_⟩
  rintro p rfl hok
  have hsigns := keepsSigns_iff ((Program.read_iff_of_tree hread p).mp hok).2.1 place gap
  constructor
  · intro hsign hgap
    exact Program.read_separated hok hread hread' hr fun hkept => hgap (hsigns.mp hkept hsign)
  · intro hkept
    obtain ⟨q, hq, hbare⟩ := (Program.read_relocated_iff hread hread' hr _).mpr
      ⟨⟨p, hok, rfl⟩, hsigns.mpr hkept⟩
    exact ⟨q, hq, Program.same_of_bare (Program.same_self_of_read hok) hbare, hbare⟩

theorem Tree.read_insert_minus_zero :
    let source := Source.ofString "-0"
    let gap := [' ', '\\', '\n']
    let tree := Tree.node (.construct .script) (some ⟨0, 2⟩)
      [.node (.construct .exprStatement) (some ⟨0, 2⟩)
        [.node (.construct .unary) (some ⟨0, 2⟩)
          [.token (.terminal .minus) "-" (some 0) (some 1),
            .token (.terminal .number) "0" (some 1) (some 2)]]]
    (∃ tree', Tree.read .script (source.insert 2 gap) = .ok tree' ∧
      tree'.unplaced = tree.unplaced) ∧
    ∃ failure, Program.read (source.insert 1 gap) = .error (.rejected failure) ∧
      failure.code = .unaryNotLiteral := by
  intro source gap tree
  let minus : Token := ⟨.minus, "-", 0, 1⟩
  let zero : Token := ⟨.number, "0", 1, 2⟩
  have hline : ShapedStatement [minus, zero] (.spanning .exprStatement [minus, zero] _) :=
    .expr (.signed (by decide) (by decide) (.operand (by decide)))
  have hscan : Token.scan .script source.chars.toList = some [minus, zero] := by decide +kernel
  have hread : Tree.read .script source = .ok tree :=
    Tree.read_script_iff.mpr ⟨.one ⟨_, _⟩, ScriptParts.lined_one hline, hscan, rfl⟩
  have hgap : Ignorable gap :=
    .blank (by decide) (@Ignorable.continuation [] ['\n'] [] (by simp) (.head _) .nil)
  let loc := some (Span.ofOffsets source 0 2)
  have hok : Program.read source = .ok [.expr (.number (.zero true) loc) loc] := by decide +kernel
  constructor
  · exact (Tree.read_insert hread hscan ⟨zero, by simp, .inr rfl⟩ hgap).1
  · have hsign : tree.SignEndsAt 1 :=
      ⟨_, .tail _ (.tail _ (.head _)), _, _, rfl, rfl, rfl, rfl⟩
    exact ((Tree.read_insert hread hscan ⟨minus, by simp, .inr rfl⟩ hgap).2 _ rfl hok).1 hsign
      (by simp [gap])

end ArithScript
