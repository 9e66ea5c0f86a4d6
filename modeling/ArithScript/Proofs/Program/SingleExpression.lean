import ArithScript.Proofs.Program.Places

/-!
A text as an expression, and as a script that is only this expression. The two are read by different
automata over different terminals, but they agree wherever the text has no line breaks.
-/
namespace ArithScript

variable {source : Source} {tokens : List Token} {tree : Tree}

/-- The text is divided into tokens among which there is no line break. -/
def Source.OnOneLine (source : Source) : Prop :=
  ∃ tokens, Token.scan .script source.chars.toList = some tokens ∧
    ∀ token ∈ tokens, token.terminal ≠ .newline

/-- The tree is that of a script with the expression as its only statement. -/
def Tree.IsScriptOf (script tree : Tree) : Prop :=
  ∃ extent extent', script =
    .node (.construct .script) extent [.node (.construct .exprStatement) extent' [tree]]

theorem Token.scanFrom_of_hasTerminal {start start' : StartSymbol} {offset : Nat} {text : List Char}
    (h : Token.scanFrom start offset text = some tokens)
    (ht : ∀ token ∈ tokens, start'.hasTerminal token.terminal) :
    Token.scanFrom start' offset text = some tokens := by
  fun_induction Token.scanFrom start offset text generalizing tokens with
  | case1 offset =>
    obtain rfl := Option.some.inj h
    exact Token.scanFrom_nil
  | case2 offset text hne n hi ih =>
    rw [Token.scanFrom_of_ignored hi hne]
    exact ih h ht
  | case3 offset text hne hi t n hfirst ih =>
    obtain ⟨later, hlater, rfl⟩ := Option.map_eq_some_iff.mp h
    obtain ⟨hself, hbelow⟩ := List.forall_mem_cons.mp ht
    have hfirst' : Lexeme.first? start'.hasTerminal text = some (t, n + 1) :=
      Lexeme.first?_eq_of_offered hfirst hself fun _ _ => by cases start <;> rfl
    rw [Token.scanFrom_of_first? hi hne hfirst', ih hlater hbelow]
    rfl
  | case4 => contradiction

theorem Tree.read_expr_iff :
    Tree.read .expr source = .ok tree ↔
      ∃ tokens, Token.scan .expr source.chars.toList = some tokens ∧ Shaped .expr tokens tree := by
  rw [Tree.read_iff_derivable]
  constructor
  · rintro ⟨tokens, hscan, hd⟩
    obtain ⟨found, hshape, htrees⟩ := hd.shape
    obtain rfl := List.singleton_inj.mp htrees
    exact ⟨tokens, hscan, hshape⟩
  · rintro ⟨tokens, hscan, hshape⟩
    exact ⟨tokens, hscan, hshape.derivable⟩

def ScriptParts.ofExpr (tokens : List Token) (tree : Tree) : ScriptParts :=
  ⟨none, [], some ⟨tokens, .spanning .exprStatement tokens [tree]⟩⟩

theorem ScriptParts.lined_ofExpr (h : Shaped .expr tokens tree) : (ofExpr tokens tree).Lined :=
  lined_one (.expr h)

theorem ScriptParts.tokens_ofExpr : (ofExpr tokens tree).tokens = tokens := tokens_one _

theorem ScriptParts.isScriptOf_ofExpr : (ofExpr tokens tree).tree.IsScriptOf tree :=
  ⟨_, _, rfl⟩

theorem ScriptParts.Lined.eq_ofExpr {parts : ScriptParts} (h : parts.Lined)
    (hn : ∀ token ∈ parts.tokens, token.terminal ≠ .newline) (ht : parts.tree.IsScriptOf tree) :
    ∃ tokens, Shaped .expr tokens tree ∧ parts = ofExpr tokens tree := by
  obtain ⟨leading, lines, last⟩ := parts
  obtain ⟨extent, extent', heq⟩ := ht
  have hleading : leading = none := by
    by_contra hsome
    obtain ⟨token, rfl⟩ := Option.ne_none_iff_exists'.mp hsome
    exact hn token (by simp [ScriptParts.tokens]) (h.leading token rfl)
  have hlines : lines = [] := by
    by_contra hne
    obtain ⟨x, later, rfl⟩ := List.exists_cons_of_ne_nil hne
    exact hn x.2 (by simp [ScriptParts.tokens]) (h.breaks x List.mem_cons_self)
  subst hleading hlines
  cases last with
  | none => cases heq
  | some p =>
    obtain ⟨ts, found⟩ := p
    have hp : ShapedStatement ts found := h.statements ⟨ts, found⟩ (by simp [ScriptParts.statements])
    have hfound : found = .node (.construct .exprStatement) extent' [tree] := by
      injection heq with _ _ hchildren
      exact List.singleton_inj.mp hchildren
    cases hp with
    | assignment => cases hfound
    | expr value =>
      injection hfound with _ _ hchildren
      obtain rfl := List.singleton_inj.mp hchildren
      exact ⟨ts, value, rfl⟩

theorem Shaped.location_statement (h : Shaped .expr tokens tree) :
    (Tree.spanning .exprStatement tokens [tree]).location source = tree.location source := by
  have hself := h.extent?_eq
  rw [(ShapedStatement.expr h).extent?_eq] at hself
  rw [Tree.location, Tree.location, Option.some.inj hself]

/-- What an expression stands for is what the statement of a script that is only this expression
stands for. -/
theorem Shaped.toProgram_ofExpr (h : Shaped .expr tokens tree) :
    (ScriptParts.ofExpr tokens tree).tree.toProgram source =
      (tree.toExpr source).map fun e => [.expr e e.loc] := by
  have hprogram : (ScriptParts.ofExpr tokens tree).tree.toProgram source = _ :=
    Tree.toProgram_cons rfl rfl
  rw [hprogram, List.mapM_cons, Tree.toStmt_expr rfl rfl, h.location_statement]
  cases he : tree.toExpr source with
  | error failure => rfl
  | ok e =>
    rw [Except.map, Except.map, (h.readInOrder he).1]
    rfl

/-- A text is read as an expression exactly if it has no line breaks and is read as a script that is
only this expression. What it stands for is then the same in both ways, or fails in the same way. -/
theorem Expr.read_iff_single_statement (source : Source) :
    (∀ tree, Tree.read .expr source = .ok tree ↔
      source.OnOneLine ∧ ∃ script, Tree.read .script source = .ok script ∧ script.IsScriptOf tree) ∧
    ∀ script tree, source.OnOneLine → Tree.read .script source = .ok script →
      script.IsScriptOf tree →
        Program.read source = (Expr.read source).map fun e => [.expr e e.loc] := by
  have hparts : ∀ script tree, source.OnOneLine → Tree.read .script source = .ok script →
      script.IsScriptOf tree → ∃ tokens, Shaped .expr tokens tree ∧
        script = (ScriptParts.ofExpr tokens tree).tree ∧
          Tree.read .expr source = .ok tree := by
    rintro script tree ⟨tokens, hscan, hn⟩ hread hscript
    obtain ⟨parts, hlined, hfound, rfl⟩ := Tree.read_script_iff.mp hread
    obtain rfl := Option.some.inj (hscan.symm.trans hfound)
    obtain ⟨ts, hshape, rfl⟩ := hlined.eq_ofExpr hn hscript
    rw [ScriptParts.tokens_ofExpr] at hscan
    refine ⟨ts, hshape, rfl, Tree.read_expr_iff.mpr ⟨ts, ?_, hshape⟩⟩
    exact Token.scanFrom_of_hasTerminal hscan hshape.hasTerminal
  constructor
  · intro tree
    constructor
    · intro hread
      obtain ⟨tokens, hscan, hshape⟩ := Tree.read_expr_iff.mp hread
      have hscript : Token.scan .script source.chars.toList = some tokens :=
        Token.scanFrom_of_hasTerminal hscan fun _ _ => rfl
      refine ⟨⟨tokens, hscript, hshape.terminal_ne⟩, (ScriptParts.ofExpr tokens tree).tree, ?_,
        ScriptParts.isScriptOf_ofExpr⟩
      apply Tree.read_script_iff.mpr
      exact ⟨_, ScriptParts.lined_ofExpr hshape, by rwa [ScriptParts.tokens_ofExpr], rfl⟩
    · rintro ⟨hline, script, hread, hscript⟩
      obtain ⟨tokens, -, -, htree⟩ := hparts script tree hline hread hscript
      exact htree
  · intro script tree hline hread hscript
    obtain ⟨tokens, hshape, rfl, htree⟩ := hparts script tree hline hread hscript
    rw [Program.read_of_tree hread, Expr.read,
      Walk.over_of_tree (Walk.expr_computes source) htree, hshape.toProgram_ofExpr]
    cases tree.toExpr source <;> rfl

end ArithScript
