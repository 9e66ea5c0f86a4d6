import ArithScript.Proofs.Lowering.Supported
import ArithScript.Proofs.Program.Printed

/-! The tokens and the trees that printed statements are read as, one statement a line. -/
namespace ArithScript

variable {offset : Nat} {rest : List Char} {tokens : List Token} {tree : Tree}

structure Stmt.PrintedAs (s : Stmt) (offset : Nat) (tokens : List Token) (tree : Tree) : Prop where
  shaped : ShapedStatement tokens tree
  supported : s.outermostBinaries = [] → ∀ t ∈ tree.subtrees, t.Supported
  image : s.outermostBinaries = [] → ∀ source, (tree.asStmt source).bare = s.bare
  rejected : ∀ b later, s.outermostBinaries = b :: later → ∀ (source : Source) (o : Nat),
    LaidOut source.chars.toList o tokens → s.text.toList <+: source.chars.toList.drop offset →
      ∃ failure, tree.toStmt source = .error failure ∧ failure.PointsAt source b

/-- Wherever the statement is printed, it is read as a tree for it. -/
def Stmt.Prints (s : Stmt) : Prop :=
  ∀ offset rest, Boundary rest →
    ∃ tokens tree, Scans offset s.text.toList tokens rest ∧ s.PrintedAs offset tokens tree

theorem Stmt.solid_text {s : Stmt} (hs : s.Printable) (rest : List Char) :
    Solid (s.text.toList ++ rest) := by
  cases s with
  | define name value loc =>
    rw [toList_text_define, List.append_assoc]
    exact solid_name hs.1 _
  | expr e loc => exact Expr.solid_text hs rest
  | unknown => contradiction

theorem Stmt.prints_define {name : String} {value : Expr} (hn : isName name = true)
    (hv : value.Printable) (loc : Option Span) : (define name value loc).Prints := by
  intro offset rest hr
  let target : Token := .at .name offset name.toList
  let sign : Token := .at .equal (target.stop + 1) ['=']
  obtain ⟨ts, tree, hscan, hprinted⟩ := Expr.prints hv (sign.stop + 1) rest hr
  have hsign : Solid ((['='] ++ ([' '] ++ value.text.toList)) ++ rest) :=
    solid_of_leading (t := .equal) rfl (by decide) _
  have hvalue : Solid (value.text.toList ++ rest) := Expr.solid_text hv rest
  have hblank : ∀ c ∈ (([' '] ++ value.text.toList) ++ rest).head?, c ≠ '=' := by
    intro c hc
    obtain rfl := Option.some.inj hc
    decide
  have hwhole : Scans offset (define name value loc).text.toList (target :: sign :: ts) rest := by
    have htokens : target :: sign :: ts = [target] ++ ([] ++ ([sign] ++ ([] ++ ts))) := rfl
    rw [toList_text_define, htokens]
    exact (Scans.name hn (boundary_cons (by decide) _).not_isNamePart).append
      ((Scans.blank hsign).append ((Scans.equal hblank).append ((Scans.blank hvalue).append hscan)))
  have hc : (Tree.spanning .assignment (target :: sign :: ts)
      [.ofToken target, .ofToken sign, tree]).children =
        [.ofToken target, .ofToken sign, tree] := rfl
  refine ⟨_, _, hwhole, .assignment rfl rfl (hprinted.shaped.mono (by decide)), ?_, ?_, ?_⟩
  · intro he
    have hself : (Tree.spanning .assignment (target :: sign :: ts)
        [.ofToken target, .ofToken sign, tree]).Supported := trivial
    have htarget : (Tree.ofToken target).Supported := Tree.supported_ofToken (by simp [target, Token.at])
    have hequal : (Tree.ofToken sign).Supported := Tree.supported_ofToken (by simp [sign, Token.at])
    rw [Tree.forall_subtrees, hc]
    simp only [List.forall_mem_cons, Tree.forall_subtrees_ofToken, hself, htarget, hequal, true_and]
    exact ⟨hprinted.supported he, by simp⟩
  · intro he source
    change define (Tree.ofToken target).spelling (tree.asExpr source).bare none = _
    rw [hprinted.image he source, Tree.spelling_ofToken]
    simp [target, Token.at, bare]
  · intro b later h source o hl hfront
    rw [toList_text_define] at hfront
    have hsource : value.text.toList <+: source.chars.toList.drop (sign.stop + 1) := by
      have h := prefix_drop (prefix_drop (prefix_drop (prefix_drop hfront)))
      exact h
    obtain ⟨failure, hfailure, hpoints⟩ :=
      hprinted.rejected b later h source _ hl.2.2.2.2 hsource
    refine ⟨failure, ?_, hpoints⟩
    rw [Tree.toStmt_assignment rfl hc, Tree.assignedValue, hfailure]
    rfl

theorem Stmt.prints_expr {e : Expr} (he : e.Printable) (loc : Option Span) :
    (Stmt.expr e loc).Prints := by
  intro offset rest hr
  obtain ⟨ts, tree, hscan, hprinted⟩ := Expr.prints he offset rest hr
  have hc : (Tree.spanning .exprStatement ts [tree]).children = [tree] := rfl
  refine ⟨ts, .spanning .exprStatement ts [tree], hscan,
    .expr (hprinted.shaped.mono (by decide)), ?_, ?_, ?_⟩
  · intro hnone
    rw [Tree.forall_subtrees, hc, List.forall_mem_singleton]
    exact ⟨trivial, hprinted.supported hnone⟩
  · intro hnone source
    change Stmt.expr (tree.asExpr source).bare none = _
    rw [hprinted.image hnone source]
    rfl
  · intro b later h source o hl hfront
    obtain ⟨failure, hfailure, hpoints⟩ := hprinted.rejected b later h source o hl hfront
    refine ⟨failure, ?_, hpoints⟩
    rw [Tree.toStmt_expr rfl hc, hfailure]
    rfl

theorem Stmt.prints {s : Stmt} (hs : s.Printable) : s.Prints := by
  cases s with
  | define name value loc => exact prints_define hs.1 hs.2 loc
  | expr e loc => exact prints_expr hs loc
  | unknown => contradiction

structure PlacedStmt where
  stmt : Stmt
  offset : Nat
  piece : Piece

structure Program.PrintedAs (p : Program) (offset : Nat) (parts : ScriptParts)
    (placed : List PlacedStmt) : Prop where
  stmts : placed.map PlacedStmt.stmt = p
  pieces : parts.statements = placed.map PlacedStmt.piece
  leading : parts.leading = none
  breaks : ∀ x ∈ parts.lines, x.2.terminal = .newline
  printed : ∀ a ∈ placed, a.stmt.PrintedAs a.offset a.piece.tokens a.piece.tree
  text : ∀ a ∈ placed, ∀ chars : List Char, (Program.text p).toList <+: chars.drop offset →
    a.stmt.text.toList <+: chars.drop a.offset

theorem Program.exists_printedAs {s : Stmt} {p : Program} (hp : ∀ x ∈ s :: p, x.Printable)
    (offset : Nat) :
    ∃ parts placed, Scans offset (Program.text (s :: p)).toList parts.tokens [] ∧
      PrintedAs (s :: p) offset parts placed := by
  induction p generalizing s offset with
  | nil =>
    have hnil : Boundary [] := by simp [Boundary]
    obtain ⟨ts, tree, hscan, hprinted⟩ := Stmt.prints (hp s List.mem_cons_self) offset [] hnil
    have htext : (Program.text [s]).toList = s.text.toList := by
      rw [toList_text_cons]
      simp
    refine ⟨⟨none, [], some ⟨ts, tree⟩⟩, [⟨s, offset, ⟨ts, tree⟩⟩], ?_, rfl, rfl, rfl, ?_, ?_, ?_⟩
    · rw [htext]
      exact hscan
    · intro x hx
      contradiction
    · intro a ha
      rw [List.mem_singleton.mp ha]
      exact hprinted
    · intro a ha chars hfront
      rw [htext] at hfront
      rw [List.mem_singleton.mp ha]
      exact hfront
  | cons t p ih =>
    have hrest : ∀ x ∈ t :: p, x.Printable := fun x hx => hp x (List.mem_cons_of_mem _ hx)
    have htext : (Program.text (s :: t :: p)).toList =
        s.text.toList ++ (['\n'] ++ (Program.text (t :: p)).toList) := by
      rw [toList_text_cons, toList_text_cons]
      simp
    obtain ⟨ts, tree, hscan, hprinted⟩ := Stmt.prints (hp s List.mem_cons_self) offset
      ((['\n'] ++ (Program.text (t :: p)).toList) ++ []) (boundary_cons (by decide) _)
    obtain ⟨⟨leading, lines, last⟩, placed, hlater, hstmts, hpieces, hleading, hbreaks, hplaced,
      hfronts⟩ := ih hrest (offset + s.text.toList.length + 1)
    obtain rfl : leading = none := hleading
    have hsolid : Solid ((Program.text (t :: p)).toList ++ []) := by
      rw [toList_text_cons, List.append_assoc]
      exact Stmt.solid_text (hrest t List.mem_cons_self) _
    let newline : Token := .at .newline (offset + s.text.toList.length) ['\n']
    -- the statement is the first of the finished lines, since another one follows it
    refine ⟨⟨none, (⟨ts, tree⟩, newline) :: lines, last⟩, ⟨s, offset, ⟨ts, tree⟩⟩ :: placed,
      ?_, ?_, ?_, rfl, ?_, ?_, ?_⟩
    · have htokens : (ScriptParts.mk none ((⟨ts, tree⟩, newline) :: lines) last).tokens =
          ts ++ ([newline] ++ (ScriptParts.mk none lines last).tokens) := by
        simp [ScriptParts.tokens]
      rw [htext, htokens]
      exact hscan.append ((Scans.newline hsolid).append hlater)
    · rw [List.map_cons, hstmts]
    · rw [List.map_cons, ← hpieces]
      rfl
    · intro x hx
      rcases List.mem_cons.mp hx with rfl | hx
      · rfl
      · exact hbreaks x hx
    · intro a ha
      rcases List.mem_cons.mp ha with rfl | ha
      · exact hprinted
      · exact hplaced a ha
    · intro a ha chars hfront
      rw [htext] at hfront
      rcases List.mem_cons.mp ha with rfl | ha
      · exact prefix_left hfront
      · exact hfronts a ha chars (prefix_drop (prefix_drop hfront))

namespace Program.PrintedAs
variable {p : Program} {parts : ScriptParts} {placed : List PlacedStmt} {source : Source}

theorem lined (h : PrintedAs p offset parts placed) : parts.Lined := by
  refine ⟨?_, h.breaks, ?_⟩
  · intro token htoken
    rw [h.leading] at htoken
    contradiction
  · intro piece hpiece
    rw [h.pieces] at hpiece
    obtain ⟨a, ha, rfl⟩ := List.mem_map.mp hpiece
    exact (h.printed a ha).shaped

theorem children_tree (h : PrintedAs p offset parts placed) :
    parts.tree.children = placed.map (·.piece.tree) := by
  rw [ScriptParts.tree, Tree.children_spanning, h.pieces, List.map_map]
  rfl

theorem outermostBinaries_eq (h : PrintedAs p offset parts placed) :
    p.outermostBinaries = placed.flatMap (·.stmt.outermostBinaries) := by
  rw [← h.stmts, Program.outermostBinaries, List.flatMap_map]

theorem laidOut (h : PrintedAs p offset parts placed) {o : Nat}
    (hl : LaidOut source.chars.toList o parts.tokens) :
    ∀ a ∈ placed, ∃ o, LaidOut source.chars.toList o a.piece.tokens := by
  intro a ha
  refine hl.of_within (ScriptParts.tokens_within ?_)
  rw [h.pieces]
  exact List.mem_map_of_mem ha

/-- Without binary expressions the printed program is read back. -/
theorem toProgram_eq_ok (h : PrintedAs p offset parts placed) (hne : p ≠ [])
    (hnone : p.outermostBinaries = []) {o : Nat}
    (hl : LaidOut source.chars.toList o parts.tokens) :
    ∃ q, parts.tree.toProgram source = .ok q ∧ q.map Stmt.bare = p.map Stmt.bare := by
  have hnone' := h.outermostBinaries_eq.symm.trans hnone
  rw [List.flatMap_eq_nil_iff] at hnone'
  refine ⟨_, (ScriptParts.toProgram_eq_ok_iff h.lined hl _).mpr ⟨?_, ?_, rfl⟩, ?_⟩
  · rw [h.children_tree]
    intro hempty
    refine hne ?_
    rw [← h.stmts, List.map_eq_nil_iff.mp hempty]
    rfl
  · rw [Tree.forall_subtrees]
    refine ⟨trivial, fun child hchild => ?_⟩
    rw [h.children_tree] at hchild
    obtain ⟨a, ha, rfl⟩ := List.mem_map.mp hchild
    exact (h.printed a ha).supported (hnone' a ha)
  · rw [h.children_tree, ← h.stmts, List.map_map, List.map_map, List.map_map]
    refine List.map_congr_left fun a ha => ?_
    exact (h.printed a ha).image (hnone' a ha) source

/-- With binary expressions the printed program is refused at the first outermost one. -/
theorem toProgram_eq_error (h : PrintedAs p offset parts placed) {b : Expr} {later : List Expr}
    (hb : p.outermostBinaries = b :: later) {o : Nat}
    (hl : LaidOut source.chars.toList o parts.tokens)
    (hfront : (Program.text p).toList <+: source.chars.toList.drop offset) :
    ∃ failure, parts.tree.toProgram source = .error failure ∧ failure.PointsAt source b := by
  rw [h.outermostBinaries_eq] at hb
  obtain ⟨failure, hfailure, hpoints⟩ := mapM_map_eq_error
    (t := fun a : PlacedStmt => a.piece.tree) (f := Tree.toStmt source)
    (P := fun failure b => failure.PointsAt source b)
    (by
      intro a ha hnone
      obtain ⟨o, ho⟩ := h.laidOut hl a ha
      have hprinted := h.printed a ha
      exact ⟨_, (hprinted.shaped.toStmt_eq_ok_iff ho _).mpr ⟨hprinted.supported hnone, rfl⟩⟩)
    (by
      intro a ha b later hb
      obtain ⟨o, ho⟩ := h.laidOut hl a ha
      exact (h.printed a ha).rejected b later hb source o ho (h.text a ha _ hfront)) hb
  refine ⟨failure, ?_, hpoints⟩
  cases hc : parts.tree.children with
  | nil =>
    rw [h.children_tree] at hc
    rw [List.map_eq_nil_iff.mp hc] at hb
    contradiction
  | cons first rest => rw [Tree.toProgram_cons rfl hc, ← hc, h.children_tree, hfailure]

end Program.PrintedAs
end ArithScript
