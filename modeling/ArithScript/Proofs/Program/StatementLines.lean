import ArithScript.Proofs.Grammar.Runs
import ArithScript.Proofs.Lowering.Origins
import ArithScript.Proofs.Program.Places

/-!
A program by the lines of its text. Where there are no continuations, a text is read as a program
exactly if each line that has tokens is a statement, and it is empty if no line has any.
-/
namespace ArithScript

/-- In the text, the tokens are those of a statement that stands for `s`. -/
def Stands (source : Source) (tokens : List Token) (s : Stmt) : Prop :=
  ∃ tree, ShapedStatement tokens tree ∧ tree.toStmt source = .ok s

variable {source : Source} {found : List (List Token)} {p : Program}

theorem exists_pieces (h : List.Forall₂ (Stands source) found p) :
    ∃ pieces : List Piece, pieces.map Piece.tokens = found ∧
      (∀ q ∈ pieces, ShapedStatement q.tokens q.tree) ∧
        List.Forall₂ (fun q s => q.tree.toStmt source = .ok s) pieces p := by
  induction h with
  | nil => exact ⟨[], rfl, by simp, .nil⟩
  | @cons tokens s found p first later ih =>
    obtain ⟨tree, hshape, hs⟩ := first
    obtain ⟨pieces, rfl, hshapes, hp⟩ := ih
    exact ⟨⟨tokens, tree⟩ :: pieces, rfl, List.forall_mem_cons.mpr ⟨hshape, hshapes⟩, .cons hs hp⟩

namespace ScriptParts
variable {parts : ScriptParts}

theorem children_eq (parts : ScriptParts) :
    parts.tree.children = parts.statements.map Piece.tree := rfl

/-- The lines of a script that was read are its statements. -/
theorem Lined.scanRuns_eq (h : parts.Lined)
    (hscan : Token.scan .script source.chars.toList = some parts.tokens) :
    scanRuns 0 source.chars.toList = some (parts.statements.map Piece.tokens) := by
  rw [← h.runs_tokens]
  exact congrArg (Option.map runs) hscan

theorem exists_read (hb : '\\' ∉ source.chars.toList) (pieces : List Piece)
    (hfound : scanRuns 0 source.chars.toList = some (pieces.map Piece.tokens))
    (hs : ∀ q ∈ pieces, ShapedStatement q.tokens q.tree) :
    ∃ parts : ScriptParts, parts.Lined ∧ parts.statements = pieces ∧
      Tree.read .script source = .ok parts.tree := by
  obtain ⟨tokens, hscan, hruns⟩ := Option.map_eq_some_iff.mp hfound
  obtain ⟨parts, hlined, rfl, hpieces⟩ := exists_lined (tidy_of_scan hb hscan) hruns hs
  exact ⟨parts, hlined, hpieces, Tree.read_script_iff.mpr ⟨parts, hlined, hscan, rfl⟩⟩

theorem toProgram_of_nil (h : parts.statements = []) :
    parts.tree.toProgram source = parts.tree.reject source .emptyProgram :=
  Tree.toProgram_nil rfl (by rw [children_eq, h, List.map_nil])

theorem toProgram_of_ne_nil (h : parts.statements ≠ []) :
    parts.tree.toProgram source = (parts.statements.map Piece.tree).mapM (Tree.toStmt source) := by
  obtain ⟨q, later, hstatements⟩ := List.exists_cons_of_ne_nil h
  rw [Tree.toProgram_cons rfl (by rw [children_eq, hstatements, List.map_cons]), hstatements,
    List.map_cons]

theorem notEmpty_toProgram (h : parts.statements ≠ []) :
    NotEmpty (parts.tree.toProgram source) := by
  have hwithin : parts.tree.FailsWithin source
      ((parts.statements.map Piece.tree).mapM (Tree.toStmt source)) :=
    .mapM fun t ht => t.failsWithin_toStmt.of_child ht
  rw [toProgram_of_ne_nil h]
  exact hwithin.notEmpty

end ScriptParts

/-- A text holds a program exactly if there are lines with tokens and all of them are statements. -/
theorem Program.read_iff_runs (hb : '\\' ∉ source.chars.toList) :
    Program.read source = .ok p ↔
      ∃ found, scanRuns 0 source.chars.toList = some found ∧ found ≠ [] ∧
        List.Forall₂ (Stands source) found p := by
  rw [Program.read_eq_ok_iff]
  constructor
  · rintro ⟨tree, htree, hp⟩
    obtain ⟨parts, hlined, hscan, rfl⟩ := Tree.read_script_iff.mp htree
    refine ⟨_, hlined.scanRuns_eq hscan, fun hnil => ?_, ?_⟩
    · rw [ScriptParts.toProgram_of_nil (List.map_eq_nil_iff.mp hnil)] at hp
      contradiction
    · rw [List.forall₂_map_left_iff]
      apply forall₂_imp_of_mem (ScriptParts.forall₂_of_toProgram hp)
      intro q hq s hs
      exact ⟨q.tree, hlined.statements q hq, hs⟩
  · rintro ⟨found, hfound, hne, hp⟩
    obtain ⟨pieces, rfl, hshapes, hstmts⟩ := exists_pieces hp
    obtain ⟨parts, -, rfl, hread⟩ := ScriptParts.exists_read hb pieces hfound hshapes
    have hstatements : parts.statements ≠ [] := fun hnil => hne (List.map_eq_nil_iff.mpr hnil)
    refine ⟨parts.tree, hread, ?_⟩
    rw [ScriptParts.toProgram_of_ne_nil hstatements, mapM_eq_ok_iff_forall₂,
      List.forall₂_map_left_iff]
    exact hstmts

theorem Program.read_empty_iff (hb : '\\' ∉ source.chars.toList) :
    (∃ failure, Program.read source = .error (.rejected failure) ∧ failure.code = .emptyProgram) ↔
      scanRuns 0 source.chars.toList = some [] := by
  constructor
  · rintro ⟨failure, hread, hcode⟩
    cases htree : Tree.read .script source with
    | error fault =>
      rw [Program.read, Walk.over, htree] at hread
      rw [Tree.read] at htree
      split at htree
      · contradiction
      · cases htree
        cases hread
        contradiction
    | ok tree =>
      obtain ⟨parts, hlined, hscan, rfl⟩ := Tree.read_script_iff.mp htree
      rw [hlined.scanRuns_eq hscan, Option.some_inj, List.map_eq_nil_iff]
      by_contra hne
      have hcodes : NotEmpty (parts.tree.toProgram source) := ScriptParts.notEmpty_toProgram hne
      rw [Program.read_of_tree htree] at hread
      cases hresult : parts.tree.toProgram source with
      | error fault =>
        rw [hresult] at hread
        cases hread
        exact hcodes failure hresult hcode
      | ok p =>
        rw [hresult] at hread
        contradiction
  · intro hfound
    obtain ⟨parts, hlined, hnil, hread⟩ :=
      ScriptParts.exists_read hb [] hfound (by simp)
    rw [Program.read_of_tree hread, ScriptParts.toProgram_of_nil hnil]
    exact ⟨_, rfl, rfl⟩

end ArithScript
