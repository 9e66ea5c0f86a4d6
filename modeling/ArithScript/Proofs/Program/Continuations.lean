import ArithScript.Proofs.Program.Spacing

/-!
Continuations and spaces. A text with a space for each of its continuations holds the same program,
with one exception: a continuation on a line of its own keeps the line breaks around it apart, and
no text is read with two of them in a row, while the space is taken into them.
-/
namespace ArithScript

/-- The text with a space for each continuation that is skipped between its tokens. -/
def Source.unfolded (source : Source) : Source where
  chars := (unfoldLines .script source.chars.toList).toArray

/-- Line breaks follow each other as two tokens, as there is a continuation after the first. -/
def Source.SplitsBreak (source : Source) : Prop :=
  ∃ front first second back,
    Token.scan .script source.chars.toList = some (front ++ first :: second :: back) ∧
      first.terminal = .newline ∧ second.terminal = .newline ∧
      Lexeme.continuation (source.chars.toList.drop first.stop) ≠ 0

variable {source : Source} {tokens : List Token} {tree : Tree}

theorem Source.respaced_unfolded (source : Source) :
    Respaced .script (fun _ => True) 0 source.chars.toList source.unfolded.chars.toList :=
  .of_unfoldLines .script 0 source.chars.toList

theorem Source.splitsBreak_iff (hscan : Token.scan .script source.chars.toList = some tokens) :
    source.SplitsBreak ↔ ¬Tidy tokens := by
  constructor
  · rintro ⟨front, first, second, back, hfound, hfirst, hsecond, -⟩
    obtain rfl := Option.some.inj (hscan.symm.trans hfound)
    exact not_tidy hfirst hsecond
  · intro h
    obtain ⟨front, first, second, back, rfl, hfirst, hsecond⟩ := exists_of_not_tidy h
    exact ⟨front, first, second, back, hscan, hfirst, hsecond,
      (laidOut_of_scan hscan).continuation_ne_zero hfirst hsecond⟩

theorem Tree.not_splitsBreak (h : Tree.read .script source = .ok tree) : ¬source.SplitsBreak := by
  obtain ⟨tokens, hscan, htidy⟩ := Tree.exists_tidy h
  rw [Source.splitsBreak_iff hscan]
  exact not_not_intro htidy

theorem Tree.exists_read_of_unfolded (hs : ¬source.SplitsBreak)
    (h : Tree.read .script source.unfolded = .ok tree) :
    ∃ tree', Tree.read .script source = .ok tree' := by
  obtain ⟨tokens', hscan', -⟩ := Tree.exists_tidy h
  have hrespaced := source.respaced_unfolded
  cases hscan : Token.scan .script source.chars.toList with
  | none =>
    have hnone := hrespaced.scan_none 0 hscan
    rw [Token.scan, hnone] at hscan'
    contradiction
  | some tokens =>
    rw [Source.splitsBreak_iff hscan, not_not] at hs
    obtain ⟨found, hfound, halike, -⟩ := hrespaced.scan_some 0 hscan hs
    obtain rfl := Option.some.inj (hscan'.symm.trans hfound)
    obtain ⟨tree', hread, -⟩ := Tree.exists_relocated_of_alike h hscan' hscan halike.symm
    exact ⟨tree', hread⟩

namespace Program

theorem keepsSign_true (tree : Tree) : tree.KeepsSign fun _ => True :=
  fun _ _ _ _ _ _ => trivial

/-- A text holds a program exactly if it does not split line breaks and holds the same program, up
to places, with spaces for its continuations. If it splits line breaks, it is refused for its
syntax. -/
theorem read_unfolded (source : Source) :
    (∀ b, (∃ p, Program.read source = .ok p ∧ p.map Stmt.bare = b) ↔
      ¬source.SplitsBreak ∧
        ∃ q, Program.read source.unfolded = .ok q ∧ q.map Stmt.bare = b) ∧
    (source.SplitsBreak → ∃ failure, Program.read source = .error (.rejected failure) ∧
      failure.code = .badSyntax) := by
  constructor
  · intro b
    have hboth {tree : Tree} (h : Tree.read .script source = .ok tree) :
        (∃ q, Program.read source.unfolded = .ok q ∧ q.map Stmt.bare = b) ↔
          ∃ p, Program.read source = .ok p ∧ p.map Stmt.bare = b := by
      obtain ⟨tree', h', hr⟩ := Tree.exists_relocated h source.respaced_unfolded
      rw [read_relocated_iff h h' hr b, and_iff_left fun t _ => keepsSign_true t]
    constructor
    · rintro ⟨p, hp, hb⟩
      obtain ⟨tree, htree, -⟩ := read_eq_ok_iff.mp hp
      exact ⟨Tree.not_splitsBreak htree, (hboth htree).mpr ⟨p, hp, hb⟩⟩
    · rintro ⟨hs, q, hq, hb⟩
      obtain ⟨tree', htree', -⟩ := read_eq_ok_iff.mp hq
      obtain ⟨tree, htree⟩ := Tree.exists_read_of_unfolded hs htree'
      exact (hboth htree).mp ⟨q, hq, hb⟩
  · intro hs
    cases htree : Tree.read .script source with
    | ok tree => exact absurd hs (Tree.not_splitsBreak htree)
    | error failure =>
      refine ⟨failure, ?_, Tree.code_of_unread htree⟩
      rw [Program.read, Walk.over, htree]

/-- The lines `a` and `b` are a program with a blank line between them, and are refused with a
continuation on that line. -/
theorem not_read_iff_unfolded :
    ¬ ∀ (source : Source) (b : Program),
      (∃ p, Program.read source = .ok p ∧ p.map Stmt.bare = b) ↔
        ∃ q, Program.read source.unfolded = .ok q ∧ q.map Stmt.bare = b := by
  intro h
  let source := Source.ofString "a\n\\\n\nb"
  let loc := fun start stop => some (Span.ofOffsets source.unfolded start stop)
  have hrefused : (Program.read source).toOption = none := by decide +kernel
  have hread : Program.read source.unfolded =
      .ok [.expr (.ident "a" (loc 0 1)) (loc 0 1), .expr (.ident "b" (loc 4 5)) (loc 4 5)] := by
    decide +kernel
  obtain ⟨p, hp, -⟩ := (h source _).mpr ⟨_, hread, rfl⟩
  rw [hp] at hrefused
  contradiction

end Program
end ArithScript
