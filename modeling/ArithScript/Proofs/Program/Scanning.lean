import ArithScript.Proofs.Grammar.Spelling
import ArithScript.Proofs.Program.Printable

/-! How pieces of text are cut into tokens when they stand before a rest that cannot extend them. -/
namespace ArithScript

def Token.at (t : Terminal) (offset : Nat) (chars : List Char) : Token :=
  ⟨t, String.ofList chars, offset, offset + chars.length⟩

/-- Before the rest, the characters are cut into the tokens. -/
def Scans (offset : Nat) (chars : List Char) (tokens : List Token) (rest : List Char) : Prop :=
  Token.scanFrom .script offset (chars ++ rest) =
    (Token.scanFrom .script (offset + chars.length) rest).map (tokens ++ ·)

/-- The rest begins with a character that ends names and numbers and begins no ignored text of more
than itself. -/
def Boundary (rest : List Char) : Prop :=
  ∀ c ∈ rest.head?, c ∈ ['(', ')', ',', ' ', '\n']

theorem Boundary.stops {rest : List Char} (h : Boundary rest) : Stops rest := by
  intro c hc
  have hmem := h c hc
  simp only [List.mem_cons, List.not_mem_nil, or_false] at hmem
  rcases hmem with rfl | rfl | rfl | rfl | rfl <;> decide

theorem Boundary.not_isNamePart {rest : List Char} (h : Boundary rest) :
    ∀ c ∈ rest.head?, Lexeme.isNamePart c = false := by
  intro c hc
  have hmem := h c hc
  simp only [List.mem_cons, List.not_mem_nil, or_false] at hmem
  rcases hmem with rfl | rfl | rfl | rfl | rfl <;> decide

/-- The rest does not go on with blanks, comments or line breaks. -/
def Solid (rest : List Char) : Prop :=
  ∀ c ∈ rest.head?, Lexeme.isBlank c = false ∧ c ∉ ['\n', '\r', '#']

theorem Solid.blanks {rest : List Char} (h : Solid rest) : Lexeme.blanks rest = 0 := by
  cases rest with
  | nil => rfl
  | cons c rest => simp [Lexeme.blanks, (h c rfl).1]

theorem Solid.newlines {rest : List Char} (h : Solid rest) : Lexeme.newlines rest = 0 := by
  by_contra hn
  cases rest with
  | nil => exact hn (Lexeme.ofTerminal_nil .newline)
  | cons c rest =>
    have hc := (h c rfl).2
    rcases Lexeme.leading_of_newlines hn with rfl | rfl | rfl <;> exact hc (by decide)

namespace Scans
variable {offset : Nat} {xs ys rest : List Char} {ts us : List Token}

theorem append (h : Scans offset xs ts (ys ++ rest)) (h' : Scans (offset + xs.length) ys us rest) :
    Scans offset (xs ++ ys) (ts ++ us) rest := by
  unfold Scans at h h' ⊢
  rw [List.append_assoc, h, h', Option.map_map, List.length_append, Nat.add_assoc]
  congr 1
  funext tokens
  exact (List.append_assoc ts us tokens).symm

theorem lexeme {t : Terminal} (h : Lexeme.ofTerminal t (xs ++ rest) = xs.length) (hne : xs ≠ [])
    (he : t = .equal → Lexeme.compOp (xs ++ rest) = 0) :
    Scans offset xs [Token.at t offset xs] rest := by
  obtain ⟨n, hn⟩ : ∃ n, xs.length = n + 1 := Nat.exists_eq_add_one.mpr (List.length_pos_iff.mpr hne)
  have hpos : Lexeme.ofTerminal t (xs ++ rest) ≠ 0 := by
    rw [h, hn]
    exact Nat.succ_ne_zero n
  have hfirst : Lexeme.first? StartSymbol.script.hasTerminal (xs ++ rest) = some (t, n + 1) :=
    Lexeme.first?_eq_some_iff.mpr ⟨rfl, h.trans hn, Nat.succ_ne_zero n, fun ht _ => he ht⟩
  unfold Scans
  rw [Token.scanFrom_of_first? (Lexeme.ignored_of_lexeme hpos) (by simp [hne]) hfirst, ← hn,
    List.drop_left]
  unfold Token.ofPrefix Token.at
  rw [List.take_left]
  rfl

theorem blank (h : Solid rest) : Scans offset [' '] [] rest := by
  have hi : Lexeme.ignored ([' '] ++ rest) = 0 + 1 := by
    have hnone : Lexeme.blanks rest = 0 := h.blanks
    have hblanks : Lexeme.blanks (' ' :: rest) = Lexeme.blanks rest + 1 := rfl
    rw [Lexeme.ignored, List.singleton_append, hblanks, hnone]
    rfl
  unfold Scans
  rw [Token.scanFrom_of_ignored hi (by simp)]
  simp

theorem name {s : String} (hs : isName s = true)
    (hr : ∀ c ∈ rest.head?, Lexeme.isNamePart c = false) :
    Scans offset s.toList [Token.at .name offset s.toList] rest := by
  unfold isName at hs
  split at hs
  · contradiction
  · rename_i c later hchars
    rw [Bool.and_eq_true] at hs
    rw [hchars]
    refine lexeme ?_ (by simp) (by simp)
    have hlater : (later ++ rest).takeWhile Lexeme.isNamePart = later := by
      rw [List.takeWhile_append_of_pos (List.all_eq_true.mp hs.2)]
      cases rest with
      | nil => simp
      | cons d rest => simp [hr d rfl]
    rw [Lexeme.ofTerminal, List.cons_append, Lexeme.name, if_pos hs.1, hlater, List.length_cons]
    omega

theorem numeral {n : Numeral} (hn : n.WellFormed) (hr : Stops rest) :
    Scans offset n.chars [Token.at .number offset n.chars] rest := by
  have hne : n.chars ≠ [] := by
    obtain ⟨c, later, h, -⟩ := Numeral.exists_cons hn
    rw [h]
    simp
  refine lexeme ?_ hne (by simp)
  rw [Lexeme.ofTerminal, Lexeme.number, Numeral.scan_chars hn hr]

theorem single {t : Terminal} {mark : Char} (h : Lexeme.ofTerminal t = Lexeme.single mark)
    (he : t ≠ .equal) : Scans offset [mark] [Token.at t offset [mark]] rest := by
  refine lexeme ?_ (by simp) (fun ht => absurd ht he)
  rw [h]
  simp [Lexeme.single]

theorem equal (hr : ∀ c ∈ rest.head?, c ≠ '=') :
    Scans offset ['='] [Token.at .equal offset ['=']] rest := by
  refine lexeme ?_ (by simp) (fun _ => ?_)
  · simp [Lexeme.ofTerminal, Lexeme.single]
  · cases rest with
    | nil => rfl
    | cons c rest =>
      have hc := hr c rfl
      simp [Lexeme.compOp, hc]

theorem newline (hr : Solid rest) :
    Scans offset ['\n'] [Token.at .newline offset ['\n']] rest := by
  have hpiece : Lexeme.newlinePiece ('\n' :: rest) = 1 + Lexeme.blanks rest := rfl
  refine lexeme ?_ (by simp) (by simp)
  rw [Lexeme.ofTerminal, List.singleton_append, Lexeme.newlines]
  simp [hpiece, hr.blanks, hr.newlines]

end Scans
end ArithScript
