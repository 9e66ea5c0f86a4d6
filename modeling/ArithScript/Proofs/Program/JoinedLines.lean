import ArithScript.Proofs.Program.PlacedLine

/-!
Programs line by line. Without continuations, lines are read together exactly if each of them is
read by itself or has no statement, and their statements then follow each other.
-/
namespace ArithScript

variable {α β γ : Type} {R : α → β → Prop}

theorem forall₂_congr_of_mem {S : α → β → Prop} {xs : List α} {ys : List β}
    (h : ∀ x ∈ xs, ∀ y, R x y ↔ S x y) : List.Forall₂ R xs ys ↔ List.Forall₂ S xs ys := by
  constructor
  · intro hr
    exact forall₂_imp_of_mem hr fun x hx y => (h x hx y).mp
  · intro hs
    exact forall₂_imp_of_mem hs fun x hx y => (h x hx y).mpr

theorem forall₂_append_left_iff {xs ys : List α} {zs : List β} :
    List.Forall₂ R (xs ++ ys) zs ↔
      ∃ us vs, List.Forall₂ R xs us ∧ List.Forall₂ R ys vs ∧ us ++ vs = zs := by
  constructor
  · intro h
    have hxs := List.forall₂_take xs.length h
    have hys := List.forall₂_drop xs.length h
    rw [List.take_left] at hxs
    rw [List.drop_left] at hys
    exact ⟨_, _, hxs, hys, List.take_append_drop ..⟩
  · rintro ⟨us, vs, hxs, hys, rfl⟩
    exact List.rel_append hxs hys

theorem forall₂_exists_map_iff {f : β → γ} {xs : List α} {zs : List γ} :
    List.Forall₂ (fun x z => ∃ y, R x y ∧ f y = z) xs zs ↔
      ∃ ys, List.Forall₂ R xs ys ∧ ys.map f = zs := by
  constructor
  · intro h
    induction h with
    | nil => exact ⟨[], .nil, rfl⟩
    | cons first later ih =>
      obtain ⟨y, hy, rfl⟩ := first
      obtain ⟨ys, hys, rfl⟩ := ih
      exact ⟨y :: ys, .cons hy hys, rfl⟩
  · rintro ⟨ys, hys, rfl⟩
    rw [List.forall₂_map_right_iff]
    exact hys.imp fun x y hxy => ⟨y, hxy, rfl⟩

/-- The program of the line alone, or no statement if the line is refused because it has none. -/
def HoldsOnLine (line : String) (q : Program) : Prop :=
  Program.read (.ofString line) = .ok q ∨
    q = [] ∧ ∃ failure, Program.read (.ofString line) = .error (.rejected failure) ∧
      failure.code = .emptyProgram

/-- The programs of lines one after the other, if the first line has the given number and the given
number of characters in front of it. -/
def Program.onLines (number front : Nat) : List String → List Program → Program
  | line :: lines, q :: qs =>
    q.map (Stmt.onLine number front) ++
      onLines (number + 1) (front + line.length + 1) lines qs
  | _, _ => []

variable {source : Source} {line : String} {lines : List String} {front rest : List Char}
  {number offset : Nat} {p q : Program} {qs : List Program}

theorem Program.ne_nil_of_read (hb : '\\' ∉ source.chars.toList)
    (h : Program.read source = .ok p) : p ≠ [] := by
  obtain ⟨found, -, hne, hp⟩ := (read_iff_runs hb).mp h
  rintro rfl
  exact hne (List.forall₂_nil_right_iff.mp hp)

theorem HoldsOnLine.ne_nil_iff (h : HoldsOnLine line q) (hline : IsLine line.toList) :
    q ≠ [] ↔ ∃ q, Program.read (.ofString line) = .ok q := by
  constructor
  · intro hne
    rcases h with hread | ⟨hnil, -⟩
    · exact ⟨q, hread⟩
    · contradiction
  · rintro ⟨q', hread⟩
    rcases h with hread' | ⟨-, failure, hrefused, -⟩
    · exact Program.ne_nil_of_read hline.backslash_notMem hread'
    · rw [hread] at hrefused
      contradiction

theorem holdsOnLine_iff (hb : '\\' ∉ line.toList) :
    HoldsOnLine line q ↔
      ∃ found, scanRuns 0 line.toList = some found ∧
        List.Forall₂ (Stands (.ofString line)) found q := by
  constructor
  · rintro (hread | ⟨rfl, hempty⟩)
    · obtain ⟨found, hfound, -, hq⟩ := (Program.read_iff_runs hb).mp hread
      exact ⟨found, hfound, hq⟩
    · exact ⟨[], (Program.read_empty_iff hb).mp hempty, .nil⟩
  · rintro ⟨found, hfound, hq⟩
    by_cases hne : found = []
    · subst hne
      exact .inr ⟨List.forall₂_nil_left_iff.mp hq, (Program.read_empty_iff hb).mpr hfound⟩
    · exact .inl ((Program.read_iff_runs hb).mpr ⟨found, hfound, hne, hq⟩)

theorem LineAt.holds_iff (h : LineAt source front line rest) :
    (∃ found, scanRuns front.length line.toList = some found ∧
      List.Forall₂ (Stands source) found p) ↔
        ∃ q, HoldsOnLine line q ∧
          q.map (Stmt.onLine (front.count '\n' + 1) front.length) = p := by
  have hplaced {found : List (List Token)}
      (hfound : scanRuns front.length line.toList = some found) :
      List.Forall₂ (Stands source) found p ↔
        ∃ q, List.Forall₂ (Stands (.ofString line))
            (found.map (List.map (Token.back front.length))) q ∧
          q.map (Stmt.onLine (front.count '\n' + 1) front.length) = p := by
    rw [forall₂_congr_of_mem (h.stands_iff hfound), forall₂_exists_map_iff]
    simp only [List.forall₂_map_left_iff]
  simp only [holdsOnLine_iff h.isLine.backslash_notMem, scanRuns_back front.length line.toList]
  constructor
  · rintro ⟨found, hfound, hp⟩
    obtain ⟨q, hq, hmap⟩ := (hplaced hfound).mp hp
    exact ⟨q, ⟨_, by rw [hfound, Option.map_some], hq⟩, hmap⟩
  · rintro ⟨q, ⟨back, hback, hq⟩, hmap⟩
    obtain ⟨found, hfound, rfl⟩ := Option.map_eq_some_iff.mp hback
    exact ⟨found, hfound, (hplaced hfound).mpr ⟨q, hq, hmap⟩⟩

theorem exists_onLines_cons :
    (∃ qs, List.Forall₂ HoldsOnLine (line :: lines) qs ∧
      Program.onLines number offset (line :: lines) qs = p) ↔
        ∃ q qs, HoldsOnLine line q ∧ List.Forall₂ HoldsOnLine lines qs ∧
          q.map (Stmt.onLine number offset) ++
            Program.onLines (number + 1) (offset + line.length + 1) lines qs = p := by
  constructor
  · rintro ⟨qs, hqs, hp⟩
    obtain ⟨q, later, hq, hlater, rfl⟩ := List.forall₂_cons_left_iff.mp hqs
    exact ⟨q, later, hq, hlater, hp⟩
  · rintro ⟨q, later, hq, hlater, hp⟩
    exact ⟨q :: later, .cons hq hlater, hp⟩

def joined (lines : List String) : List Char := ['\n'].intercalate (lines.map String.toList)

theorem joined_singleton (line : String) : joined [line] = line.toList :=
  List.intercalate_singleton

theorem joined_cons_cons (line next : String) (lines : List String) :
    joined (line :: next :: lines) = line.toList ++ '\n' :: joined (next :: lines) := by
  rw [joined, List.map_cons, List.map_cons, List.intercalate_cons_cons, List.append_assoc]
  rfl

theorem backslash_notMem_joined (clean : ∀ line ∈ lines, IsLine line.toList) :
    '\\' ∉ joined lines := by
  induction lines with
  | nil => exact List.not_mem_nil
  | cons line lines ih =>
    obtain ⟨hline, hlater⟩ := List.forall_mem_cons.mp clean
    cases lines with
    | nil =>
      rw [joined_singleton]
      exact hline.backslash_notMem
    | cons next lines =>
      rw [joined_cons_cons, List.mem_append, List.mem_cons]
      rintro (hmem | hmem | hmem)
      · exact hline.backslash_notMem hmem
      · contradiction
      · exact ih hlater hmem

theorem exists_scanRuns_before (h : IsLine line.toList) :
    (∃ found, scanRuns offset (line.toList ++ '\n' :: rest) = some found ∧
      List.Forall₂ (Stands source) found p) ↔
        ∃ q q', (∃ found, scanRuns offset line.toList = some found ∧
          List.Forall₂ (Stands source) found q) ∧
            (∃ found, scanRuns (offset + line.length + 1) rest = some found ∧
              List.Forall₂ (Stands source) found q') ∧ q ++ q' = p := by
  rw [scanRuns_before h, String.length_toList]
  constructor
  · rintro ⟨all, hall, hp⟩
    obtain ⟨found, hfound, hmap⟩ := Option.bind_eq_some_iff.mp hall
    obtain ⟨later, hlater, rfl⟩ := Option.map_eq_some_iff.mp hmap
    obtain ⟨q, q', hq, hq', rfl⟩ := forall₂_append_left_iff.mp hp
    exact ⟨q, q', ⟨found, hfound, hq⟩, ⟨later, hlater, hq'⟩, rfl⟩
  · rintro ⟨q, q', ⟨found, hfound, hq⟩, ⟨later, hlater, hq'⟩, rfl⟩
    refine ⟨found ++ later, ?_, List.rel_append hq hq'⟩
    rw [hfound, hlater]
    rfl

/-- The tokens of lines that follow whole lines stand for what the lines hold. -/
theorem holds_lines_iff (clean : ∀ line ∈ lines, IsLine line.toList)
    (hfront : front = [] ∨ ∃ before, front = before ++ ['\n'])
    (hchars : source.chars.toList = front ++ joined lines) :
    (∃ found, scanRuns front.length (joined lines) = some found ∧
      List.Forall₂ (Stands source) found p) ↔
        ∃ qs, List.Forall₂ HoldsOnLine lines qs ∧
          Program.onLines (front.count '\n' + 1) front.length lines qs = p := by
  -- on the lines, with those already read in front
  induction lines generalizing front p with
  | nil =>
    have hscan : scanRuns front.length (joined []) = some [] := by
      rw [joined, List.map_nil, List.intercalate_nil, scanRuns_nil]
    simp only [hscan, Option.some_inj, List.forall₂_nil_left_iff, exists_eq_left, Program.onLines,
      eq_comm]
  | cons line lines ih =>
    obtain ⟨hline, hlater⟩ := List.forall_mem_cons.mp clean
    rw [exists_onLines_cons]
    cases lines with
    | nil =>
      rw [joined_singleton] at hchars ⊢
      have hat : LineAt source front line [] :=
        ⟨by rw [hchars, List.append_nil], hfront, .inl rfl, hline⟩
      rw [hat.holds_iff]
      simp [Program.onLines]
    | cons next lines =>
      rw [joined_cons_cons] at hchars ⊢
      have hat : LineAt source front line ('\n' :: joined (next :: lines)) :=
        ⟨hchars, hfront, .inr ⟨_, rfl⟩, hline⟩
      -- for the lines after this one, it is in front, together with the break at its end
      obtain ⟨behind, hlength, hcount, hends, hrest⟩ := hat.exists_behind
      have hlines (p' : Program) := @ih behind p' hlater (.inr hends) hrest
      rw [hlength, hcount] at hlines
      rw [exists_scanRuns_before hline]
      simp only [hat.holds_iff, hlines]
      constructor
      · rintro ⟨_, _, ⟨q, hq, rfl⟩, ⟨qs, hqs, rfl⟩, hp⟩
        exact ⟨q, qs, hq, hqs, hp⟩
      · rintro ⟨q, qs, hq, hqs, hp⟩
        exact ⟨_, _, ⟨q, hq, rfl⟩, ⟨qs, hqs, rfl⟩, hp⟩

theorem onLines_ne_nil_iff (clean : ∀ line ∈ lines, IsLine line.toList)
    (h : List.Forall₂ HoldsOnLine lines qs) :
    Program.onLines number offset lines qs ≠ [] ↔
      ∃ line ∈ lines, ∃ q, Program.read (.ofString line) = .ok q := by
  induction h generalizing number offset with
  | nil => simp [Program.onLines]
  | @cons line q lines qs hq _ ih =>
    obtain ⟨hline, hlater⟩ := List.forall_mem_cons.mp clean
    rw [Program.onLines, List.exists_mem_cons_iff, ← hq.ne_nil_iff hline, ← ih hlater, ne_eq,
      List.append_eq_nil_iff, List.map_eq_nil_iff, not_and_or]

/-- Lines are read together as a program exactly if each of them is read by itself or refused
because it has no statement, and at least one is read. The program has the statements of all lines
in order, with the places moved to the lines. -/
theorem Program.read_lines (clean : ∀ line ∈ lines, IsLine line.toList) (p : Program) :
    Program.read (.ofString ("\n".intercalate lines)) = .ok p ↔
      ∃ qs, List.Forall₂ HoldsOnLine lines qs ∧
        (∃ line ∈ lines, ∃ q, Program.read (.ofString line) = .ok q) ∧
          onLines 1 0 lines qs = p := by
  have hchars : (Source.ofString ("\n".intercalate lines)).chars.toList = [] ++ joined lines := by
    rw [joined, List.nil_append]
    exact String.toList_intercalate
  have hb : '\\' ∉ (Source.ofString ("\n".intercalate lines)).chars.toList := by
    rw [hchars]
    exact backslash_notMem_joined clean
  have hlines : (∃ found, scanRuns 0 (joined lines) = some found ∧
      List.Forall₂ (Stands (.ofString ("\n".intercalate lines))) found p) ↔
        ∃ qs, List.Forall₂ HoldsOnLine lines qs ∧ onLines 1 0 lines qs = p :=
    holds_lines_iff clean (.inl rfl) hchars
  rw [read_iff_runs hb, hchars, List.nil_append]
  constructor
  · rintro ⟨found, hfound, hne, hp⟩
    obtain ⟨qs, hqs, hall⟩ := hlines.mp ⟨found, hfound, hp⟩
    refine ⟨qs, hqs, ?_, hall⟩
    rw [← onLines_ne_nil_iff clean hqs, hall]
    rintro rfl
    exact hne (List.forall₂_nil_right_iff.mp hp)
  · rintro ⟨qs, hqs, hread, hall⟩
    rw [← onLines_ne_nil_iff clean hqs, hall] at hread
    obtain ⟨found, hfound, hp⟩ := hlines.mpr ⟨qs, hqs, hall⟩
    refine ⟨found, hfound, ?_, hp⟩
    rintro rfl
    exact hread (List.forall₂_nil_left_iff.mp hp)

theorem Program.read_lines_zero_and_print :
    let lines := ["a = 0", "", "  # zero", "print(a)"]
    let source := Source.ofString ("\n".intercalate lines)
    let loc := fun start stop => some (Span.ofOffsets source start stop)
    let p := [Stmt.define "a" (.number (.zero false) (loc 4 5)) (loc 0 5),
      Stmt.expr (.call1 .print (.ident "a" (loc 22 23)) (loc 16 24)) (loc 16 24)]
    (∀ line ∈ lines, IsLine line.toList) ∧ Program.read source = .ok p ∧
      ∃ qs, List.Forall₂ HoldsOnLine lines qs ∧
        (∃ line ∈ lines, ∃ q, Program.read (.ofString line) = .ok q) ∧
          onLines 1 0 lines qs = p := by
  intro lines source loc p
  have clean : ∀ line ∈ lines, IsLine line.toList := by simp [lines, IsLine]
  have h : Program.read source = .ok p := by decide +kernel
  exact ⟨clean, h, (read_lines clean p).mp h⟩

end ArithScript
