import ArithScript.Proofs.Text.Position

/-!
Offsets and positions of a text correspond one to one. The table of line starts is increasing and
holds the offset after each line break. It gives an offset back from its line and column, and later
offsets have later positions.
-/
namespace ArithScript

/-- The first position is on an earlier line, or in an earlier column of the same line. -/
def Position.Precedes (p q : Position) : Prop :=
  p.line < q.line ∨ p.line = q.line ∧ p.column < q.column

variable {chars : List Char} {source : Source}

theorem pairwise_offsetsAfterNewlines (offset : Nat) (chars : List Char) :
    (offsetsAfterNewlines offset chars).Pairwise (· < ·) := by
  induction chars generalizing offset with
  | nil => exact .nil
  | cons c chars ih =>
    rw [offsetsAfterNewlines]
    split
    · exact .cons (fun x hx => (mem_offsetsAfterNewlines hx).1) (ih (offset + 1))
    · exact ih (offset + 1)

theorem pairwise_lineStarts (chars : List Char) : (lineStarts chars).Pairwise (· < ·) :=
  .cons (fun _ hx => (mem_offsetsAfterNewlines hx).1) (pairwise_offsetsAfterNewlines 0 chars)

theorem mem_offsetsAfterNewlines_iff {offset x : Nat} :
    x ∈ offsetsAfterNewlines offset chars ↔ ∃ i, chars[i]? = some '\n' ∧ x = offset + i + 1 := by
  induction chars generalizing offset with
  | nil => simp [offsetsAfterNewlines]
  | cons c chars ih =>
    -- the break is the first character, or one of those after it
    have hlater : (∃ i, (c :: chars)[i]? = some '\n' ∧ x = offset + i + 1) ↔
        (c = '\n' ∧ x = offset + 1) ∨ ∃ i, chars[i]? = some '\n' ∧ x = offset + 1 + i + 1 := by
      constructor
      · rintro ⟨i, hi, hx⟩
        cases i with
        | zero => exact .inl ⟨by simpa using hi, hx⟩
        | succ i => exact .inr ⟨i, hi, by omega⟩
      · rintro (⟨hc, hx⟩ | ⟨i, hi, hx⟩)
        · exact ⟨0, by simp [hc], hx⟩
        · exact ⟨i + 1, hi, by omega⟩
    rw [hlater, offsetsAfterNewlines, ← ih]
    by_cases hc : c = '\n' <;> simp [hc]

theorem mem_lineStarts_iff {x : Nat} :
    x ∈ lineStarts chars ↔ x = 0 ∨ ∃ i, chars[i]? = some '\n' ∧ x = i + 1 := by
  simp [lineStarts, mem_offsetsAfterNewlines_iff]

theorem Source.cast_clamp (source : Source) (offset : Int) :
    (source.clamp offset : Int) = max 0 (min offset source.length) := by
  rw [clamp]
  omega

theorem Source.clamp_le (source : Source) (offset : Int) :
    source.clamp offset ≤ source.chars.toList.length := by
  rw [Array.length_toList]
  exact Nat.min_le_right offset.toNat source.length

theorem Source.position_eq_after_clamp (source : Source) (offset : Int) :
    source.position offset = .after (source.chars.toList.take (source.clamp offset)) := by
  have hclamp : source.clamp (source.clamp offset) = source.clamp offset := by
    rw [clamp, clamp, Int.toNat_natCast, Nat.min_assoc, Nat.min_self]
  rw [← position_eq_after (source.clamp_le offset), position, position, hclamp]

/-- The start of the line and the column on it lead back to the offset. -/
theorem Source.exists_lineStart (source : Source) (offset : Int) :
    ∃ first, source.starts[(source.position offset).line - 1]? = some first ∧
      first + (source.position offset).column - 1 = source.clamp offset := by
  let before := source.chars.toList.take (source.clamp offset)
  have hposition : source.position offset = .after before := source.position_eq_after_clamp offset
  have hsplit : before.rdropWhile (· ≠ '\n') ++ before.rtakeWhile (· ≠ '\n') = before :=
    List.rdropWhile_append_rtakeWhile
  have hchars : source.chars.toList = before.rdropWhile (· ≠ '\n') ++
      (before.rtakeWhile (· ≠ '\n') ++ source.chars.toList.drop (source.clamp offset)) := by
    rw [← List.append_assoc, hsplit, List.take_append_drop]
  have hlength : (before.rdropWhile (· ≠ '\n')).length + (before.rtakeWhile (· ≠ '\n')).length =
      source.clamp offset := by
    rw [← List.length_append, hsplit, List.length_take_of_le (source.clamp_le offset)]
  refine ⟨(before.rdropWhile (· ≠ '\n')).length, ?_, ?_⟩
  · rw [hposition, Position.after, Nat.add_sub_cancel, ← count_rdropWhile, source.starts_eq,
      List.getElem?_toArray, hchars]
    exact getElem?_lineStarts (rdropWhile_newline before)
  · rw [hposition, Position.after, ← Nat.add_assoc, Nat.add_sub_cancel]
    exact hlength

theorem Position.after_precedes {text more : List Char} (h : more ≠ []) :
    (after text).Precedes (after (text ++ more)) := by
  rw [Precedes, after, after, List.count_append]
  by_cases hbreak : '\n' ∈ more
  · have := List.count_pos_iff.mpr hbreak
    exact .inl (by dsimp only; omega)
  · have hline : (text ++ more).rtakeWhile (· ≠ '\n') = text.rtakeWhile (· ≠ '\n') ++ more := by
      rw [List.rtakeWhile, List.rtakeWhile, List.reverse_append, List.takeWhile_append_of_pos,
        List.reverse_append, List.reverse_reverse]
      intro c hc
      exact decide_eq_true fun heq => hbreak (heq ▸ List.mem_reverse.mp hc)
    have := List.length_pos_iff.mpr h
    rw [hline, List.count_eq_zero.mpr hbreak, List.length_append]
    exact .inr ⟨rfl, by dsimp only; omega⟩

theorem Source.position_precedes {x y : Int} (hx : 0 ≤ x) (hxy : x < y) (hy : y ≤ source.length) :
    (source.position x).Precedes (source.position y) := by
  have hlt : source.clamp x < source.clamp y := by
    have hcx := source.cast_clamp x
    have hcy := source.cast_clamp y
    omega
  obtain ⟨n, hn⟩ := Nat.exists_eq_add_of_lt hlt
  have hle := source.clamp_le y
  rw [position_eq_after_clamp, position_eq_after_clamp, hn, Nat.add_assoc, List.take_add]
  apply Position.after_precedes
  apply List.ne_nil_of_length_pos
  rw [List.length_take, List.length_drop]
  omega

/-- Offsets and positions of a text correspond. Line and column are counted up to the offset, which
is first moved into the text. The table of line starts is increasing and lists 0 and the offsets
after line breaks. With it the offset is found again, and within the text positions increase with
the offsets. -/
theorem Source.offsets_correspond (source : Source) :
    (∀ (start stop : Int) (file : Option String),
      let first := Position.after (source.chars.toList.take (source.clamp start))
      let last := Position.after (source.chars.toList.take (source.clamp stop))
      Span.ofOffsets source start stop file =
        { file
          line := some first.line
          column := some first.column
          endLine := some last.line
          endColumn := some last.column
          start := some start
          stop := some stop }) ∧
    (∀ offset : Int, (source.clamp offset : Int) = max 0 (min offset source.length)) ∧
    source.starts.toList.Pairwise (· < ·) ∧ source.starts[0]? = some 0 ∧
    (∀ x, x ∈ source.starts ↔ x = 0 ∨ ∃ i, source.chars[i]? = some '\n' ∧ x = i + 1) ∧
    (∀ offset : Int, ∃ first, source.starts[(source.position offset).line - 1]? = some first ∧
      first + (source.position offset).column - 1 = source.clamp offset) ∧
    ∀ x y : Int, 0 ≤ x → x < y → y ≤ source.length →
      (source.position x).Precedes (source.position y) := by
  refine ⟨fun start stop file => ?_, source.cast_clamp, ?_, ?_, fun x => ?_, source.exists_lineStart,
    fun x y => position_precedes⟩
  · rw [Span.ofOffsets, position_eq_after_clamp, position_eq_after_clamp]
  · rw [source.starts_eq]
    exact pairwise_lineStarts _
  · rw [source.starts_eq]
    rfl
  · rw [source.starts_eq, List.mem_toArray, mem_lineStarts_iff]
    simp

end ArithScript
