import Mathlib.Data.List.DropRight
import Mathlib.Tactic.Common
import ArithScript.Text.Span

/-! Lines and columns. The line of an offset is found by halving, and it is the one that the line
breaks in front of the offset count. -/
namespace ArithScript

/-- If the entries up to an index and no others reach up to the offset, that index is found. -/
theorem firstBeyond_eq {starts : Array Nat} {offset lo hi k : Nat} (hlo : lo ≤ k) (hhi : k ≤ hi)
    (hbelow : ∀ j < k, starts.getD j 0 ≤ offset)
    (habove : ∀ j, k ≤ j → j < hi → offset < starts.getD j 0) :
    firstBeyond starts offset lo hi = k := by
  fun_induction firstBeyond starts offset lo hi with
  | case1 lo hi hlt mid hmid ih =>
    have hle : k ≤ mid := by
      by_contra hk
      have := hbelow mid (by omega)
      omega
    exact ih hlo hle fun j hj hjmid => habove j hj (by omega)
  | case2 lo hi hlt mid hmid ih =>
    have hle : mid + 1 ≤ k := by
      by_contra hk
      have := habove mid (by omega) (by omega)
      omega
    exact ih hle hhi habove
  | case3 lo hi hlt => omega

theorem firstBeyond_append {below above : List Nat} {offset : Nat}
    (hbelow : ∀ x ∈ below, x ≤ offset) (habove : ∀ x ∈ above, offset < x) :
    firstBeyond (below ++ above).toArray offset 0 (below ++ above).toArray.size = below.length := by
  apply firstBeyond_eq (Nat.zero_le _)
  · simp
  · intro j hj
    have hget : (below ++ above).toArray.getD j 0 = below[j] := by
      simp [Array.getD, List.getElem_append_left hj, Nat.lt_add_right _ hj]
    rw [hget]
    exact hbelow _ (List.getElem_mem hj)
  · intro j hj hlt
    have hget : (below ++ above).toArray.getD j 0 = (below ++ above).get ⟨j, hlt⟩ := by
      simp only [Array.getD, hlt, ↓reduceDIte]
      rfl
    rw [hget, List.get_eq_getElem, List.getElem_append_right hj]
    exact habove _ (List.getElem_mem _)

variable {offset : Nat} {chars more : List Char}

theorem offsetsAfterNewlines_append :
    offsetsAfterNewlines offset (chars ++ more) =
      offsetsAfterNewlines offset chars ++ offsetsAfterNewlines (offset + chars.length) more := by
  induction chars generalizing offset with
  | nil => rfl
  | cons c chars ih =>
    rw [List.cons_append, offsetsAfterNewlines, offsetsAfterNewlines, ih, List.length_cons,
      show offset + 1 + chars.length = offset + (chars.length + 1) by omega]
    split <;> rfl

theorem length_offsetsAfterNewlines :
    (offsetsAfterNewlines offset chars).length = chars.count '\n' := by
  induction chars generalizing offset with
  | nil => rfl
  | cons c chars ih =>
    rw [offsetsAfterNewlines, List.count_cons]
    split
    · simp [*]
    · simp [*]

theorem mem_offsetsAfterNewlines {x : Nat} (h : x ∈ offsetsAfterNewlines offset chars) :
    offset < x ∧ x ≤ offset + chars.length := by
  induction chars generalizing offset with
  | nil => contradiction
  | cons c chars ih =>
    rw [List.length_cons]
    rw [offsetsAfterNewlines] at h
    split at h
    · rcases List.mem_cons.mp h with rfl | h
      · omega
      · have := ih h
        omega
    · have := ih h
      omega

theorem offsetsAfterNewlines_eq_nil (h : '\n' ∉ chars) :
    offsetsAfterNewlines offset chars = [] := by
  rw [← List.length_eq_zero_iff, length_offsetsAfterNewlines]
  exact List.count_eq_zero.mpr h

theorem getLast?_lineStarts (h : chars = [] ∨ ∃ front, chars = front ++ ['\n']) :
    (lineStarts chars).getLast? = some chars.length := by
  rcases h with rfl | ⟨front, rfl⟩
  · rfl
  · rw [lineStarts, offsetsAfterNewlines_append]
    simp [offsetsAfterNewlines, List.getLast?_cons]

theorem getElem?_lineStarts (h : chars = [] ∨ ∃ front, chars = front ++ ['\n']) :
    (lineStarts (chars ++ more))[chars.count '\n']? = some chars.length := by
  have hlength : (lineStarts chars).length = chars.count '\n' + 1 := by
    rw [lineStarts, List.length_cons, length_offsetsAfterNewlines]
  have hlast := getLast?_lineStarts h
  rw [List.getLast?_eq_getElem?, hlength, Nat.add_sub_cancel] at hlast
  have hsplit : lineStarts (chars ++ more) =
      lineStarts chars ++ offsetsAfterNewlines (0 + chars.length) more := by
    rw [lineStarts, offsetsAfterNewlines_append]
    rfl
  rw [hsplit, List.getElem?_append_left (by omega), hlast]

/-- In a text that goes on with a line after whole lines, the offsets on that line have its number
and count their columns from its start. -/
theorem Source.position_eq {source : Source} {front line rest : List Char} {x : Nat}
    (hchars : source.chars.toList = front ++ (line ++ rest))
    (hfront : front = [] ∨ ∃ before, front = before ++ ['\n']) (hline : '\n' ∉ line)
    (hx : front.length ≤ x) (hle : x ≤ front.length + line.length) :
    source.position x = ⟨front.count '\n' + 1, x - front.length + 1⟩ := by
  let later := offsetsAfterNewlines (front.length + line.length) rest
  have hstarts : source.starts = (lineStarts front ++ later).toArray := by
    rw [source.starts_eq, hchars, lineStarts, offsetsAfterNewlines_append,
      offsetsAfterNewlines_append, offsetsAfterNewlines_eq_nil hline, Nat.zero_add]
    rfl
  have hlength : (lineStarts front).length = front.count '\n' + 1 := by
    rw [lineStarts, List.length_cons, length_offsetsAfterNewlines]
  have hbelow : ∀ y ∈ lineStarts front, y ≤ x := by
    intro y hy
    rcases List.mem_cons.mp hy with rfl | hy
    · exact Nat.zero_le _
    · have := mem_offsetsAfterNewlines hy
      omega
  have habove : ∀ y ∈ later, x < y := by
    intro y hy
    have := mem_offsetsAfterNewlines hy
    omega
  have hclamp : source.clamp x = x := by
    have hsize : source.length = front.length + (line.length + rest.length) := by
      rw [Source.length, ← Array.length_toList, hchars, List.length_append, List.length_append]
    rw [Source.clamp, hsize, Int.toNat_natCast]
    omega
  have hstart : source.starts.getD (front.count '\n') 0 = front.length := by
    rw [source.starts_eq, hchars]
    simp [getElem?_lineStarts hfront]
  rw [position]
  rw [hstarts] at hstart
  simp only [hclamp, hstarts, firstBeyond_append hbelow habove, hlength, Nat.add_sub_cancel, hstart]

/-- The line and the column after some text, by the line breaks in it and by what follows the last
of them. -/
def Position.after (text : List Char) : Position :=
  ⟨text.count '\n' + 1, (text.rtakeWhile (· ≠ '\n')).length + 1⟩

theorem rdropWhile_newline (text : List Char) :
    text.rdropWhile (· ≠ '\n') = [] ∨ ∃ front, text.rdropWhile (· ≠ '\n') = front ++ ['\n'] := by
  by_cases hnil : text.rdropWhile (· ≠ '\n') = []
  · exact .inl hnil
  · have hnot := List.rdropWhile_last_not (· ≠ '\n') text hnil
    have hlast : (text.rdropWhile (· ≠ '\n')).getLast hnil = '\n' := by
      rwa [decide_eq_true_eq, not_not] at hnot
    have hsplit := List.dropLast_append_getLast hnil
    rw [hlast] at hsplit
    exact .inr ⟨_, hsplit.symm⟩

theorem newline_notMem_rtakeWhile (text : List Char) : '\n' ∉ text.rtakeWhile (· ≠ '\n') := by
  intro hmem
  simpa using List.mem_rtakeWhile_imp hmem

theorem count_rdropWhile (text : List Char) :
    (text.rdropWhile (· ≠ '\n')).count '\n' = text.count '\n' := by
  have hsplit : text.rdropWhile (· ≠ '\n') ++ text.rtakeWhile (· ≠ '\n') = text :=
    List.rdropWhile_append_rtakeWhile
  conv_rhs => rw [← hsplit, List.count_append]
  rw [List.count_eq_zero.mpr (newline_notMem_rtakeWhile text), Nat.add_zero]

theorem Source.position_eq_after {source : Source} {x : Nat} (hx : x ≤ source.chars.toList.length) :
    source.position x = .after (source.chars.toList.take x) := by
  let before := source.chars.toList.take x
  let front := before.rdropWhile (· ≠ '\n')
  let line := before.rtakeWhile (· ≠ '\n')
  have hsplit : front ++ line = before := List.rdropWhile_append_rtakeWhile
  have hlength : front.length + line.length = x := by
    rw [← List.length_append, hsplit, List.length_take_of_le hx]
  have hchars : source.chars.toList = front ++ (line ++ source.chars.toList.drop x) := by
    rw [← List.append_assoc, hsplit, List.take_append_drop]
  rw [position_eq hchars (rdropWhile_newline before) (newline_notMem_rtakeWhile before) (by omega)
    (by omega), Position.after]
  change _ = Position.mk (before.count '\n' + 1) (line.length + 1)
  rw [← count_rdropWhile before, show x - front.length = line.length by omega]

end ArithScript
