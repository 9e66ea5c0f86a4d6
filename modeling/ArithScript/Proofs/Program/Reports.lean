import ArithScript.Proofs.Program.Refusals
import ArithScript.Proofs.Text.Position

/-!
The report on a text that holds no program. There is exactly one diagnostic for it, which says what
the failure says and stands where the failure was found.
-/
namespace ArithScript

/-- The offset that is kept is that of the last token, if there is one. -/
def Config.Tracked (c : Config) : Prop :=
  c.latest = (c.stack.tokens.getLast?.map Token.start).getD 0

/-- The failure has a place in the text, and its message names the place and quotes what stands
there. The place is empty only if the text has no tokens. -/
def Failure.Located (source : Source) (start : StartSymbol) (failure : Failure) : Prop :=
  ∃ (what : String) (first last : Nat), first ≤ last ∧ last ≤ source.length ∧
    (first = last → Token.scan start source.chars.toList = some []) ∧
    failure.At ⟨first, last⟩ ∧
    failure.message = what ++ " at " ++ toString first ++ " " ++ toString last ++ ": " ++
      quoted (source.slice first last)

/-- The diagnostic is that of a failure to read the file with the text. It says what the failure
says, and its message ends with the offsets of its span and the text between them; lines and columns
are counted. Something stands in the span, unless the text has no tokens. -/
structure Diagnostic.Tells (source : Source) (file : Option String) (failure : Failure)
    (d : Diagnostic) : Prop where
  code : d.code = some failure.code
  message : d.message = failure.message
  notes : d.notes = failure.notes
  place : ∃ (what : String) (first last : Nat), first ≤ last ∧ last ≤ source.length ∧
    (first = last → Token.scan .script source.chars.toList = some []) ∧
    d.message = what ++ " at " ++ toString first ++ " " ++ toString last ++ ": " ++
      quoted (source.slice first last) ∧
    d.span =
      { file
        line := some (Position.after (source.chars.toList.take first)).line
        column := some (Position.after (source.chars.toList.take first)).column
        endLine := some (Position.after (source.chars.toList.take last)).line
        endColumn := some (Position.after (source.chars.toList.take last)).column
        start := some first
        stop := some last }

variable {source : Source} {start : StartSymbol} {text : List Char} {failure : Failure}
  {refusal : Refusal}

theorem Step.tracked {c c' : Config} (h : Step start text c c') (hc : c.Sound start text)
    (ht : c.Tracked) : c'.Tracked := by
  cases h with
  | skip hi => exact ht
  | @shift t n s hi hfirst hs =>
    rw [Config.Tracked, Stack.tokens, (hc.linked.reduceFor (some t)).2]
    simp [Derivation.yield, Token.ofPrefix]

theorem Reached.tracked {c : Config} (h : Reached start text c) : c.Tracked := by
  induction h with
  | init => rfl
  | step before next ih => exact next.tracked before.sound ih

theorem Config.Stops.offset_lt {c : Config} (h : c.Stops start text refusal)
    (hc : c.Sound start text) (ht : c.Tracked) :
    refusal.offset < text.length ∨ refusal.offset = 0 ∧ Token.scan start text = some [] := by
  cases h with
  | unreadable hne hi hfirst => exact .inl (lt_of_drop_ne_nil hne)
  | misplaced hi hfirst hs => exact .inl (lt_of_drop_ne_nil (ne_nil_of_first? hfirst))
  | unfinished hend hs =>
    change c.latest < text.length ∨ c.latest = 0 ∧ _
    cases hlast : c.stack.tokens.getLast? with
    | none =>
      have hnil := List.getLast?_eq_none_iff.mp hlast
      have hscan := hc.read.scan
      rw [List.take_of_length_le (List.drop_eq_nil_iff.mp hend), hnil] at hscan
      rw [Config.Tracked, hlast] at ht
      exact .inr ⟨ht, hscan⟩
    | some token =>
      have hstands := hc.read.laidOut.standsIn token (List.mem_of_getLast? hlast)
      rw [Config.Tracked, hlast] at ht
      have hlt := hstands.lt
      have hle := hstands.le
      refine .inl ?_
      rw [ht]
      exact Nat.lt_of_lt_of_le hlt hle

theorem Refusal.offset_lt (h : Derivation.parse start text = .error refusal) :
    refusal.offset < text.length ∨ refusal.offset = 0 ∧ Token.scan start text = some [] := by
  obtain ⟨c, hc, hstops⟩ := Reached.init.exists_stops h
  exact hstops.offset_lt hc.sound hc.tracked

theorem Failure.located_ofProblem {problem : Problem} {first last : Nat} (notes : List String)
    (hle : first ≤ last) (hlast : last ≤ source.length)
    (hempty : first = last → Token.scan start source.chars.toList = some []) :
    (ofProblem source problem ⟨first, last⟩ notes).Located source start :=
  ⟨problem.text, first, last, hle, hlast, hempty, ⟨rfl, rfl⟩, rfl⟩

theorem Failure.located_of_within {problem : Problem} {extent : Extent}
    (h : extent.Within source.chars.toList.length) :
    (ofProblem source problem extent).Located source start := by
  obtain ⟨first, last, hlt, hle, rfl⟩ := h
  apply located_ofProblem
  · exact Nat.le_of_lt hlt
  · simpa [Source.length] using hle
  · omega

theorem Tree.Faulty.within {t tree : Tree} {problem : Problem} {extent : Extent} {length : Nat}
    (h : t.Faulty source problem extent) (ht : t ∈ tree.subtrees)
    (hw : ∀ u ∈ tree.subtrees, u.extent.Within length) : extent.Within length := by
  cases h with
  | operator hk hc => exact hw _ (mem_subtrees_of_mem_children ht (by simp [hc]))
  | sign hk hc => exact hw _ (mem_subtrees_of_mem_children ht (by simp [hc]))
  | _ => exact hw t ht

theorem Tree.Reports.located {tree : Tree} (h : Tree.read start source = .ok tree)
    (hr : tree.Reports source failure) : failure.Located source start := by
  obtain ⟨t, ht, -, problem, extent, hfaulty, rfl⟩ := hr
  apply Failure.located_of_within
  cases start with
  | expr =>
    obtain ⟨tokens, hscan, hshape⟩ := Tree.read_expr_iff.mp h
    exact hfaulty.within ht fun u hu => (hshape.spans u hu).within (laidOut_of_scan hscan)
  | script =>
    obtain ⟨parts, hp, hscan, rfl⟩ := Tree.read_script_iff.mp h
    rw [subtrees_eq] at ht
    rcases List.mem_cons.mp ht with rfl | ht
    · -- nothing is wrong with a script itself
      cases hfaulty <;> simp_all [ScriptParts.tree, spanning, kind]
    · obtain ⟨child, hchild, ht⟩ := List.mem_flatMap.mp ht
      obtain ⟨p, hmem, rfl⟩ := List.mem_map.mp hchild
      refine hfaulty.within ht fun u hu => ?_
      have hspans := ((hp.statements p hmem).spans u hu).mono (ScriptParts.tokens_within hmem)
      exact hspans.within (laidOut_of_scan hscan)

theorem Refusal.extent_fault (refusal : Refusal) (source : Source) :
    refusal.fault.extent source =
      ⟨refusal.offset, (min (refusal.offset + 1) source.length : Nat)⟩ := by
  have hmin : min ((refusal.offset : Int) + 1) source.length =
      (min (refusal.offset + 1) source.length : Nat) := by omega
  have hknown : refusal.fault.offset? = some (refusal.offset : Int) := by
    rw [Refusal.fault, SyntaxFault.offset?, Option.filter,
      if_pos (decide_eq_true (Int.natCast_nonneg _))]
  simp only [SyntaxFault.extent, hknown, Option.getD_some, hmin]

theorem Refusal.located (h : Derivation.parse start source.chars.toList = .error refusal) :
    (refusal.fault.failure source).Located source start := by
  have hlength : source.length = source.chars.toList.length := by simp [Source.length]
  have hoffset := Refusal.offset_lt h
  rw [SyntaxFault.failure, refusal.extent_fault]
  apply Failure.located_ofProblem
  · omega
  · omega
  · intro hempty
    rcases hoffset with hlt | ⟨-, hscan⟩
    · omega
    · exact hscan

theorem Cause.located (h : Cause source start failure) : failure.Located source start := by
  cases h with
  | unread h =>
    obtain ⟨refusal, hrefusal, rfl, -⟩ := Tree.exists_refusal h
    exact Refusal.located hrefusal
  | node h hr => exact hr.located h
  | @empty tokens hs hscan hb hf =>
    subst hs hf
    cases tokens with
    | nil => exact Failure.located_ofProblem [] (Nat.le_refl 0) (Nat.zero_le _) fun _ => hscan
    | cons token rest =>
      have hextent := extent?_cons token rest
      obtain ⟨first, -, hlt, hle, -, -, heq⟩ := (laidOut_of_scan hscan).exists_start hextent
      rw [hextent, Option.getD_some]
      exact Failure.located_of_within ⟨first, _, hlt, hle, heq⟩

theorem Diagnostic.tells_ofFailure (file : Option String) (h : failure.Located source .script) :
    (Diagnostic.ofFailure failure source file).Tells source file failure := by
  obtain ⟨what, first, last, hle, hlast, hempty, ⟨hstart, hstop⟩, hmessage⟩ := h
  have hlength : source.length = source.chars.toList.length := by simp [Source.length]
  refine ⟨rfl, rfl, rfl, what, first, last, hle, hlast, hempty, hmessage, ?_⟩
  rw [Diagnostic.ofFailure, Failure.span, hstart, hstop]
  dsimp only
  rw [Span.ofOffsets, Source.position_eq_after (x := first) (by omega),
    Source.position_eq_after (x := last) (by omega)]

/-- A text is reported on once, or not at all. Reading it with diagnostics gives its program without
any, or no statement and the one diagnostic that tells why reading it fails. -/
theorem Program.readOrReport_tells (source : Source) (file : Option String) :
    (∃ p, Program.read source = .ok p ∧ Program.readOrReport source file = .ok (p, [])) ∨
      ∃ failure d, Program.read source = .error (.rejected failure) ∧
        Program.readOrReport source file = .ok ([], [d]) ∧ d.Tells source file failure := by
  cases hread : Program.read source with
  | ok p => exact .inl ⟨p, rfl, by rw [readOrReport, hread]⟩
  | error fault =>
    obtain ⟨failure, rfl, hcause⟩ := (Refused.program hread).exists_cause
    exact .inr ⟨failure, _, rfl, by rw [readOrReport, hread],
      Diagnostic.tells_ofFailure file hcause.located⟩

end ArithScript
