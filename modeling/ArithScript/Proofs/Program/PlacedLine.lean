import ArithScript.Proofs.Grammar.LineTokens
import ArithScript.Proofs.Grammar.Sentence
import ArithScript.Proofs.Program.StatementLines
import ArithScript.Proofs.Text.Position

/-!
Statements on a line of a longer text. They are those on the line alone, up to their places, which
are moved to the line in the whole text.
-/
namespace ArithScript

/-- A place in a text of one line, if this is the line with the given number in a text that has the
given number of characters in front of it. -/
def Span.onLine (number front : Nat) (span : Span) : Span :=
  { span with
    line := some number
    endLine := some number
    start := span.start.map (· + front)
    stop := span.stop.map (· + front) }

def Expr.mapLoc (f : Span → Span) : Expr → Expr
  | .number value loc => .number value (loc.map f)
  | .ident name loc => .ident name (loc.map f)
  | .call1 function argument loc => .call1 function (argument.mapLoc f) (loc.map f)
  | .call2 function first second loc =>
    .call2 function (first.mapLoc f) (second.mapLoc f) (loc.map f)
  | .binary op left right loc => .binary op (left.mapLoc f) (right.mapLoc f) (loc.map f)
  | .unknown => .unknown

def Stmt.mapLoc (f : Span → Span) : Stmt → Stmt
  | .define name value loc => .define name (value.mapLoc f) (loc.map f)
  | .expr e loc => .expr (e.mapLoc f) (loc.map f)
  | .unknown => .unknown

def Stmt.onLine (number front : Nat) : Stmt → Stmt := Stmt.mapLoc (Span.onLine number front)

variable {source : Source} {f g : Span → Span} {d o : Nat} {e : Expr} {s : Stmt}
  {tokens : List Token}

namespace Expr

theorem moved_eq_mapLoc (e : Expr) : e.moved source d = e.mapLoc (Span.moved source d) := by
  induction e <;> simp only [moved, mapLoc, *]

theorem mapLoc_mapLoc (e : Expr) : (e.mapLoc f).mapLoc g = e.mapLoc (g ∘ f) := by
  induction e <;> simp only [mapLoc, Option.map_map, *]

theorem mapLoc_eq_self (h : ∀ x ∈ e.subexprs, x.loc.map f = x.loc) : e.mapLoc f = e := by
  induction e with
  | number | ident =>
    have hself := h _ List.mem_cons_self
    rw [mapLoc]
    exact congrArg _ hself
  | call1 function argument loc ih =>
    obtain ⟨hself, hargument⟩ := List.forall_mem_cons.mp h
    rw [mapLoc, ih hargument]
    exact congrArg _ hself
  | call2 function first second loc ih ih' =>
    obtain ⟨hself, hbelow⟩ := List.forall_mem_cons.mp h
    obtain ⟨hfirst, hsecond⟩ := List.forall_mem_append.mp hbelow
    rw [mapLoc, ih hfirst, ih' hsecond]
    exact congrArg _ hself
  | binary op left right loc ih ih' =>
    obtain ⟨hself, hbelow⟩ := List.forall_mem_cons.mp h
    obtain ⟨hleft, hright⟩ := List.forall_mem_append.mp hbelow
    rw [mapLoc, ih hleft, ih' hright]
    exact congrArg _ hself
  | unknown => rfl

end Expr

namespace Stmt

theorem mapLoc_moved (s : Stmt) :
    (s.moved source d).mapLoc f = s.mapLoc (f ∘ Span.moved source d) := by
  cases s <;> simp only [moved, mapLoc, Expr.moved_eq_mapLoc, Expr.mapLoc_mapLoc, Option.map_map]

theorem mapLoc_eq_self (hself : s.loc.map f = s.loc)
    (h : ∀ child ∈ s.children, ∀ x ∈ child.subexprs, x.loc.map f = x.loc) : s.mapLoc f = s := by
  cases s with
  | define name value loc =>
    rw [mapLoc, Expr.mapLoc_eq_self (h value List.mem_cons_self)]
    exact congrArg _ hself
  | expr e loc =>
    rw [mapLoc, Expr.mapLoc_eq_self (h e List.mem_cons_self)]
    exact congrArg _ hself
  | unknown => rfl

end Stmt

theorem Stands.mapLoc_eq_self {hi : Nat} (h : Stands source tokens s)
    (hl : LaidOut source.chars.toList o tokens) (hhi : stopOf o tokens ≤ hi)
    (hf : ∀ start stop : Nat, o ≤ start → start < stop → stop ≤ hi →
      f (.ofOffsets source start stop) = .ofOffsets source start stop) : s.mapLoc f = s := by
  obtain ⟨tree, hshape, hs⟩ := h
  obtain ⟨hloc, hchildren⟩ := hshape.readInOrder hs
  have hread : ∀ e : Expr, e.ReadBetween source o hi → e.loc.map f = e.loc := by
    intro e he
    obtain ⟨start, stop, hstart, hlt, hstop, hloc⟩ := he.exists_loc
    rw [hloc, Option.map_some, hf start stop hstart hlt hstop]
  apply Stmt.mapLoc_eq_self
  · obtain ⟨start, hstart, hlt, -, hstop, -, hextent⟩ := hl.exists_start hshape.extent?_eq
    rw [hloc, Tree.location, hextent, Option.map_some, hf start _ hstart hlt (hstop ▸ hhi)]
  · intro child hchild
    have hbetween := hchildren.readBetween hl (Nat.le_refl o) hhi child hchild
    exact Expr.forall_subexprs hread (fun e he => he.children) child hbetween

/-- What the tokens of an excerpt stand for is what they stand for in the whole text, moved to the
front of the excerpt. -/
theorem Stands.back_iff {a b : Nat} (hl : LaidOut source.chars.toList o tokens) (ha : a ≤ o)
    (hb : stopOf o tokens ≤ b) (hlen : b ≤ source.chars.toList.length) :
    Stands (source.excerpt a b) (tokens.map (Token.back a)) s ↔
      ∃ s', Stands source tokens s' ∧ s'.moved (source.excerpt a b) a = s := by
  constructor
  · rintro ⟨back, hshape, hs⟩
    have hterminals : tokens.map Token.terminal =
        (tokens.map (Token.back a)).map Token.terminal := by
      rw [List.map_map]
      rfl
    obtain ⟨tree, htree⟩ := hshape.exists_of_terminals hterminals
    obtain rfl := (htree.back (hl.beyond ha)).tree_eq hshape
    obtain ⟨s', hs'⟩ := htree.exists_toStmt_of_back hl ha hb hlen hs
    have hmoved := htree.toStmt_back hl ha hb hlen hs'
    exact ⟨s', ⟨tree, htree, hs'⟩, Except.ok.inj (hmoved.symm.trans hs)⟩
  · rintro ⟨s', ⟨tree, hshape, hs'⟩, rfl⟩
    exact ⟨tree.back a, hshape.back (hl.beyond ha), hshape.toStmt_back hl ha hb hlen hs'⟩

/-- A line stands in the text: only whole lines are in front of it, and nothing or a line break is
behind it. -/
structure LineAt (source : Source) (front : List Char) (line : String) (rest : List Char) :
    Prop where
  chars : source.chars.toList = front ++ (line.toList ++ rest)
  front_eq : front = [] ∨ ∃ before, front = before ++ ['\n']
  rest_eq : rest = [] ∨ ∃ later, rest = '\n' :: later
  isLine : IsLine line.toList

namespace LineAt
variable {front rest : List Char} {line : String} {found : List (List Token)}

theorem le_length (h : LineAt source front line rest) :
    front.length + line.toList.length ≤ source.chars.toList.length := by
  rw [h.chars, List.length_append, List.length_append]
  omega

theorem excerpt_eq (h : LineAt source front line rest) :
    source.excerpt front.length (front.length + line.toList.length) = .ofString line := by
  rw [Source.excerpt, source.slice_nat (Nat.le_add_right _ _) h.le_length, h.chars,
    Nat.add_sub_cancel_left, List.drop_left, List.take_left, String.ofList_toList]

theorem exists_behind {later : List Char} (h : LineAt source front line ('\n' :: later)) :
    ∃ behind : List Char, behind.length = front.length + line.length + 1 ∧
      behind.count '\n' = front.count '\n' + 1 ∧ (∃ before, behind = before ++ ['\n']) ∧
        source.chars.toList = behind ++ later := by
  refine ⟨front ++ (line.toList ++ ['\n']), ?_, ?_, ⟨front ++ line.toList, ?_⟩, ?_⟩
  · rw [List.length_append, List.length_append, String.length_toList]
    rfl
  · rw [List.count_append, List.count_append, List.count_eq_zero.mpr h.isLine.newline_notMem]
    rfl
  · exact (List.append_assoc ..).symm
  · rw [h.chars, List.append_assoc, List.append_assoc]
    rfl

theorem onLine_moved (h : LineAt source front line rest) {start stop : Nat}
    (hstart : front.length ≤ start) (hlt : start < stop)
    (hstop : stop ≤ front.length + line.toList.length) :
    ((Span.ofOffsets source start stop).moved (.ofString line) front.length).onLine
      (front.count '\n' + 1) front.length = Span.ofOffsets source start stop := by
  have hnewline := h.isLine.newline_notMem
  have halone : (Source.ofString line).chars.toList = [] ++ (line.toList ++ []) := by
    rw [List.append_nil]
    rfl
  have hposition : ∀ x : Nat, front.length ≤ x → x ≤ front.length + line.toList.length →
      source.position x = ⟨front.count '\n' + 1, x - front.length + 1⟩ ∧
        (Source.ofString line).position ((x : Int) - front.length) =
          ⟨1, x - front.length + 1⟩ := by
    intro x hx hle
    have hlength : x - front.length ≤ ([] : List Char).length + line.toList.length := by
      rw [List.length_nil]
      omega
    rw [← Int.ofNat_sub hx, Source.position_eq h.chars h.front_eq hnewline hx hle,
      Source.position_eq halone (.inl rfl) hnewline (Nat.zero_le _) hlength]
    exact ⟨rfl, rfl⟩
  obtain ⟨hs, hs'⟩ := hposition start hstart (by omega)
  obtain ⟨ht, ht'⟩ := hposition stop (by omega) hstop
  simp only [Span.ofOffsets, Span.moved, Span.onLine, hs, hs', ht, ht', Option.map_some,
    Int.sub_add_cancel]

/-- The tokens of a line stand for the same in the whole text and on the line alone, up to the
places. -/
theorem stands_iff (h : LineAt source front line rest)
    (hfound : scanRuns front.length line.toList = some found) :
    ∀ ts ∈ found, ∀ s, Stands source ts s ↔
      ∃ q, Stands (.ofString line) (ts.map (Token.back front.length)) q ∧
        q.onLine (front.count '\n' + 1) front.length = s := by
  intro ts hts s
  obtain ⟨o, ho, hl, hstop⟩ := exists_laidOut_of_scanRuns h.isLine h.rest_eq hfound hts
  rw [← h.chars] at hl
  have hback (q : Stmt) := Stands.back_iff (s := q) hl ho hstop h.le_length
  rw [h.excerpt_eq] at hback
  have hsame : ∀ s', Stands source ts s' →
      (s'.moved (.ofString line) front.length).onLine (front.count '\n' + 1) front.length = s' := by
    intro s' hs'
    rw [Stmt.onLine, Stmt.mapLoc_moved]
    apply hs'.mapLoc_eq_self hl hstop
    intro start stop hstart hlt hle
    exact h.onLine_moved (Nat.le_trans ho hstart) hlt hle
  constructor
  · intro hs
    exact ⟨_, (hback _).mpr ⟨s, hs, rfl⟩, hsame s hs⟩
  · rintro ⟨q, hq, rfl⟩
    obtain ⟨s', hs', rfl⟩ := (hback q).mp hq
    rwa [hsame s' hs']

end LineAt
end ArithScript
