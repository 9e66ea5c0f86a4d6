import ArithScript.Proofs.Program.Printed

/-!
Printed programs are unambiguous. Where the text of an expression or a statement ends can be told from
what follows it, and the text tells what was printed, up to places.
-/
namespace ArithScript

variable {rest rest' : List Char}

/-- The rest begins with a character that can stand after a printed expression. -/
def Follows (rest : List Char) : Prop := ∀ c ∈ rest.head?, c ∈ [')', ',', ' ', '\n']

theorem follows_cons {c : Char} (hc : c ∈ [')', ',', ' ', '\n']) (rest : List Char) :
    Follows (c :: rest) := by
  intro d hd
  obtain rfl := Option.some.inj hd
  exact hc

theorem Follows.boundary (h : Follows rest) : Boundary rest :=
  fun c hc => List.mem_cons_of_mem _ (h c hc)

/-- The text of a finite number ends before what follows, and tells the number with its sign. -/
theorem Binary64.programChars_append_inj {x y : Binary64} (hx : x.isFinite = true)
    (hy : y.isFinite = true) (hr : Stops rest) (hr' : Stops rest')
    (h : x.programChars ++ rest = y.programChars ++ rest') : x = y ∧ rest = rest' := by
  obtain ⟨n, hn, hchars, hcode⟩ := programChars_eq hx
  obtain ⟨m, hm, hchars', hcode'⟩ := programChars_eq hy
  rw [hchars, hchars', List.append_assoc, List.append_assoc] at h
  obtain ⟨hsign, rfl, rfl⟩ :=
    Numeral.signed_append_inj x.isSign_sign? hn hr y.isSign_sign? hm hr' h
  have hnegative : x.negative = y.negative := by
    rw [← sign?_eq_minus, hsign, sign?_eq_minus]
  refine ⟨?_, rfl⟩
  calc x = n.value.nearest x.negative := ((Decimal.nearest_eq_iff ..).mpr ⟨hcode, rfl⟩).symm
    _ = n.value.nearest y.negative := by rw [hnegative]
    _ = y := (Decimal.nearest_eq_iff ..).mpr ⟨hcode', rfl⟩

theorem takeWhile_name {name : String} (hn : isName name = true)
    (hr : ∀ c ∈ rest.head?, Lexeme.isNamePart c = false) :
    (name.toList ++ rest).takeWhile Lexeme.isNamePart = name.toList := by
  have hrest : rest.takeWhile Lexeme.isNamePart = [] := by
    cases rest with
    | nil => rfl
    | cons c rest => simp [hr c rfl]
  unfold isName at hn
  split at hn
  · contradiction
  · rename_i c later hchars
    rw [Bool.and_eq_true] at hn
    have hstart : Lexeme.isNamePart c = true := by
      have h := hn.1
      simp only [Lexeme.isNameStart, Lexeme.isNamePart, Char.isAlphanum, Bool.or_eq_true] at h ⊢
      tauto
    rw [hchars, List.takeWhile_append_of_pos, hrest, List.append_nil]
    exact List.forall_mem_cons.mpr ⟨hstart, List.all_eq_true.mp hn.2⟩

theorem name_append_inj {a b : String} (ha : isName a = true) (hb : isName b = true)
    (hr : ∀ c ∈ rest.head?, Lexeme.isNamePart c = false)
    (hr' : ∀ c ∈ rest'.head?, Lexeme.isNamePart c = false)
    (h : a.toList ++ rest = b.toList ++ rest') : a = b ∧ rest = rest' := by
  have hname : a = b := by
    rw [← String.toList_inj, ← takeWhile_name ha hr, h, takeWhile_name hb hr']
  subst hname
  exact ⟨rfl, List.append_cancel_left h⟩

theorem call_append_inj {a b : String} (ha : isName a = true) (hb : isName b = true)
    (h : a.toList ++ '(' :: rest = b.toList ++ '(' :: rest') : a = b ∧ rest = rest' := by
  have hpart (rest : List Char) := (boundary_cons (c := '(') (by decide) rest).not_isNamePart
  obtain ⟨hname, hrest⟩ := name_append_inj ha hb (hpart rest) (hpart rest') h
  exact ⟨hname, (List.cons.inj hrest).2⟩

theorem Follows.ne_call {a b : String} (hr : Follows rest) (ha : isName a = true)
    (hb : isName b = true) : a.toList ++ rest ≠ b.toList ++ '(' :: rest' := by
  intro h
  have hpart := (boundary_cons (c := '(') (by decide) rest').not_isNamePart
  obtain ⟨-, rfl⟩ := name_append_inj ha hb hr.boundary.not_isNamePart hpart h
  have hmem := hr '(' rfl
  contradiction

theorem Operator.symbol_append_inj {op op' : Operator}
    (h : op.symbol.toList ++ rest = op'.symbol.toList ++ rest') : op = op' ∧ rest = rest' := by
  cases op <;> cases op' <;> simp [symbol] at h ⊢ <;> exact h

theorem UnaryBuiltin.name_injective {f g : UnaryBuiltin} (h : f.name = g.name) : f = g := by
  have hof := f.ofName?_name
  rw [h, g.ofName?_name] at hof
  exact (Option.some.inj hof).symm

theorem BinaryBuiltin.name_injective {f g : BinaryBuiltin} (h : f.name = g.name) : f = g := by
  have hof := f.ofName?_name
  rw [h, g.ofName?_name] at hof
  exact (Option.some.inj hof).symm

theorem UnaryBuiltin.name_ne (f : UnaryBuiltin) (g : BinaryBuiltin) : f.name ≠ g.name := by
  cases f <;> cases g <;> decide

namespace Expr

/-- Texts that are equal with what follows them begin with the same terminal. -/
theorem exists_lead {e d : Expr} (he : e.Printable) (hd : d.Printable)
    (h : e.text.toList ++ rest = d.text.toList ++ rest') : ∃ t ∈ e.leads, t ∈ d.leads := by
  obtain ⟨c, later, hc, t, ht, hlead⟩ := exists_leading he
  obtain ⟨c', later', hc', t', ht', hlead'⟩ := exists_leading hd
  rw [hc, hc', List.cons_append, List.cons_append] at h
  obtain ⟨rfl, -⟩ := List.cons.inj h
  obtain rfl := Option.some.inj (hlead.symm.trans hlead')
  exact ⟨t, ht, ht'⟩

theorem text_call1_append (f : UnaryBuiltin) (argument : Expr) (loc : Option Span)
    (rest : List Char) :
    (call1 f argument loc).text.toList ++ rest =
      f.name.toList ++ '(' :: (argument.text.toList ++ ')' :: rest) := by
  simp [toList_text_call1]

theorem text_call2_append (f : BinaryBuiltin) (first second : Expr) (loc : Option Span)
    (rest : List Char) :
    (call2 f first second loc).text.toList ++ rest =
      f.name.toList ++ '(' :: (first.text.toList ++
        ',' :: ' ' :: (second.text.toList ++ ')' :: rest)) := by
  simp [toList_text_call2]

theorem text_binary_append (op : Operator) (left right : Expr) (loc : Option Span)
    (rest : List Char) :
    (binary op left right loc).text.toList ++ rest =
      '(' :: (left.text.toList ++ ' ' :: (op.symbol.toList ++
        ' ' :: (right.text.toList ++ ')' :: rest))) := by
  simp [toList_text_binary]

/-- Before whatever can follow, the text of the expression is the text of no other one. -/
def Unambiguous (e : Expr) : Prop :=
  ∀ (d : Expr) (rest rest' : List Char), d.Printable → Follows rest → Follows rest' →
    e.text.toList ++ rest = d.text.toList ++ rest' → e.bare = d.bare ∧ rest = rest'

theorem unambiguous_number {x : Binary64} (hx : x.isFinite = true) (loc : Option Span) :
    (number x loc).Unambiguous := by
  intro d rest rest' hd hr hr' h
  obtain ⟨t, ht, ht'⟩ := exists_lead (e := .number x loc) hx hd h
  cases d with
  | number y loc' =>
    rw [toList_text_number, toList_text_number] at h
    obtain ⟨rfl, rfl⟩ := Binary64.programChars_append_inj hx hd hr.boundary.stops hr'.boundary.stops h
    exact ⟨rfl, rfl⟩
  -- here and below, the other texts begin with other terminals
  | ident | call1 | call2 | binary | unknown => simp_all [leads]

theorem unambiguous_ident {name : String} (hn : isName name = true) (loc : Option Span) :
    (ident name loc).Unambiguous := by
  intro d rest rest' hd hr hr' h
  obtain ⟨t, ht, ht'⟩ := exists_lead (e := .ident name loc) hn hd h
  cases d with
  | ident name' loc' =>
    obtain ⟨rfl, rfl⟩ :=
      name_append_inj hn hd hr.boundary.not_isNamePart hr'.boundary.not_isNamePart h
    exact ⟨rfl, rfl⟩
  | call1 g argument loc' =>
    rw [text_call1_append] at h
    exact absurd h (hr.ne_call hn g.isName_name)
  | call2 g first second loc' =>
    rw [text_call2_append] at h
    exact absurd h (hr.ne_call hn g.isName_name)
  | number | binary | unknown => simp_all [leads]

theorem unambiguous_call1 {argument : Expr} (he : argument.Printable) (ih : argument.Unambiguous)
    (f : UnaryBuiltin) (loc : Option Span) : (call1 f argument loc).Unambiguous := by
  intro d rest rest' hd hr hr' h
  obtain ⟨t, ht, ht'⟩ := exists_lead (e := .call1 f argument loc) he hd h
  rw [text_call1_append] at h
  cases d with
  | ident name loc' => exact absurd h.symm (hr'.ne_call hd f.isName_name)
  | call1 g argument' loc' =>
    rw [text_call1_append] at h
    obtain ⟨hname, harguments⟩ := call_append_inj f.isName_name g.isName_name h
    obtain ⟨hsame, hrest⟩ := ih argument' _ _ hd (follows_cons (by decide) rest)
      (follows_cons (by decide) rest') harguments
    rw [bare, bare, UnaryBuiltin.name_injective hname, hsame]
    exact ⟨rfl, (List.cons.inj hrest).2⟩
  | call2 g first second loc' =>
    rw [text_call2_append] at h
    exact absurd (call_append_inj f.isName_name g.isName_name h).1 (f.name_ne g)
  | number | binary | unknown => simp_all [leads]

theorem unambiguous_call2 {first second : Expr} (he : first.Printable ∧ second.Printable)
    (ih : first.Unambiguous) (ih' : second.Unambiguous) (f : BinaryBuiltin) (loc : Option Span) :
    (call2 f first second loc).Unambiguous := by
  intro d rest rest' hd hr hr' h
  obtain ⟨t, ht, ht'⟩ := exists_lead (e := .call2 f first second loc) he hd h
  rw [text_call2_append] at h
  cases d with
  | ident name loc' => exact absurd h.symm (hr'.ne_call hd f.isName_name)
  | call1 g argument loc' =>
    rw [text_call1_append] at h
    exact absurd (call_append_inj f.isName_name g.isName_name h).1.symm (g.name_ne f)
  | call2 g first' second' loc' =>
    rw [text_call2_append] at h
    obtain ⟨hname, harguments⟩ := call_append_inj f.isName_name g.isName_name h
    obtain ⟨hfirst, hafter⟩ := ih first' _ _ hd.1 (follows_cons (by decide) _)
      (follows_cons (by decide) _) harguments
    obtain ⟨hsecond, hrest⟩ := ih' second' _ _ hd.2 (follows_cons (by decide) rest)
      (follows_cons (by decide) rest') (List.cons.inj (List.cons.inj hafter).2).2
    rw [bare, bare, BinaryBuiltin.name_injective hname, hfirst, hsecond]
    exact ⟨rfl, (List.cons.inj hrest).2⟩
  | number | binary | unknown => simp_all [leads]

theorem unambiguous_binary {left right : Expr} (he : left.Printable ∧ right.Printable)
    (ih : left.Unambiguous) (ih' : right.Unambiguous) (op : Operator) (loc : Option Span) :
    (binary op left right loc).Unambiguous := by
  intro d rest rest' hd hr hr' h
  obtain ⟨t, ht, ht'⟩ := exists_lead (e := .binary op left right loc) he hd h
  cases d with
  | binary op' left' right' loc' =>
    rw [text_binary_append, text_binary_append] at h
    obtain ⟨hleft, hafter⟩ := ih left' _ _ hd.1 (follows_cons (by decide) _)
      (follows_cons (by decide) _) (List.cons.inj h).2
    obtain ⟨rfl, hlater⟩ := Operator.symbol_append_inj (List.cons.inj hafter).2
    obtain ⟨hright, hrest⟩ := ih' right' _ _ hd.2 (follows_cons (by decide) rest)
      (follows_cons (by decide) rest') (List.cons.inj hlater).2
    rw [bare, bare, hleft, hright]
    exact ⟨rfl, (List.cons.inj hrest).2⟩
  | number | ident | call1 | call2 | unknown => simp_all [leads]

theorem unambiguous {e : Expr} (he : e.Printable) : e.Unambiguous := by
  induction e with
  | number x loc => exact unambiguous_number he loc
  | ident name loc => exact unambiguous_ident he loc
  | call1 f argument loc ih =>
    have hargument : argument.Printable := he
    exact unambiguous_call1 hargument (ih hargument) f loc
  | call2 f first second loc ih ih' => exact unambiguous_call2 he (ih he.1) (ih' he.2) f loc
  | binary op left right loc ih ih' => exact unambiguous_binary he (ih he.1) (ih' he.2) op loc
  | unknown => contradiction

end Expr

def FollowsLine (rest : List Char) : Prop := ∀ c ∈ rest.head?, c = '\n'

theorem FollowsLine.follows (h : FollowsLine rest) : Follows rest := by
  intro c hc
  rw [h c hc]
  decide

theorem Stmt.text_define_append (name : String) (value : Expr) (loc : Option Span)
    (rest : List Char) :
    (define name value loc).text.toList ++ rest =
      name.toList ++ ' ' :: '=' :: ' ' :: (value.text.toList ++ rest) := by
  simp [toList_text_define]

theorem Stmt.text_define_ne {name : String} {value e : Expr} (hn : isName name = true)
    (he : e.Printable) (hr : FollowsLine rest') (loc : Option Span) :
    (define name value loc).text.toList ++ rest ≠ e.text.toList ++ rest' := by
  intro h
  rw [text_define_append] at h
  obtain ⟨-, hrest⟩ := Expr.unambiguous_ident hn none e _ rest' he (follows_cons (by decide) _)
    hr.follows h
  have hblank := hr ' ' (by rw [← hrest]; rfl)
  contradiction

theorem Stmt.text_append_inj {s t : Stmt} (hs : s.Printable) (ht : t.Printable)
    (hr : FollowsLine rest) (hr' : FollowsLine rest')
    (h : s.text.toList ++ rest = t.text.toList ++ rest') : s.bare = t.bare ∧ rest = rest' := by
  cases s with
  | unknown => contradiction
  | define name value loc =>
    cases t with
    | unknown => contradiction
    | expr e loc' => exact absurd h (text_define_ne hs.1 ht hr' loc)
    | define name' value' loc' =>
      rw [text_define_append, text_define_append] at h
      have hpart (rest : List Char) := (boundary_cons (c := ' ') (by decide) rest).not_isNamePart
      obtain ⟨rfl, hvalues⟩ := name_append_inj hs.1 ht.1 (hpart _) (hpart _) h
      simp only [List.cons.injEq, true_and] at hvalues
      obtain ⟨hvalue, hrest⟩ :=
        Expr.unambiguous hs.2 value' rest rest' ht.2 hr.follows hr'.follows hvalues
      rw [bare, bare, hvalue]
      exact ⟨rfl, hrest⟩
  | expr e loc =>
    cases t with
    | unknown => contradiction
    | define name value loc' => exact absurd h.symm (text_define_ne ht.1 hs hr loc')
    | expr e' loc' =>
      obtain ⟨hsame, hrest⟩ := Expr.unambiguous hs e' rest rest' ht hr.follows hr'.follows h
      rw [bare, bare, hsame]
      exact ⟨rfl, hrest⟩

theorem Stmt.exists_cons {s : Stmt} (hs : s.Printable) : ∃ c rest, s.text.toList = c :: rest := by
  cases s with
  | define name value loc =>
    obtain ⟨c, rest, hname, -⟩ := leading_name hs.1
    rw [toList_text_define, hname]
    exact ⟨c, _, rfl⟩
  | expr e loc =>
    obtain ⟨c, rest, htext, -⟩ := Expr.exists_leading (e := e) hs
    exact ⟨c, rest, htext⟩
  | unknown => contradiction

theorem Expr.plainText_bare (e : Expr) : e.bare.plainText = e.plainText := by
  induction e <;> simp_all [bare, plainText]

theorem Stmt.text_bare (s : Stmt) : s.bare.text = s.text := by
  cases s <;> simp [bare, text, Expr.text_eq_plainText, Expr.plainText_bare]

namespace Program
variable {p q : Program}

def lineChars (p : Program) : List Char := p.flatMap fun s => '\n' :: s.text.toList

theorem followsLine_lineChars (p : Program) : FollowsLine (lineChars p) := by
  intro c hc
  cases p with
  | nil => contradiction
  | cons s p => exact (Option.some.inj hc).symm

theorem map_bare_eq_of_lineChars (hp : ∀ s ∈ p, s.Printable) (hq : ∀ s ∈ q, s.Printable)
    (h : lineChars p = lineChars q) : p.map Stmt.bare = q.map Stmt.bare := by
  induction p generalizing q with
  | nil =>
    cases q with
    | nil => rfl
    | cons t q => contradiction
  | cons s p ih =>
    cases q with
    | nil => contradiction
    | cons t q =>
      obtain ⟨hs, hp⟩ := List.forall_mem_cons.mp hp
      obtain ⟨ht, hq⟩ := List.forall_mem_cons.mp hq
      obtain ⟨hsame, hrest⟩ := Stmt.text_append_inj hs ht (followsLine_lineChars p)
        (followsLine_lineChars q) (List.cons.inj h).2
      rw [List.map_cons, List.map_cons, hsame, ih hp hq hrest]

theorem lineChars_cons (s : Stmt) (p : Program) :
    lineChars (s :: p) = '\n' :: (Program.text (s :: p)).toList := by
  rw [toList_text_cons]
  rfl

theorem text_cons_ne {s : Stmt} (hs : s.Printable) (p : Program) : Program.text (s :: p) ≠ "" := by
  obtain ⟨c, rest, htext⟩ := Stmt.exists_cons hs
  intro h
  have hchars := congrArg String.toList h
  rw [toList_text_cons, htext] at hchars
  contradiction

theorem text_map_bare (p : Program) : Program.text (p.map Stmt.bare) = p.text := by
  unfold text
  rw [List.map_map]
  congr 1
  exact List.map_congr_left fun s _ => s.text_bare

/-- Two programs are printed alike exactly if they have the same statements, down to the bits of their
numbers. -/
theorem text_eq_iff (hp : ∀ s ∈ p, s.Printable) (hq : ∀ s ∈ q, s.Printable) :
    p.text = q.text ↔ p.map Stmt.bare = q.map Stmt.bare := by
  constructor
  · intro h
    cases p with
    | nil =>
      cases q with
      | nil => rfl
      | cons t q => exact absurd h.symm (text_cons_ne (hq t List.mem_cons_self) q)
    | cons s p =>
      cases q with
      | nil => exact absurd h (text_cons_ne (hp s List.mem_cons_self) p)
      | cons t q =>
        apply map_bare_eq_of_lineChars hp hq
        rw [lineChars_cons, h, lineChars_cons]
  · intro h
    rw [← text_map_bare p, h, text_map_bare]

theorem text_ne_of_grouping :
    let a := Expr.ident "a" none
    let b := Expr.ident "b" none
    let zero := Expr.number (.zero true) none
    let p : Program := [.expr (.binary .sub (.binary .sub a b none) zero none) none]
    let q : Program := [.expr (.binary .sub a (.binary .sub b zero none) none) none]
    (∀ s ∈ p, s.Printable) ∧ (∀ s ∈ q, s.Printable) ∧ p.text ≠ q.text := by
  intro a b zero p q
  have ha : isName "a" = true := by decide
  have hb : isName "b" = true := by decide
  have hzero : (Binary64.zero true).isFinite = true := by decide
  have hp : ∀ s ∈ p, s.Printable := List.forall_mem_singleton.mpr ⟨⟨ha, hb⟩, hzero⟩
  have hq : ∀ s ∈ q, s.Printable := List.forall_mem_singleton.mpr ⟨ha, hb, hzero⟩
  refine ⟨hp, hq, fun h => ?_⟩
  have hbare : p.map Stmt.bare ≠ q.map Stmt.bare := by decide
  exact hbare ((text_eq_iff hp hq).mp h)

end Program
end ArithScript
