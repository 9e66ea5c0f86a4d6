import ArithScript.Proofs.Grammar.Rule
import ArithScript.Proofs.Automaton.Text

/-! The productions spell the rules out: repeated parts become categories of their own, and optional
parts become productions with and without them. Derivations by productions and trees by rules
correspond to each other, with the same tokens and the same concrete tree. -/
namespace ArithScript

def Rule.nonterminal : Rule → Nonterminal
  | .script => .script
  | .statement => .statement
  | .assignment => .assignment
  | .exprStatement => .exprStatement
  | .expr => .expr
  | .comparison => .comparison
  | .sum => .sum
  | .product => .product
  | .factor => .factor
  | .call => .call
  | .argList => .argList
  | .atom => .atom

def GrammarSymbol.pattern : GrammarSymbol → Pattern
  | .terminal t => .token t
  | .nonterminal .lines => .repeated Rule.finishedLine
  | .nonterminal .more => .repeated Rule.nextArgument
  | .nonterminal .script => .rule .script
  | .nonterminal .statement => .rule .statement
  | .nonterminal .assignment => .rule .assignment
  | .nonterminal .exprStatement => .rule .exprStatement
  | .nonterminal .expr => .rule .expr
  | .nonterminal .comparison => .rule .comparison
  | .nonterminal .sum => .rule .sum
  | .nonterminal .product => .rule .product
  | .nonterminal .factor => .rule .factor
  | .nonterminal .call => .rule .call
  | .nonterminal .argList => .rule .argList
  | .nonterminal .atom => .rule .atom

theorem Rule.pattern_nonterminal (r : Rule) :
    GrammarSymbol.pattern (.nonterminal r.nonterminal) = .rule r := by
  cases r <;> rfl

namespace Production

def name? : Production → Option Construct
  | .compare | .add _ | .multiply _ => some .binary
  | .signed _ => some .unary
  | .callArgs => some .call
  | .paren => some .paren
  | _ => none

/-- The rule that a production is taken from, unless it is part of a repetition. -/
def rule? : Production → Option Rule
  | .script .. => some .script
  | .linesOne | .linesMore | .moreOne | .moreNext => none
  | .statementAssignment | .statementExpr => some .statement
  | .assignment => some .assignment
  | .exprStatement => some .exprStatement
  | .exprComparison => some .expr
  | .comparisonSum | .compare => some .comparison
  | .sumProduct | .add _ => some .sum
  | .productFactor | .multiply _ => some .product
  | .factorCall | .signed _ => some .factor
  | .callAtom | .callArgs => some .call
  | .argsNone | .args .. => some .argList
  | .atomNumber | .atomName | .atomString | .paren => some .atom

def alternative : Production → Alternative
  | .script .. => Rule.scriptLines
  | .argsNone | .args .. => Rule.argumentItems
  | p => ⟨.seq (p.rhs.map GrammarSymbol.pattern), p.name?⟩

theorem rule?_lhs : ∀ (p : Production), ∀ r ∈ p.rule?, p.lhs = r.nonterminal := by
  decide

end Production

/-- Apart from optional and repeated parts, the alternatives of a rule are its productions. -/
theorem Rule.alternatives_eq {r : Rule} (hs : r ≠ .script) (ha : r ≠ .argList) :
    r.alternatives =
      (Production.all.filter fun p => p.rule? = some r).map Production.alternative := by
  cases r with
  | script => contradiction
  | argList => contradiction
  | _ => rfl

theorem Production.alternative_mem {p : Production} {r : Rule} (h : p.rule? = some r) :
    p.alternative ∈ r.alternatives := by
  by_cases hs : r = .script
  · subst hs
    cases p <;> simp [rule?] at h
    exact List.mem_singleton.mpr rfl
  · by_cases ha : r = .argList
    · subst ha
      cases p <;> simp [rule?] at h <;> exact List.mem_singleton.mpr rfl
    · rw [Rule.alternatives_eq hs ha]
      exact List.mem_map_of_mem (List.mem_filter.mpr ⟨Production.mem_all p, by simp [h]⟩)

namespace Derivation

mutual

/-- The trees by rules that a derivation spells out. -/
def parseTrees : Derivation → List ParseTree
  | .leaf token => [.leaf token]
  | .node p ds =>
    match p.rule? with
    | some r => [.node r p.alternative (parseTreesAll ds)]
    | none => parseTreesAll ds

def parseTreesAll : List Derivation → List ParseTree
  | [] => []
  | d :: rest => parseTrees d ++ parseTreesAll rest

end

end Derivation

namespace Pattern

theorem matches_seq_append {parts parts' : List Pattern} {trees : List ParseTree} :
    Matches (.seq (parts ++ parts')) trees ↔
      ∃ first rest, trees = first ++ rest ∧ Matches (.seq parts) first ∧
        Matches (.seq parts') rest := by
  induction parts generalizing trees with
  | nil =>
    constructor
    · intro h
      exact ⟨[], trees, rfl, .seqNil, h⟩
    · rintro ⟨first, rest, rfl, hf, hr⟩
      cases hf
      exact hr
  | cons part parts ih =>
    constructor
    · intro h
      cases h with
      | @seqCons _ _ trees later hp hl =>
        obtain ⟨first, rest, rfl, hf, hr⟩ := ih.mp hl
        exact ⟨trees ++ first, rest, by simp, .seqCons hp hf, hr⟩
    · rintro ⟨first, rest, rfl, hf, hr⟩
      cases hf with
      | @seqCons _ _ trees later hp hl =>
        rw [List.append_assoc]
        exact .seqCons hp (ih.mpr ⟨_, _, rfl, hl, hr⟩)

theorem matches_seq_singleton {part : Pattern} {trees : List ParseTree} :
    Matches (.seq [part]) trees ↔ Matches part trees := by
  constructor
  · intro h
    cases h with
    | seqCons hp hl =>
      cases hl
      simpa using hp
  · intro h
    simpa using Matches.seqCons h .seqNil

theorem Matches.seq_cons {part : Pattern} {parts : List Pattern} {trees : List ParseTree}
    (h : Matches (.seq (part :: parts)) trees) :
    ∃ first rest, trees = first ++ rest ∧ Matches part first ∧ Matches (.seq parts) rest := by
  cases h with
  | seqCons hp hl => exact ⟨_, _, rfl, hp, hl⟩

theorem Matches.again_last {part : Pattern} {trees last : List ParseTree}
    (h : Matches (.repeated part) trees) (hl : Matches part last) :
    Matches (.repeated part) (trees ++ last) := by
  generalize hp : Pattern.repeated part = pattern at h
  induction h with
  | finished =>
    obtain rfl := Pattern.repeated.inj hp
    simpa using Matches.again hl .finished
  | again first _ _ ih =>
    obtain rfl := Pattern.repeated.inj hp
    rw [List.append_assoc]
    exact .again first (ih rfl)
  | _ => contradiction

theorem matches_optional_of_symbolsIf {condition : Bool} {x : GrammarSymbol}
    {trees : List ParseTree}
    (h : Matches (.seq ((symbolsIf condition [x]).map GrammarSymbol.pattern)) trees) :
    Matches (.optional x.pattern) trees := by
  cases condition with
  | false =>
    cases h
    exact .absent
  | true => exact .present (matches_seq_singleton.mp h)

theorem Matches.repeated_of_optional {part : Pattern} {trees : List ParseTree}
    (h : Matches (.optional (.repeated part)) trees) : Matches (.repeated part) trees := by
  cases h with
  | absent => exact .finished
  | present once => exact once

end Pattern

namespace Production
open Pattern

/-- What the right-hand side of a production derives is described by the alternative that the
production is taken from, or continues the repetition that it is part of. -/
theorem matches_alternative (p : Production) {trees : List ParseTree}
    (h : Matches (.seq (p.rhs.map GrammarSymbol.pattern)) trees) :
    match p.rule? with
    | some _ => p.alternative.pattern.Matches trees
    | none => (GrammarSymbol.nonterminal p.lhs).pattern.Matches trees := by
  cases p with
  | script leading lines last =>
    simp only [rhs, List.map_append] at h
    obtain ⟨front, statement, rfl, hf, hs⟩ := matches_seq_append.mp h
    obtain ⟨newline, lines, rfl, hn, hl⟩ := matches_seq_append.mp hf
    have hn := matches_optional_of_symbolsIf hn
    have hl := (matches_optional_of_symbolsIf hl).repeated_of_optional
    have hs := matches_optional_of_symbolsIf hs
    have hlines := Matches.seqCons hn (.seqCons hl (.seqCons hs .seqNil))
    rw [List.append_nil, ← List.append_assoc] at hlines
    exact hlines
  | args more trailing =>
    simp only [rhs, List.map_append] at h
    obtain ⟨inner, rpar, rfl, hi, hr⟩ := matches_seq_append.mp h
    obtain ⟨front, comma, rfl, hf, hc⟩ := matches_seq_append.mp hi
    obtain ⟨opened, later, rfl, ho, hl⟩ := matches_seq_append.mp hf
    obtain ⟨lpar, argument, rfl, hp, ha⟩ := Matches.seq_cons ho
    have hl := (matches_optional_of_symbolsIf hl).repeated_of_optional
    have hc := matches_optional_of_symbolsIf hc
    have hitems := Matches.seqCons (matches_seq_singleton.mp ha)
      (.seqCons hl (.seqCons hc .seqNil))
    have hlist := Matches.seqCons hp (.seqCons (.present hitems) hr)
    simp only [List.append_nil, ← List.append_assoc] at hlist
    exact hlist
  | argsNone =>
    obtain ⟨lpar, rpar, rfl, hp, hr⟩ := Matches.seq_cons h
    exact .seqCons hp (.seqCons .absent hr)
  | linesOne =>
    have hone := Matches.again h .finished
    rw [List.append_nil] at hone
    exact hone
  | linesMore =>
    obtain ⟨lines, line, rfl, hl, hn⟩ := Matches.seq_cons h
    exact hl.again_last hn
  | moreOne =>
    have hone := Matches.again h .finished
    rw [List.append_nil] at hone
    exact hone
  | moreNext =>
    obtain ⟨more, next, rfl, hm, hn⟩ := Matches.seq_cons h
    exact hm.again_last hn
  | _ => exact h

end Production

namespace ParseTree

theorem validAll_append {ps qs : List ParseTree} (hp : ValidAll ps) (hq : ValidAll qs) :
    ValidAll (ps ++ qs) := by
  induction ps with
  | nil => exact hq
  | cons p ps ih => exact ⟨hp.1, ih hp.2⟩

theorem yieldAll_append (ps qs : List ParseTree) :
    yieldAll (ps ++ qs) = yieldAll ps ++ yieldAll qs := by
  induction ps with
  | nil => rfl
  | cons p ps ih => simp [yieldAll, ih]

theorem imageAll_append (ps qs : List ParseTree) :
    imageAll (ps ++ qs) = imageAll ps ++ imageAll qs := by
  induction ps with
  | nil => rfl
  | cons p ps ih => simp [imageAll, ih]

end ParseTree

namespace Derivation

mutual

/-- A derivation by productions spells out trees that apply the rules. -/
theorem matches_parseTrees (d : Derivation) (hv : d.Valid) :
    d.symbol.pattern.Matches d.parseTrees ∧ ParseTree.ValidAll d.parseTrees := by
  match d with
  | .leaf token => exact ⟨.token token, trivial, trivial⟩
  | .node p ds =>
    obtain ⟨hm, hall⟩ := matches_parseTreesAll ds hv.2
    rw [hv.1] at hm
    have hp := p.matches_alternative hm
    cases hr : p.rule? with
    | none =>
      simp only [hr] at hp
      simp only [parseTrees, hr]
      exact ⟨hp, hall⟩
    | some r =>
      simp only [hr] at hp
      have hsymbol : (Derivation.node p ds).symbol.pattern = .rule r := by
        rw [symbol, Production.rule?_lhs p r hr, Rule.pattern_nonterminal]
      simp only [parseTrees, hr, hsymbol]
      exact ⟨.rule _ _ _, ⟨Production.alternative_mem hr, hp, hall⟩, trivial⟩

theorem matches_parseTreesAll (ds : List Derivation) (hv : ValidAll ds) :
    Pattern.Matches (.seq ((ds.map symbol).map GrammarSymbol.pattern)) (parseTreesAll ds) ∧
      ParseTree.ValidAll (parseTreesAll ds) := by
  match ds with
  | [] => exact ⟨.seqNil, trivial⟩
  | d :: ds =>
    obtain ⟨hm, hall⟩ := matches_parseTrees d hv.1
    obtain ⟨hms, halls⟩ := matches_parseTreesAll ds hv.2
    exact ⟨.seqCons hm hms, ParseTree.validAll_append hall halls⟩

end

mutual

theorem yieldAll_parseTrees (d : Derivation) : ParseTree.yieldAll d.parseTrees = d.yield := by
  match d with
  | .leaf token => rfl
  | .node p ds =>
    have ih := yieldAll_parseTreesAll ds
    cases hr : p.rule? <;> simp [parseTrees, hr, ParseTree.yieldAll, ParseTree.yield, yield, ih]

theorem yieldAll_parseTreesAll (ds : List Derivation) :
    ParseTree.yieldAll (parseTreesAll ds) = yieldAll ds := by
  match ds with
  | [] => rfl
  | d :: ds =>
    rw [parseTreesAll, ParseTree.yieldAll_append, yieldAll_parseTrees d,
      yieldAll_parseTreesAll ds, yieldAll]

end

end Derivation

def ParseTree.symbol : ParseTree → GrammarSymbol
  | .leaf token => .terminal token.terminal
  | .node r _ _ => .nonterminal r.nonterminal

def GrammarSymbol.isPlain (x : GrammarSymbol) : Bool :=
  x ≠ .nonterminal .lines && x ≠ .nonterminal .more

theorem GrammarSymbol.matches_pattern {x : GrammarSymbol} {ps : List ParseTree}
    (hx : x.isPlain) (h : x.pattern.Matches ps) : ∃ p, ps = [p] ∧ p.symbol = x := by
  cases x with
  | terminal t =>
    cases h
    exact ⟨_, rfl, rfl⟩
  | nonterminal n =>
    cases n <;> first | contradiction | (cases h; exact ⟨_, rfl, rfl⟩)

theorem GrammarSymbol.isPlain_of_mem_rhs : ∀ (p : Production), p.rule? ≠ none →
    p.rule? ≠ some .script → p.rule? ≠ some .argList → ∀ x ∈ p.rhs, x.isPlain := by
  decide

theorem Production.alternative_eq {p : Production} (hs : p.rule? ≠ some .script)
    (ha : p.rule? ≠ some .argList) :
    p.alternative = ⟨.seq (p.rhs.map GrammarSymbol.pattern), p.name?⟩ := by
  cases p <;> first | contradiction | rfl

/-- The trees are spelled out by derivations from the symbols, one after the other. -/
def Spells (xs : List GrammarSymbol) (ps : List ParseTree) : Prop :=
  ∃ ds, Derivation.ValidAll ds ∧ ds.map Derivation.symbol = xs ∧ Derivation.parseTreesAll ds = ps

namespace Spells
open ArithScript.Derivation
variable {xs ys : List GrammarSymbol} {ps qs : List ParseTree}

theorem nil : Spells [] [] := ⟨[], trivial, rfl, rfl⟩

theorem append (h : Spells xs ps) (h' : Spells ys qs) : Spells (xs ++ ys) (ps ++ qs) := by
  obtain ⟨ds, hv, rfl, rfl⟩ := h
  obtain ⟨es, hv', rfl, rfl⟩ := h'
  refine ⟨ds ++ es, ?_, List.map_append, ?_⟩
  · exact validAll_iff.mpr fun d hd =>
      (List.mem_append.mp hd).elim (validAll_iff.mp hv d) (validAll_iff.mp hv' d)
  · induction ds with
    | nil => rfl
    | cons d ds ih => simp [parseTreesAll, ih hv.2]

theorem cons {x : GrammarSymbol} (h : Spells [x] ps) (h' : Spells xs qs) :
    Spells (x :: xs) (ps ++ qs) := h.append h'

theorem node {p : Production} {r : Rule} (hr : p.rule? = some r) (h : Spells p.rhs ps) :
    Spells [.nonterminal r.nonterminal] [.node r p.alternative ps] := by
  obtain ⟨ds, hv, hs, rfl⟩ := h
  have hl := Production.rule?_lhs p r hr
  exact ⟨[.node p ds], ⟨⟨hs, hv⟩, trivial⟩, by simp [symbol, hl],
    by simp [parseTreesAll, parseTrees, hr]⟩

theorem helper {p : Production} (hr : p.rule? = none) (h : Spells p.rhs ps) :
    Spells [.nonterminal p.lhs] ps := by
  obtain ⟨ds, hv, hs, rfl⟩ := h
  exact ⟨[.node p ds], ⟨⟨hs, hv⟩, trivial⟩, rfl, by simp [parseTreesAll, parseTrees, hr]⟩

theorem of_seq (hx : ∀ x ∈ xs, x.isPlain) (hp : ∀ p ∈ ps, Spells [p.symbol] [p])
    (h : Pattern.Matches (.seq (xs.map GrammarSymbol.pattern)) ps) : Spells xs ps := by
  induction xs generalizing ps with
  | nil =>
    cases h
    exact nil
  | cons x xs ih =>
    obtain ⟨first, rest, rfl, hf, hr⟩ := Pattern.Matches.seq_cons h
    obtain ⟨p, rfl, rfl⟩ := GrammarSymbol.matches_pattern (hx x (by simp)) hf
    exact (hp p (by simp)).cons
      (ih (fun y hy => hx y (by simp [hy])) (fun q hq => hp q (by simp [hq])) hr)

theorem of_optional {x : GrammarSymbol} (hx : x.isPlain) (hp : ∀ p ∈ ps, Spells [p.symbol] [p])
    (h : Pattern.Matches (.optional x.pattern) ps) : ∃ c, Spells (symbolsIf c [x]) ps := by
  cases h with
  | absent => exact ⟨false, nil⟩
  | present once =>
    exact ⟨true, of_seq (by simpa [symbolsIf] using hx) hp
      (Pattern.matches_seq_singleton.mpr once)⟩

theorem continued {next : Production} {n : Nonterminal} (hx : ∀ x ∈ xs, x.isPlain)
    (hnext : next.rule? = none ∧ next.rhs = .nonterminal n :: xs ∧ next.lhs = n)
    (hp : ∀ p ∈ ps, Spells [p.symbol] [p])
    (h : Pattern.Matches (.repeated (.seq (xs.map GrammarSymbol.pattern))) ps)
    (before : Spells [.nonterminal n] qs) : Spells [.nonterminal n] (qs ++ ps) := by
  generalize hr : Pattern.repeated (.seq (xs.map GrammarSymbol.pattern)) = pattern at h
  induction h generalizing qs with
  | finished => simpa using before
  | again first rest _ ih =>
    obtain rfl := Pattern.repeated.inj hr
    have hf := of_seq hx (fun p h => hp p (by simp [h])) first
    have hstep : Spells next.rhs _ := hnext.2.1 ▸ before.cons hf
    have hlonger := helper hnext.1 hstep
    rw [hnext.2.2] at hlonger
    rw [← List.append_assoc]
    exact ih (fun p h => hp p (by simp [h])) hlonger rfl
  | _ => contradiction

/-- A repetition is spelled out from its left end, by a production that begins it and one that
continues it. -/
theorem of_repeated (one next : Production) (hx : ∀ x ∈ one.rhs, x.isPlain)
    (hone : one.rule? = none)
    (hnext : next.rule? = none ∧ next.rhs = .nonterminal one.lhs :: one.rhs ∧ next.lhs = one.lhs)
    (hp : ∀ p ∈ ps, Spells [p.symbol] [p])
    (h : Pattern.Matches (.repeated (.seq (one.rhs.map GrammarSymbol.pattern))) ps) :
    ∃ c, Spells (symbolsIf c [.nonterminal one.lhs]) ps := by
  cases h with
  | finished => exact ⟨false, nil⟩
  | again first rest =>
    have hf := of_seq hx (fun p h => hp p (by simp [h])) first
    exact ⟨true, continued hx hnext (fun p h => hp p (by simp [h])) rest (helper hone hf)⟩

theorem of_alternative {r : Rule} {a : Alternative} (ha : a ∈ r.alternatives)
    (hp : ∀ p ∈ ps, Spells [p.symbol] [p]) (h : a.pattern.Matches ps) :
    ∃ p : Production, p.rule? = some r ∧ p.alternative = a ∧ Spells p.rhs ps := by
  by_cases hs : r = .script
  · subst hs
    obtain rfl := List.mem_singleton.mp ha
    obtain ⟨newline, later, rfl, hn, hl⟩ := Pattern.Matches.seq_cons h
    obtain ⟨lines, last, rfl, hl, ht⟩ := Pattern.Matches.seq_cons hl
    obtain ⟨leading, hn⟩ := of_optional (x := .terminal .newline) rfl
      (fun p h => hp p (by simp [h])) hn
    obtain ⟨more, hl⟩ := of_repeated .linesOne .linesMore (by decide) rfl
      ⟨rfl, rfl, rfl⟩ (fun p h => hp p (by simp [h])) hl
    obtain ⟨unfinished, ht⟩ := of_optional (x := .nonterminal .statement) rfl
      (fun p h => hp p (by simp [h])) (Pattern.matches_seq_singleton.mp ht)
    refine ⟨.script leading more unfinished, rfl, rfl, ?_⟩
    rw [← List.append_assoc]
    exact (hn.append hl).append ht
  · by_cases hl : r = .argList
    · subst hl
      obtain rfl := List.mem_singleton.mp ha
      obtain ⟨lpar, later, rfl, ho, hi⟩ := Pattern.Matches.seq_cons h
      obtain ⟨items, rpar, rfl, hi, hc⟩ := Pattern.Matches.seq_cons hi
      have ho : Spells [.terminal .lpar] lpar := of_seq (by decide)
        (fun p h => hp p (by simp [h])) (Pattern.matches_seq_singleton.mpr ho)
      have hc : Spells [.terminal .rpar] rpar := of_seq (by decide)
        (fun p h => hp p (by simp [h])) hc
      cases hi with
      | absent => exact ⟨.argsNone, rfl, rfl, ho.append hc⟩
      | present hi =>
        obtain ⟨first, later, rfl, hf, hi⟩ := Pattern.Matches.seq_cons hi
        obtain ⟨next, comma, rfl, hn, hm⟩ := Pattern.Matches.seq_cons hi
        have hf : Spells [.nonterminal .expr] first := of_seq (by decide)
          (fun p h => hp p (by simp [h])) (Pattern.matches_seq_singleton.mpr hf)
        obtain ⟨more, hn⟩ := of_repeated .moreOne .moreNext (by decide) rfl
          ⟨rfl, rfl, rfl⟩ (fun p h => hp p (by simp [h])) hn
        obtain ⟨trailing, hm⟩ := of_optional (x := .terminal .comma) rfl
          (fun p h => hp p (by simp [h])) (Pattern.matches_seq_singleton.mp hm)
        refine ⟨.args more trailing, rfl, rfl, ?_⟩
        simp only [← List.append_assoc]
        exact (((ho.append hf).append hn).append hm).append hc
    · rw [Rule.alternatives_eq hs hl] at ha
      obtain ⟨p, hpr, rfl⟩ := List.mem_map.mp ha
      have hr : p.rule? = some r := by simpa using (List.mem_filter.mp hpr).2
      have hs' : p.rule? ≠ some .script := by simpa [hr] using hs
      have hl' : p.rule? ≠ some .argList := by simpa [hr] using hl
      rw [Production.alternative_eq hs' hl'] at h
      have hx := GrammarSymbol.isPlain_of_mem_rhs p (by simp [hr]) hs' hl'
      exact ⟨p, hr, rfl, of_seq hx hp h⟩

mutual

/-- Each tree that applies the rules is spelled out by a derivation. -/
theorem of_valid (p : ParseTree) (hv : p.Valid) : Spells [p.symbol] [p] := by
  match p with
  | .leaf token => exact ⟨[.leaf token], ⟨trivial, trivial⟩, rfl, rfl⟩
  | .node r a children =>
    obtain ⟨p, hr, rfl, h⟩ := of_alternative hv.1 (of_validAll children hv.2.2) hv.2.1
    exact node hr h

theorem of_validAll (ps : List ParseTree) (hv : ParseTree.ValidAll ps) :
    ∀ p ∈ ps, Spells [p.symbol] [p] := by
  match ps with
  | [] => simp
  | p :: ps =>
    have hp := of_valid p hv.1
    have hps := of_validAll ps hv.2
    simpa using ⟨hp, hps⟩

end

end Spells
end ArithScript
