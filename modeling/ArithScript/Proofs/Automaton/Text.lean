import ArithScript.Automaton.Run
import ArithScript.Proofs.Automaton.Tokens
import ArithScript.Proofs.Grammar.Lexing

/-! The automaton on a text. It looks only for the terminals that its state has a use for, and still
cuts an accepted text into the same tokens as a scan without regard to the context. -/
namespace ArithScript

namespace Stack
variable {start : StartSymbol} {stack : Stack}

theorem Linked.occursIn (h : Linked start stack) : stack.state.occursIn start := by
  induction h with
  | nil => cases start <;> rfl
  | @cons stack s d _ reached _ ih => exact State.occursIn_next _ _ _ ih s reached

theorem accepts_of_shift {t : Terminal}
    (h : ((stack.reduceFor start (some t)).state.shift? start t).isSome) :
    stack.state.accepts start t := by
  cases hr : stack.state.reduction? start (some t) with
  | none =>
    rw [reduceFor_eq_self hr] at h
    simp [State.accepts, h]
  | some p => simp [State.accepts, hr]

end Stack

namespace Derivation
variable {start : StartSymbol} {text : List Char}

theorem parseFrom_of_scanFrom {stack : Stack} {latest offset : Nat} {tokens : List Token}
    {d : Derivation} (hscan : Token.scanFrom start offset text = some tokens)
    (hd : stack.derivation? start tokens = some d) :
    parseFrom start stack latest offset text = .ok d := by
  fun_induction Token.scanFrom start offset text generalizing stack latest tokens with
  | case1 offset =>
    obtain rfl := Option.some.inj hscan
    rw [parseFrom]
    simp only [Stack.derivation?] at hd
    split at hd
    · rename_i heq
      simp_all
    · contradiction
  | case2 offset text hne n hi ih =>
    rw [parseFrom]
    simpa [hne, hi] using ih hscan hd
  | case3 offset text hne hi t n hfirst ih =>
    obtain ⟨rest, hrest, rfl⟩ := Option.map_eq_some_iff.mp hscan
    obtain ⟨s, hs, hd⟩ := Option.bind_eq_some_iff.mp hd
    have hs' : (stack.reduceFor start (some t)).state.shift? start t = some s := hs
    have hoffered : stack.state.accepts start t := Stack.accepts_of_shift (by simp [hs'])
    have hfirst' := Lexeme.first?_eq_of_offered hfirst hoffered fun _ _ => by cases start <;> rfl
    rw [parseFrom]
    simp only [hne, ↓reduceDIte, hi, hfirst', hs']
    exact ih hrest hd
  | case4 => contradiction

theorem scanFrom_of_parseFrom {stack : Stack} {latest offset : Nat} {d : Derivation}
    (hl : stack.Linked start) (h : parseFrom start stack latest offset text = .ok d) :
    ∃ tokens, Token.scanFrom start offset text = some tokens ∧
      stack.derivation? start tokens = some d := by
  fun_induction parseFrom start stack latest offset text with
  | case1 stack latest offset d' rest hreduced =>
    refine ⟨[], Token.scanFrom_nil, ?_⟩
    obtain rfl := Except.ok.inj h
    simp [Stack.derivation?, hreduced]
  | case2 => contradiction
  | case3 stack latest offset text hne n hi ih =>
    obtain ⟨tokens, hscan, hd⟩ := ih hl h
    exact ⟨tokens, by rw [Token.scanFrom_of_ignored hi hne, hscan], hd⟩
  | case4 stack latest offset text hne hi t n hfirst token reached s hs ih =>
    obtain ⟨hlr, _⟩ := hl.reduceFor (some t)
    obtain ⟨tokens, hscan, hd⟩ := ih (.cons hlr hs trivial) h
    have hoffered := (Lexeme.first?_eq_some_iff.mp hfirst).1
    obtain ⟨ht, heq⟩ := State.accepts_hasTerminal _ _ _ hl.occursIn hoffered
    have hfirst' := Lexeme.first?_eq_of_offered hfirst ht fun he _ => heq he
    refine ⟨token :: tokens, by rw [Token.scanFrom_of_first? hi hne hfirst', hscan]; rfl, ?_⟩
    exact Option.bind_eq_some_iff.mpr ⟨s, hs, hd⟩
  | case5 => contradiction
  | case6 => contradiction

structure Derives (start : StartSymbol) (d : Derivation) (tokens : List Token) : Prop where
  valid : d.Valid
  symbol_eq : d.symbol = .nonterminal start.nonterminal
  yield_eq : d.yield = tokens

/-- A text is read as a derivation exactly if it is the derivation of the tokens of the text. -/
theorem parse_eq_ok_iff {d : Derivation} :
    parse start text = .ok d ↔
      ∃ tokens, Token.scan start text = some tokens ∧ d.Derives start tokens := by
  constructor
  · intro h
    obtain ⟨tokens, hscan, hd⟩ := scanFrom_of_parseFrom .nil h
    obtain ⟨hv, hs, hy⟩ := Stack.derivation?_sound .nil hd
    exact ⟨tokens, hscan, hv, hs, by simpa [Stack.tokens] using hy⟩
  · rintro ⟨tokens, hscan, hv, hs, rfl⟩
    exact parseFrom_of_scanFrom hscan
      (Stack.derivation?_complete hv hs (Token.hasTerminal_of_scanFrom hscan))

/-- The grammar is unambiguous on the tokens of a text. -/
theorem Derives.eq {d e : Derivation} {tokens : List Token}
    (hscan : Token.scan start text = some tokens) (hd : d.Derives start tokens)
    (he : e.Derives start tokens) : d = e := by
  have h := parse_eq_ok_iff.mpr ⟨tokens, hscan, hd⟩
  exact Except.ok.inj (h.symm.trans (parse_eq_ok_iff.mpr ⟨tokens, hscan, he⟩))

end Derivation
end ArithScript
