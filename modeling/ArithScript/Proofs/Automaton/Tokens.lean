import ArithScript.Automaton.Stack
import ArithScript.Proofs.Automaton.Transition

/-! The automaton on a sequence of tokens, apart from how they are cut out of a text. It accepts a
sequence exactly if the grammar derives it, and then it builds the derivation. -/
namespace ArithScript

def lookahead : List Token → Lookahead
  | [] => none
  | token :: _ => some token.terminal

namespace Derivation

theorem validAll_iff {ds : List Derivation} : ValidAll ds ↔ ∀ d ∈ ds, d.Valid := by
  induction ds with
  | nil => simp [ValidAll]
  | cons d ds ih => simp [ValidAll, ih]

theorem yieldAll_eq_flatMap (ds : List Derivation) : yieldAll ds = ds.flatMap yield := by
  induction ds with
  | nil => rfl
  | cons d ds ih => simp [yieldAll, ih]

theorem yieldAll_append (ds es : List Derivation) :
    yieldAll (ds ++ es) = yieldAll ds ++ yieldAll es := by
  simp [yieldAll_eq_flatMap]

end Derivation

namespace Stack

/-- The derivation of the tokens after the symbols on the stack, if the automaton accepts them. -/
def derivation? (start : StartSymbol) (stack : Stack) : List Token → Option Derivation
  | [] =>
    match stack.reduceFor start none with
    | ⟨.finished, d⟩ :: _ => some d
    | _ => none
  | token :: rest =>
    let reached := stack.reduceFor start (some token.terminal)
    (reached.state.shift? start token.terminal).bind fun s =>
      derivation? start (⟨s, .leaf token⟩ :: reached) rest

def tokens : Stack → List Token
  | [] => []
  | frame :: rest => tokens rest ++ frame.derivation.yield

/-- Each state on the stack is reached from the one below by the symbol between them, whose
derivation applies its productions. -/
inductive Linked (start : StartSymbol) : Stack → Prop
  | nil : Linked start []
  | cons {stack : Stack} {s : State} {d : Derivation} (below : Linked start stack)
      (reached : stack.state.next? start d.symbol = some s) (valid : d.Valid) :
      Linked start (⟨s, d⟩ :: stack)

variable {start : StartSymbol} {stack : Stack}

theorem Linked.history (h : Linked start stack) :
    stack.state.history <+: stack.map (·.derivation.symbol) := by
  induction h with
  | nil => exact List.prefix_rfl
  | @cons stack s d _ reached _ ih =>
    have hs := State.history_next start stack.state d.symbol s reached
    exact hs.trans ((List.prefix_cons_inj _).mpr ih)

theorem Linked.drop (h : Linked start stack) (n : Nat) : Linked start (stack.drop n) := by
  induction h generalizing n with
  | nil => simpa using Linked.nil
  | cons below reached valid ih =>
    cases n with
    | zero => exact .cons below reached valid
    | succ n => exact ih n

theorem Linked.valid (h : Linked start stack) : ∀ frame ∈ stack, frame.derivation.Valid := by
  induction h with
  | nil => simp
  | cons _ _ valid ih => simpa using ⟨valid, ih⟩

theorem Linked.eq_nil (h : Linked start stack) (hs : stack.state = .start) : stack = [] := by
  cases h with
  | nil => rfl
  | @cons stack s d _ reached _ => exact absurd hs (State.next_boundary _ _ _ s reached).1

theorem tokens_split (stack : Stack) (n : Nat) :
    tokens (stack.drop n) ++
      Derivation.yieldAll ((stack.take n).reverse.map Frame.derivation) = stack.tokens := by
  induction stack generalizing n with
  | nil => simp [tokens, Derivation.yieldAll]
  | cons frame stack ih =>
    cases n with
    | zero => simp [Derivation.yieldAll]
    | succ n =>
      simp only [List.drop_succ_cons, List.take_succ_cons, List.reverse_cons, List.map_append,
        List.map_cons, List.map_nil, Derivation.yieldAll_append, tokens, ← ih n]
      simp [Derivation.yieldAll]

theorem Linked.rhs_prefix {p : Production} (h : Linked start stack)
    (hp : stack.state.completed? start = some p) :
    p.rhs.reverse <+: stack.map (·.derivation.symbol) :=
  (State.history_completed _ _ p hp).trans h.history

theorem Linked.take_rhs {p : Production} (h : Linked start stack)
    (hp : stack.state.completed? start = some p) :
    (stack.map (·.derivation.symbol)).take p.rhs.length = p.rhs.reverse := by
  simpa using (List.prefix_iff_eq_take.mp (h.rhs_prefix hp)).symm

theorem Linked.reduce {p : Production} {next : Stack} (h : Linked start stack)
    (hp : stack.state.completed? start = some p) (hr : reduce? start p stack = some next) :
    Linked start next ∧ next.tokens = stack.tokens := by
  simp only [reduce?] at hr
  split at hr
  · obtain ⟨s, hs, rfl⟩ := Option.map_eq_some_iff.mp hr
    refine ⟨.cons (h.drop _) hs ⟨?_, Derivation.validAll_iff.mpr ?_⟩, tokens_split stack _⟩
    · have := congrArg List.reverse (h.take_rhs hp)
      simpa [List.map_take, Function.comp_def] using this
    · intro d hd
      obtain ⟨frame, hf, rfl⟩ := List.mem_map.mp hd
      exact h.valid frame (List.mem_of_mem_take (List.mem_reverse.mp hf))
  · contradiction

theorem Linked.reduceFor (next : Lookahead) (h : Linked start stack) :
    Linked start (stack.reduceFor start next) ∧
      (stack.reduceFor start next).tokens = stack.tokens := by
  fun_induction Stack.reduceFor start next stack with
  | case1 stack _ => exact ⟨h, rfl⟩
  | case2 stack p _ _ => exact ⟨h, rfl⟩
  | case3 stack p hp rest hr ih =>
    obtain ⟨hl, ht⟩ := h.reduce (Option.filter_eq_some_iff.mp hp).1 hr
    exact ⟨(ih hl).1, (ih hl).2.trans ht⟩

/-- What the automaton accepts, the grammar derives. -/
theorem derivation?_sound {tokens : List Token} {d : Derivation} (h : Linked start stack)
    (hd : stack.derivation? start tokens = some d) :
    d.Valid ∧ d.symbol = .nonterminal start.nonterminal ∧ d.yield = stack.tokens ++ tokens := by
  induction tokens generalizing stack with
  | nil =>
    obtain ⟨hl, ht⟩ := h.reduceFor none
    simp only [derivation?] at hd
    split at hd
    · rename_i d' rest heq
      obtain rfl := Option.some.inj hd
      rw [heq] at hl ht
      cases hl with
      | cons below reached valid =>
        obtain ⟨hs, hx⟩ := (State.next_boundary _ _ _ _ reached).2 rfl
        obtain rfl := below.eq_nil hs
        exact ⟨valid, hx, by simpa [Stack.tokens] using ht⟩
    · contradiction
  | cons token rest ih =>
    obtain ⟨hl, ht⟩ := h.reduceFor (some token.terminal)
    obtain ⟨s, hs, hd⟩ := Option.bind_eq_some_iff.mp hd
    have hnext : Linked start (⟨s, .leaf token⟩ :: stack.reduceFor start (some token.terminal)) :=
      .cons hl hs trivial
    obtain ⟨hv, hx, hy⟩ := ih hnext hd
    exact ⟨hv, hx, by simpa [Stack.tokens, Derivation.yield, ht] using hy⟩

theorem reduceFor_eq_self {next : Lookahead} (h : stack.state.reduction? start next = none) :
    stack.reduceFor start next = stack := by
  rw [Stack.reduceFor]
  split
  · rfl
  · rename_i p hp
    rw [h] at hp
    contradiction

theorem reduceFor_of_reduce {next : Lookahead} {p : Production} {after : Stack}
    (hp : stack.state.reduction? start next = some p) (hr : reduce? start p stack = some after) :
    stack.reduceFor start next = after.reduceFor start next := by
  rw [Stack.reduceFor]
  split
  · rename_i hn
    rw [hp] at hn
    contradiction
  · rename_i q hq
    obtain rfl := Option.some.inj (hp.symm.trans hq)
    split
    · rename_i hn
      rw [hr] at hn
      contradiction
    · rename_i rest hrest
      obtain rfl := Option.some.inj (hr.symm.trans hrest)
      rfl

theorem derivation?_shift {token : Token} {rest : List Token} {s : State}
    (hs : stack.state.shift? start token.terminal = some s) :
    stack.derivation? start (token :: rest) =
      derivation? start (⟨s, .leaf token⟩ :: stack) rest := by
  have hn := State.reduction_eq_none start stack.state token.terminal (by simp [hs])
  simp [derivation?, reduceFor_eq_self hn, hs]

theorem derivation?_reduce {tokens : List Token} {p : Production} {after : Stack}
    (hp : stack.state.reduction? start (lookahead tokens) = some p)
    (hr : reduce? start p stack = some after) :
    stack.derivation? start tokens = after.derivation? start tokens := by
  cases tokens with
  | nil =>
    have : stack.reduceFor start none = _ := reduceFor_of_reduce hp hr
    simp only [derivation?, this]
  | cons token rest =>
    have : stack.reduceFor start (some token.terminal) = _ := reduceFor_of_reduce hp hr
    simp only [derivation?, this]

theorem reduce?_append {p : Production} {frames : Stack} {s : State}
    (hlen : frames.length = p.rhs.length) (hs : stack.state.goto? start p.lhs = some s) :
    reduce? start p (frames ++ stack) =
      some (⟨s, .node p (frames.reverse.map Frame.derivation)⟩ :: stack) := by
  simp [reduce?, ← hlen, hs]

end Stack

theorem State.route?_cons {start : StartSymbol} {next : Lookahead} {s e : State}
    {x : GrammarSymbol} {xs : List GrammarSymbol}
    (h : s.route? start next (x :: xs) = some e) :
    ∃ s', s.next? start x = some s' ∧
      (∀ n, x = .nonterminal n → ∀ a ∈ upcoming next xs, a ∈ s.follows start n) ∧
      s'.route? start next xs = some e := by
  cases x with
  | terminal t =>
    obtain ⟨s', hs, he⟩ := Option.bind_eq_some_iff.mp h
    exact ⟨s', hs, by simp, he⟩
  | nonterminal n =>
    rw [route?_nonterminal] at h
    split at h
    · rename_i hall
      obtain ⟨s', hs, he⟩ := Option.bind_eq_some_iff.mp h
      refine ⟨s', hs, ?_, he⟩
      rintro _ ⟨⟩ a ha
      simpa using List.all_eq_true.mp hall a ha
    · contradiction

namespace Derivation

theorem exists_first (d : Derivation) (hv : d.Valid) (hs : d.symbol ≠ .nonterminal .script) :
    ∃ token rest, d.yield = token :: rest ∧ token.terminal ∈ d.symbol.firsts := by
  match d with
  | .leaf token => exact ⟨token, [], rfl, by simp [symbol, GrammarSymbol.firsts]⟩
  | .node p [] =>
    obtain ⟨x, hx, _⟩ := firsts_rhs p (by simpa [symbol] using hs)
    rw [← hv.1] at hx
    simp at hx
  | .node p (d :: ds) =>
    obtain ⟨x, hx, hfirst⟩ := firsts_rhs p (by simpa [symbol] using hs)
    have hmem : d.symbol ∈ p.rhs := by rw [← hv.1]; simp
    obtain rfl : d.symbol = x := by simpa [← hv.1] using hx
    obtain ⟨token, rest, hy, ht⟩ :=
      d.exists_first hv.2.1 fun h => script_notMem_rhs p (h ▸ hmem)
    exact ⟨token, rest ++ yieldAll ds, by simp [yield, yieldAll, hy], hfirst _ ht⟩

theorem lookahead_mem_upcoming {ds : List Derivation} (rest : List Token) (hv : ValidAll ds)
    (hs : .nonterminal .script ∉ ds.map symbol) :
    lookahead (yieldAll ds ++ rest) ∈ upcoming (lookahead rest) (ds.map symbol) := by
  cases ds with
  | nil => simp [yieldAll, upcoming]
  | cons d ds =>
    obtain ⟨token, later, hy, ht⟩ := d.exists_first hv.1 fun h => hs (by simp [h])
    simpa [yieldAll, hy, lookahead, upcoming] using ht

end Derivation

theorem hasLookahead_lookahead {start : StartSymbol} {tokens : List Token}
    (h : ∀ token ∈ tokens, start.hasTerminal token.terminal) :
    start.hasLookahead (lookahead tokens) := by
  cases tokens with
  | nil => rfl
  | cons token rest => exact h token (by simp)

namespace Stack
variable {start : StartSymbol}

mutual

/-- The tokens of a derivation are read and replaced by the derivation, wherever the state has a use
for its symbol and what comes after may follow it. -/
theorem derivation?_yield (d : Derivation) (stack : Stack) (rest : List Token) {s : State}
    (hv : d.Valid)
    (hs : stack.state.next? start d.symbol = some s)
    (hf : ∀ n, d.symbol = .nonterminal n → lookahead rest ∈ stack.state.follows start n)
    (ht : ∀ token ∈ d.yield ++ rest, start.hasTerminal token.terminal) :
    stack.derivation? start (d.yield ++ rest) = derivation? start (⟨s, d⟩ :: stack) rest := by
  match d with
  | .leaf token => exact derivation?_shift hs
  | .node p ds =>
    have hl : start.hasLookahead (lookahead rest) :=
      hasLookahead_lookahead fun token h => ht token (List.mem_append_right _ h)
    -- the children are read one after the other, and then the production is applied
    have hroute := State.route_rhs start stack.state p
      (by rw [show stack.state.goto? start p.lhs = some s from hs]; rfl) _ (hf _ rfl) hl
    obtain ⟨e, he, hp⟩ := Option.bind_eq_some_iff.mp hroute
    rw [← hv.1] at he
    obtain ⟨frames, hframes, hstate, hread⟩ := derivation?_yieldAll ds stack rest hv.2
      (by rw [hv.1]; exact script_notMem_rhs p) he ht
    have hlen : frames.length = p.rhs.length := by
      have hc := congrArg List.length hframes
      have hp := congrArg List.length hv.1
      rw [List.length_map, List.length_reverse] at hc
      rw [List.length_map] at hp
      exact hc.trans hp
    have hreduce : reduce? start p (frames ++ stack) = _ := reduce?_append hlen hs
    rw [hframes] at hreduce
    exact hread.trans (derivation?_reduce (by rwa [hstate]) hreduce)

theorem derivation?_yieldAll (ds : List Derivation) (stack : Stack) (rest : List Token)
    {e : State} (hv : Derivation.ValidAll ds)
    (hscript : .nonterminal .script ∉ ds.map Derivation.symbol)
    (he : stack.state.route? start (lookahead rest) (ds.map Derivation.symbol) = some e)
    (ht : ∀ token ∈ Derivation.yieldAll ds ++ rest, start.hasTerminal token.terminal) :
    ∃ frames : Stack, frames.reverse.map Frame.derivation = ds ∧ state (frames ++ stack) = e ∧
      stack.derivation? start (Derivation.yieldAll ds ++ rest) =
        derivation? start (frames ++ stack) rest := by
  match ds with
  | [] => exact ⟨[], rfl, Option.some.inj he, rfl⟩
  | d :: ds =>
    obtain ⟨s, hs, hfollow, he⟩ := State.route?_cons he
    have hscript' : .nonterminal .script ∉ ds.map Derivation.symbol :=
      fun h => hscript (List.mem_cons_of_mem _ h)
    have ht' : ∀ token ∈ d.yield ++ (Derivation.yieldAll ds ++ rest),
        start.hasTerminal token.terminal := by
      simpa [Derivation.yieldAll] using ht
    -- after the first derivation comes what the next one begins with, or the rest
    have hd := derivation?_yield d stack (Derivation.yieldAll ds ++ rest) hv.1 hs
      (fun n hn => hfollow n hn _ (Derivation.lookahead_mem_upcoming rest hv.2 hscript')) ht'
    obtain ⟨frames, hframes, hstate, hread⟩ :=
      derivation?_yieldAll ds (⟨s, d⟩ :: stack) rest hv.2 hscript' he
        fun token h => ht' token (List.mem_append_right _ h)
    refine ⟨frames ++ [⟨s, d⟩], by simp [hframes], by simpa using hstate, ?_⟩
    rw [Derivation.yieldAll, List.append_assoc, hd, hread]
    simp

end

/-- What the grammar derives, the automaton accepts, with the given derivation. -/
theorem derivation?_complete {d : Derivation} (hv : d.Valid)
    (hs : d.symbol = .nonterminal start.nonterminal)
    (ht : ∀ token ∈ d.yield, start.hasTerminal token.terminal) :
    derivation? start [] d.yield = some d := by
  have hgoto : State.next? start .start d.symbol = some .finished := by
    rw [hs]
    cases start <;> rfl
  have hread := derivation?_yield d [] [] hv hgoto
    (fun n hn => by
      obtain rfl := GrammarSymbol.nonterminal.inj (hs.symm.trans hn)
      cases start <;> decide)
    (by simpa using ht)
  rw [List.append_nil] at hread
  rw [hread, derivation?, reduceFor_eq_self rfl]

end Stack
end ArithScript
