import ArithScript.Automaton.Stack

/-!
Runs of the automaton over a text.

A token is looked for only among the terminals that the state on top of the stack has a use for.
Productions are then applied as long as the token calls for it, and the token is put on the stack,
or refused if the state reached has no use for it. Nothing is read after the first refusal.
-/
namespace ArithScript

/-- Why a text is refused, and what would have been accepted instead: nothing of use can be read at an
offset, a token cannot follow those before it, or the text ends too early and has its last token at
`latest`. -/
inductive Refusal
  | unreadable (offset : Nat) (expected : List Terminal)
  | misplaced (token : Token) (expected : List Lookahead)
  | unfinished (latest : Nat) (expected : List Lookahead)
  deriving DecidableEq

namespace Refusal

/-- Where the text is refused. A text that ends too early is refused at its last token. -/
def offset : Refusal → Nat
  | .unreadable offset _ => offset
  | .misplaced token _ => token.start
  | .unfinished latest _ => latest

def expected : Refusal → List Lookahead
  | .unreadable _ expected => expected.map some
  | .misplaced _ expected => expected
  | .unfinished _ expected => expected

end Refusal

namespace Derivation

/-- Reads the rest of a text, which begins at `offset`, after the symbols on the stack. `latest` is
the offset of the last token read. -/
def parseFrom (start : StartSymbol) (stack : Stack) (latest offset : Nat) (text : List Char) :
    Except Refusal Derivation :=
  if _nonempty : text = [] then
    match stack.reduceFor start none with
    | ⟨.finished, derivation⟩ :: _ => .ok derivation
    | reached => .error (.unfinished latest (reached.state.lookaheads start))
  else
    match Lexeme.ignored text with
    | n + 1 => parseFrom start stack latest (offset + (n + 1)) (text.drop (n + 1))
    | 0 =>
      match Lexeme.first? (stack.state.accepts start) text with
      | some (terminal, n + 1) =>
        let token := Token.ofPrefix terminal offset (n + 1) text
        let reached := stack.reduceFor start (some terminal)
        match reached.state.shift? start terminal with
        | some s =>
          parseFrom start (⟨s, .leaf token⟩ :: reached) offset (offset + (n + 1))
            (text.drop (n + 1))
        | none => .error (.misplaced token (reached.state.lookaheads start))
      | _ => .error (.unreadable offset (stack.state.terminals start))
termination_by text.length
decreasing_by all_goals exact Lexeme.length_drop_lt (Nat.succ_pos _) _nonempty

/-- The derivation of a text, or why there is none. -/
def parse (start : StartSymbol) (text : List Char) : Except Refusal Derivation :=
  parseFrom start [] 0 0 text

end Derivation
end ArithScript
