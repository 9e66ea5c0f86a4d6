import ArithScript.Grammar.Lexeme

/-!
Tokens, and the division of a text into tokens without regard to their context.
-/
namespace ArithScript

/-- An occurrence of a terminal in a text, from offset `start` up to `stop`. -/
structure Token where
  terminal : Terminal
  text : String
  start : Nat
  stop : Nat
  deriving DecidableEq

namespace Token

/-- The token of the first `length` characters of a text that begins at offset `start`. -/
def ofPrefix (terminal : Terminal) (start length : Nat) (text : List Char) : Token :=
  ⟨terminal, String.ofList (text.take length), start, start + length⟩

/-- The tokens of a text that begins at offset `start`, if it can be divided: at each place ignored
text is skipped, or else the first terminal that matches is taken. -/
def scanFrom (start : StartSymbol) (offset : Nat) (text : List Char) : Option (List Token) :=
  if _nonempty : text = [] then some []
  else
    match Lexeme.ignored text with
    | n + 1 => scanFrom start (offset + (n + 1)) (text.drop (n + 1))
    | 0 =>
      match Lexeme.first? start.hasTerminal text with
      | some (terminal, n + 1) =>
        (scanFrom start (offset + (n + 1)) (text.drop (n + 1))).map
          (ofPrefix terminal offset (n + 1) text :: ·)
      | _ => none
termination_by text.length
decreasing_by all_goals exact Lexeme.length_drop_lt (Nat.succ_pos _) _nonempty

/-- The tokens of a text. -/
def scan (start : StartSymbol) (text : List Char) : Option (List Token) := scanFrom start 0 text

end Token
end ArithScript
