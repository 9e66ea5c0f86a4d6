import ArithScript.Grammar.Symbol
import ArithScript.Numeric.Numeral

/-!
Lexemes: what a terminal matches at the front of a text, and what may stand between tokens.

Every function gives the number of characters that match; zero means that nothing matches, as no
lexeme is empty.
-/
namespace ArithScript.Lexeme

theorem length_drop_lt {n : Nat} {text : List Char} (positive : 0 < n) (nonempty : text ≠ []) :
    (text.drop n).length < text.length := by
  have := List.length_pos_iff.mpr nonempty
  rw [List.length_drop]
  omega

def isBlank (c : Char) : Bool := c = ' ' || c = '\t' || c = '\x0c'

def isNameStart (c : Char) : Bool := c.isAlpha || c = '_'

def isNamePart (c : Char) : Bool := c.isAlphanum || c = '_'

def blanks (text : List Char) : Nat := (text.takeWhile isBlank).length

def lineBreak : List Char → Nat
  | '\n' :: _ => 1
  | '\r' :: '\n' :: _ => 2
  | _ => 0

/-- A backslash at the end of a line, the blanks after it and the line break. -/
def continuation : List Char → Nat
  | '\\' :: rest =>
    let gap := blanks rest
    let ending := lineBreak (rest.drop gap)
    if ending = 0 then 0 else 1 + gap + ending
  | _ => 0

/-- Text that separates tokens and stands for nothing: a run of blanks or a line continuation. -/
def ignored (text : List Char) : Nat :=
  if blanks text = 0 then continuation text else blanks text

/-- A line break with the blanks after it, or a comment up to the end of its line. -/
def newlinePiece (text : List Char) : Nat :=
  match text with
  | '#' :: rest => 1 + (rest.takeWhile (· ≠ '\n')).length
  | _ =>
    let ending := lineBreak text
    if ending = 0 then 0 else ending + blanks (text.drop ending)

/-- As many line breaks and comments as follow each other. -/
def newlines (text : List Char) : Nat :=
  let piece := newlinePiece text
  if _h : 0 < piece ∧ text ≠ [] then piece + newlines (text.drop piece) else 0
termination_by text.length
decreasing_by exact length_drop_lt _h.1 _h.2

def number (text : List Char) : Nat :=
  match Numeral.scan text with
  | some (numeral, _) => numeral.chars.length
  | none => 0

def name : List Char → Nat
  | c :: rest => if isNameStart c then 1 + (rest.takeWhile isNamePart).length else 0
  | [] => 0

/-- A quote, characters of the same line other than that quote, and the quote again. -/
def string : List Char → Nat
  | mark :: rest =>
    if mark = '"' || mark = '\'' then
      let inner := (rest.takeWhile fun c => c ≠ mark && c ≠ '\n').length
      if rest[inner]? = some mark then inner + 2 else 0
    else 0
  | [] => 0

def compOp : List Char → Nat
  | '=' :: '=' :: _ => 2
  | '!' :: '=' :: _ => 2
  | '<' :: '=' :: _ => 2
  | '>' :: '=' :: _ => 2
  | '<' :: _ => 1
  | '>' :: _ => 1
  | _ => 0

def single (mark : Char) : List Char → Nat
  | c :: _ => if c = mark then 1 else 0
  | [] => 0

def ofTerminal : Terminal → List Char → Nat
  | .number => number
  | .name => name
  | .string => string
  | .compOp => compOp
  | .equal => single '='
  | .plus => single '+'
  | .minus => single '-'
  | .star => single '*'
  | .slash => single '/'
  | .percent => single '%'
  | .tilde => single '~'
  | .lpar => single '('
  | .rpar => single ')'
  | .comma => single ','
  | .newline => newlines

/-- The first of the offered terminals that matches, with the length of its lexeme. -/
def first? (offered : Terminal → Bool) (text : List Char) : Option (Terminal × Nat) :=
  Terminal.all.findSome? fun t =>
    if offered t && ofTerminal t text ≠ 0 then some (t, ofTerminal t text) else none

end ArithScript.Lexeme
