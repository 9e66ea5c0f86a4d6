import ArithScript.Numeric.Decimal
import ArithScript.Text.DecimalDigit

/-!
Numerals: digits with an optional point and further digits, or a point and at least one digit;
then an optional exponent. Digits are decimal digits of any script. A sign is no part of a
numeral.

`Numeral.scan` takes the longest numeral at the front of a text; `readNumber` reads a whole text.
-/
namespace ArithScript

structure NumeralExponent where
  mark : Char
  sign : Option Char
  digits : List Char
  deriving DecidableEq

/-- The parts of a numeral as they are written; the point stands before the fraction. -/
structure Numeral where
  whole : List Char
  fraction : Option (List Char)
  exponent : Option NumeralExponent
  deriving DecidableEq

def digitsValue (digits : List Char) : Nat :=
  digits.foldl (fun value c => 10 * value + (digitValue? c).getD 0) 0

namespace NumeralExponent

def chars (e : NumeralExponent) : List Char := e.mark :: e.sign.toList ++ e.digits

def value (e : NumeralExponent) : Int :=
  if e.sign = some '-' then -(digitsValue e.digits : Int) else digitsValue e.digits

end NumeralExponent

def scanSign : List Char → Option Char × List Char
  | c :: rest => if c = '+' || c = '-' then (some c, rest) else (none, c :: rest)
  | [] => (none, [])

namespace Numeral

def chars (n : Numeral) : List Char :=
  n.whole ++ (n.fraction.elim [] ('.' :: ·)) ++ (n.exponent.elim [] NumeralExponent.chars)

/-- The magnitude that a numeral denotes. -/
def value (n : Numeral) : Decimal where
  digits := digitsValue (n.whole ++ n.fraction.getD [])
  exponent := n.exponent.elim 0 NumeralExponent.value - (n.fraction.getD []).length

/-- The exponent part at the front of a text, and what follows it. It needs at least one digit. -/
def scanExponent : List Char → Option NumeralExponent × List Char
  | [] => (none, [])
  | mark :: rest =>
    let (sign, tail) := scanSign rest
    let digits := tail.takeWhile isDecimalDigit
    if (mark = 'e' || mark = 'E') && !digits.isEmpty then
      (some ⟨mark, sign, digits⟩, tail.dropWhile isDecimalDigit)
    else (none, mark :: rest)

def scanFraction : List Char → Option (List Char) × List Char
  | '.' :: rest => (some (rest.takeWhile isDecimalDigit), rest.dropWhile isDecimalDigit)
  | rest => (none, rest)

/-- The longest numeral at the front of a text, and what follows it. -/
def scan (text : List Char) : Option (Numeral × List Char) :=
  let whole := text.takeWhile isDecimalDigit
  let (fraction, tail) := scanFraction (text.dropWhile isDecimalDigit)
  if whole.isEmpty && (fraction.getD []).isEmpty then none
  else
    let (exponent, rest) := scanExponent tail
    some (⟨whole, fraction, exponent⟩, rest)

end Numeral

/-- The number that a text denotes, if it is an optional sign and a numeral. -/
def readNumber (text : String) : Option Binary64 :=
  let (sign, unsigned) := scanSign text.toList
  match Numeral.scan unsigned with
  | some (numeral, []) => some (numeral.value.nearest (sign = some '-'))
  | _ => none

end ArithScript
