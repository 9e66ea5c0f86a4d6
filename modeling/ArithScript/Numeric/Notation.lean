import ArithScript.Numeric.Shortest

/-!
Written forms of binary64 numbers.

The program form writes a whole number below `10 ^ 16` in full and any other number by its
shortest digits. The full form differs for whole numbers below `10 ^ 16`, which show a point and a
zero.
-/
namespace ArithScript

/-- Where shortest digits are written positionally: from `positionalFrom` up to, but not including,
`positionalUpTo`, as powers of ten of the leading digit. Elsewhere an exponent of at least
`exponentWidth` digits follows the mark `e` and a sign. -/
structure DecimalLayout where
  positionalFrom : Int
  positionalUpTo : Int
  exponentWidth : Nat

def scriptLayout : DecimalLayout := ⟨-4, 16, 2⟩

namespace DecimalLayout

/-- Positional notation of digits whose first has the weight `10 ^ lead`. The point is always
written, with zeros between it and the digits where they do not meet. -/
def positional (digits : List Char) (lead : Int) : List Char :=
  if lead < 0 then '0' :: '.' :: List.replicate (-lead - 1).toNat '0' ++ digits
  else
    let places := lead.toNat + 1
    if digits.length ≤ places then
      digits ++ List.replicate (places - digits.length) '0' ++ ['.', '0']
    else digits.take places ++ '.' :: digits.drop places

def exponentDigits (layout : DecimalLayout) (n : Nat) : List Char :=
  let digits := Nat.toDigits 10 n
  List.replicate (layout.exponentWidth - digits.length) '0' ++ digits

def scientific (layout : DecimalLayout) (digits : List Char) (lead : Int) : List Char :=
  let significand :=
    match digits with
    | first :: rest => if rest.isEmpty then [first] else first :: '.' :: rest
    | [] => []
  significand ++ 'e' :: (if lead < 0 then '-' else '+') :: layout.exponentDigits lead.natAbs

def write (layout : DecimalLayout) (d : Decimal) : List Char :=
  let digits := Nat.toDigits 10 d.digits
  let lead := d.exponent + digits.length - 1
  if layout.positionalFrom ≤ lead ∧ lead < layout.positionalUpTo then positional digits lead
  else layout.scientific digits lead

end DecimalLayout

namespace Binary64

def signChars (x : Binary64) : List Char := if x.negative then ['-'] else []

/-- The full form: shortest digits, and a point and a zero where they show neither point nor
exponent. -/
def fullChars (x : Binary64) : List Char :=
  if x.isNaN then ['n', 'a', 'n']
  else x.signChars ++
    if x.isInfinite then ['i', 'n', 'f']
    else if x.isZero then ['0', '.', '0']
    else scriptLayout.write x.shortest

/-- The form that programs use. -/
def programChars (x : Binary64) : List Char :=
  if x.isZero then x.signChars ++ ['0']
  else if x.isWhole && x.wholePart < Nat.pow 10 16 then x.signChars ++ Nat.toDigits 10 x.wholePart
  else x.fullChars

def fullText (x : Binary64) : String := String.ofList x.fullChars

def programText (x : Binary64) : String := String.ofList x.programChars

end Binary64
end ArithScript
