/-!
Source texts, slices of them by offset, and the line and column of an offset.

Offsets count characters. Lines and columns are numbered from 1, and a line starts after each
newline character only. The offsets at which lines start are computed once for each text.
-/
namespace ArithScript

/-- Offsets just after each newline of a text whose first character stands at `offset`. -/
def offsetsAfterNewlines (offset : Nat) : List Char → List Nat
  | [] => []
  | c :: rest =>
    if c = '\n' then (offset + 1) :: offsetsAfterNewlines (offset + 1) rest
    else offsetsAfterNewlines (offset + 1) rest

/-- Offsets at which the lines of a text start. -/
def lineStarts (chars : List Char) : List Nat := 0 :: offsetsAfterNewlines 0 chars

/-- A text together with the offsets at which its lines start. -/
structure Source where
  chars : Array Char
  starts : Array Nat := (lineStarts chars.toList).toArray
  starts_eq : starts = (lineStarts chars.toList).toArray := by rfl

/-- One-based line and column. -/
structure Position where
  line : Nat
  column : Nat
  deriving DecidableEq

/-- Half-open range of offsets. -/
structure Extent where
  start : Int
  stop : Int
  deriving DecidableEq

/-- The first index in `lo ..< hi` whose entry exceeds `offset`, or `hi` if there is none, for an
increasing array. -/
def firstBeyond (starts : Array Nat) (offset lo hi : Nat) : Nat :=
  if lo < hi then
    let mid := (lo + hi) / 2
    if offset < starts.getD mid 0 then firstBeyond starts offset lo mid
    else firstBeyond starts offset (mid + 1) hi
  else lo
termination_by hi - lo

namespace Source

def ofString (text : String) : Source where
  chars := text.toList.toArray

def length (source : Source) : Nat := source.chars.size

/-- The place of an offset between characters: a negative offset counts from the end, and what lies
outside the text is moved to its nearer end. -/
def place (source : Source) (offset : Int) : Nat :=
  if offset < 0 then (offset + source.length).toNat else min offset.toNat source.length

/-- The text between two offsets, empty when the first is not before the second. -/
def slice (source : Source) (start stop : Int) : String :=
  String.ofList (source.chars.extract (source.place start) (source.place stop)).toList

/-- The offset moved into the text, without counting from the end. -/
def clamp (source : Source) (offset : Int) : Nat := min offset.toNat source.length

/-- Line and column of an offset, which is first moved into the text. -/
def position (source : Source) (offset : Int) : Position :=
  let place := source.clamp offset
  let line := firstBeyond source.starts place 0 source.starts.size
  ⟨line, place - source.starts.getD (line - 1) 0 + 1⟩

end Source
end ArithScript
