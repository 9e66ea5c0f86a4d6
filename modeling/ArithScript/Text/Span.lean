import ArithScript.Text.Source

/-!
Spans: a place in a text as offsets together with lines and columns, any of which may be unknown.
A span holds coordinates only; a failure that it was made for is not kept in it.
-/
namespace ArithScript

/-- A place in a text. The default value is the unknown place. -/
structure Span where
  file : Option String := none
  line : Option Int := none
  column : Option Int := none
  endLine : Option Int := none
  endColumn : Option Int := none
  start : Option Int := none
  stop : Option Int := none
  deriving DecidableEq

namespace Span

/-- The span between two offsets. The offsets are kept as given; lines and columns are those of the
offsets moved into the text. -/
def ofOffsets (source : Source) (start stop : Int) (file : Option String := none) : Span :=
  let first := source.position start
  let last := source.position stop
  { file
    line := some first.line
    column := some first.column
    endLine := some last.line
    endColumn := some last.column
    start := some start
    stop := some stop }

/-- The text covered by a span, empty when an offset is unknown. -/
def text (span : Span) (source : Source) : String :=
  match span.start, span.stop with
  | some start, some stop => source.slice start stop
  | _, _ => ""

end Span
end ArithScript
