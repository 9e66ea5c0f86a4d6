import ArithScript.Failure

/-!
Diagnostics: problem reports for users, and how they are shown.
-/
namespace ArithScript

/-- A problem report. Its place is unknown unless it is given. -/
structure Diagnostic where
  message : String
  code : Option Code := none
  phase : Option String := none
  severity : String := "error"
  span : Span := {}
  notes : List String := []
  deriving DecidableEq

namespace Diagnostic

def ofFailure (failure : Failure) (source : Source) (file : Option String) : Diagnostic where
  message := failure.message
  code := some failure.code
  phase := some "parser"
  severity := "error"
  span := failure.span source file
  notes := failure.notes

def coordinateText (coordinate : Option Int) : String := coordinate.elim "?" toString

def fileText (file : Option String) : String :=
  match file with
  | some name => if name.isEmpty then "<input>" else name
  | none => "<input>"

def codeText (code : Option Code) : String :=
  match code with
  | some code => if code.label.isEmpty then "" else " [" ++ code.label ++ "]"
  | none => ""

/-- The shown form: place, severity, code and message on one line, then a line for each note. -/
def render (d : Diagnostic) : String :=
  let heading := fileText d.span.file ++ ":" ++ coordinateText d.span.line ++ ":" ++
    coordinateText d.span.column ++ ": " ++ d.severity ++ codeText d.code ++ ": " ++ d.message
  "\n".intercalate (heading :: d.notes.map ("  note: " ++ ·))

end Diagnostic
end ArithScript
