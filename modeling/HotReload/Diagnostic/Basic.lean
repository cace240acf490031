import HotReload.Diagnostic.Code
import HotReload.Text.Span

/-!
Diagnostics: one reported problem each, in at most one file, with labels on spans of that file.
-/

namespace HotReload

/-- A message about some bytes of the diagnostic's file. -/
structure Label where
  span : Span
  message : String
  deriving DecidableEq, Repr

/-- One reported problem. -/
structure Diagnostic where
  code : Code
  severity : Severity
  message : String
  /-- The file that the labels are about. -/
  file : Option String
  labels : List Label
  notes : List String
  deriving DecidableEq, Repr

namespace Diagnostic

/-- A diagnostic about no file in particular. -/
def plain (code : Code) (severity : Severity) (message : String) : Diagnostic :=
  ⟨code, severity, message, none, [], []⟩

/-- The diagnostic about a file. -/
def inFile (d : Diagnostic) (path : String) : Diagnostic := { d with file := some path }

/-- The diagnostic with one more label. -/
def withLabel (d : Diagnostic) (span : Span) (message : String) : Diagnostic :=
  { d with labels := d.labels ++ [⟨span, message⟩] }

/-- The diagnostic with one more note. -/
def withNote (d : Diagnostic) (note : String) : Diagnostic := { d with notes := d.notes ++ [note] }

/-- The diagnostic reports an error. -/
def isError (d : Diagnostic) : Bool := d.severity = .error

/-- The text of the diagnostic: its file, if it has one, severity, code and message, then a line for
each label and each note. -/
def render (d : Diagnostic) : String :=
  (match d.file with
    | none => ""
    | some file => file ++ ": ") ++
  d.severity.text ++ " " ++ d.code.text ++ ": " ++ d.message ++
  String.join (d.labels.map fun l => "\n  ^ " ++ l.span.render ++ ": " ++ l.message) ++
  String.join (d.notes.map fun n => "\n  note: " ++ n)

end Diagnostic

end HotReload
