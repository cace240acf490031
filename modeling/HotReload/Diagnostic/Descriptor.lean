import HotReload.Diagnostic.Basic
import HotReload.Diagnostic.Template
import HotReload.Text.Blank
import HotReload.Text.Line

/-!
Descriptors of diagnostics: code, title, message template and severity. Two are used by the pipeline
itself, for a generator that crashed and for a reload that was declined.
-/

namespace HotReload

/-- What diagnostics of one sort have in common. -/
structure Descriptor where
  code : Code
  title : String
  template : String
  severity : Severity
  deriving DecidableEq, Repr

namespace Descriptor

/-- The message with its arguments. -/
def format (d : Descriptor) (args : List String) : String := Template.format d.template args

/-- The diagnostic with its arguments. -/
def create (d : Descriptor) (args : List String) : Diagnostic :=
  .plain d.code d.severity (d.format args)

/-- Some worker of a generation pass failed. -/
def generatorCrashed : Descriptor where
  code := .generatorCrashed
  title := "Source generator crashed"
  template := "source generator failed and generation was skipped for this compile: " ++
    "\x7b0\x7d\n\x7b1\x7d"
  severity := .error

/-- A compile could not be applied to bodies alone. -/
def reloadDeclined : Descriptor where
  code := .reloadDeclined
  title := "Hot reload declined"
  template := "body-only hot reload not possible, a full reload is required: \x7b0\x7d"
  severity := .note

end Descriptor

namespace Diagnostic

/-- A crash carries at most so many lines of its trace. -/
def maxTraceLines : Nat := 8

/-- The first lines of a trace that are not blank, and how many were left out. -/
def trimmedTrace (trace : String) : String :=
  let lines := (Text.bareLines trace.toList).filter fun l => !Text.isBlankText l
  "\n".intercalate ((lines.take maxTraceLines).map String.ofList) ++
  if maxTraceLines < lines.length then
    s!"\n... {lines.length - maxTraceLines} more line(s)"
  else ""

/-- The one diagnostic of a failed generation pass. -/
def crash (path : Option String) (message trace : String) : Diagnostic :=
  let d := Descriptor.generatorCrashed.create [message, trimmedTrace trace]
  match path with
  | some path => d.inFile path
  | none => d

end Diagnostic

end HotReload
