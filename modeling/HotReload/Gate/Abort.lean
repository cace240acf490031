import HotReload.Diagnostic.Descriptor
import HotReload.Verdict.Annotate
import HotReload.Worker.FanOut

/-!
Why a compile was not applied to bodies alone, with the diagnostic that tells the user.
-/

namespace HotReload

/-- Why the gate gave up. -/
inductive AbortReason where
  | noPreviousCompilation
  | noBaseline
  | fileSetChanged (added removed : List String)
  | fileDeclined (path : String) (reason : DeclineReason)
  | workerFailed (failure : FanOutError)
  | annotationFailed (path : String) (error : AnnotateError)
  deriving DecidableEq, Repr

namespace AbortReason

/-- Paths with a word in front, unless there are none. -/
def pathList (word : String) (paths : List String) : String :=
  if paths.isEmpty then "" else ", " ++ word ++ " " ++ ", ".intercalate paths

/-- The text of the reason. -/
def message : AbortReason → String
  | noPreviousCompilation => "no previous compilation"
  | noBaseline => "no baseline trees for the previous compilation"
  | fileSetChanged added removed =>
    "file set changed" ++ pathList "added" added ++ pathList "removed" removed
  | fileDeclined path reason => "`" ++ path ++ "`: " ++ reason.message
  | workerFailed failure => failure.render
  | annotationFailed path error => "annotating `" ++ path ++ "` failed: " ++ error.message

/-- The diagnostic for the user. It points at the declined change, and carries the traces of failed
workers. -/
def diagnostic (r : AbortReason) : Diagnostic :=
  let declined := Descriptor.reloadDeclined.create [r.message]
  match r with
  | workerFailed failure =>
    failure.failures.foldl (fun d e => d.withNote e.traceText)
      (.plain .classificationFailed .note ("hot reload classification failed: " ++ r.message))
  | fileDeclined path reason =>
    match reason.span? with
    | some span => (declined.inFile path).withLabel span "needs a full reload"
    | none => declined.inFile path
  | annotationFailed path _ => declined.inFile path
  | _ => declined

end AbortReason

end HotReload
