import HotReload.Text.Blank

/-!
Failed workers. A worker fails with an error, which has a chain of causes, or by panicking, which
leaves a payload and a trace. Either way the failure is attributed to the file of the worker.
-/

namespace HotReload

/-- What a panic carries: a text, or something without one. -/
inductive Payload where
  | text (message : String)
  | other
  deriving DecidableEq, Repr

/-- Why a worker has no result. -/
inductive Failure where
  /-- An error with its causes, outermost first. -/
  | error (message : String) (causes : List String)
  | panic (payload : Payload) (trace : List String)
  deriving DecidableEq, Repr

namespace Failure

/-- What went wrong, on its own. -/
def message : Failure → String
  | error message _ => message
  | panic (.text message) _ => message
  | panic .other _ => "worker panicked"

/-- The causes of an error, or where a panic happened. -/
def trace : Failure → List String
  | error _ causes => causes
  | panic _ trace => trace

/-- The worker panicked. -/
def panicked : Failure → Bool
  | error _ _ => false
  | panic _ _ => true

end Failure

/-- A failed worker with the file it worked on. -/
structure WorkerError where
  path : String
  failure : Failure
  deriving DecidableEq, Repr

namespace WorkerError

/-- What went wrong, on its own. -/
def message (e : WorkerError) : String := e.failure.message

/-- The causes of an error, or where a panic happened. -/
def trace (e : WorkerError) : List String := e.failure.trace

/-- The worker panicked. -/
def panicked (e : WorkerError) : Bool := e.failure.panicked

/-- The text of the error that the worker returned, if it did not panic. -/
def source? (e : WorkerError) : Option String := if e.panicked then none else some e.message

/-- The text of the failure. -/
def render (e : WorkerError) : String :=
  "worker for `" ++ e.path ++ "` " ++ (if e.panicked then "panicked" else "failed") ++ ": " ++
  e.message

/-- The message, then the trace, one entry a line without the blanks at its start. -/
def traceText (e : WorkerError) : String :=
  let lead := if e.panicked then "\n  " else "\n  caused by: "
  e.message ++
  String.join (e.trace.map fun line => lead ++ String.ofList (Text.trimStart line.toList))

end WorkerError

end HotReload
