import HotReload.Worker.Failure

/-!
Running one worker per file. Every worker runs to its end, whatever becomes of the others; their
outcomes are collected in the order in which they finish, and nothing may depend on that order. So a
schedule is a parameter here: it says in which order the workers of a pass finish.
-/

namespace HotReload

/-- The order in which the workers of a pass finish. -/
structure Schedule where
  arrange : {α : Type} → List α → List α
  perm : ∀ {α : Type} (jobs : List α), (arrange jobs).Perm jobs

/-- The workers finish in the order of their files. -/
def Schedule.inOrder : Schedule := ⟨fun jobs => jobs, fun jobs => .refl jobs⟩

/-- The failures of a pass: a single one stands for itself. -/
inductive FanOutError where
  | single (failure : WorkerError)
  | aggregate (failures : List WorkerError)
  deriving DecidableEq, Repr

namespace FanOutError

/-- The failures of a pass, ordered by path; failures of one path keep the order in which they came.
There is no error without a failure. -/
def ofFailures : List WorkerError → Option FanOutError
  | [] => none
  | [one] => some (.single one)
  | all => some (.aggregate (all.mergeSort fun a b => a.path ≤ b.path))

/-- The failed workers. -/
def failures : FanOutError → List WorkerError
  | single one => [one]
  | aggregate all => all

/-- The text of the error. -/
def render : FanOutError → String
  | single one => one.render
  | aggregate all =>
    s!"{all.length} workers failed" ++ String.join (all.map fun e => "\n  " ++ e.render)

/-- The text of the failure behind a single one. -/
def source? : FanOutError → Option String
  | single one => some one.render
  | aggregate _ => none

end FanOutError

/-- What a worker came to. -/
structure Outcome (α : Type) where
  path : String
  result : Except Failure α

namespace Outcome

variable {α : Type}

/-- The result, if the worker has one. -/
def value? (o : Outcome α) : Option α :=
  match o.result with
  | .ok a => some a
  | .error _ => none

/-- The failure, attributed to the file. -/
def error? (o : Outcome α) : Option WorkerError :=
  match o.result with
  | .ok _ => none
  | .error failure => some ⟨o.path, failure⟩

/-- The failures among finished workers. -/
def failure? (outcomes : List (Outcome α)) : Option FanOutError :=
  FanOutError.ofFailures (outcomes.filterMap error?)

/-- The results of finished workers, unless one of them failed. -/
def join (outcomes : List (Outcome α)) : Except FanOutError (List α) :=
  match failure? outcomes with
  | some e => .error e
  | none => .ok (outcomes.filterMap value?)

end Outcome

end HotReload
