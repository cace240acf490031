import HotReload.Gate.Abort
import HotReload.Gate.Compilation
import HotReload.Verdict.Batch

/-!
The reload gate decides whether a compile can be applied to the running build as a patch of bodies,
and if so swaps in the annotated trees. Everything is worked out on the side first; the trees of the
compile are touched on commit only, so a run that aborts leaves them as they were.

A run goes from one state to the next: it is idle, compares, may annotate, and has committed or
aborted at its end.
-/

namespace HotReload

/-- Where a gate stands. -/
inductive GateState where
  | idle
  | comparing
  | annotating
  | committed
  | aborted
  deriving DecidableEq, Repr

/-- A run of the gate has ended there. -/
def GateState.isTerminal : GateState → Bool
  | idle | comparing | annotating => false
  | committed | aborted => true

/-- What a run of the gate came to. -/
inductive GateOutcome where
  /-- The paths of the trees that were swapped, sorted, without the extra unit. -/
  | committed (paths : List String)
  | aborted (reason : AbortReason)
  deriving DecidableEq, Repr

/-- The trees to swap in on commit. -/
structure Commit where
  replacements : List Tree
  extraUnit : Tree
  deriving DecidableEq

namespace Commit

/-- The paths of the swapped trees. -/
def paths (c : Commit) : List String :=
  (c.replacements.map Tree.path).mergeSort fun a b => a ≤ b

/-- Swap the trees in; an extra unit that was not there goes to the end. -/
def apply (c : Commit) (current : Compilation) : Compilation :=
  let swapped := c.replacements.foldl Compilation.replace current
  { (swapped.replace? c.extraUnit).getD (swapped.push c.extraUnit) with reloadSupported := true }

end Commit

/-- The gate and where it stands. -/
structure Gate where
  config : ReloadConfig
  state : GateState
  deriving DecidableEq, Repr

/-- A run of the gate: its outcome, with the trees and the gate after it. -/
structure GateRun where
  outcome : GateOutcome
  compilation : Compilation
  gate : Gate
  deriving DecidableEq

namespace Gate

/-- A gate that has not run. -/
def ofConfig (config : ReloadConfig) : Gate := ⟨config, .idle⟩

/-- The trees that are compared: all but the extra unit. -/
def compared (config : ReloadConfig) (trees : List Tree) : List Tree :=
  trees.filter fun t => t.path ≠ config.extraUnitPath

/-- The baseline tree of a path. Of several the last one counts. -/
def baselineOf? (baseline : List Tree) (path : String) : Option Tree :=
  baseline.reverse.find? fun t => t.path = path

/-- The paths of some trees. -/
def paths (trees : List Tree) : SortedSet String := .ofList (trees.map Tree.path)

/-- Both versions of the program have to consist of the same files. -/
def checkFileSet (old new : List Tree) : Except AbortReason Unit :=
  if paths new = paths old then .ok ()
  else
    .error (.fileSetChanged ((paths new).diff (paths old)).toList
      ((paths old).diff (paths new)).toList)

/-- Every file with its baseline. -/
def pairs (old new : List Tree) : List FilePair :=
  new.filterMap fun t => (baselineOf? old t.path).map fun b => ⟨b, t⟩

/-- The first file that needs a full reload. -/
def firstDeclined? (verdicts : List FileVerdict) : Option AbortReason :=
  verdicts.findSome? fun v => v.verdict.reason?.map (.fileDeclined v.path)

/-- The annotated tree of a file, if its bodies changed. -/
def replacement? (new : List Tree) (v : FileVerdict) : Except AbortReason (Option Tree) :=
  match v.verdict, new.find? fun t => t.path = v.path with
  | .bodyEdits intents, some t =>
    ((t.annotate intents).mapError (.annotationFailed t.path)).map some
  | _, _ => .ok none

/-- Compare all files with their baselines. With the version before, that gives the verdicts about
them, none of which declines its file. -/
def compareFiles (schedule : Schedule) (differ : Differ) (config : ReloadConfig)
    (previous : Option Snapshot) (current : Compilation) :
    Except AbortReason (String × List FileVerdict) := do
  let some previous := previous | .error .noPreviousCompilation
  let some baseline := previous.beforeProcessing | .error .noBaseline
  let old := compared config baseline
  let new := compared config current.trees
  checkFileSet old new
  let verdicts ←
    (Verdict.classifyAll schedule differ config (pairs old new)).mapError .workerFailed
  if let some reason := firstDeclined? verdicts then .error reason
  return (previous.version, verdicts)

/-- Annotate all files whose bodies changed, and the extra unit. -/
def annotateFiles (config : ReloadConfig) (current : Compilation) (version : String)
    (verdicts : List FileVerdict) : Except AbortReason Commit := do
  let replacements ← verdicts.mapM (replacement? (compared config current.trees))
  let extraUnit ←
    (Tree.patching (current.get? config.extraUnitPath) config.extraUnitPath
      version).mapError (.annotationFailed config.extraUnitPath)
  return ⟨replacements.filterMap id, extraUnit⟩

/-- Go on to a state. -/
def enter (state : GateState) : StateM Gate Unit := modify fun gate => { gate with state }

/-- Compare and annotate, without touching the trees of the compile. -/
def attempt (schedule : Schedule) (differ : Differ) (previous : Option Snapshot)
    (current : Compilation) : ExceptT AbortReason (StateM Gate) Commit := do
  let config := (← get).config
  let (version, verdicts) ← liftExcept (compareFiles schedule differ config previous current)
  enter .annotating
  liftExcept (annotateFiles config current version verdicts)

/-- The steps of a run. -/
def steps (schedule : Schedule) (differ : Differ) (previous : Option Snapshot)
    (current : Compilation) : StateM Gate (GateOutcome × Compilation) := do
  modify fun gate => { gate with state := .idle }
  let current := { current with reloadSupported := false }
  enter .comparing
  match ← (attempt schedule differ previous current).run with
  | .ok commit =>
    enter .committed
    return (.committed commit.paths, commit.apply current)
  | .error reason =>
    enter .aborted
    return (.aborted reason, current)

/-- One run. -/
def run (gate : Gate) (schedule : Schedule) (differ : Differ) (previous : Option Snapshot)
    (current : Compilation) : GateRun :=
  let ((outcome, compilation), gate) := (steps schedule differ previous current).run gate
  ⟨outcome, compilation, gate⟩

end Gate

end HotReload
