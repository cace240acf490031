import HotReload.Gate.Run
import HotReload.Generation.Pass

/-!
A session runs compile cycles one after the other: first the reload gate, then generation. It owns the
last good build. A compile never changes that; when the host has made a build from a cycle it
commits, and the trees that went into the cycle become the baseline of the next one.
-/

namespace HotReload

/-- Settings of a session. -/
structure SessionConfig where
  reload : ReloadConfig
  generation : GenerationConfig
  deriving DecidableEq, Repr

/-- What the backend needs from a cycle. -/
structure CycleOutput where
  reload : GateOutcome
  /-- Emit a patch of bodies instead of a full build. -/
  reloadSupported : Bool
  trees : List Tree
  diagnostics : List Diagnostic
  /-- Why generation was skipped in this cycle. -/
  generationFailure : Option FanOutError
  deriving DecidableEq

/-- A host's compile cycles. -/
structure Session where
  gate : Gate
  generation : GenerationConfig
  parser : Parser
  paths : OutputPaths
  /-- The build that is running. -/
  lastGood : Option Snapshot
  /-- The inputs of the last cycle, until it is committed or discarded. -/
  pending : Option (List Tree)

namespace Session

/-- A session before its first compile. -/
def start (config : SessionConfig) (parser : Parser) (paths : OutputPaths) : Session :=
  ⟨.ofConfig config.reload, config.generation, parser, paths, none, none⟩

/-- What the gate has to say to the user. There is nothing to patch at the first build. -/
def gateDiagnostics : GateOutcome → List Diagnostic
  | .committed _ => []
  | .aborted .noPreviousCompilation => []
  | .aborted reason => [reason.diagnostic]

/-- One cycle: the gate over the trees, then generation over what the gate leaves. -/
def compile {H : Type} (classifying generating : Schedule) (differ : Differ) (s : Session)
    (trees : List Tree) (generator : Generator H) (handle : H) : CycleOutput × Session :=
  let gated := s.gate.run classifying differ s.lastGood (.ofTrees trees)
  let generated := Generation.run generating s.generation s.parser generator ⟨handle, s.paths⟩
    gated.compilation.trees
  ({ reload := gated.outcome
     reloadSupported := gated.compilation.reloadSupported
     trees := generated.trees
     diagnostics := gateDiagnostics gated.outcome ++ generated.diagnostics
     generationFailure := generated.failure },
   { s with gate := gated.gate, pending := some trees })

/-- Make the inputs of the last cycle the baseline; the answer is whether there was one. -/
def commit (s : Session) (version : String) : Bool × Session :=
  match s.pending with
  | none => (false, s)
  | some trees => (true, { s with lastGood := some ⟨version, some trees⟩, pending := none })

/-- Forget the last cycle after a failed build. -/
def discard (s : Session) : Session := { s with pending := none }

end Session

end HotReload
