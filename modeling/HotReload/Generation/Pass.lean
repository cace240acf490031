import HotReload.Diagnostic.Descriptor
import HotReload.Generation.Output
import HotReload.Worker.FanOut
import HotReload.Worker.Pool

/-!
A generation pass: one worker per file, then one merge. The outputs are ordered by path and then by
position of the input before anything is merged, so the answer does not depend on which worker
finished first. A pass applies completely or not at all: when a worker or the parsing of loose code
fails, the input trees are the answer, with one diagnostic about the crash.
-/

namespace HotReload

/-- The unit that holds the loose code of a pass. -/
def looseCodePath : String := "__hotpatch_loose.cs"

/-- Settings of a generation pass. -/
structure GenerationConfig where
  pool : Pool
  /-- The unit that holds the loose code. -/
  looseCodePath : String
  deriving DecidableEq, Repr

/-- The settings unless the host chooses others. -/
def GenerationConfig.standard : GenerationConfig := ⟨.standard, HotReload.looseCodePath⟩

/-- The output of a worker with the input it comes from. -/
structure WorkerOutput where
  path : String
  /-- The position of the input. -/
  index : Nat
  output : GenerationOutput
  deriving DecidableEq

/-- What a pass came to. -/
structure GenerationResult where
  trees : List Tree
  diagnostics : List Diagnostic
  /-- Why generation was skipped. -/
  failure : Option FanOutError
  deriving DecidableEq

/-- Nothing failed. -/
def GenerationResult.isSuccess (r : GenerationResult) : Bool := r.failure.isNone

namespace Generation

/-- By path, then by position. -/
def outputLe (a b : WorkerOutput) : Bool :=
  ((compare a.path b.path).then (compare a.index b.index)).isLE

/-- Run one worker to its end. -/
def runJob {H : Type} (generator : Generator H) (cx : GenerationContext H) (job : Tree × Nat) :
    StateM TagSet (Outcome WorkerOutput) := fun tags =>
  let (result, tags) := (generator cx job.1).run tags
  (⟨job.1.path, result.map fun output => ⟨job.1.path, job.2, output⟩⟩, tags)

/-- Run workers, one after the other. -/
def runJobs {H : Type} (generator : Generator H) (cx : GenerationContext H) :
    List (Tree × Nat) → StateM TagSet (List (Outcome WorkerOutput))
  | [], tags => ([], tags)
  | job :: rest, tags =>
    let (outcome, tags) := runJob generator cx job tags
    let (outcomes, tags) := runJobs generator cx rest tags
    (outcome :: outcomes, tags)

/-- The ordered outputs of all workers, or all failures. -/
def runWorkers {H : Type} (schedule : Schedule) (generator : Generator H)
    (cx : GenerationContext H) (tags : TagSet) (trees : List Tree) :
    Except FanOutError (List WorkerOutput) :=
  (Outcome.join (runJobs generator cx (schedule.arrange trees.zipIdx) tags).1).map fun outputs =>
    outputs.mergeSort outputLe

/-- Put the replacements in place of their inputs. -/
def replaceAll (inputs : List Tree) (outputs : List WorkerOutput) : List Tree :=
  outputs.foldl (fun trees o =>
    match o.output.replacement with
    | none => trees
    | some tree => trees.set o.index tree) inputs

/-- The tree of the loose code, if there is any. It has the symbols of the first input. -/
def looseTree (config : GenerationConfig) (parser : Parser) (inputs : List Tree)
    (outputs : List WorkerOutput) : Except FanOutError (List Tree) :=
  match outputs.filterMap fun o => o.output.looseCode with
  | [] => .ok []
  | fragments =>
    let symbols := match inputs with
      | [] => .empty
      | first :: _ => first.symbols
    match parser config.looseCodePath ("\n".intercalate fragments) symbols with
    | .ok tree => .ok [tree]
    | .error failure => .error (.single ⟨config.looseCodePath, failure⟩)

/-- The inputs with their replacements, then the loose code, then the added trees. -/
def merge (config : GenerationConfig) (parser : Parser) (inputs : List Tree)
    (outputs : List WorkerOutput) : Except FanOutError GenerationResult :=
  (looseTree config parser inputs outputs).map fun loose =>
    { trees := replaceAll inputs outputs ++ loose ++ outputs.flatMap fun o => o.output.added
      diagnostics := outputs.flatMap fun o => o.output.diagnostics
      failure := none }

/-- The one diagnostic of a failed pass. It names the file if one worker failed. -/
def crashDiagnostic : FanOutError → Diagnostic
  | .single one => .crash (some one.path) one.render one.traceText
  | .aggregate all =>
    .crash none (FanOutError.aggregate all).render
      ("\n".intercalate (all.map WorkerError.traceText))

/-- A whole pass. -/
def run {H : Type} (schedule : Schedule) (config : GenerationConfig) (parser : Parser)
    (generator : Generator H) (cx : GenerationContext H) (trees : List Tree) : GenerationResult :=
  let merged := do
    let outputs ← runWorkers schedule generator cx .empty trees
    merge config parser trees outputs
  match merged with
  | .ok result => result
  | .error failure => ⟨trees, [crashDiagnostic failure], some failure⟩

end Generation

end HotReload
