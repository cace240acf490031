import HotReload.Change.Cut
import HotReload.Verdict.Classify
import HotReload.Worker.FanOut

/-!
Deciding about many files, one worker per pair of versions. The answer is ordered by path. Every file
is decided about, even when the worker of another one fails, and then the failures are the answer. A
worker fails by a fault in cutting out the regions of its pair.
-/

namespace HotReload

/-- The two versions of one file. -/
structure FilePair where
  old : Tree
  new : Tree
  deriving DecidableEq

/-- The verdict about one file of a batch. -/
structure FileVerdict where
  path : String
  verdict : Verdict
  deriving DecidableEq

namespace Verdict

/-- What a worker on a pair came to. -/
def outcome (worker : FilePair → Except Failure Verdict) (pair : FilePair) : Outcome FileVerdict :=
  ⟨pair.new.path, (worker pair).map fun verdict => ⟨pair.new.path, verdict⟩⟩

/-- The verdicts of any worker, ordered by path. -/
def classifyWith (schedule : Schedule) (worker : FilePair → Except Failure Verdict)
    (pairs : List FilePair) : Except FanOutError (List FileVerdict) :=
  (Outcome.join ((schedule.arrange pairs).map (outcome worker))).map fun verdicts =>
    verdicts.mergeSort fun a b => a.path ≤ b.path

/-- The verdict about a pair, by any comparison of lines, with regions that are cut out of the two
texts. -/
def classifyCut (differ : Differ) (config : ReloadConfig) (old new : Tree) :
    Except CutFault Verdict :=
  if old.symbols ≠ new.symbols then .ok (.declined .symbolsChanged)
  else if old.nodes.isEmpty || new.nodes.isEmpty then .ok (.declined .unresolvedRoot)
  else if old.text = new.text then .ok (ofRegions config old new [])
  else ((differ old.text new.text).cutRegions old.text new.text).map (ofRegions config old new)

/-- The worker on a pair; a fault makes it panic. -/
def worker (differ : Differ) (config : ReloadConfig) (pair : FilePair) : Except Failure Verdict :=
  (classifyCut differ config pair.old pair.new).mapError fun fault =>
    .panic (.text fault.message) []

/-- The verdicts about all pairs, ordered by path. -/
def classifyAll (schedule : Schedule) (differ : Differ) (config : ReloadConfig)
    (pairs : List FilePair) : Except FanOutError (List FileVerdict) :=
  classifyWith schedule (worker differ config) pairs

end Verdict

end HotReload
