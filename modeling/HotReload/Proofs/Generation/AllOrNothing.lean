import HotReload.Proofs.Diagnostic.Crash
import HotReload.Proofs.Generation.Merge
import HotReload.Proofs.Worker.Failures

/-
  A pass applies completely or not at all (`Generation.run_all_or_nothing`). Every worker runs once and
  has one outcome, with the path of its own input (`forall₂_runJobs`). If some of them failed, then the
  input trees are the answer, with all failures in one error (`FanOutError.Collects`) and one report
  about it; the same if the loose code does not parse. Otherwise everything that the workers asked for
  is there, and the pass adds no diagnostic of its own.
-/

namespace HotReload

namespace Generation

variable {H : Type} {generator : Generator H} {cx : GenerationContext H} {config : GenerationConfig}
  {parser : Parser} {trees : List Tree}

/-- The outcome is that of the worker on an input, with whatever tags were free. -/
def IsOutcomeOf (generator : Generator H) (cx : GenerationContext H) (job : Tree × Nat)
    (o : Outcome WorkerOutput) : Prop :=
  ∃ tags, o = ⟨job.1.path, ((generator cx job.1).run tags).1.map fun output =>
    ⟨job.1.path, job.2, output⟩⟩

/-- Every worker has one outcome. -/
theorem forall₂_runJobs (generator : Generator H) (cx : GenerationContext H)
    (jobs : List (Tree × Nat)) (tags : TagSet) :
    List.Forall₂ (IsOutcomeOf generator cx) jobs (runJobs generator cx jobs tags).1 := by
  induction jobs generalizing tags with
  | nil => exact .nil
  | cons job jobs ih => exact .cons ⟨tags, rfl⟩ (ih _)

/-- These are the outputs of the outcomes, in order of path and then of position. -/
structure Ordered (outcomes : List (Outcome WorkerOutput)) (outputs : List WorkerOutput) : Prop where
  perm : outputs.Perm (outcomes.filterMap Outcome.value?)
  sorted : outputs.Pairwise fun a b =>
    a.path < b.path ∨ a.path = b.path ∧ a.index ≤ b.index

/-- What a pass comes to when its workers have come to some outcomes. -/
inductive Settled (config : GenerationConfig) (parser : Parser) (trees : List Tree)
    (outcomes : List (Outcome WorkerOutput)) : GenerationResult → Prop
  /-- Some workers failed, and nothing is applied. -/
  | failed {e : FanOutError} {report : Diagnostic}
      (hcollects : FanOutError.Collects (outcomes.filterMap Outcome.error?) e)
      (hreport : e.Reported report) : Settled config parser trees outcomes ⟨trees, [report], some e⟩
  /-- The loose code of the workers does not parse, and nothing is applied. -/
  | unparsed {outputs : List WorkerOutput} {failure : Failure} {report : Diagnostic}
      (hnone : outcomes.filterMap Outcome.error? = []) (hordered : Ordered outcomes outputs)
      (hne : (outputs.filterMap fun o => o.output.looseCode) ≠ [])
      (hparse : parser config.looseCodePath
        ("\n".intercalate (outputs.filterMap fun o => o.output.looseCode)) (looseSymbols trees) =
          .error failure)
      (hreport : (FanOutError.single ⟨config.looseCodePath, failure⟩).Reported report) :
      Settled config parser trees outcomes
        ⟨trees, [report], some (.single ⟨config.looseCodePath, failure⟩)⟩
  /-- Nothing failed, and all diagnostics are those of the workers. -/
  | applied {outputs : List WorkerOutput} {loose : List Tree}
      (hnone : outcomes.filterMap Outcome.error? = []) (hordered : Ordered outcomes outputs)
      (hloose : LooseCode config parser trees (outputs.filterMap fun o => o.output.looseCode) loose) :
      Settled config parser trees outcomes
        { trees := replaceAll trees outputs ++ loose ++ outputs.flatMap fun o => o.output.added
          diagnostics := outputs.flatMap fun o => o.output.diagnostics
          failure := none }

theorem ordered_mergeSort (outcomes : List (Outcome WorkerOutput)) :
    Ordered outcomes ((outcomes.filterMap Outcome.value?).mergeSort outputLe) where
  perm := List.mergeSort_perm _ _
  sorted := (List.pairwise_mergeSort outputLe_trans outputLe_total _).imp outputLe_iff.1

/-- A pass has the outcome of every worker once, whichever finished first, and applies all that they
asked for or leaves the input trees as they are. -/
theorem run_all_or_nothing (schedule : Schedule) (config : GenerationConfig) (parser : Parser)
    (generator : Generator H) (cx : GenerationContext H) (trees : List Tree) :
    List.Forall₂ (IsOutcomeOf generator cx) (schedule.arrange trees.zipIdx)
        (outcomes schedule generator cx trees) ∧
      Settled config parser trees (outcomes schedule generator cx trees)
        (run schedule config parser generator cx trees) := by
  refine ⟨forall₂_runJobs generator cx _ _, ?_⟩
  cases hfailure : Outcome.failure? (outcomes schedule generator cx trees) with
  | some e =>
    have hjoin : Outcome.join (outcomes schedule generator cx trees) = .error e := by
      unfold Outcome.join
      rw [hfailure]
    rw [run_of_failed hjoin]
    exact .failed (FanOutError.collects_ofFailures hfailure) (reported_crashDiagnostic e)
  | none =>
    have hnone := FanOutError.ofFailures_eq_none_iff.1 hfailure
    have hordered := ordered_mergeSort (outcomes schedule generator cx trees)
    have hjoin : Outcome.join (outcomes schedule generator cx trees) =
        .ok ((outcomes schedule generator cx trees).filterMap Outcome.value?) := by
      unfold Outcome.join
      rw [hfailure]
    rw [run_of_joined hjoin]
    rcases looseCode_or_error config parser trees _ with ⟨loose, hloose⟩ | ⟨hne, failure, hparse⟩
    · rw [merge_of_looseCode hloose]
      exact .applied hnone hordered hloose
    · rw [merge_of_unparsed hne hparse]
      exact .unparsed hnone hordered hne hparse (reported_crashDiagnostic _)

end Generation

end HotReload
