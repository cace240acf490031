import HotReload.Proofs.Generation.Merge
import HotReload.Source.Builder

/-
  Generators that look at their file only. For such a generator a pass answers like one that goes
  through the inputs one after the other, in order of path (`Generation.run_eq_sequential`): every
  input stays in its place or is replaced there, then comes the loose code of all files, and then the
  added trees; fragments, added trees and diagnostics follow the inputs. No schedule shows.
-/

namespace HotReload

/-- The workers finish in the opposite order of their files. -/
def Schedule.reversed : Schedule := ⟨List.reverse, List.reverse_perm⟩

namespace Generation

variable {H : Type} {schedule : Schedule} {config : GenerationConfig} {parser : Parser}
  {generator : Generator H} {cx : GenerationContext H} {trees : List Tree}
  {output : Tree → GenerationOutput}

/-- On these files the generator gives an output that depends on the file only, and claims no tag. -/
def IsPure (generator : Generator H) (cx : GenerationContext H) (trees : List Tree)
    (output : Tree → GenerationOutput) : Prop :=
  ∀ t ∈ trees, ∀ tags, (generator cx t).run tags = (.ok (output t), tags)

/-- Workers of such a generator do not see each other. -/
theorem runJobs_of_isPure {jobs : List (Tree × Nat)} (h : IsPure generator cx trees output)
    (hjobs : ∀ job ∈ jobs, job.1 ∈ trees) (tags : TagSet) :
    runJobs generator cx jobs tags =
      (jobs.map fun job => ⟨job.1.path, .ok (outputOf (fun job => output job.1) job)⟩, tags) := by
  induction jobs with
  | nil => rfl
  | cons job jobs ih =>
    have hjob := h job.1 (hjobs job List.mem_cons_self) tags
    have hrest := ih fun job' hjob' => hjobs job' (List.mem_cons_of_mem _ hjob')
    rw [runJobs_cons_of_ok hjob, hrest]
    rfl

/-- Every schedule gives the answer of the inputs taken in order of path. -/
theorem run_eq_sequential (schedule : Schedule) (config : GenerationConfig) (parser : Parser)
    (h : IsPure generator cx trees output) :
    ∃ order, PathOrder trees order ∧
      ∀ loose, LooseCode config parser trees (order.filterMap fun job => (output job.1).looseCode)
          loose →
        run schedule config parser generator cx trees =
          { trees := (trees.map fun t => (output t).replacement.getD t) ++ loose ++
              order.flatMap fun job => (output job.1).added
            diagnostics := order.flatMap fun job => (output job.1).diagnostics
            failure := none } := by
  obtain ⟨order, horder⟩ := exists_pathOrder trees
  refine ⟨order, horder, fun loose hloose => ?_⟩
  have houtcomes : outcomes schedule generator cx trees =
      (schedule.arrange trees.zipIdx).map fun job =>
        ⟨job.1.path, .ok (outputOf (fun job => output job.1) job)⟩ := by
    unfold outcomes
    rw [runJobs_of_isPure h]
    intro job hjob
    exact List.fst_mem_of_mem_zipIdx ((schedule.perm _).mem_iff.1 hjob)
  have hreplaced : (trees.zipIdx.map fun job => (output job.1).replacement.getD job.1) =
      trees.map fun t => (output t).replacement.getD t := by
    conv => rhs; rw [← List.zipIdx_map_fst 0 trees, List.map_map]
    rfl
  have hfragments : LooseCode config parser trees
      ((order.map (outputOf fun job => output job.1)).filterMap fun o => o.output.looseCode)
      loose := by
    rw [List.filterMap_map]
    exact hloose
  rw [run_of_outputs horder houtcomes, merge_of_looseCode hfragments, replaceAll_outputs horder,
    hreplaced, List.flatMap_map, List.flatMap_map]
  rfl

/-- Generated code as one piece of text. -/
def plainParser : Parser := fun path text symbols =>
  (Tree.ofPlainText path text symbols).mapError fun e => .error e.message []

/-- A file that is one piece of text. -/
def plainFile (path text : String) : Tree :=
  .ofBuilder path .empty (Builder.empty.run
    [.start .compilationUnit none, .start .other none, .token text, .finish, .finish])

/-- Every file is added once more, and its text is loose code. -/
def copying : Generator Unit := fun _ t =>
  return { GenerationOutput.nothing with added := [t], looseCode := some t.text }

/-- Two files of one path, behind a file of another one. -/
def copied : List Tree := [plainFile "B.cs" "b", plainFile "A.cs" "x", plainFile "A.cs" "y"]

theorem run_eq_sequential_copied :
    IsPure copying ⟨(), .empty⟩ copied
        (fun t => { GenerationOutput.nothing with added := [t], looseCode := some t.text }) ∧
      LooseCode .standard plainParser copied ["x", "y", "b"] [plainFile looseCodePath "x\ny\nb"] ∧
      run .reversed .standard plainParser copying ⟨(), .empty⟩ copied =
        { trees := copied ++ [plainFile looseCodePath "x\ny\nb"] ++
            [plainFile "A.cs" "x", plainFile "A.cs" "y", plainFile "B.cs" "b"]
          diagnostics := []
          failure := none } := by
  have hpure : IsPure copying ⟨(), .empty⟩ copied
      fun t => { GenerationOutput.nothing with added := [t], looseCode := some t.text } :=
    fun t _ tags => rfl
  have hloose : LooseCode .standard plainParser copied ["x", "y", "b"]
      [plainFile looseCodePath "x\ny\nb"] := .parsed (by simp) rfl
  have hsorted : PathOrder copied
      [(plainFile "A.cs" "x", 1), (plainFile "A.cs" "y", 2), (plainFile "B.cs" "b", 0)] := by
    constructor <;> decide
  obtain ⟨order, horder, hrun⟩ := run_eq_sequential .reversed .standard plainParser hpure
  rw [horder.unique hsorted] at hrun
  exact ⟨hpure, hloose, hrun _ hloose⟩

end Generation

end HotReload
