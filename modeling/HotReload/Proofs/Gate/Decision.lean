import HotReload.Proofs.Gate.Effect
import HotReload.Proofs.Text.ByteOrder

/-
  What a run decides (`Gate.outcome_eq_iff`). The tests come in a fixed order: is there an earlier
  build, are there its trees, are the files the same, is any file declined, can the extra unit be
  marked. `Decision` has one case for each of them, and a case holds only if all earlier tests passed,
  so it leaves no choice (`Decision.unique`). However texts are compared by their lines, no run ends
  with a failed worker, and none with a file that could not be annotated: there are no such cases.

  Lists of paths are in the order of texts, which is the order of their bytes
  (`Text.le_iff_bytes_le`).
-/

namespace HotReload.Gate

/-- What the comparison of a compile with its baseline comes to. -/
inductive Comparison (differ : Differ) (config : ReloadConfig) (baseline trees : List Tree) :
    GateOutcome → Prop
  /-- The files of one side only are listed. -/
  | fileSetChanged {added removed : List String} (hsame : ¬SameFiles config baseline trees)
      (hadded : Enumerates added fun path => path ≠ config.extraUnitPath ∧
        path ∈ trees.map Tree.path ∧ path ∉ baseline.map Tree.path)
      (hremoved : Enumerates removed fun path => path ≠ config.extraUnitPath ∧
        path ∈ baseline.map Tree.path ∧ path ∉ trees.map Tree.path) :
      Comparison differ config baseline trees (.aborted (.fileSetChanged added removed))
  /-- Of the declined files, the one with the least path in bytes is named. -/
  | fileDeclined {path : String} {reason : DeclineReason} (hsame : SameFiles config baseline trees)
      (hdeclined : HasVerdict differ config baseline trees path (.declined reason))
      (hleast : ∀ path' reason', HasVerdict differ config baseline trees path' (.declined reason') →
        Text.bytes path ≤ Text.bytes path') :
      Comparison differ config baseline trees (.aborted (.fileDeclined path reason))
  /-- The extra unit has no nodes. -/
  | annotationFailed {unit : Tree} (hsame : SameFiles config baseline trees)
      (hnone : ∀ path reason, ¬HasVerdict differ config baseline trees path (.declined reason))
      (hunit : unit ∈ trees) (hpath : unit.path = config.extraUnitPath) (hempty : unit.nodes = #[]) :
      Comparison differ config baseline trees
        (.aborted (.annotationFailed config.extraUnitPath (.root ⟨config.extraUnitPath⟩)))
  /-- The files whose bodies changed are named. -/
  | committed {rewritten : List String} (hsame : SameFiles config baseline trees)
      (hnone : ∀ path reason, ¬HasVerdict differ config baseline trees path (.declined reason))
      (hunit : ∀ unit ∈ trees, unit.path = config.extraUnitPath → unit.nodes ≠ #[])
      (hrewritten : Enumerates rewritten fun path =>
        ∃ intents, HasVerdict differ config baseline trees path (.bodyEdits intents)) :
      Comparison differ config baseline trees (.committed rewritten)

/-- What a run decides about a compile. -/
inductive Decision (differ : Differ) (config : ReloadConfig) (trees : List Tree) :
    Option Snapshot → GateOutcome → Prop
  | noPreviousCompilation : Decision differ config trees none (.aborted .noPreviousCompilation)
  | noBaseline {version : String} :
      Decision differ config trees (some ⟨version, none⟩) (.aborted .noBaseline)
  | compared {version : String} {baseline : List Tree} {outcome : GateOutcome}
      (h : Comparison differ config baseline trees outcome) :
      Decision differ config trees (some ⟨version, some baseline⟩) outcome

/-! ## There is one decision -/

theorem Comparison.unique {differ : Differ} {config : ReloadConfig} {baseline trees : List Tree}
    {outcome outcome' : GateOutcome} (hbaseline : DistinctPaths baseline)
    (htrees : DistinctPaths trees) (h : Comparison differ config baseline trees outcome)
    (h' : Comparison differ config baseline trees outcome') : outcome = outcome' := by
  cases h with
  | fileSetChanged hsame hadded hremoved =>
    cases h' with
    | fileSetChanged _ hadded' hremoved' =>
      rw [hadded.unique hadded', hremoved.unique hremoved']
    | fileDeclined hsame' => exact absurd hsame' hsame
    | annotationFailed hsame' => exact absurd hsame' hsame
    | committed hsame' => exact absurd hsame' hsame
  | @fileDeclined path reason hsame hdeclined hleast =>
    cases h' with
    | fileSetChanged hsame' => exact absurd hsame hsame'
    | @fileDeclined path' reason' _ hdeclined' hleast' =>
      obtain rfl : path = path' :=
        String.le_antisymm (Text.le_iff_bytes_le.2 (hleast _ _ hdeclined'))
          (Text.le_iff_bytes_le.2 (hleast' _ _ hdeclined))
      obtain rfl := Verdict.declined.inj (hdeclined.unique hbaseline htrees hdeclined')
      rfl
    | annotationFailed _ hnone => exact absurd hdeclined (hnone _ _)
    | committed _ hnone => exact absurd hdeclined (hnone _ _)
  | annotationFailed hsame hnone hmem hpath hempty =>
    cases h' with
    | fileSetChanged hsame' => exact absurd hsame hsame'
    | fileDeclined _ hdeclined => exact absurd hdeclined (hnone _ _)
    | annotationFailed => rfl
    | committed _ _ hunit => exact absurd hempty (hunit _ hmem hpath)
  | committed hsame hnone hunit hrewritten =>
    cases h' with
    | fileSetChanged hsame' => exact absurd hsame hsame'
    | fileDeclined _ hdeclined => exact absurd hdeclined (hnone _ _)
    | annotationFailed _ _ hmem hpath hempty => exact absurd hempty (hunit _ hmem hpath)
    | committed _ _ _ hrewritten' => rw [hrewritten.unique hrewritten']

variable {gate : Gate} {schedule : Schedule} {differ : Differ} {previous : Option Snapshot}
  {current : Compilation} {baseline : List Tree} {version : String} {outcome outcome' : GateOutcome}

theorem Decision.unique
    (hbaseline : ∀ s ∈ previous, ∀ baseline ∈ s.beforeProcessing, DistinctPaths baseline)
    (hcurrent : DistinctPaths current.trees)
    (h : Decision differ gate.config current.trees previous outcome)
    (h' : Decision differ gate.config current.trees previous outcome') : outcome = outcome' := by
  cases h with
  | noPreviousCompilation => cases h'; rfl
  | noBaseline => cases h'; rfl
  | compared h =>
    cases h' with
    | compared h' => exact h.unique (hbaseline _ rfl _ rfl) hcurrent h'

/-! ## Every run takes it -/

/-- A run with a baseline compares. -/
theorem comparison_run (hcovers : differ.Covers) (hbaseline : DistinctPaths baseline)
    (hcurrent : DistinctPaths current.trees) (hsound : ∀ t ∈ current.trees, t.Sound) :
    Comparison differ gate.config baseline current.trees
      (gate.run schedule differ (some ⟨version, some baseline⟩) current).outcome := by
  by_cases hsame : SameFiles gate.config baseline current.trees
  · obtain ⟨verdicts, hjudged, hplan⟩ := plan_eq (s := ⟨version, some baseline⟩) schedule rfl
      (fun pair _ => hcovers.coversPair pair) hsame
    cases hfirst : firstDeclined? verdicts with
    | some abort =>
      rw [run_of_error (hplan.trans (settle_of_declined hfirst))]
      obtain ⟨path, reason, hdeclined, rfl, hleast⟩ :=
        hjudged.firstDeclined?_eq_some hbaseline hfirst
      exact .fileDeclined hsame hdeclined fun path' reason' h =>
        Text.le_iff_bytes_le.1 (hleast path' reason' h)
    | none =>
      have hnone := (hjudged.firstDeclined?_eq_none hbaseline).1 hfirst
      by_cases hunit : ∀ unit ∈ current.trees, unit.path = gate.config.extraUnitPath →
          unit.nodes ≠ #[]
      · obtain ⟨commit, hcommit⟩ := exists_commit (s := ⟨version, some baseline⟩)
          hcovers rfl hsame hbaseline hcurrent hsound hnone hunit
        rw [run_of_ok hcommit]
        exact .committed hsame hnone hunit
          (enumerates_edited hjudged hbaseline hcurrent (hplan.symm.trans hcommit))
      · simp only [not_forall, not_not] at hunit
        obtain ⟨unit, hmem, hpath, hempty⟩ := hunit
        obtain ⟨results, hresults⟩ := hjudged.exists_results hcurrent.sameSizes hsound
        rw [run_of_error (hplan.trans
          (settle_of_empty hfirst hresults hcurrent hmem hpath hempty))]
        exact .annotationFailed hsame hnone hmem hpath hempty
  · rw [run_of_error (plan_of_not_sameFiles rfl hsame)]
    exact .fileSetChanged hsame (enumerates_diff _ _ _) (enumerates_diff _ _ _)

theorem decision_run (hcovers : differ.Covers)
    (hbaseline : ∀ s ∈ previous, ∀ baseline ∈ s.beforeProcessing, DistinctPaths baseline)
    (hcurrent : DistinctPaths current.trees) (hsound : ∀ t ∈ current.trees, t.Sound) :
    Decision differ gate.config current.trees previous
      (gate.run schedule differ previous current).outcome := by
  match previous, hbaseline with
  | none, _ => exact .noPreviousCompilation
  | some ⟨version, none⟩, _ => exact .noBaseline
  | some ⟨version, some baseline⟩, hbaseline =>
    exact .compared (comparison_run hcovers (hbaseline _ rfl _ rfl) hcurrent hsound)

/-- A run has the outcome that was decided, and no other, in whichever order the workers finish and
however they compare texts by their lines. The trees of the compile are built from events, before or
after rounds of markers, and neither side has two trees of one path. -/
theorem outcome_eq_iff (gate : Gate) (schedule : Schedule) (hcovers : differ.Covers)
    (hbaseline : ∀ s ∈ previous, ∀ baseline ∈ s.beforeProcessing, DistinctPaths baseline)
    (hcurrent : DistinctPaths current.trees) (hbuilt : ∀ t ∈ current.trees, t.AfterRounds) :
    (gate.run schedule differ previous current).outcome = outcome ↔
      Decision differ gate.config current.trees previous outcome := by
  have hdecision : Decision differ gate.config current.trees previous
      (gate.run schedule differ previous current).outcome :=
    decision_run hcovers hbaseline hcurrent fun t ht => (hbuilt t ht).sound
  constructor
  · rintro rfl
    exact hdecision
  · intro h
    exact hdecision.unique hbaseline hcurrent h

open Outline in
/-- A type with one method, whose result has some type. -/
def returning (result : String) : List Event :=
  within .compilationUnit none <| typeEvents 0 "" "A" [] <|
    methodEvents 1 "" ⟨"M", result, "", []⟩ (bodyEvents 1 (.block []))

/-- A file of such a type. -/
def returningFile (path result : String) : Tree :=
  .ofBuilder path .empty (Builder.empty.run (returning result))

/-- The build before three files were edited. -/
def editedBaseline : List Tree :=
  [sampleFile "1", returningFile "B.cs" "void", returningFile "C.cs" "void"]

/-- In one file a body changed, in the other two the result of a method. -/
def editedCompilation : Compilation :=
  .ofTrees [sampleUnit, sampleFile "2", returningFile "C.cs" "int", returningFile "B.cs" "int"]

theorem afterRounds_returningFile (path : String) : (returningFile path "int").AfterRounds :=
  .built (rfl : Tree.ofEvents path .empty (returning "int") = .ok (returningFile path "int"))

theorem outcome_eq_iff_edited :
    DistinctPaths editedBaseline ∧ DistinctPaths editedCompilation.trees ∧
      (∀ t ∈ editedCompilation.trees, t.AfterRounds) ∧
      ((ofConfig .standard).run .inOrder .byLines (some ⟨"1.0", some editedBaseline⟩)
        editedCompilation).outcome =
          .aborted (.fileDeclined "B.cs" (.outsideBody "A.M" ⟨14, 17⟩)) := by
  have hbaseline : DistinctPaths editedBaseline := by decide
  have hcurrent : DistinctPaths editedCompilation.trees := by decide
  have hbuilt : ∀ t ∈ editedCompilation.trees, t.AfterRounds := by
    intro t ht
    simp only [editedCompilation, Compilation.trees_ofTrees, List.mem_cons, List.not_mem_nil,
      or_false] at ht
    rcases ht with rfl | rfl | rfl | rfl
    · exact afterRounds_sampleUnit
    · exact afterRounds_sampleFile
    · exact afterRounds_returningFile "C.cs"
    · exact afterRounds_returningFile "B.cs"
  have hsame : SameFiles .standard editedBaseline editedCompilation.trees := by
    intro path hpath
    have hpath : path ≠ extraUnitPath := hpath
    change path ∈ [extraUnitPath, "A.cs", "C.cs", "B.cs"] ↔ path ∈ ["A.cs", "B.cs", "C.cs"]
    grind
  have hverdict : Verdict.classifyBy .byLines .standard (returningFile "B.cs" "void")
      (returningFile "B.cs" "int") = .declined (.outsideBody "A.M" ⟨14, 17⟩) := by
    decide +kernel
  have hleast : ∀ t ∈ editedCompilation.trees, ∀ b ∈ editedBaseline, b.path = t.path →
      (Verdict.classifyBy .byLines .standard b t).isDeclined = true →
        Text.bytes "B.cs" ≤ Text.bytes t.path := by
    decide +kernel
  have hdecision : Decision .byLines .standard editedCompilation.trees
      (some ⟨"1.0", some editedBaseline⟩)
      (.aborted (.fileDeclined "B.cs" (.outsideBody "A.M" ⟨14, 17⟩))) := by
    refine .compared (.fileDeclined hsame ?_ ?_)
    · exact ⟨by decide, returningFile "B.cs" "int", by simp [editedCompilation], rfl,
        returningFile "B.cs" "void", by simp [editedBaseline], rfl, hverdict⟩
    · rintro path reason ⟨-, t, ht, rfl, b, hb, hpath, hdeclined⟩
      exact hleast t ht b hb hpath (by rw [hdeclined]; rfl)
  refine ⟨hbaseline, hcurrent, hbuilt, (outcome_eq_iff (ofConfig .standard) .inOrder
    Differ.covers_byLines ?_ hcurrent hbuilt).2 hdecision⟩
  intro s hs baseline hbase
  obtain rfl := Option.some.inj hs
  obtain rfl := Option.some.inj hbase
  exact hbaseline

end HotReload.Gate
