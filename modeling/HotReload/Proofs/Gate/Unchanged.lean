import HotReload.Proofs.Change.RoundTrip
import HotReload.Proofs.Gate.Effect

/-
  The baseline compiled once more. Every file is unchanged against itself, and its text is not even
  compared (`Verdict.classifyBy_self`), so nothing is declined and nothing is annotated. What is left of
  a run is the extra unit with the marker of the program, and the run commits (`Gate.run_baseline`).
-/

namespace HotReload

/-- The tree has nodes, and its offsets fit. -/
structure Tree.Sized (t : Tree) : Prop where
  nodes : t.nodes ≠ #[]
  text : t.text.utf8ByteSize ≤ Text.maxOffset

/-- A file is unchanged against itself. -/
theorem Verdict.classifyBy_self (differ : Differ) (config : ReloadConfig) {t : Tree}
    (h : t.nodes ≠ #[]) : classifyBy differ config t t = .unchanged := by
  have hpos : 0 < t.size := Nat.pos_of_ne_zero fun hzero => h (Array.size_eq_zero_iff.1 hzero)
  have hbetween : differ.between t.text t.text = [] := if_pos rfl
  unfold classifyBy
  rw [if_neg (not_not.2 rfl), Tree.diffBy_eq differ hpos hpos, hbetween]
  exact (ofRegions_eq_unchanged_iff hpos hpos).2 ⟨rfl, rfl⟩

namespace Gate

variable {differ : Differ} {config : ReloadConfig} {trees : List Tree} {verdicts : List FileVerdict}
  (hdistinct : DistinctPaths trees) (hsized : ∀ t ∈ trees, t.Sized)

include hdistinct

/-- No two texts are compared. -/
theorem coversPair_baseline {pair : FilePair}
    (h : pair ∈ pairs (compared config trees) (compared config trees)) : differ.CoversPair pair := by
  intro htext
  obtain ⟨hnew, hold, hpath⟩ := (mem_pairs (hdistinct.filter _)).1 h
  refine absurd ?_ htext
  rw [hdistinct.eq_of_path (mem_compared.1 hold).1 (mem_compared.1 hnew).1 hpath]

include hsized

theorem HasVerdict.unchanged {path : String} {verdict : Verdict}
    (h : HasVerdict differ config trees trees path verdict) : verdict = .unchanged := by
  obtain ⟨-, t, ht, htpath, b, hb, hbpath, rfl⟩ := h
  obtain rfl := hdistinct.eq_of_path hb ht (hbpath.trans htpath.symm)
  exact Verdict.classifyBy_self differ config (hsized b hb).nodes

/-- An attempt on the baseline comes to a commit of the extra unit. -/
theorem plan_baseline (schedule : Schedule) (differ : Differ) (config : ReloadConfig) {s : Snapshot}
    (hbase : s.beforeProcessing = some trees) :
    ∃ unit, plan schedule differ config (some s) (.ofTrees trees) = .ok ⟨[], unit⟩ ∧
      unit.path = config.extraUnitPath ∧ unit.Patches s.version := by
  have hsame : SameFiles config trees (Compilation.ofTrees trees).trees := fun _ _ => Iff.rfl
  have hcovers : ∀ pair ∈ pairs (compared config trees) (compared config trees),
      differ.CoversPair pair := fun _ => coversPair_baseline hdistinct
  obtain ⟨verdicts, hjudged, hplan⟩ := plan_eq schedule hbase hcovers hsame
  have hunchanged : ∀ v ∈ verdicts, v.verdict = .unchanged := fun v hv =>
    (hjudged.hasVerdict hv).unchanged hdistinct hsized
  have hnone : firstDeclined? verdicts = none := hjudged.firstDeclined?_of_not fun path reason h => by
    cases h.unchanged hdistinct hsized
  have hresults : verdicts.mapM (replacement? (compared config trees)) =
      .ok (verdicts.map fun _ => none) :=
    mapM_eq_ok_map fun v hv => replacement?_of_ne fun intents => by simp [hunchanged v hv]
  have hempty : ((verdicts.map fun _ => (none : Option Tree)).filterMap id) = [] := by
    rw [List.filterMap_map]
    exact List.filterMap_eq_nil_iff.2 fun _ _ => rfl
  have hextra : ∀ t ∈ (Compilation.ofTrees trees).get? config.extraUnitPath,
      t.text.utf8ByteSize ≤ Text.maxOffset ∧ t.nodes ≠ #[] := by
    intro t ht
    have hmem := List.mem_of_find?_eq_some ht
    exact ⟨(hsized t hmem).text, (hsized t hmem).nodes⟩
  obtain ⟨unit, hunit⟩ := Tree.exists_patching config.extraUnitPath s.version hextra
  refine ⟨unit, ?_, Tree.path_patching hunit fun t ht => path_of_find? ht,
    Tree.patches_of_patching hunit⟩
  rw [hplan, settle_eq hnone hresults, hunit, hempty]
  rfl

/-- A run on the baseline commits, and rewrites nothing but the extra unit. -/
theorem run_baseline (gate : Gate) (schedule : Schedule) (differ : Differ) {s : Snapshot}
    (hbase : s.beforeProcessing = some trees) :
    ∃ unit, unit.path = gate.config.extraUnitPath ∧ unit.Patches s.version ∧
      gate.run schedule differ (some s) (.ofTrees trees) =
        ⟨.committed [], (⟨[], unit⟩ : Commit).apply (.ofTrees trees), ⟨gate.config, .committed⟩⟩ := by
  obtain ⟨unit, hplan, hpath, hpatches⟩ :=
    plan_baseline hdistinct hsized schedule differ gate.config hbase
  refine ⟨unit, hpath, hpatches, ?_⟩
  rw [run_of_ok hplan]
  have hpaths : (⟨[], unit⟩ : Commit).paths = [] := List.mergeSort_nil
  rw [hpaths]
  rfl

end Gate

end HotReload
