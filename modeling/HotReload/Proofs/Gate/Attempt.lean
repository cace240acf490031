import HotReload.Proofs.Gate.Atomic
import HotReload.Proofs.Gate.Verdicts
import HotReload.Proofs.Verdict.Annotate

/-
  What an attempt comes to. With the same files on both sides, all that is left of it reads nothing
  but the verdicts (`plan_eq`): a declined one ends it, and otherwise every changed file is annotated
  (`replacement?_bodyEdits`). On built trees the annotation cannot fail (`exists_results`), so only the
  extra unit can (`settle_eq`). Of the comparison of texts it is asked only that it covers the pairs
  whose texts differ.
-/

namespace HotReload.Gate

variable {differ : Differ} {config : ReloadConfig} {baseline trees : List Tree} {t : Tree}
  {verdicts : List FileVerdict} {results : List (Option Tree)}

/-! ## Annotation -/

/-- The intents of a verdict go to the first tree of its path. -/
theorem replacement?_of_find? {intents : SortedSet Intent} {path : String} {result : Option Tree}
    (hfind : (trees.find? fun u => u.path = path) = some t) :
    replacement? trees ⟨path, .bodyEdits intents⟩ = .ok result ↔
      ∃ t', t.annotate intents = .ok t' ∧ result = some t' := by
  unfold replacement?
  dsimp only
  rw [hfind]
  dsimp only
  cases t.annotate intents <;> simp [Except.mapError, Except.map, eq_comm]

/-- A file whose bodies changed is annotated. -/
theorem replacement?_bodyEdits (htrees : DistinctPaths trees) (ht : t ∈ trees)
    {intents : SortedSet Intent} {result : Option Tree} :
    replacement? trees ⟨t.path, .bodyEdits intents⟩ = .ok result ↔
      ∃ t', t.annotate intents = .ok t' ∧ result = some t' :=
  replacement?_of_find? (find?_path htrees ht)

/-- Every other file is left. -/
theorem replacement?_of_ne {v : FileVerdict} (h : ∀ intents, v.verdict ≠ .bodyEdits intents) :
    replacement? trees v = .ok none := by
  unfold replacement?
  split
  · next hverdict _ => exact absurd hverdict (h _)
  · rfl

/-- The replacements of a compile can all be made. -/
theorem Judged.exists_results (h : Judged differ config baseline trees verdicts)
    (hsizes : SameSizes trees) (hsound : ∀ t ∈ trees, t.Sound) :
    ∃ results, verdicts.mapM (replacement? (compared config trees)) = .ok results := by
  apply exists_mapM
  rintro ⟨path, verdict⟩ hv
  obtain ⟨hextra, t, ht, rfl, b, hb, -, hverdict⟩ := h.hasVerdict hv
  cases verdict with
  | bodyEdits intents =>
    have hmem : t.path ∈ (compared config trees).map Tree.path :=
      List.mem_map_of_mem (mem_compared.2 ⟨ht, hextra⟩)
    obtain ⟨u, hfind⟩ := Option.ne_none_iff_exists'.1 fun hnone => find?_path_eq_none.1 hnone hmem
    have hu := (mem_compared.1 (List.mem_of_find?_eq_some hfind)).1
    have hsize := hsizes t ht u hu (path_of_find? hfind).symm
    obtain ⟨t', hannotate⟩ := (hsound u hu).exists_annotate fun i hi =>
      hsize ▸ Verdict.lt_of_mem_bodyEdits hverdict hi
    exact ⟨some t', (replacement?_of_find? hfind).2 ⟨t', hannotate, rfl⟩⟩
  | _ => exact ⟨none, replacement?_of_ne (by simp)⟩

/-! ## The attempt -/

variable {schedule : Schedule} {s : Snapshot} {current : Compilation} {version : String}

/-- What an attempt comes to on verdicts. -/
def settle (config : ReloadConfig) (version : String) (current : Compilation)
    (verdicts : List FileVerdict) : Except AbortReason Commit :=
  match firstDeclined? verdicts with
  | some reason => .error reason
  | none => annotateFiles config current version verdicts

/-- With the same files on both sides, an attempt comes to what the verdicts say; in which order the
workers finish does not matter. -/
theorem plan_eq (schedule : Schedule) (hbase : s.beforeProcessing = some baseline)
    (hcovers : ∀ pair ∈ pairs (compared config baseline) (compared config current.trees),
      differ.CoversPair pair)
    (hsame : SameFiles config baseline current.trees) :
    ∃ verdicts, Judged differ config baseline current.trees verdicts ∧
      plan schedule differ config (some s) current = settle config s.version current verdicts := by
  obtain ⟨verdicts, hverdicts, hperm, hsorted⟩ :=
    Verdict.exists_classifyAll schedule config hcovers
  have hset : checkFileSet (compared config baseline) (compared config current.trees) = .ok () :=
    if_pos (sameFiles_iff.1 hsame)
  refine ⟨verdicts, ⟨hperm, hsorted⟩, ?_⟩
  unfold plan compareFiles settle
  simp only [hbase, hset, hverdicts, bind, Except.bind, Except.mapError]
  cases firstDeclined? verdicts <;> rfl

/-- With different files, it names the files that are on one side only. -/
theorem plan_of_not_sameFiles (hbase : s.beforeProcessing = some baseline)
    (hsame : ¬SameFiles config baseline current.trees) :
    plan schedule differ config (some s) current = .error (.fileSetChanged
      ((paths (compared config current.trees)).diff (paths (compared config baseline))).toList
      ((paths (compared config baseline)).diff (paths (compared config current.trees))).toList) := by
  have hset : checkFileSet (compared config baseline) (compared config current.trees) = .error _ :=
    if_neg (mt sameFiles_iff.2 hsame)
  unfold plan compareFiles
  simp only [hbase, hset, bind, Except.bind]

/-- If nothing is declined and all files can be annotated, what is left is the extra unit. -/
theorem settle_eq (hnone : firstDeclined? verdicts = none)
    (hresults : verdicts.mapM (replacement? (compared config current.trees)) = .ok results) :
    settle config version current verdicts =
      ((Tree.patching (current.get? config.extraUnitPath) config.extraUnitPath version).mapError
        (.annotationFailed config.extraUnitPath)).map fun unit => ⟨results.filterMap id, unit⟩ := by
  unfold settle annotateFiles
  rw [hnone, hresults]
  cases Tree.patching (current.get? config.extraUnitPath) config.extraUnitPath version <;> rfl

/-- What a commit is made of. -/
theorem exists_of_settle {commit : Commit}
    (h : settle config version current verdicts = .ok commit) :
    ∃ results, verdicts.mapM (replacement? (compared config current.trees)) = .ok results ∧
      commit.replacements = results.filterMap id ∧
      Tree.patching (current.get? config.extraUnitPath) config.extraUnitPath version =
        .ok commit.extraUnit := by
  cases hdeclined : firstDeclined? verdicts with
  | some reason => simp [settle, hdeclined] at h
  | none =>
    cases hresults : verdicts.mapM (replacement? (compared config current.trees)) with
    | error reason => simp [settle, annotateFiles, hdeclined, hresults, bind, Except.bind] at h
    | ok results =>
      rw [settle_eq hdeclined hresults] at h
      obtain ⟨unit, hunit, rfl⟩ := map_eq_ok_iff.1 h
      exact ⟨results, rfl, rfl, mapError_eq_ok_iff.1 hunit⟩

/-- An attempt that does not fail has a baseline of the same files, and nothing declined. -/
theorem exists_of_plan {previous : Option Snapshot} {commit : Commit} (hcovers : differ.Covers)
    (h : plan schedule differ config previous current = .ok commit) :
    ∃ s baseline verdicts, previous = some s ∧ s.beforeProcessing = some baseline ∧
      SameFiles config baseline current.trees ∧
      Judged differ config baseline current.trees verdicts ∧
      settle config s.version current verdicts = .ok commit := by
  cases previous with
  | none => simp [plan, compareFiles, Except.bind] at h
  | some s =>
    cases hbase : s.beforeProcessing with
    | none => simp [plan, compareFiles, hbase, Except.bind] at h
    | some baseline =>
      by_cases hsame : SameFiles config baseline current.trees
      · obtain ⟨verdicts, hjudged, hplan⟩ :=
          plan_eq schedule hbase (fun pair _ => hcovers.coversPair pair) hsame
        exact ⟨s, baseline, verdicts, rfl, hbase, hsame, hjudged, hplan ▸ h⟩
      · simp [plan_of_not_sameFiles hbase hsame] at h

theorem settle_of_declined {reason : AbortReason} (h : firstDeclined? verdicts = some reason) :
    settle config version current verdicts = .error reason := by
  unfold settle
  rw [h]

/-- An extra unit without nodes ends the attempt. -/
theorem settle_of_empty {unit : Tree} (hnone : firstDeclined? verdicts = none)
    (hresults : verdicts.mapM (replacement? (compared config current.trees)) = .ok results)
    (hcurrent : DistinctPaths current.trees) (hunit : unit ∈ current.trees)
    (hpath : unit.path = config.extraUnitPath) (hempty : unit.nodes = #[]) :
    settle config version current verdicts =
      .error (.annotationFailed config.extraUnitPath (.root ⟨config.extraUnitPath⟩)) := by
  have hget : current.get? config.extraUnitPath = some unit := by
    unfold Compilation.get?
    rw [← hpath]
    exact find?_path hcurrent hunit
  rw [settle_eq hnone hresults, hget, Tree.patching_of_empty hempty, hpath]
  rfl

/-- If nothing is declined, all files can be annotated and the extra unit can be marked, then there is a
commit. -/
theorem exists_settle (hnone : firstDeclined? verdicts = none)
    (hresults : verdicts.mapM (replacement? (compared config current.trees)) = .ok results)
    (hsound : ∀ t ∈ current.trees, t.Sound)
    (hunit : ∀ unit ∈ current.trees, unit.path = config.extraUnitPath → unit.nodes ≠ #[]) :
    ∃ commit, settle config version current verdicts = .ok commit := by
  have hextra : ∀ unit ∈ current.get? config.extraUnitPath,
      unit.text.utf8ByteSize ≤ Text.maxOffset ∧ unit.nodes ≠ #[] := by
    intro unit hget
    have hmem := List.mem_of_find?_eq_some hget
    exact ⟨(hsound unit hmem).size, hunit unit hmem (path_of_find? hget)⟩
  obtain ⟨unit, hpatching⟩ := Tree.exists_patching config.extraUnitPath version hextra
  rw [settle_eq hnone hresults, hpatching]
  exact ⟨_, rfl⟩

/-- With the same files on both sides, nothing declined and an extra unit that can be marked, there is
a commit. -/
theorem exists_commit (hcovers : differ.Covers) (hbase : s.beforeProcessing = some baseline)
    (hsame : SameFiles config baseline current.trees) (hbaseline : DistinctPaths baseline)
    (hcurrent : DistinctPaths current.trees) (hsound : ∀ t ∈ current.trees, t.Sound)
    (hnone : ∀ path reason, ¬HasVerdict differ config baseline current.trees path (.declined reason))
    (hunit : ∀ unit ∈ current.trees, unit.path = config.extraUnitPath → unit.nodes ≠ #[]) :
    ∃ commit, plan schedule differ config (some s) current = .ok commit := by
  obtain ⟨verdicts, hjudged, hplan⟩ :=
    plan_eq schedule hbase (fun pair _ => hcovers.coversPair pair) hsame
  obtain ⟨results, hresults⟩ := hjudged.exists_results hcurrent.sameSizes hsound
  rw [hplan]
  exact exists_settle ((hjudged.firstDeclined?_eq_none hbaseline).2 hnone) hresults hsound hunit

end HotReload.Gate
