import HotReload.Proofs.Gate.Attempt
import HotReload.Proofs.Marking.Rounds

/-
  What a commit does to a compile (`Gate.run_effect`). Every tree keeps its place and its path. A file
  whose verdict is a change of bodies becomes its annotated tree, the extra unit the unit with the
  marker of the program, and every other tree stays the very tree that it was; an extra unit that was
  not there is added at the end. The gate names the changed files, in order.

  The replacements of a commit are those of the files whose bodies changed (`mem_paths_replacements`),
  and the lemmas on trees with distinct paths say where they go.
-/

namespace HotReload

/-- Annotating a tree keeps its path. -/
theorem Tree.path_annotate {t t' : Tree} {intents : SortedSet Intent}
    (h : t.annotate intents = .ok t') : t'.path = t.path :=
  Tree.path_addMarkers (mapError_eq_ok_iff.1 h)

theorem Tree.path_of_ofEvents {path : String} {symbols : Symbols} {events : List Event} {t : Tree}
    (h : Tree.ofEvents path symbols events = .ok t) : t.path = path := by
  rw [Tree.eq_ofBuilder h]
  rfl

theorem Tree.path_markProgram {t unit : Tree} {version : String}
    (h : t.markProgram version = .ok unit) : unit.path = t.path := by
  unfold Tree.markProgram at h
  cases hroot : t.root with
  | error e => simp [hroot, bind, Except.bind, Except.mapError] at h
  | ok root =>
    rw [hroot] at h
    exact Tree.path_addMarkers (mapError_eq_ok_iff.1 h)

/-- The unit with the marker of the program has the path of the unit, if that is where it was looked
up. -/
theorem Tree.path_patching {extra : Option Tree} {path version : String} {unit : Tree}
    (h : Tree.patching extra path version = .ok unit) (hextra : ∀ t ∈ extra, t.path = path) :
    unit.path = path := by
  cases extra with
  | some t => exact (Tree.path_markProgram h).trans (hextra t rfl)
  | none =>
    unfold Tree.patching at h
    cases hblank : Tree.blank path with
    | error e => simp [hblank, bind, Except.bind, Except.mapError] at h
    | ok t =>
      rw [hblank] at h
      exact (Tree.path_markProgram h).trans (Tree.path_of_ofEvents hblank)

namespace Gate

variable {differ : Differ} {config : ReloadConfig} {baseline trees : List Tree}
  {verdicts : List FileVerdict} {results : List (Option Tree)} {t : Tree} {intents : SortedSet Intent}
  {path : String}

/-! ## Replacements -/

/-- What replaces a file has its path. -/
theorem path_of_replacement? {v : FileVerdict} {r : Tree}
    (h : replacement? trees v = .ok (some r)) : r.path = v.path := by
  unfold replacement? at h
  split at h
  · next intents t _ hfind =>
    cases hannotate : t.annotate intents with
    | error e => simp [hannotate, Except.mapError, Except.map] at h
    | ok t' =>
      rw [hannotate] at h
      obtain rfl : t' = r := Option.some.inj (Except.ok.inj h)
      exact (Tree.path_annotate hannotate).trans (path_of_find? hfind)
  · simp at h

/-- The paths of the replacements are among those of the verdicts, in this order. -/
theorem sublist_paths_replacements (h : verdicts.mapM (replacement? trees) = .ok results) :
    ((results.filterMap id).map Tree.path).Sublist (verdicts.map FileVerdict.path) := by
  have hsteps := mapM_eq_ok_iff.1 h
  clear h
  induction hsteps with
  | nil => exact .refl _
  | @cons v result verdicts results hstep _ ih =>
    cases result with
    | none => exact ih.cons _
    | some r =>
      have hpath := path_of_replacement? hstep
      simp only [List.filterMap_cons, id, List.map_cons, hpath]
      exact ih.cons_cons _

theorem distinct_replacements (hjudged : Judged differ config baseline trees verdicts)
    (htrees : DistinctPaths trees)
    (hresults : verdicts.mapM (replacement? (compared config trees)) = .ok results) :
    DistinctPaths (results.filterMap id) :=
  (hjudged.nodup_paths htrees).sublist (sublist_paths_replacements hresults)

section Judged

variable (hjudged : Judged differ config baseline trees verdicts)
  (hbaseline : DistinctPaths baseline) (htrees : DistinctPaths trees)
  (hresults : verdicts.mapM (replacement? (compared config trees)) = .ok results)

include hjudged hbaseline htrees hresults

/-- Every file whose bodies changed is annotated. -/
theorem exists_annotate (ht : t ∈ trees)
    (h : HasVerdict differ config baseline trees t.path (.bodyEdits intents)) :
    ∃ t', t.annotate intents = .ok t' ∧ t' ∈ results.filterMap id := by
  obtain ⟨result, hresult, hstep⟩ :=
    exists_of_mapM hresults ((hjudged.mem_iff hbaseline (v := ⟨_, _⟩)).2 h)
  obtain ⟨t', hannotate, rfl⟩ :=
    (replacement?_bodyEdits (htrees.filter _) (mem_compared.2 ⟨ht, h.1⟩)).1 hstep
  exact ⟨t', hannotate, List.mem_filterMap.2 ⟨_, hresult, rfl⟩⟩

/-- The paths of the replacements are those of the files whose bodies changed. -/
theorem mem_paths_replacements : path ∈ (results.filterMap id).map Tree.path ↔
    ∃ intents, HasVerdict differ config baseline trees path (.bodyEdits intents) := by
  rw [List.mem_map]
  constructor
  · rintro ⟨r, hr, rfl⟩
    obtain ⟨result, hresult, rfl⟩ := List.mem_filterMap.1 hr
    obtain ⟨⟨path, verdict⟩, hv, hstep⟩ := (mem_of_mapM hresults).1 hresult
    rw [path_of_replacement? hstep]
    cases verdict with
    | bodyEdits intents => exact ⟨intents, (hjudged.mem_iff hbaseline).1 hv⟩
    | _ =>
      rw [replacement?_of_ne (by simp)] at hstep
      simp at hstep
  · rintro ⟨intents, h⟩
    obtain ⟨-, t, ht, rfl, -⟩ := id h
    obtain ⟨t', hannotate, hmem⟩ := exists_annotate hjudged hbaseline htrees hresults ht h
    exact ⟨t', hmem, Tree.path_annotate hannotate⟩

/-- A file whose bodies changed is replaced by its annotated tree. -/
theorem find?_replacement (ht : t ∈ trees)
    (h : HasVerdict differ config baseline trees t.path (.bodyEdits intents)) :
    ∃ t', t.annotate intents = .ok t' ∧
      ((results.filterMap id).find? fun r => r.path = t.path) = some t' := by
  obtain ⟨t', hannotate, hmem⟩ := exists_annotate hjudged hbaseline htrees hresults ht h
  refine ⟨t', hannotate, ?_⟩
  rw [← Tree.path_annotate hannotate]
  exact find?_path (distinct_replacements hjudged htrees hresults) hmem

/-- No other file is replaced. -/
theorem find?_replacement_eq_none
    (h : ∀ intents, ¬HasVerdict differ config baseline trees path (.bodyEdits intents)) :
    ((results.filterMap id).find? fun r => r.path = path) = none := by
  rw [find?_path_eq_none, mem_paths_replacements hjudged hbaseline htrees hresults]
  exact not_exists.2 h

end Judged

/-! ## Commits -/

/-- What a commit makes of a tree at its place, with the marked extra unit. -/
inductive Effect (differ : Differ) (config : ReloadConfig) (baseline trees : List Tree)
    (unit t : Tree) : Tree → Prop
  /-- The extra unit is replaced by the marked one. -/
  | extra (hpath : t.path = config.extraUnitPath) : Effect differ config baseline trees unit t unit
  /-- A file whose bodies changed is annotated. -/
  | edited {intents : SortedSet Intent} {t' : Tree}
      (h : HasVerdict differ config baseline trees t.path (.bodyEdits intents))
      (hannotate : t.annotate intents = .ok t') : Effect differ config baseline trees unit t t'
  /-- Every other file is left. -/
  | kept {verdict : Verdict} (h : HasVerdict differ config baseline trees t.path verdict)
      (hother : ∀ intents, verdict ≠ .bodyEdits intents) :
      Effect differ config baseline trees unit t t

/-- A tree keeps its path. -/
theorem Effect.path_eq {unit t' : Tree} (h : Effect differ config baseline trees unit t t')
    (hunit : unit.path = config.extraUnitPath) : t'.path = t.path := by
  cases h with
  | extra hpath => exact hunit.trans hpath.symm
  | edited _ hannotate => exact Tree.path_annotate hannotate
  | kept => rfl

/-- The replacements and the marked extra unit have the effect of a commit. -/
theorem effect_replaced {unit : Tree} (hjudged : Judged differ config baseline trees verdicts)
    (hbaseline : DistinctPaths baseline) (htrees : DistinctPaths trees)
    (hresults : verdicts.mapM (replacement? (compared config trees)) = .ok results)
    (hsame : SameFiles config baseline trees) (ht : t ∈ trees) :
    Effect differ config baseline trees unit t
      (if t.path = config.extraUnitPath then unit
        else ((results.filterMap id).find? fun r => r.path = t.path).getD t) := by
  split
  · next hextra => exact .extra hextra
  next hextra =>
  obtain ⟨b, hb, hpath⟩ := List.mem_map.1 ((hsame t.path hextra).1 (List.mem_map_of_mem ht))
  have hverdict : HasVerdict differ config baseline trees t.path
      (Verdict.classifyBy differ config b t) :=
    ⟨hextra, t, ht, rfl, b, hb, hpath, rfl⟩
  by_cases hedited : ∃ intents, HasVerdict differ config baseline trees t.path (.bodyEdits intents)
  · obtain ⟨intents, hedited⟩ := hedited
    obtain ⟨t', hannotate, hfind⟩ :=
      find?_replacement hjudged hbaseline htrees hresults ht hedited
    rw [hfind]
    exact .edited hedited hannotate
  · have hnone := not_exists.1 hedited
    rw [find?_replacement_eq_none hjudged hbaseline htrees hresults hnone]
    refine .kept hverdict fun intents heq => hnone intents ?_
    rw [← heq]
    exact hverdict

/-- What a commit does to a compile, and which files it names. -/
structure Applied (differ : Differ) (config : ReloadConfig) (version : String)
    (baseline : List Tree) (before after : Compilation) (rewritten : List String) : Prop where
  /-- Every tree has its effect and keeps its place and path; the marked extra unit goes to the end if
  there was none. -/
  trees : ∃ unit changed,
    Tree.patching (before.get? config.extraUnitPath) config.extraUnitPath version = .ok unit ∧
    List.Forall₂ (Effect differ config baseline before.trees unit) before.trees changed ∧
    changed.map Tree.path = before.trees.map Tree.path ∧
    after.trees =
      changed ++ if config.extraUnitPath ∈ before.trees.map Tree.path then [] else [unit]
  /-- The files whose bodies changed are named in order. -/
  names : Enumerates rewritten fun path =>
    ∃ intents, HasVerdict differ config baseline before.trees path (.bodyEdits intents)

variable {gate : Gate} {schedule : Schedule} {previous : Option Snapshot} {current : Compilation}
  {rewritten : List String}

/-- A run that commits applies the commit of its attempt. -/
theorem exists_of_run
    (h : (gate.run schedule differ previous current).outcome = .committed rewritten) :
    ∃ commit, plan schedule differ gate.config previous current = .ok commit ∧
      rewritten = commit.paths ∧ (gate.run schedule differ previous current).compilation.trees =
        (commit.apply (.ofTrees current.trees)).trees := by
  cases hplan : plan schedule differ gate.config previous current with
  | error reason => simp [run_of_error hplan] at h
  | ok commit =>
    rw [run_of_ok hplan] at h ⊢
    exact ⟨commit, rfl, (GateOutcome.committed.inj h).symm, rfl⟩

/-- The paths of a commit are in order. -/
theorem enumerates_paths {commit : Commit} (h : DistinctPaths commit.replacements) :
    Enumerates commit.paths (· ∈ commit.replacements.map Tree.path) := by
  have hsorted : commit.paths.Pairwise (· ≤ ·) := pairwise_mergeSort_by id _
  have hnodup : commit.paths.Nodup := (List.mergeSort_perm _ _).nodup_iff.2 h
  constructor
  · exact (hsorted.and hnodup).imp fun ⟨hle, hne⟩ => by grind
  · intro path
    exact List.mem_mergeSort

/-- A commit names the files whose bodies changed. -/
theorem enumerates_edited {commit : Commit} {version : String}
    (hjudged : Judged differ config baseline current.trees verdicts)
    (hbaseline : DistinctPaths baseline) (hcurrent : DistinctPaths current.trees)
    (hsettle : settle config version current verdicts = .ok commit) :
    Enumerates commit.paths fun path =>
      ∃ intents, HasVerdict differ config baseline current.trees path (.bodyEdits intents) := by
  obtain ⟨results, hresults, hreps, -⟩ := exists_of_settle hsettle
  have hdistinct : DistinctPaths commit.replacements :=
    hreps ▸ distinct_replacements hjudged hcurrent hresults
  refine ⟨(enumerates_paths hdistinct).ascending, fun path => ?_⟩
  rw [(enumerates_paths hdistinct).mem_iff, hreps,
    mem_paths_replacements hjudged hbaseline hcurrent hresults]

/-- A run that commits changes the compile as its verdicts say, however texts are compared by their
lines. -/
theorem run_effect (hcovers : differ.Covers) (hcurrent : DistinctPaths current.trees)
    (hbaseline : ∀ s ∈ previous, ∀ baseline ∈ s.beforeProcessing, DistinctPaths baseline)
    (h : (gate.run schedule differ previous current).outcome = .committed rewritten) :
    ∃ s baseline, previous = some s ∧ s.beforeProcessing = some baseline ∧
      Applied differ gate.config s.version baseline current
        (gate.run schedule differ previous current).compilation rewritten := by
  obtain ⟨commit, hcommit, hrewritten, htrees⟩ := exists_of_run h
  obtain ⟨s, baseline, verdicts, hs, hbase, hsame, hjudged, hsettle⟩ :=
    exists_of_plan hcovers hcommit
  obtain ⟨results, hresults, hreps, hunit⟩ := exists_of_settle hsettle
  have hbaseline : DistinctPaths baseline := hbaseline s hs baseline hbase
  have hdistinct : DistinctPaths commit.replacements :=
    hreps ▸ distinct_replacements hjudged hcurrent hresults
  have hpath : commit.extraUnit.path = gate.config.extraUnitPath :=
    Tree.path_patching hunit fun t ht => path_of_find? ht
  have hcompile : DistinctPaths (Compilation.ofTrees current.trees).trees := hcurrent
  rw [Commit.trees_apply hdistinct hcompile, Compilation.trees_ofTrees, hpath, hreps] at htrees
  have heffect : ∀ t ∈ current.trees,
      Effect differ gate.config baseline current.trees commit.extraUnit t
      (if t.path = gate.config.extraUnitPath then commit.extraUnit
        else ((results.filterMap id).find? fun r => r.path = t.path).getD t) :=
    fun t ht => effect_replaced hjudged hbaseline hcurrent hresults hsame ht
  refine ⟨s, baseline, hs, hbase, ⟨commit.extraUnit, _, hunit, ?_, ?_, htrees⟩, ?_⟩
  · rw [List.forall₂_map_right_iff, List.forall₂_same]
    exact heffect
  · rw [List.map_map]
    exact List.map_congr_left fun t ht => (heffect t ht).path_eq hpath
  · rw [hrewritten]
    exact enumerates_edited hjudged hbaseline hcurrent hsettle

/-- A file of one type with one method, in two versions. -/
def sampleFile (digit : String) : Tree :=
  .ofBuilder "A.cs" .empty (Builder.empty.run (Verdict.sample "// a" "1" digit))

/-- An extra unit without markers. -/
def sampleUnit : Tree :=
  .ofBuilder extraUnitPath .empty (Builder.empty.run [.start .compilationUnit none, .finish])

theorem path_sampleFile (digit : String) : (sampleFile digit).path = "A.cs" := rfl

theorem path_sampleUnit : sampleUnit.path = extraUnitPath := rfl

theorem afterRounds_sampleUnit : sampleUnit.AfterRounds :=
  .built (rfl : Tree.blank extraUnitPath = .ok sampleUnit)

theorem afterRounds_sampleFile : (sampleFile "2").AfterRounds :=
  .built (rfl : Tree.ofEvents "A.cs" .empty (Verdict.sample "// a" "1" "2") = .ok (sampleFile "2"))

/-- The extra unit, and a file whose body changed. -/
def sampleCompilation : Compilation := .ofTrees [sampleUnit, sampleFile "2"]

/-- The build before the change. -/
def sampleSnapshot : Snapshot := ⟨"1.0", some [sampleFile "1"]⟩

theorem distinctPaths_sampleSnapshot :
    ∀ s ∈ some sampleSnapshot, ∀ baseline ∈ s.beforeProcessing, DistinctPaths baseline := by
  intro s hs baseline hbase
  obtain rfl := Option.some.inj hs
  obtain rfl := Option.some.inj hbase
  decide

theorem run_effect_sample :
    DistinctPaths sampleCompilation.trees ∧ DistinctPaths [sampleFile "1"] ∧ ∃ rewritten,
      ((ofConfig .standard).run .inOrder .byLines sampleSnapshot sampleCompilation).outcome =
        .committed rewritten ∧
      Applied .byLines .standard "1.0" [sampleFile "1"] sampleCompilation
        ((ofConfig .standard).run .inOrder .byLines sampleSnapshot sampleCompilation).compilation
        rewritten := by
  have hcurrent : DistinctPaths sampleCompilation.trees := by decide
  have hbaseline : DistinctPaths [sampleFile "1"] := by decide
  have hsame : SameFiles .standard [sampleFile "1"] sampleCompilation.trees := by
    intro path hpath
    have hpath : path ≠ extraUnitPath := hpath
    change path ∈ [sampleUnit.path, (sampleFile "2").path] ↔ path ∈ [(sampleFile "1").path]
    rw [path_sampleUnit, path_sampleFile, path_sampleFile, List.mem_cons, or_iff_right hpath]
  have hsound : ∀ t ∈ sampleCompilation.trees, t.Sound := by
    intro t ht
    rcases List.mem_pair.1 ht with rfl | rfl
    · exact afterRounds_sampleUnit.sound
    · exact afterRounds_sampleFile.sound
  have hverdicts : ∀ t ∈ sampleCompilation.trees, ∀ b ∈ [sampleFile "1"], b.path = t.path →
      (Verdict.classifyBy .byLines .standard b t).isDeclined = false := by
    decide +kernel
  have hunits : ∀ t ∈ sampleCompilation.trees, t.nodes ≠ #[] := by decide
  obtain ⟨commit, hcommit⟩ :=
    exists_commit Differ.covers_byLines (rfl : sampleSnapshot.beforeProcessing = some _) hsame
      hbaseline hcurrent hsound (not_hasVerdict_declined hverdicts)
      fun unit hunit _ => hunits unit hunit
  have houtcome :
      ((ofConfig .standard).run .inOrder .byLines sampleSnapshot sampleCompilation).outcome =
        .committed commit.paths := by
    rw [run_of_ok hcommit]
  obtain ⟨s, baseline, hs, hbase, happlied⟩ :=
    run_effect Differ.covers_byLines hcurrent distinctPaths_sampleSnapshot houtcome
  obtain rfl := Option.some.inj hs
  obtain rfl := Option.some.inj hbase
  exact ⟨hcurrent, hbaseline, commit.paths, houtcome, happlied⟩

end Gate

end HotReload
