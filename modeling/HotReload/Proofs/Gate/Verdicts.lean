import HotReload.Proofs.Gate.Paths
import HotReload.Proofs.Order.SortedSet
import HotReload.Proofs.Verdict.Batch

/-
  What an attempt compares, and the verdicts that it reads. Both sides are compared without the extra
  unit (`SameFiles`), and every file is judged against the baseline of its path (`HasVerdict`). The
  verdicts of an attempt are those of the files, in order of path (`Judged.mem_iff`), so the first
  declined one is the one with the least path (`Judged.firstDeclined?_eq_some`).
-/

namespace HotReload.Gate

variable {differ : Differ} {config : ReloadConfig} {old new trees baseline : List Tree} {t : Tree}
  {path : String}

/-! ## The two sides -/

theorem mem_compared :
    t ∈ compared config trees ↔ t ∈ trees ∧ t.path ≠ config.extraUnitPath := by
  unfold compared
  rw [List.mem_filter, decide_eq_true_eq]

/-- All compared paths are those of the trees, without the extra unit. -/
theorem mem_paths_compared :
    path ∈ paths (compared config trees) ↔
      path ∈ trees.map Tree.path ∧ path ≠ config.extraUnitPath := by
  unfold paths
  rw [SortedSet.mem_ofList, List.mem_map, List.mem_map]
  constructor
  · rintro ⟨t, ht, rfl⟩
    obtain ⟨hmem, hne⟩ := mem_compared.1 ht
    exact ⟨⟨t, hmem, rfl⟩, hne⟩
  · rintro ⟨⟨t, ht, rfl⟩, hne⟩
    exact ⟨t, mem_compared.2 ⟨ht, hne⟩, rfl⟩

/-- Both sides consist of the same files, apart from the extra unit. -/
def SameFiles (config : ReloadConfig) (old new : List Tree) : Prop :=
  ∀ path, path ≠ config.extraUnitPath → (path ∈ new.map Tree.path ↔ path ∈ old.map Tree.path)

theorem sameFiles_iff :
    SameFiles config old new ↔ paths (compared config new) = paths (compared config old) := by
  constructor
  · intro h
    apply SortedSet.ext_mem
    intro path
    rw [mem_paths_compared, mem_paths_compared]
    exact and_congr_left (h path)
  · intro h path hpath
    have hmem : path ∈ paths (compared config new) ↔ path ∈ paths (compared config old) := by
      rw [h]
    rw [mem_paths_compared, mem_paths_compared] at hmem
    exact (and_congr_left_iff.1 hmem) hpath

/-- The paths of one side only, without the extra unit. -/
theorem enumerates_diff (config : ReloadConfig) (new old : List Tree) :
    Enumerates ((paths (compared config new)).diff (paths (compared config old))).toList fun path =>
      path ≠ config.extraUnitPath ∧ path ∈ new.map Tree.path ∧ path ∉ old.map Tree.path := by
  apply SortedSet.enumerates
  intro path
  rw [SortedSet.mem_diff, mem_paths_compared, mem_paths_compared]
  grind

/-- Every tree is paired with the baseline of its path. -/
theorem mem_pairs_iff {pair : FilePair} :
    pair ∈ pairs old new ↔ pair.new ∈ new ∧ baselineOf? old pair.new.path = some pair.old := by
  unfold pairs
  rw [List.mem_filterMap]
  constructor
  · rintro ⟨t, ht, hpair⟩
    obtain ⟨b, hb, rfl⟩ := Option.map_eq_some_iff.1 hpair
    exact ⟨ht, hb⟩
  · rintro ⟨hnew, hb⟩
    exact ⟨pair.new, hnew, by rw [hb]; rfl⟩

/-- The baseline of a path is a tree of this path. -/
theorem mem_of_baselineOf? (h : baselineOf? old path = some t) : t ∈ old ∧ t.path = path :=
  ⟨List.mem_reverse.1 (List.mem_of_find?_eq_some h), path_of_find? h⟩

/-- Every tree with its baseline, the only one of that path. -/
theorem mem_pairs (h : DistinctPaths old) {pair : FilePair} :
    pair ∈ pairs old new ↔ pair.new ∈ new ∧ pair.old ∈ old ∧ pair.old.path = pair.new.path := by
  rw [mem_pairs_iff]
  refine and_congr_right fun _ => ⟨mem_of_baselineOf?, fun ⟨hold, hpath⟩ => ?_⟩
  unfold baselineOf?
  rw [← hpath]
  exact find?_path h.reverse (List.mem_reverse.2 hold)

theorem sublist_paths_pairs (old new : List Tree) :
    ((pairs old new).map fun pair => pair.new.path).Sublist (new.map Tree.path) := by
  unfold pairs
  induction new with
  | nil => exact .refl _
  | cons t new ih =>
    cases hb : baselineOf? old t.path with
    | none =>
      rw [List.filterMap_cons_none (by rw [hb]; rfl)]
      exact ih.cons _
    | some b =>
      rw [List.filterMap_cons_some (by rw [hb]; rfl)]
      exact ih.cons_cons _

/-! ## Verdicts -/

/-- This is the verdict about the file of a path. -/
def HasVerdict (differ : Differ) (config : ReloadConfig) (baseline trees : List Tree)
    (path : String) (verdict : Verdict) : Prop :=
  path ≠ config.extraUnitPath ∧ ∃ t ∈ trees, t.path = path ∧ ∃ b ∈ baseline, b.path = path ∧
    Verdict.classifyBy differ config b t = verdict

/-- A file has one verdict. -/
theorem HasVerdict.unique {verdict verdict' : Verdict} (hbaseline : DistinctPaths baseline)
    (htrees : DistinctPaths trees) (h : HasVerdict differ config baseline trees path verdict)
    (h' : HasVerdict differ config baseline trees path verdict') : verdict = verdict' := by
  obtain ⟨-, t, ht, htpath, b, hb, hbpath, rfl⟩ := h
  obtain ⟨-, t', ht', htpath', b', hb', hbpath', rfl⟩ := h'
  obtain rfl := htrees.eq_of_path ht ht' (htpath.trans htpath'.symm)
  obtain rfl := hbaseline.eq_of_path hb hb' (hbpath.trans hbpath'.symm)
  rfl

/-- If no tree is declined against a baseline of its path, no file is. -/
theorem not_hasVerdict_declined (h : ∀ t ∈ trees, ∀ b ∈ baseline, b.path = t.path →
    (Verdict.classifyBy differ config b t).isDeclined = false) (path : String)
    (reason : DeclineReason) : ¬HasVerdict differ config baseline trees path (.declined reason) := by
  rintro ⟨-, t, ht, htpath, b, hb, hbpath, hverdict⟩
  have hsafe := h t ht b hb (hbpath.trans htpath.symm)
  rw [hverdict] at hsafe
  simp [Verdict.isDeclined] at hsafe

/-- The verdicts about the files of two sides, in order of path. -/
structure Judged (differ : Differ) (config : ReloadConfig) (baseline trees : List Tree)
    (verdicts : List FileVerdict) : Prop where
  perm : verdicts.Perm
    ((pairs (compared config baseline) (compared config trees)).map (Verdict.judge differ config))
  sorted : verdicts.Pairwise fun a b => a.path ≤ b.path

namespace Judged

variable {verdicts : List FileVerdict} (h : Judged differ config baseline trees verdicts)

include h

theorem hasVerdict {v : FileVerdict} (hv : v ∈ verdicts) :
    HasVerdict differ config baseline trees v.path v.verdict := by
  obtain ⟨pair, hpair, rfl⟩ := List.mem_map.1 (h.perm.mem_iff.1 hv)
  obtain ⟨hnew, hbase⟩ := mem_pairs_iff.1 hpair
  obtain ⟨hold, hpath⟩ := mem_of_baselineOf? hbase
  obtain ⟨ht, hextra⟩ := mem_compared.1 hnew
  exact ⟨hextra, pair.new, ht, rfl, pair.old, (mem_compared.1 hold).1, hpath, rfl⟩

theorem mem_iff (hbaseline : DistinctPaths baseline) {v : FileVerdict} :
    v ∈ verdicts ↔ HasVerdict differ config baseline trees v.path v.verdict := by
  refine ⟨h.hasVerdict, ?_⟩
  rintro ⟨hextra, t, ht, htpath, b, hb, hbpath, hverdict⟩
  rw [h.perm.mem_iff, List.mem_map]
  refine ⟨⟨b, t⟩, (mem_pairs (hbaseline.filter _)).2 ⟨?_, ?_, hbpath.trans htpath.symm⟩, ?_⟩
  · exact mem_compared.2 ⟨ht, htpath ▸ hextra⟩
  · exact mem_compared.2 ⟨hb, hbpath ▸ hextra⟩
  · unfold Verdict.judge
    rw [htpath, hverdict]

theorem nodup_paths (htrees : DistinctPaths trees) : (verdicts.map FileVerdict.path).Nodup := by
  rw [(h.perm.map FileVerdict.path).nodup_iff, List.map_map]
  exact (htrees.filter _).sublist (sublist_paths_pairs (compared config baseline) _)

end Judged

/-! ## Declined files -/

theorem reason?_eq_some {verdict : Verdict} {reason : DeclineReason} :
    verdict.reason? = some reason ↔ verdict = .declined reason := by
  unfold Verdict.reason?
  cases verdict <;> simp

namespace Judged

variable {verdicts : List FileVerdict} (h : Judged differ config baseline trees verdicts)

include h

theorem firstDeclined?_of_not
    (hnone : ∀ path reason, ¬HasVerdict differ config baseline trees path (.declined reason)) :
    firstDeclined? verdicts = none := by
  unfold firstDeclined?
  rw [List.findSome?_eq_none_iff]
  intro v hv
  rw [Option.map_eq_none_iff, Option.eq_none_iff_forall_not_mem]
  intro reason hreason
  apply hnone v.path reason
  rw [← reason?_eq_some.1 hreason]
  exact h.hasVerdict hv

variable (hbaseline : DistinctPaths baseline)

include hbaseline

theorem firstDeclined?_eq_none : firstDeclined? verdicts = none ↔
    ∀ path reason, ¬HasVerdict differ config baseline trees path (.declined reason) := by
  refine ⟨fun hnone path reason hverdict => ?_, h.firstDeclined?_of_not⟩
  unfold firstDeclined? at hnone
  have hfirst := List.findSome?_eq_none_iff.1 hnone ⟨path, .declined reason⟩
    ((h.mem_iff hbaseline).2 hverdict)
  simp [Verdict.reason?] at hfirst

/-- Of the declined files, the one with the least path is named. -/
theorem firstDeclined?_eq_some {abort : AbortReason} (hfirst : firstDeclined? verdicts = some abort) :
    ∃ path reason, HasVerdict differ config baseline trees path (.declined reason) ∧
      abort = .fileDeclined path reason ∧
      ∀ path' reason', HasVerdict differ config baseline trees path' (.declined reason') →
        path ≤ path' := by
  obtain ⟨front, ⟨path, verdict⟩, back, heq, hv, hfront⟩ := List.findSome?_eq_some_iff.1 hfirst
  obtain ⟨reason, hreason, rfl⟩ := Option.map_eq_some_iff.1 hv
  obtain rfl := reason?_eq_some.1 hreason
  have hmem : ⟨path, .declined reason⟩ ∈ verdicts := by rw [heq]; simp
  refine ⟨path, reason, h.hasVerdict hmem, rfl, ?_⟩
  intro path' reason' hverdict'
  have hmem' := (h.mem_iff hbaseline (v := ⟨path', .declined reason'⟩)).2 hverdict'
  have hsorted := h.sorted
  rw [heq] at hmem' hsorted
  rcases List.mem_append.1 hmem' with hmem' | hmem'
  · -- nothing in front is declined
    have hnone := hfront _ hmem'
    simp [Verdict.reason?] at hnone
  · rcases List.mem_cons.1 hmem' with heq' | hmem'
    · obtain ⟨rfl, -⟩ := FileVerdict.mk.inj heq'
      exact String.le_refl _
    · exact (List.pairwise_cons.1 (List.pairwise_append.1 hsorted).2.1).1 _ hmem'

end Judged

end HotReload.Gate
