import HotReload.Proofs.Change.Cuts
import HotReload.Verdict.Batch

/-
  Deciding about many files never fails if all texts are compared by their own lines, and it does not
  matter in which order the workers finish: the answer holds the verdict about every pair, ordered by
  path (`Verdict.exists_classifyAll`). A worker could only fail by cutting out the regions of its pair,
  and between such lines it always can cut (`Verdict.worker_eq`). Equal texts are not compared at all,
  so a pair of them asks nothing of the comparison (`Differ.CoversPair`).
-/

namespace HotReload

/-- A tree has a root unless it has no nodes. -/
theorem Tree.root_eq_error_iff {t : Tree} {e : UnresolvedRoot} :
    t.root = .error e ↔ t.nodes = #[] ∧ e = ⟨t.path⟩ := by
  unfold Tree.root
  rw [← Array.size_eq_zero_iff]
  split
  · next h => simp [Nat.ne_of_gt h]
  · next h => simp [Nat.eq_zero_of_not_pos h, eq_comm]

theorem Tree.root_of_ne_empty {t : Tree} (h : t.nodes ≠ #[]) :
    ∃ root, t.root = .ok root ∧ root.1 = 0 := by
  have hpos : 0 < t.nodes.size := Nat.pos_of_ne_zero fun hzero => h (Array.size_eq_zero_iff.1 hzero)
  exact ⟨⟨0, hpos⟩, dif_pos hpos, rfl⟩

/-- If the texts of a pair are compared, then by the lines of these texts. -/
def Differ.CoversPair (differ : Differ) (pair : FilePair) : Prop :=
  pair.old.text ≠ pair.new.text →
    (differ pair.old.text pair.new.text).Covers pair.old.text pair.new.text

theorem Differ.Covers.coversPair {differ : Differ} (h : differ.Covers) (pair : FilePair) :
    differ.CoversPair pair := fun _ => h _ _

namespace Verdict

variable {differ : Differ} {config : ReloadConfig} {pairs : List FilePair}

/-- The verdict is the same with regions that are cut out of the texts. -/
theorem classifyCut_eq {old new : Tree} (h : differ.CoversPair ⟨old, new⟩) :
    classifyCut differ config old new = .ok (classifyBy differ config old new) := by
  unfold classifyCut classifyBy
  split
  · rfl
  next hsymbols =>
  by_cases hroots : old.nodes = #[] ∨ new.nodes = #[]
  · have hdiff : ∃ e, old.diffBy differ new = .error e := by
      unfold Tree.diffBy
      by_cases hold : old.nodes = #[]
      · rw [Tree.root_eq_error_iff.2 ⟨hold, rfl⟩]
        exact ⟨_, rfl⟩
      · obtain ⟨root, hroot, -⟩ := Tree.root_of_ne_empty hold
        rw [hroot, Tree.root_eq_error_iff.2 ⟨hroots.resolve_left hold, rfl⟩]
        exact ⟨_, rfl⟩
    obtain ⟨e, he⟩ := hdiff
    rw [if_pos (by simpa using hroots), he]
  · obtain ⟨hold, hnew⟩ := not_or.1 hroots
    obtain ⟨oldRoot, holdRoot, -⟩ := Tree.root_of_ne_empty hold
    obtain ⟨newRoot, hnewRoot, -⟩ := Tree.root_of_ne_empty hnew
    rw [if_neg (by simpa using hroots), Tree.diffBy, holdRoot, hnewRoot]
    simp only [bind, Except.bind, pure, Except.pure, Differ.between]
    split
    · rfl
    next htext =>
    rw [(h htext).cutRegions_eq]
    rfl

theorem worker_eq {pair : FilePair} (h : differ.CoversPair pair) :
    worker differ config pair = .ok (classifyBy differ config pair.old pair.new) := by
  unfold worker
  rw [classifyCut_eq h]
  rfl

/-- The verdict about a pair, with its path. -/
def judge (differ : Differ) (config : ReloadConfig) (pair : FilePair) : FileVerdict :=
  ⟨pair.new.path, classifyBy differ config pair.old pair.new⟩

/-- The verdicts about all pairs are in the answer, ordered by path. -/
theorem exists_classifyAll (schedule : Schedule) (config : ReloadConfig)
    (h : ∀ pair ∈ pairs, differ.CoversPair pair) :
    ∃ verdicts, classifyAll schedule differ config pairs = .ok verdicts ∧
      verdicts.Perm (pairs.map (judge differ config)) ∧
      verdicts.Pairwise fun a b => a.path ≤ b.path := by
  have hjoin : Outcome.join ((schedule.arrange pairs).map (outcome (worker differ config))) =
      .ok ((schedule.arrange pairs).map (judge differ config)) := by
    apply Outcome.join_map
    intro pair hpair
    unfold outcome
    rw [worker_eq (h pair ((schedule.perm pairs).mem_iff.1 hpair))]
    rfl
  unfold classifyAll classifyWith
  rw [hjoin]
  refine ⟨_, rfl, ?_, ?_⟩
  · exact (List.mergeSort_perm _ _).trans ((schedule.perm pairs).map _)
  · exact pairwise_mergeSort_by FileVerdict.path _

end Verdict

end HotReload
