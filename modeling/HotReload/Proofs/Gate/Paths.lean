import HotReload.Gate.Run
import HotReload.Proofs.Worker.Results
import Mathlib.Data.List.Nodup

/-
  Trees with distinct paths. Look-up by path finds the tree (`find?_path`), from whichever end, and
  replacing several trees of a compile puts each of them where the tree of its path was
  (`Compilation.trees_foldl_replace`). So on commit the compile keeps its order, and only an extra
  unit that was not there goes to the end (`Commit.trees_apply`).
-/

namespace HotReload

variable {trees : List Tree} {t u : Tree} {path : String}

/-- The trees have distinct paths. -/
def DistinctPaths (trees : List Tree) : Prop := (trees.map Tree.path).Nodup

instance : Decidable (DistinctPaths trees) := inferInstanceAs (Decidable (List.Nodup _))

namespace DistinctPaths

theorem eq_of_path (h : DistinctPaths trees) (ht : t ∈ trees) (hu : u ∈ trees)
    (hpath : t.path = u.path) : t = u :=
  List.inj_on_of_nodup_map h ht hu hpath

theorem filter (h : DistinctPaths trees) (p : Tree → Bool) : DistinctPaths (trees.filter p) :=
  h.sublist (List.filter_sublist.map _)

theorem reverse (h : DistinctPaths trees) : DistinctPaths trees.reverse := by
  unfold DistinctPaths
  rw [List.map_reverse]
  exact List.nodup_reverse.2 h

end DistinctPaths

/-- Trees of one path have equally many nodes, so that the intents of one are nodes of the other. -/
def SameSizes (trees : List Tree) : Prop :=
  ∀ t ∈ trees, ∀ u ∈ trees, t.path = u.path → t.nodes.size = u.nodes.size

theorem DistinctPaths.sameSizes (h : DistinctPaths trees) : SameSizes trees := by
  intro t ht u hu hpath
  rw [h.eq_of_path ht hu hpath]

/-! ## Look-up -/

theorem path_of_find? (h : (trees.find? fun u => u.path = path) = some t) : t.path = path := by
  have hfound := List.find?_some h
  exact of_decide_eq_true hfound

theorem find?_path_eq_none :
    (trees.find? fun u => u.path = path) = none ↔ path ∉ trees.map Tree.path := by
  rw [List.find?_eq_none, List.mem_map]
  simp

/-- Look-up by path finds the tree of that path. -/
theorem find?_path (h : DistinctPaths trees) (ht : t ∈ trees) :
    (trees.find? fun u => u.path = t.path) = some t := by
  cases hfind : trees.find? fun u => u.path = t.path with
  | none => exact absurd (List.mem_map_of_mem ht) (find?_path_eq_none.1 hfind)
  | some u =>
    rw [h.eq_of_path (List.mem_of_find?_eq_some hfind) ht (path_of_find? hfind)]

/-- What look-up by the path of a tree finds has that path. -/
theorem path_find?_getD (trees : List Tree) (t : Tree) :
    ((trees.find? fun u => u.path = t.path).getD t).path = t.path := by
  cases hfind : trees.find? fun u => u.path = t.path with
  | none => rfl
  | some u => exact path_of_find? hfind

/-! ## Replacement -/

theorem map_replace_of_not_mem (h : t.path ∉ trees.map Tree.path) :
    (trees.map fun u => if u.path = t.path then t else u) = trees := by
  conv => rhs; rw [← List.map_id trees]
  apply List.map_congr_left
  intro u hu
  rw [if_neg, id]
  intro hpath
  exact h (List.mem_map.2 ⟨u, hu, hpath⟩)

namespace Compilation

variable {current : Compilation}

/-- The tree takes the place of the one with its path. -/
theorem replaceFirst?_eq (h : DistinctPaths trees) :
    replaceFirst? t trees =
      if t.path ∈ trees.map Tree.path then
        some (trees.map fun u => if u.path = t.path then t else u)
      else none := by
  induction trees with
  | nil => rfl
  | cons u trees ih =>
    obtain ⟨hu, hnodup⟩ := List.nodup_cons.1 h
    unfold replaceFirst?
    by_cases hpath : u.path = t.path
    · -- no later tree has the path
      have hrest := map_replace_of_not_mem (hpath ▸ hu)
      simp [hpath, hrest]
    · rw [if_neg hpath, ih hnodup]
      by_cases hmem : t.path ∈ trees.map Tree.path
      · simp [hpath, hmem]
      · simp [hmem, Ne.symm hpath]

theorem trees_replace (h : DistinctPaths current.trees) (t : Tree) :
    (current.replace t).trees = current.trees.map fun u => if u.path = t.path then t else u := by
  unfold replace replace?
  rw [replaceFirst?_eq h]
  split
  · rfl
  · next hmem => exact (map_replace_of_not_mem hmem).symm

theorem replaceFirst?_cons_getD (t u : Tree) (trees : List Tree) :
    (replaceFirst? t (u :: trees)).getD (u :: trees) =
      if u.path = t.path then t :: trees else u :: (replaceFirst? t trees).getD trees := by
  rw [replaceFirst?]
  split
  · rfl
  · cases replaceFirst? t trees <;> rfl

theorem trees_replace_eq (current : Compilation) (t : Tree) :
    (current.replace t).trees = (replaceFirst? t current.trees).getD current.trees := by
  unfold replace replace?
  cases replaceFirst? t current.trees <;> rfl

/-- A replacement leaves all paths, also if they repeat. -/
theorem paths_replace (current : Compilation) (t : Tree) :
    (current.replace t).trees.map Tree.path = current.trees.map Tree.path := by
  rw [trees_replace_eq]
  generalize current.trees = trees
  induction trees with
  | nil => rfl
  | cons u trees ih =>
    rw [replaceFirst?_cons_getD]
    split
    · next hpath => rw [List.map_cons, List.map_cons, hpath]
    · rw [List.map_cons, List.map_cons, ih]

/-- Several trees with distinct paths each take the place of the one with their path. -/
theorem trees_foldl_replace {replacements : List Tree} (hreps : DistinctPaths replacements)
    (h : DistinctPaths current.trees) :
    (replacements.foldl replace current).trees =
      current.trees.map fun u => (replacements.find? fun r => r.path = u.path).getD u := by
  induction replacements generalizing current with
  | nil => exact (List.map_id _).symm
  | cons r replacements ih =>
    obtain ⟨hr, hnodup⟩ := List.nodup_cons.1 hreps
    have hdistinct : DistinctPaths (current.replace r).trees := by
      unfold DistinctPaths
      rw [paths_replace]
      exact h
    rw [List.foldl_cons, ih hnodup hdistinct, trees_replace h, List.map_map]
    apply List.map_congr_left
    intro u _
    rw [Function.comp_apply]
    by_cases hpath : r.path = u.path
    · rw [List.find?_cons_of_pos (by simpa using hpath), if_pos hpath.symm,
        find?_path_eq_none.2 hr]
      rfl
    · rw [List.find?_cons_of_neg (by simpa using hpath), if_neg (Ne.symm hpath)]

theorem mem_of_replaceFirst? {replaced : List Tree} (h : replaceFirst? t trees = some replaced) :
    t ∈ replaced := by
  induction trees generalizing replaced with
  | nil => simp [replaceFirst?] at h
  | cons u trees ih =>
    rw [replaceFirst?] at h
    split at h
    · obtain rfl := Option.some.inj h
      exact List.mem_cons_self
    · obtain ⟨rest, hrest, rfl⟩ := Option.map_eq_some_iff.1 h
      exact List.mem_cons_of_mem _ (ih hrest)

theorem paths_foldl_replace (replacements : List Tree) (current : Compilation) :
    (replacements.foldl replace current).trees.map Tree.path = current.trees.map Tree.path := by
  induction replacements generalizing current with
  | nil => rfl
  | cons r replacements ih => rw [List.foldl_cons, ih, paths_replace]

end Compilation

/-- The extra unit is there after a commit, whether it was there before or not. -/
theorem Commit.extraUnit_mem_apply (commit : Commit) (current : Compilation) :
    commit.extraUnit ∈ (commit.apply current).trees := by
  unfold Commit.apply Compilation.replace?
  dsimp only
  cases hfirst : Compilation.replaceFirst? commit.extraUnit
      (commit.replacements.foldl Compilation.replace current).trees with
  | none => exact List.mem_append_right _ (List.mem_singleton.2 rfl)
  | some trees => exact Compilation.mem_of_replaceFirst? hfirst

/-- On commit every tree stays in its place or is replaced there, and an extra unit that was not there
goes to the end. -/
theorem Commit.trees_apply {commit : Commit} {current : Compilation}
    (hreps : DistinctPaths commit.replacements) (h : DistinctPaths current.trees) :
    (commit.apply current).trees =
      (current.trees.map fun t =>
        if t.path = commit.extraUnit.path then commit.extraUnit
        else (commit.replacements.find? fun r => r.path = t.path).getD t) ++
        if commit.extraUnit.path ∈ current.trees.map Tree.path then [] else [commit.extraUnit] := by
  have hpaths := Compilation.paths_foldl_replace commit.replacements current
  have hdistinct : DistinctPaths (commit.replacements.foldl Compilation.replace current).trees := by
    unfold DistinctPaths
    rw [hpaths]
    exact h
  have hmap : ((commit.replacements.foldl Compilation.replace current).trees.map fun u =>
      if u.path = commit.extraUnit.path then commit.extraUnit else u) =
      current.trees.map fun t =>
        if t.path = commit.extraUnit.path then commit.extraUnit
        else (commit.replacements.find? fun r => r.path = t.path).getD t := by
    rw [Compilation.trees_foldl_replace hreps h, List.map_map]
    apply List.map_congr_left
    intro t _
    rw [Function.comp_apply, path_find?_getD]
  rw [← hmap, ← hpaths]
  unfold Commit.apply Compilation.replace?
  dsimp only
  rw [Compilation.replaceFirst?_eq hdistinct]
  split
  · exact (List.append_nil _).symm
  · next hmem =>
    rw [map_replace_of_not_mem hmem]
    rfl

end HotReload
