import HotReload.Order.SortedSet
import HotReload.Proofs.Order.Sorting
import Mathlib.Data.List.Nodup

/-
  Ascending lists as sets: two with the same members are equal (`SortedSet.ext_mem`), so comparing
  sets of texts is comparing their members. The list of a set of texts is the only list that has
  these texts in ascending order, each of them once (`SortedSet.enumerates`, `Enumerates.unique`).
-/

namespace HotReload

/-- The texts with a property, in ascending order and each of them once. -/
structure Enumerates (texts : List String) (p : String → Prop) : Prop where
  ascending : texts.Pairwise (· < ·)
  mem_iff : ∀ text, text ∈ texts ↔ p text

/-- Only one list enumerates a property. -/
theorem Enumerates.unique {texts texts' : List String} {p : String → Prop}
    (h : Enumerates texts p) (h' : Enumerates texts' p) : texts = texts' :=
  eq_of_mem_iff_by id h.ascending h'.ascending fun text =>
    (h.mem_iff text).trans (h'.mem_iff text).symm

namespace SortedSet

variable {α : Type} [Ord α] {s t : SortedSet α}

/-- The members of one set that another lacks. -/
theorem mem_diff [DecidableEq α] {a : α} : a ∈ s.diff t ↔ a ∈ s ∧ a ∉ t := by
  change a ∈ s.toList.filter (· ∉ t) ↔ _
  rw [List.mem_filter, decide_eq_true_eq]
  rfl

/-- A set of texts enumerates its members. -/
theorem enumerates {s : SortedSet String} {p : String → Prop} (h : ∀ text, text ∈ s ↔ p text) :
    Enumerates s.toList p :=
  ⟨s.ascending.imp compareOfLessAndEq_eq_lt.1, h⟩

variable [Std.TransOrd α]

theorem nodup (s : SortedSet α) : s.toList.Nodup := by
  apply s.ascending.imp
  intro a b hab heq
  subst heq
  simp at hab

/-- Sets with the same members are equal. -/
theorem ext_mem (h : ∀ a, a ∈ s ↔ a ∈ t) : s = t := by
  have hperm : s.toList.Perm t.toList := (List.perm_ext_iff_of_nodup s.nodup t.nodup).2 h
  have hlist : s.toList = t.toList := by
    refine hperm.eq_of_pairwise ?_ s.ascending t.ascending
    intro a b _ _ hab hba
    rw [Std.OrientedCmp.gt_of_lt hab] at hba
    exact absurd hba (by decide)
  cases s
  cases t
  simpa using hlist

end SortedSet

end HotReload
