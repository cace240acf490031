/-
  Stable sorting. Entries that are in order already come out as they went in (`filter_mergeSort`), so
  those with one key keep their order (`filter_mergeSort_key`, `filter_mergeSort_by`), and a sorted
  list is determined by its entries and the order of those with one key (`eq_of_filter_eq`). Sorting by
  a text that tells the entries apart forgets the order in which they came (`mergeSort_by_congr`), and
  a list in strict order of a text is determined by its entries (`eq_of_mem_iff_by`).
-/

namespace HotReload

variable {α κ : Type}

/-- Sorting keeps what is in order. -/
theorem filter_mergeSort {le : α → α → Bool}
    (htrans : ∀ a b c, le a b = true → le b c = true → le a c = true)
    (htotal : ∀ a b, (le a b || le b a) = true) {f : α → Bool} {l : List α}
    (hordered : (l.filter f).Pairwise fun a b => le a b = true) :
    (l.mergeSort le).filter f = l.filter f := by
  have hfiltered := (List.sublist_mergeSort htrans htotal hordered List.filter_sublist).filter f
  rw [List.filter_filter, show (fun a => f a && f a) = f by funext a; exact Bool.and_self _]
    at hfiltered
  have hperm : ((l.mergeSort le).filter f).Perm (l.filter f) := (List.mergeSort_perm l le).filter f
  exact (hfiltered.eq_of_length hperm.length_eq.symm).symm

section Keys

variable [DecidableEq κ] {le : κ → κ → Bool} (key : α → κ) {l l' : List α}

/-- Sorting by a key keeps the order of those with one key. -/
theorem filter_mergeSort_key (htrans : ∀ a b c, le a b = true → le b c = true → le a c = true)
    (htotal : ∀ a b, (le a b || le b a) = true) (l : List α) (k : κ) :
    ((l.mergeSort fun a b => le (key a) (key b)).filter fun a => key a = k) =
      l.filter fun a => key a = k := by
  apply filter_mergeSort (fun a b c => htrans (key a) (key b) (key c))
    (fun a b => htotal (key a) (key b))
  rw [List.pairwise_filter]
  refine List.pairwise_of_forall fun a b ha hb => ?_
  rw [of_decide_eq_true ha, of_decide_eq_true hb]
  simpa using htotal k k

/-- There is one list in order of the keys in which those with one key have a given order. -/
theorem eq_of_filter_eq (hantisymm : ∀ a b, le a b = true → le b a = true → a = b)
    (hl : l.Pairwise fun a b => le (key a) (key b) = true)
    (hl' : l'.Pairwise fun a b => le (key a) (key b) = true) (hperm : l.Perm l')
    (hties : ∀ k, (l.filter fun a => key a = k) = l'.filter fun a => key a = k) : l = l' := by
  induction l generalizing l' with
  | nil => exact hperm.nil_eq
  | cons a l ih =>
    cases l' with
    | nil => exact absurd hperm.symm (List.not_perm_nil_cons a l)
    | cons b l' =>
      obtain ⟨hle, hrest⟩ := List.pairwise_cons.1 hl
      obtain ⟨hle', hrest'⟩ := List.pairwise_cons.1 hl'
      have hkey : key a = key b := by
        rcases List.mem_cons.1 (hperm.mem_iff.1 List.mem_cons_self) with rfl | ha
        · rfl
        rcases List.mem_cons.1 (hperm.mem_iff.2 List.mem_cons_self) with rfl | hb
        · rfl
        exact hantisymm _ _ (hle b hb) (hle' a ha)
      have hhead := hties (key a)
      rw [List.filter_cons_of_pos (by simp), List.filter_cons_of_pos (by simp [hkey])] at hhead
      obtain rfl := (List.cons.inj hhead).1
      congr 1
      refine ih hrest hrest' hperm.cons_inv fun k => ?_
      have hk := hties k
      by_cases ha : key a = k
      · rw [List.filter_cons_of_pos (by simp [ha]), List.filter_cons_of_pos (by simp [ha])] at hk
        exact (List.cons.inj hk).2
      · rwa [List.filter_cons_of_neg (by simp [ha]), List.filter_cons_of_neg (by simp [ha])] at hk

end Keys

/-! ## By a text -/

theorem le_by_trans (key : α → String) (a b c : α) (hab : decide (key a ≤ key b) = true)
    (hbc : decide (key b ≤ key c) = true) : decide (key a ≤ key c) = true := by
  rw [decide_eq_true_eq] at *
  exact String.le_trans hab hbc

theorem le_by_total (key : α → String) (a b : α) :
    (decide (key a ≤ key b) || decide (key b ≤ key a)) = true := by
  rw [Bool.or_eq_true, decide_eq_true_eq, decide_eq_true_eq]
  exact String.le_total _ _

/-- Sorting by a text puts the texts in order. -/
theorem pairwise_mergeSort_by (key : α → String) (as : List α) :
    (as.mergeSort fun a b => key a ≤ key b).Pairwise fun a b => key a ≤ key b :=
  (List.pairwise_mergeSort (le_by_trans key) (le_by_total key) as).imp of_decide_eq_true

/-- Sorting by a text keeps the order of those with one text. -/
theorem filter_mergeSort_by (key : α → String) (as : List α) (k : String) :
    ((as.mergeSort fun a b => key a ≤ key b).filter fun a => key a = k) =
      as.filter fun a => key a = k :=
  filter_mergeSort_key key (le_by_trans id) (le_by_total id) as k

/-- Sorting by a text forgets the order if the text tells the entries apart. -/
theorem mergeSort_by_congr (key : α → String) {as bs : List α} (hperm : as.Perm bs)
    (hinj : ∀ a ∈ as, ∀ b ∈ as, key a = key b → a = b) :
    (as.mergeSort fun a b => key a ≤ key b) = bs.mergeSort fun a b => key a ≤ key b := by
  have hsorted : (as.mergeSort fun a b => key a ≤ key b).Perm
      (bs.mergeSort fun a b => key a ≤ key b) :=
    (List.mergeSort_perm _ _).trans (hperm.trans (List.mergeSort_perm _ _).symm)
  refine hsorted.eq_of_pairwise ?_ (pairwise_mergeSort_by key as) (pairwise_mergeSort_by key bs)
  intro a b ha hb hab hba
  refine hinj a (List.mem_mergeSort.1 ha) b ?_ (String.le_antisymm hab hba)
  exact hperm.mem_iff.2 (List.mem_mergeSort.1 hb)

/-- Sorting by a text that tells the entries apart puts them in strict order. -/
theorem pairwise_lt_mergeSort_by (key : α → String) {as : List α} (h : (as.map key).Nodup) :
    (as.mergeSort fun a b => key a ≤ key b).Pairwise fun a b => key a < key b := by
  have hnodup : ((as.mergeSort fun a b => key a ≤ key b).map key).Nodup :=
    ((List.mergeSort_perm _ _).map key).nodup_iff.2 h
  refine (pairwise_mergeSort_by key as).imp₂ (fun a b hle hne => ?_) (List.pairwise_map.1 hnodup)
  exact Decidable.by_contra fun hlt => hne (String.le_antisymm hle (String.not_lt.1 hlt))

/-- A list in strict order of a text is determined by its entries. -/
theorem eq_of_mem_iff_by (key : α → String) {as bs : List α}
    (has : as.Pairwise fun a b => key a < key b) (hbs : bs.Pairwise fun a b => key a < key b)
    (h : ∀ a, a ∈ as ↔ a ∈ bs) : as = bs := by
  have hnodup : ∀ {l : List α}, l.Pairwise (fun a b => key a < key b) → l.Nodup := fun hl =>
    hl.imp fun hlt => fun heq => String.ne_of_lt hlt (congrArg key heq)
  have hperm : as.Perm bs := (List.perm_ext_iff_of_nodup (hnodup has) (hnodup hbs)).2 h
  exact hperm.eq_of_pairwise (fun a b _ _ hab hba => absurd hba (String.lt_asymm hab)) has hbs

end HotReload
