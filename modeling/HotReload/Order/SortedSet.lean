/-!
Finite sets as ascending lists. A set is determined by its members: two sets with the same
members are the same list, so equality of sets is equality of lists. The membership lemmas say
what `insert` and `ofList` hold.
-/

namespace HotReload

/-- A finite set, kept as its members in ascending order. -/
structure SortedSet (α : Type) [Ord α] where
  toList : List α
  ascending : toList.Pairwise (fun a b => compare a b = .lt)
  deriving DecidableEq

namespace SortedSet

variable {α : Type} [Ord α]

/-- Insert into an ascending list; a member that is already there stays. -/
def insertAscending (a : α) : List α → List α
  | [] => [a]
  | b :: rest =>
    match compare a b with
    | .lt => a :: b :: rest
    | .eq => b :: rest
    | .gt => b :: insertAscending a rest

theorem mem_of_mem_insertAscending {a x : α} {l : List α} (h : x ∈ insertAscending a l) :
    x = a ∨ x ∈ l := by
  induction l with
  | nil => simpa [insertAscending] using h
  | cons b rest ih =>
    simp only [insertAscending] at h
    split at h
    · simpa using h
    · exact Or.inr h
    · rcases List.mem_cons.1 h with rfl | h
      · simp
      · rcases ih h with rfl | h
        · exact Or.inl rfl
        · exact Or.inr (List.mem_cons_of_mem _ h)

theorem pairwise_insertAscending [Std.TransOrd α] (a : α) {l : List α}
    (h : l.Pairwise (fun a b => compare a b = .lt)) :
    (insertAscending a l).Pairwise (fun a b => compare a b = .lt) := by
  induction l with
  | nil => simp [insertAscending]
  | cons b rest ih =>
    have ⟨hb, hr⟩ := List.pairwise_cons.1 h
    simp only [insertAscending]
    split
    · next hab =>
      refine List.pairwise_cons.2 ⟨fun x hx => ?_, h⟩
      rcases List.mem_cons.1 hx with rfl | hx
      · exact hab
      · exact Std.TransCmp.lt_trans hab (hb x hx)
    · exact h
    · next hab =>
      refine List.pairwise_cons.2 ⟨fun x hx => ?_, ih hr⟩
      rcases mem_of_mem_insertAscending hx with rfl | hx
      · exact Std.OrientedCmp.lt_of_gt hab
      · exact hb x hx

/-- The set without members. -/
def empty : SortedSet α := ⟨[], .nil⟩

instance : Inhabited (SortedSet α) := ⟨empty⟩

instance : EmptyCollection (SortedSet α) := ⟨empty⟩

instance : Membership α (SortedSet α) := ⟨fun s a => a ∈ s.toList⟩

instance [DecidableEq α] (a : α) (s : SortedSet α) : Decidable (a ∈ s) :=
  inferInstanceAs (Decidable (a ∈ s.toList))

theorem mem_insertAscending_self [Std.LawfulEqOrd α] (a : α) (l : List α) :
    a ∈ insertAscending a l := by
  induction l with
  | nil => simp [insertAscending]
  | cons b rest ih =>
    simp only [insertAscending]
    split
    · simp
    · next h => simp [Std.LawfulEqOrd.eq_of_compare h]
    · exact List.mem_cons_of_mem _ ih

theorem mem_insertAscending_of_mem (a : α) {x : α} {l : List α} (h : x ∈ l) :
    x ∈ insertAscending a l := by
  induction l with
  | nil => simp at h
  | cons b rest ih =>
    simp only [insertAscending]
    split
    · exact List.mem_cons_of_mem _ h
    · exact h
    · rcases List.mem_cons.1 h with rfl | h
      · simp
      · exact List.mem_cons_of_mem _ (ih h)

@[simp] theorem not_mem_empty (x : α) : x ∉ (empty : SortedSet α) := List.not_mem_nil

variable [Std.TransOrd α]

/-- Add one member. -/
def insert (s : SortedSet α) (a : α) : SortedSet α :=
  ⟨insertAscending a s.toList, pairwise_insertAscending a s.ascending⟩

/-- The set of a list's entries. -/
def ofList (l : List α) : SortedSet α :=
  l.foldl insert empty

/-- The members of `s` that `t` lacks, ascending. -/
def diff [DecidableEq α] (s t : SortedSet α) : SortedSet α :=
  ⟨s.toList.filter (· ∉ t), s.ascending.filter _⟩

@[simp] theorem mem_insert [Std.LawfulEqOrd α] {s : SortedSet α} {a x : α} :
    x ∈ s.insert a ↔ x = a ∨ x ∈ s :=
  ⟨mem_of_mem_insertAscending, fun h => h.elim
    (fun h => h ▸ mem_insertAscending_self _ _) (mem_insertAscending_of_mem a)⟩

theorem mem_foldl_insert [Std.LawfulEqOrd α] {l : List α} {s : SortedSet α} {x : α} :
    x ∈ l.foldl insert s ↔ x ∈ l ∨ x ∈ s := by
  induction l generalizing s with
  | nil => simp
  | cons a l ih => simp [ih, or_assoc, or_left_comm]

@[simp] theorem mem_ofList [Std.LawfulEqOrd α] {l : List α} {x : α} :
    x ∈ ofList l ↔ x ∈ l := by
  simp [ofList, mem_foldl_insert]

end SortedSet

end HotReload
