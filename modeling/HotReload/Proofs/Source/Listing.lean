import HotReload.Proofs.Source.Nesting

/-
  The list of children of a tree. Nodes are numbered when they start, but their children are written
  down when they end, so the list is in post-order. `Forest.Lists` says that a list holds the children
  of a forest behind some other entries; the range of each node then picks its own children
  (`Lists.slice_row`).

  Every node but the outermost ones is in the list once (`listing_append_roots_perm`), and the ranges
  of two nodes stay apart: what stands below a node has its range in front of the one of the node
  (`ranges_of_places`).
-/

namespace HotReload

namespace Forest

variable {f parts rest : Forest} {list : Array Nat} {parent : Option Nat} {id offset listed i j : Nat}
  {kind : NodeKind} {name : Option String} {text : String} {m n : Node}

/-- Every node of the forest is a child of another one of it or outermost, and no two times. -/
theorem listing_append_roots_perm (f : Forest) (id : Nat) :
    (f.listing id ++ f.roots id).Perm (List.range' id f.size) := by
  induction f generalizing id with
  | nil => exact .refl _
  | token text rest ih | trivia text rest ih => exact ih id
  | node kind name parts rest ihp ihr =>
    have hsize : parts.size + 1 + rest.size = 1 + (parts.size + rest.size) := by omega
    have hsplit : List.range' id (parts.size + 1 + rest.size) =
        id :: (List.range' (id + 1) parts.size ++ List.range' (id + 1 + parts.size) rest.size) := by
      rw [hsize, Nat.add_comm 1, List.range'_succ, List.range'_append_1]
    rw [listing, roots, size, hsplit, List.append_assoc, List.append_assoc]
    calc
      parts.listing (id + 1) ++ (parts.roots (id + 1) ++ (rest.listing (id + 1 + parts.size) ++
          id :: rest.roots (id + 1 + parts.size)))
      _ = (parts.listing (id + 1) ++ parts.roots (id + 1)) ++ rest.listing (id + 1 + parts.size) ++
          id :: rest.roots (id + 1 + parts.size) := by simp
      List.Perm _ (id :: ((parts.listing (id + 1) ++ parts.roots (id + 1)) ++
          rest.listing (id + 1 + parts.size) ++ rest.roots (id + 1 + parts.size))) :=
        List.perm_middle
      List.Perm _ _ := by
        rw [List.append_assoc]
        exact ((ihp _).append (ihr _)).cons id

/-- The list holds the children of the forest behind `listed` other entries. -/
def Lists (list : Array Nat) (listed id : Nat) (f : Forest) : Prop :=
  ∃ front back, list.toList = front ++ (f.listing id ++ back) ∧ front.length = listed

namespace Lists

theorem left (h : (node kind name parts rest).Lists list listed id) :
    parts.Lists list listed (id + 1) := by
  obtain ⟨front, back, heq, hfront⟩ := h
  refine ⟨front, parts.roots (id + 1) ++ rest.listing (id + 1 + parts.size) ++ back, ?_, hfront⟩
  rw [heq, listing]
  simp

theorem right (h : (node kind name parts rest).Lists list listed id) :
    rest.Lists list (listed + parts.size) (id + 1 + parts.size) := by
  obtain ⟨front, back, heq, hfront⟩ := h
  have hlength := parts.length_listing_add_roots (id + 1)
  refine ⟨front ++ (parts.listing (id + 1) ++ parts.roots (id + 1)), back, ?_, ?_⟩
  · rw [heq, listing]
    simp
  · rw [List.length_append, List.length_append, hlength, hfront]

/-- The range of a node holds the outermost nodes of its parts. -/
theorem slice_row (h : (node kind name parts rest).Lists list listed id) (parent : Option Nat)
    (offset : Nat) :
    (parts.row parent id offset listed kind name).children.slice list =
      (parts.roots (id + 1)).toArray := by
  obtain ⟨front, back, heq, rfl⟩ := h
  have hlist : list = (front ++ parts.listing (id + 1)).toArray ++
      (parts.roots (id + 1)).toArray ++ (rest.listing (id + 1 + parts.size) ++ back).toArray := by
    apply Array.ext'
    rw [heq, listing]
    simp
  rw [hlist, ChildRange.slice_append_of_le]
  · simpa [row] using ChildRange.slice_append_size (front ++ parts.listing (id + 1)).toArray
      (parts.roots (id + 1)).toArray
  · simp [row, ChildRange.stop, Nat.add_assoc]

end Lists

/-- The range of a node stays within the listing of the forest. -/
theorem range_of_places (h : f.Places parent id offset listed j n) :
    listed ≤ n.children.start ∧ n.children.stop ≤ listed + (f.listing id).length := by
  induction f generalizing parent id offset listed with
  | nil => exact h.elim
  | token text rest ih | trivia text rest ih => exact ih h
  | node kind name parts rest ihp ihr =>
    have hlength := parts.length_listing_add_roots (id + 1)
    simp only [listing, List.length_append]
    rcases h with ⟨-, rfl⟩ | h | h
    · simp only [row, ChildRange.stop]
      omega
    · have := ihp h
      omega
    · have := ihr h
      omega

/-- Ranges stay apart. The one of a node is behind those of the nodes below it and in front of those
of the nodes behind its subtree. -/
theorem ranges_of_places (hm : f.Places parent id offset listed i m)
    (hn : f.Places parent id offset listed j n) (hij : i < j) :
    (j < m.subtreeEnd → n.children.stop ≤ m.children.start) ∧
      (m.subtreeEnd ≤ j → m.children.stop ≤ n.children.start) := by
  induction f generalizing parent id offset listed with
  | nil => exact hm.elim
  | token text rest ih | trivia text rest ih => exact ih hm hn
  | node kind name parts rest ihp ihr =>
    have hlength := parts.length_listing_add_roots (id + 1)
    rcases cases_of_places hm hn hij with
      ⟨hlt, ⟨-, rfl⟩, hn⟩ | ⟨hm, hn⟩ | ⟨hm, hn⟩ | ⟨hend, ⟨-, rfl⟩ | hm, hn⟩
    · exact ⟨fun _ => (range_of_places hn).2, fun hend => absurd hlt (Nat.not_lt.2 hend)⟩
    · exact ihp hm hn
    · exact ihr hm hn
    · have hrange := range_of_places hn
      simp only [row, ChildRange.stop] at hend ⊢
      omega
    · have hrange := range_of_places hm
      have hrange' := range_of_places hn
      omega

end Forest
end HotReload
