import HotReload.Proofs.Marking.Written
import Mathlib.Data.List.Basic

/-
  The text that a batch of markers should make, read off the tree alone. Markers about a member
  stand in front of it, outer members first (`Tree.marksAt`), markers about the program at the end
  (`Tree.endMarks`); `Tree.markedText` is the file and `Tree.markedNodeText` the text of one node.
  `Tree.Admits` says which batches a tree can take.

  The insertions of an admissible batch can be written together (`batch_insertions`), and weaving
  them in makes these texts (`weave_insertions`).
-/

namespace HotReload

namespace Tree

variable (t : Tree) (requests : List Marking.Request)

/-- The markers that a batch adds to a node. -/
def added (id : t.Id) : List Marker := Marking.additions requests id.1 (t.node id).markers

/-- What a batch puts in front of a node. -/
def memberMarks (id : t.Id) : List Char :=
  let member := (t.added requests id).filter (!·.isAssemblyLevel)
  if member.isEmpty then [] else (Marking.memberText member).toList

/-- What a batch puts at the end of the file for a node. -/
def assemblyMarks (id : t.Id) : List Char :=
  let assembly := (t.added requests id).filter (·.isAssemblyLevel)
  if assembly.isEmpty then [] else (Marking.assemblyText t.text assembly).toList

/-- What a batch puts in at an offset for some nodes, one after the other. -/
def marksAt (owners : List t.Id) (p : Nat) : List Char :=
  owners.flatMap fun id => if (t.node id).span.start = p then t.memberMarks requests id else []

/-- What a batch puts at the end of the file for some nodes, one after the other. -/
def endMarks (owners : List t.Id) : List Char := owners.flatMap (t.assemblyMarks requests)

/-- The nodes in pre-order. -/
abbrev ids : List t.Id := List.finRange t.nodes.size

/-- The text with a batch of markers. -/
def markedText : List Char :=
  Text.weave (t.marksAt requests t.ids) 0 t.text.toList ++ t.endMarks requests t.ids

/-- The significant text of a node with a batch of markers. A node that gains markers about the
program reaches to the end of the file. -/
def markedNodeText (id : t.Id) : List Char :=
  let start := (t.node id).span.start
  let stop :=
    if (t.added requests id).any (·.isAssemblyLevel) then t.text.utf8ByteSize
    else (t.node id).span.stop
  Text.weave (t.marksAt requests (t.descendants id)) start (t.slice ⟨start, stop⟩).toList ++
    t.endMarks requests (t.descendants id)

/-- Markers about members are for nodes with significant text, markers about the program for the
root, and offsets reach to the end of the text. -/
structure Admits : Prop where
  member : ∀ r ∈ requests, r.2.isAssemblyLevel = false →
    ∃ id : t.Id, id.1 = r.1 ∧ (t.node id).span.isEmpty = false
  assembly : ∀ r ∈ requests, r.2.isAssemblyLevel = true → ∃ id, t.root = .ok id ∧ id.1 = r.1
  size : Text.byteLength (t.markedText requests) ≤ Text.maxOffset

instance : Decidable (t.Admits requests) :=
  decidable_of_iff
    ((∀ r ∈ requests, r.2.isAssemblyLevel = false →
        ∃ id : t.Id, id.1 = r.1 ∧ (t.node id).span.isEmpty = false) ∧
      (∀ r ∈ requests, r.2.isAssemblyLevel = true → ∃ id, t.root = .ok id ∧ id.1 = r.1) ∧
      Text.byteLength (t.markedText requests) ≤ Text.maxOffset)
    ⟨fun ⟨hmember, hassembly, hsize⟩ => ⟨hmember, hassembly, hsize⟩,
      fun h => ⟨h.member, h.assembly, h.size⟩⟩

end Tree

namespace Marking

variable {t : Tree} {requests : List Request} {id : Nat} {present : List Marker} {m : Marker}

/-! ## What is added -/

/-- The markers that a batch asks for on the node at a position. -/
def asked (requests : List Request) (id : Nat) : List Marker :=
  (requests.filter (·.1 = id)).map Prod.snd

theorem mem_asked : m ∈ asked requests id ↔ (id, m) ∈ requests := by
  simp [asked]

theorem asked_append (first second : List Request) (id : Nat) :
    asked (first ++ second) id = asked first id ++ asked second id := by
  rw [asked, List.filter_append, List.map_append]
  rfl

/-- A batch adds what it asks for and is not there, each marker once. -/
theorem additions_eq (requests : List Request) (id : Nat) (present : List Marker) :
    additions requests id present = ((asked requests id).removeAll present).eraseDups := by
  -- markers that the batch has added so far count as present
  have hrun : ∀ (rest : List Request) (added : List Marker),
      (rest.foldl (fun added r =>
        if r.1 = id && !present.contains r.2 && !added.contains r.2 then added ++ [r.2]
        else added) added) =
        added ++ ((asked rest id).removeAll (present ++ added)).eraseDups := by
    intro rest
    induction rest with
    | nil => intro added; simp [asked, List.removeAll]
    | cons r rest ih =>
      intro added
      obtain ⟨target, marker⟩ := r
      rw [List.foldl_cons, ih]
      by_cases htarget : target = id
      · subst htarget
        have hasked : asked ((target, marker) :: rest) target = marker :: asked rest target := by
          simp [asked]
        rw [hasked, List.cons_removeAll]
        by_cases hmem : marker ∈ present ++ added
        · have hresolve := (List.mem_append.1 hmem).resolve_left
          rw [if_neg (by simpa using hresolve), if_neg (by simpa using hresolve)]
        · have hmore : (asked rest target).removeAll (present ++ (added ++ [marker])) =
              ((asked rest target).removeAll (present ++ added)).filter fun m => !m == marker := by
            unfold List.removeAll
            rw [List.filter_filter]
            apply List.filter_congr
            intro m _
            simp [List.elem_eq_contains, Bool.and_comm, Bool.and_left_comm, Bool.beq_eq_decide_eq]
          rw [if_pos (by simpa using hmem), if_pos (by simpa using hmem), List.eraseDups_cons, hmore,
            List.append_assoc]
          rfl
      · have hasked : asked ((target, marker) :: rest) id = asked rest id := by
          simp [asked, htarget]
        rw [hasked, if_neg (by simp [htarget])]
  exact (hrun requests []).trans (by rw [List.append_nil, List.nil_append])

theorem mem_additions :
    m ∈ additions requests id present ↔ (id, m) ∈ requests ∧ m ∉ present := by
  rw [additions_eq, List.mem_eraseDups, List.removeAll, List.mem_filter, mem_asked]
  simp

theorem exists_request {p : Marker → Bool} (h : (additions requests id present).filter p ≠ []) :
    ∃ m, (id, m) ∈ requests ∧ p m = true := by
  obtain ⟨m, hm⟩ := List.exists_mem_of_ne_nil _ h
  obtain ⟨hadded, hp⟩ := List.mem_filter.1 hm
  exact ⟨m, (mem_additions.1 hadded).1, hp⟩

theorem memberMarks_eq_nil (hadm : t.Admits requests) {id : t.Id}
    (h : (t.node id).span.isEmpty = true) : t.memberMarks requests id = [] := by
  refine if_pos (List.isEmpty_iff.2 (Decidable.by_contra fun hne => ?_))
  obtain ⟨m, hm, hmember⟩ := exists_request hne
  obtain ⟨id', hid, hspan⟩ := hadm.member _ hm (by simpa using hmember)
  obtain rfl : id' = id := Fin.ext hid
  exact absurd h (by simp [hspan])

/-- Only the root gains markers about the program. -/
theorem eq_root_of_assembly (hadm : t.Admits requests) {id : t.Id} {m : Marker}
    (hm : m ∈ t.added requests id) (hassembly : m.isAssemblyLevel = true) : id.1 = 0 := by
  obtain ⟨root, hroot, hid⟩ := hadm.assembly _ (mem_additions.1 hm).1 hassembly
  exact hid.symm.trans (Tree.root_eq_ok_iff.1 hroot)

/-! ## The insertions of a batch -/

theorem unsorted_eq : unsorted t requests =
    t.ids.flatMap fun id => insertionsOf t.text id.1 (t.node id) (t.added requests id) := by
  have hzip : t.nodes.toList.zipIdx = t.ids.map fun id => (t.node id, id.1) := by
    apply List.ext_getElem
    · simp
    · intro i _ _
      simp [Tree.node]
  unfold unsorted
  rw [hzip, List.flatMap_map]
  rfl

theorem mem_insertions_iff {ins : Insertion} : ins ∈ insertions t requests ↔
    ∃ id : t.Id, ins ∈ insertionsOf t.text id.1 (t.node id) (t.added requests id) := by
  rw [insertions_perm.mem_iff, unsorted_eq, List.mem_flatMap]
  simp

/-- The insertions of an admissible batch can be written together. -/
theorem batch_insertions (hlaid : Laid t.nodes t.text.toList)
    (hsize : t.text.utf8ByteSize ≤ Text.maxOffset) (hadm : t.Admits requests) :
    Batch t.nodes t.text.toList (insertions t requests) where
  sorted := insertions_sorted.imp Insertion.le_iff.1
  distinct := insertions_distinct
  placed := by
    intro ins hins
    obtain ⟨id, hid⟩ := mem_insertions_iff.1 hins
    obtain ⟨howner, ⟨hplacement, hposition, hne, -⟩ | ⟨hplacement, hposition, hne, -⟩⟩ :=
      mem_insertionsOf hid
    · obtain ⟨m, hm, hmember⟩ := exists_request hne
      obtain ⟨id', hid', hspan⟩ := hadm.member _ hm (by simpa using hmember)
      obtain rfl : id' = id := Fin.ext hid'
      have hwithin := (hlaid.within (t.getElem?_node id')).2.1
      refine .before hplacement (howner ▸ t.getElem?_node id') hposition.symm ?_
      exact Nat.lt_of_le_of_ne hwithin (of_decide_eq_false hspan)
    · obtain ⟨m, hm⟩ := List.exists_mem_of_ne_nil _ hne
      obtain ⟨hadded, hassembly⟩ := List.mem_filter.1 hm
      refine .after hplacement (howner.trans (eq_root_of_assembly hadm hadded hassembly)) ?_
      rw [hposition, Text.offset_eq_self hsize, Text.utf8ByteSize_eq_byteLength]

/-- The text at the end of the file is for a node that gains markers about the program. -/
theorem any_after (id : t.Id) :
    ((insertions t requests).any fun ins => ins.placement = .after ∧ ins.owner = id.1) =
      (t.added requests id).any (·.isAssemblyLevel) := by
  rw [Bool.eq_iff_iff, List.any_eq_true, List.any_eq_true]
  constructor
  · rintro ⟨ins, hins, hafter⟩
    obtain ⟨hplacement, howner⟩ := of_decide_eq_true hafter
    obtain ⟨id', hid'⟩ := mem_insertions_iff.1 hins
    obtain ⟨howner', ⟨hbefore, -⟩ | ⟨-, -, hne, -⟩⟩ := mem_insertionsOf hid'
    · rw [hplacement] at hbefore
      simp at hbefore
    · obtain rfl : id' = id := Fin.ext (howner'.symm.trans howner)
      obtain ⟨m, hm⟩ := List.exists_mem_of_ne_nil _ hne
      exact ⟨m, List.mem_filter.1 hm⟩
  · rintro ⟨m, hm, hassembly⟩
    have hne : ((t.added requests id).filter (·.isAssemblyLevel)).isEmpty = false :=
      List.isEmpty_eq_false_iff_exists_mem.2 ⟨m, List.mem_filter.2 ⟨hm, hassembly⟩⟩
    refine ⟨⟨id.1, Text.offset t.text.utf8ByteSize, assemblyText t.text
      ((t.added requests id).filter (·.isAssemblyLevel)), .after⟩, ?_, by simp⟩
    apply mem_insertions_iff.2
    refine ⟨id, ?_⟩
    unfold insertionsOf
    rw [List.partition_eq_filter_filter]
    dsimp only
    rw [hne]
    exact List.mem_append_right _ List.mem_cons_self

theorem reach_insertions (id : t.Id) (n : Node) :
    reach t.text.toList (insertions t requests) id.1 n =
      if (t.added requests id).any (·.isAssemblyLevel) then t.text.utf8ByteSize
      else n.span.stop := by
  unfold reach
  rw [Text.utf8ByteSize_eq_byteLength, any_after]

/-! ## The marks of a batch -/

theorem marks_unless (b : Bool) (ins : Insertion) (p : Nat) :
    Insertion.marks (if b then [] else [ins]) p =
      if ins.position = p then (if b then [] else ins.text.toList) else [] := by
  cases b with
  | true => exact (ite_self _).symm
  | false => exact (Insertion.marks_cons ins [] p).trans (List.append_nil _)

theorem marks_insertionsOf (hsize : t.text.utf8ByteSize ≤ Text.maxOffset) (id : t.Id) (p : Nat) :
    Insertion.marks (insertionsOf t.text id.1 (t.node id) (t.added requests id)) p =
      (if (t.node id).span.start = p then t.memberMarks requests id else []) ++
        if Text.byteLength t.text.toList = p then t.assemblyMarks requests id else [] := by
  unfold insertionsOf
  rw [List.partition_eq_filter_filter, Insertion.marks_append, Text.offset_eq_self hsize,
    Text.utf8ByteSize_eq_byteLength]
  exact congrArg₂ _ (marks_unless _ _ p) (marks_unless _ _ p)

/-- The marks of some owners at an offset. -/
theorem marks_insertions_eq (hsize : t.text.utf8ByteSize ≤ Text.maxOffset) (f : Nat → Bool)
    (p : Nat) :
    Insertion.marks ((insertions t requests).filter fun ins => f ins.owner) p =
      (t.ids.filter fun id => f id.1).flatMap fun id =>
        (if (t.node id).span.start = p then t.memberMarks requests id else []) ++
          if Text.byteLength t.text.toList = p then t.assemblyMarks requests id else [] := by
  have howners : (unsorted t requests).filter (fun ins => f ins.owner) =
      (t.ids.filter fun id => f id.1).flatMap fun id =>
        insertionsOf t.text id.1 (t.node id) (t.added requests id) := by
    rw [unsorted_eq]
    induction t.ids with
    | nil => rfl
    | cons id ids ih =>
      rw [List.flatMap_cons, List.filter_append, ih]
      have howner : ∀ ins ∈ insertionsOf t.text id.1 (t.node id) (t.added requests id),
          f ins.owner = f id.1 := fun ins hins => by rw [(mem_insertionsOf hins).1]
      by_cases hf : f id.1 = true
      · rw [List.filter_cons_of_pos (by exact hf), List.flatMap_cons, List.filter_eq_self.2]
        exact fun ins hins => (howner ins hins).trans hf
      · rw [List.filter_cons_of_neg (by exact hf), List.filter_eq_nil_iff.2, List.nil_append]
        exact fun ins hins => howner ins hins ▸ hf
  rw [marks_insertions, howners]
  unfold Insertion.marks
  rw [List.flatMap_assoc]
  apply List.flatMap_congr
  intro id _
  exact marks_insertionsOf hsize id p

/-- Weaving in the insertions of some owners puts their markers in front of them and at the end. -/
theorem weave_insertions (hlaid : Laid t.nodes t.text.toList)
    (hsize : t.text.utf8ByteSize ≤ Text.maxOffset) (hadm : t.Admits requests) (f : Nat → Bool)
    {offset : Nat} {cs : List Char} {owners : List t.Id}
    (howners : owners = t.ids.filter fun id => f id.1)
    (h : t.endMarks requests owners = [] ∨
      offset + Text.byteLength cs = Text.byteLength t.text.toList) :
    Text.weave (Insertion.marks ((insertions t requests).filter fun ins => f ins.owner)) offset cs =
      Text.weave (t.marksAt requests owners) offset cs ++ t.endMarks requests owners := by
  have hmarks : ∀ p, Text.byteLength t.text.toList ≠ p ∨ t.endMarks requests owners = [] →
      Insertion.marks ((insertions t requests).filter fun ins => f ins.owner) p =
        t.marksAt requests owners p := by
    intro p hp
    rw [marks_insertions_eq hsize, ← howners]
    apply List.flatMap_congr
    intro id hid
    rcases hp with hp | hp
    · rw [if_neg hp, List.append_nil]
    · rw [List.flatMap_eq_nil_iff.1 hp id hid, ite_self, List.append_nil]
  rcases h with h | h
  · rw [h, List.append_nil]
    exact Text.weave_congr fun p _ _ => hmarks p (Or.inr h)
  · apply Text.weave_back
    · -- no member starts at the end of the file
      have hnone : ∀ id : t.Id, (if (t.node id).span.start = Text.byteLength t.text.toList then
          t.memberMarks requests id else []) = [] := by
        intro id
        split
        · next hstart =>
          apply memberMarks_eq_nil hadm
          have hwithin := (hlaid.within (t.getElem?_node id)).2.1
          have hstop := (hlaid.cuts (t.getElem?_node id)).2.1.le_byteLength
          exact decide_eq_true (by omega)
        · rfl
      rw [h, marks_insertions_eq hsize, ← howners, Tree.marksAt]
      simp only [hnone, if_pos, List.nil_append, List.flatMap_eq_nil_iff.2 fun _ _ => rfl]
      rfl
    · intro p hp
      exact hmarks p (Or.inl (by omega))

end Marking

end HotReload
