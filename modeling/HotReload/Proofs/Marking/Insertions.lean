import HotReload.Proofs.Change.Replay
import HotReload.Proofs.Text.Weave
import HotReload.Source.Marking

/-
  Writing a batch of insertions. The text that a batch makes is the old one with the marks of every
  insertion woven in (`Insertion.applyAll_eq`): sorted insertions at cuts of the text never conflict
  and never split a character. Sorting by position keeps the order that insertions of one offset
  have, so the marks of an offset are those of its owners, outer ones first (`marks_insertions`).
-/

namespace HotReload.Marking

namespace Insertion

/-- What some insertions put in at an offset, one after the other. -/
def marks (l : List Insertion) (p : Nat) : List Char :=
  l.flatMap fun ins => if ins.position = p then ins.text.toList else []

@[simp] theorem marks_nil (p : Nat) : marks [] p = [] := rfl

theorem marks_cons (ins : Insertion) (l : List Insertion) (p : Nat) :
    marks (ins :: l) p = (if ins.position = p then ins.text.toList else []) ++ marks l p := rfl

theorem marks_append (l l' : List Insertion) (p : Nat) :
    marks (l ++ l') p = marks l p ++ marks l' p := List.flatMap_append

theorem marks_eq_nil {l : List Insertion} {p : Nat} (h : ∀ ins ∈ l, ins.position ≠ p) :
    marks l p = [] := by
  apply List.flatMap_eq_nil_iff.2
  intro ins hins
  rw [if_neg (h ins hins)]

theorem marks_filter (l : List Insertion) (p : Nat) :
    marks (l.filter (·.position = p)) p = marks l p := by
  induction l with
  | nil => rfl
  | cons ins l ih =>
    by_cases h : ins.position = p
    · rw [List.filter_cons_of_pos (by simpa using h), marks_cons, marks_cons, ih]
    · rw [List.filter_cons_of_neg (by simpa using h), marks_cons, ih, if_neg h, List.nil_append]

/-! ## Weaving insertions in -/

variable {ins : Insertion} {l : List Insertion} {offset : Nat} {a b : List Char}

/-- Insertions at or behind a position leave the text in front of it alone. -/
theorem weave_marks_append (h : ∀ i ∈ l, offset + Text.byteLength a ≤ i.position) (b : List Char) :
    Text.weave (marks l) offset (a ++ b) =
      a ++ Text.weave (marks l) (offset + Text.byteLength a) b := by
  apply Text.weave_append
  intro p hp hp'
  apply marks_eq_nil
  intro i hi heq
  have := h i hi
  omega

/-- The first of some insertions is put in at its position, the others behind it. -/
theorem weave_marks_cons (hposition : offset + Text.byteLength a = ins.position)
    (h : ∀ i ∈ l, ins.position ≤ i.position) (b : List Char) :
    Text.weave (marks (ins :: l)) offset (a ++ b) =
      a ++ ins.text.toList ++ Text.weave (marks l) ins.position b := by
  have hall : ∀ i ∈ ins :: l, offset + Text.byteLength a ≤ i.position := by
    intro i hi
    rcases List.mem_cons.1 hi with rfl | hi
    · exact Nat.le_of_eq hposition
    · rw [hposition]
      exact h i hi
  rw [weave_marks_append hall, hposition, List.append_assoc]
  congr 1
  apply Text.weave_front
  · rw [marks_cons, if_pos rfl]
  · intro p hp
    rw [marks_cons, if_neg (by omega), List.nil_append]

theorem weave_marks_nil (offset : Nat) (cs : List Char) : Text.weave (marks []) offset cs = cs :=
  Text.weave_of_none fun p _ _ => marks_nil p

/-- A single insertion at the end. -/
theorem weave_marks_last {cs : List Char} (hposition : offset + Text.byteLength cs = ins.position) :
    Text.weave (marks [ins]) offset cs = cs ++ ins.text.toList := by
  have hweave := weave_marks_cons hposition (l := []) (by simp) []
  rw [List.append_nil] at hweave
  rw [hweave, Text.weave, marks_nil, List.append_nil]

/-- Two texts, each with the insertions of its own. -/
theorem weave_marks_split {l' : List Insertion}
    (hfront : ∀ i ∈ l, i.position ≤ offset + Text.byteLength a)
    (hback : ∀ i ∈ l', offset + Text.byteLength a ≤ i.position) (b : List Char) :
    Text.weave (marks (l ++ l')) offset (a ++ b) =
      Text.weave (marks l) offset a ++ Text.weave (marks l') (offset + Text.byteLength a) b := by
  apply Text.weave_split
  · intro p hp
    have hnone : marks l' p = [] := marks_eq_nil fun i hi => by have := hback i hi; omega
    rw [marks_append, hnone, List.append_nil]
  · exact marks_append l l' _
  · intro p hp
    have hnone : marks l p = [] := marks_eq_nil fun i hi => by have := hfront i hi; omega
    rw [marks_append, hnone, List.nil_append]

/-- Insertions into the front of a text leave the rest alone. -/
theorem weave_marks_front (h : ∀ i ∈ l, i.position ≤ offset + Text.byteLength a) (b : List Char) :
    Text.weave (marks l) offset (a ++ b) = Text.weave (marks l) offset a ++ b := by
  have hnone : ∀ i ∈ ([] : List Insertion), offset + Text.byteLength a ≤ i.position :=
    fun i hi => absurd hi List.not_mem_nil
  have hsplit := weave_marks_split h hnone b
  rwa [List.append_nil, weave_marks_nil] at hsplit

/-- Insertions in front of the last character leave it the last one. -/
theorem getLast?_weave_marks {cs : List Char}
    (h : ∀ i ∈ l, i.position < offset + Text.byteLength cs)
    (hcuts : ∀ i ∈ l, ∃ p q, cs = p ++ q ∧ offset + Text.byteLength p = i.position) :
    (Text.weave (marks l) offset cs).getLast? = cs.getLast? := by
  rcases List.eq_nil_or_concat cs with rfl | ⟨a, c, rfl⟩
  · have hnil : l = [] := by
      apply List.eq_nil_iff_forall_not_mem.2
      intro i hi
      obtain ⟨p, q, hpq, hp⟩ := hcuts i hi
      have := h i hi
      rw [Text.byteLength_nil] at this
      omega
    rw [hnil, weave_marks_nil]
  · rw [List.concat_eq_append, weave_marks_front, List.getLast?_concat, List.getLast?_concat]
    intro i hi
    obtain ⟨p, q, hpq, hp⟩ := hcuts i hi
    have hlt := h i hi
    rw [List.concat_eq_append] at hpq hlt
    -- a cut in front of the last character cuts what stands in front of it
    rcases List.eq_nil_or_concat q with rfl | ⟨q, d, rfl⟩
    · rw [hpq, List.append_nil] at hlt
      omega
    · rw [List.concat_eq_append, ← List.append_assoc] at hpq
      obtain ⟨rfl, -⟩ := List.append_inj' hpq rfl
      rw [Text.byteLength_append]
      omega

/-- Insertions behind a cut stand at cuts of the text behind it. -/
theorem cuts_behind (hposition : offset + Text.byteLength a = ins.position)
    (hle : ∀ i ∈ l, ins.position ≤ i.position)
    (hcuts : ∀ i ∈ ins :: l, ∃ p q, a ++ b = p ++ q ∧ offset + Text.byteLength p = i.position) :
    ∀ i ∈ l, ∃ p q, b = p ++ q ∧ ins.position + Text.byteLength p = i.position := by
  intro i hi
  obtain ⟨p, q, heq, hi'⟩ := hcuts i (List.mem_cons_of_mem _ hi)
  have hle' := hle i hi
  have hcut : Text.IsCut (a ++ b) (Text.byteLength p) := ⟨p, q, heq, rfl⟩
  obtain ⟨m, r, rfl, hm⟩ := hcut.exists_append (by omega)
  exact ⟨m, r, rfl, by omega⟩

/-- Copying a text once puts every insertion in its place. -/
theorem splice_eq {copied : Nat} {rest : List Char}
    (hsorted : l.Pairwise fun a b => a.position ≤ b.position)
    (hcuts : ∀ ins ∈ l, ∃ a b, rest = a ++ b ∧ copied + Text.byteLength a = ins.position) :
    Edit.splice copied rest (l.map edit) = .ok (Text.weave (marks l) copied rest) := by
  induction l generalizing copied rest with
  | nil =>
    rw [Text.weave_of_none fun p _ _ => marks_nil p]
    rfl
  | cons ins l ih =>
    obtain ⟨hle, hrest⟩ := List.pairwise_cons.1 hsorted
    obtain ⟨a, b, rfl, hposition⟩ := hcuts ins List.mem_cons_self
    have hsplice : Edit.splice copied (a ++ [] ++ b) (ins.edit :: l.map edit) =
        (Edit.splice ins.position b (l.map edit)).map fun tail => a ++ ins.text.toList ++ tail :=
      Edit.splice_cons hposition rfl
    rw [List.append_nil, ih hrest (cuts_behind hposition hle hcuts)] at hsplice
    rw [List.map_cons, hsplice, weave_marks_cons hposition hle]
    rfl

theorem applyAll_eq {source : String} (hsorted : l.Pairwise fun a b => a.position ≤ b.position)
    (hcuts : ∀ ins ∈ l, Text.IsCut source.toList ins.position) :
    Edit.applyAll source (l.map edit) =
      .ok (String.ofList (Text.weave (marks l) 0 source.toList)) := by
  have hsplice : Edit.splice 0 source.toList (l.map edit) =
      .ok (Text.weave (marks l) 0 source.toList) := by
    apply splice_eq hsorted
    intro ins hins
    obtain ⟨a, b, heq, ha⟩ := hcuts ins hins
    exact ⟨a, b, heq, by omega⟩
  rw [Edit.applyAll_of_gaps, hsplice]
  · rfl
  · exact List.forall_mem_map.2 fun ins _ => Nat.le_refl ins.position
  · exact List.pairwise_map.2 hsorted

/-! ## The order of insertions -/

theorem le_iff {a b : Insertion} :
    a.le b = true ↔ a.position < b.position ∨ a.position = b.position ∧ a.owner ≤ b.owner := by
  rw [le, Ordering.isLE_then_iff_or, Nat.compare_eq_lt, Nat.compare_eq_eq, Nat.isLE_compare]

theorem le_trans (a b c : Insertion) (hab : a.le b = true) (hbc : b.le c = true) :
    a.le c = true := by
  rw [le_iff] at *
  omega

theorem le_total (a b : Insertion) : (a.le b || b.le a) = true := by
  rw [Bool.or_eq_true, le_iff, le_iff]
  omega

end Insertion

/-- The text that a batch puts into a file, in order of owner. -/
def unsorted (t : Tree) (requests : List Request) : List Insertion :=
  t.nodes.toList.zipIdx.flatMap fun (n, id) =>
    insertionsOf t.text id n (additions requests id n.markers)

variable {t : Tree} {requests : List Request}

theorem insertions_perm : (insertions t requests).Perm (unsorted t requests) :=
  List.mergeSort_perm _ _

theorem insertions_eq_unsorted (h : (unsorted t requests).Pairwise fun a b => a.le b = true) :
    insertions t requests = unsorted t requests :=
  List.mergeSort_of_pairwise h

theorem insertions_sorted : (insertions t requests).Pairwise fun a b => a.le b = true :=
  List.pairwise_mergeSort Insertion.le_trans Insertion.le_total _

theorem insertions_position_le :
    (insertions t requests).Pairwise fun a b => a.position ≤ b.position := by
  apply insertions_sorted.imp
  intro a b hab
  rw [Insertion.le_iff] at hab
  omega

/-- Whose text it is, and which of the two texts of a node. -/
theorem mem_insertionsOf {text : String} {id : Nat} {n : Node} {added : List Marker}
    {ins : Insertion} (h : ins ∈ insertionsOf text id n added) :
    ins.owner = id ∧
      (ins.placement = .before ∧ ins.position = n.span.start ∧
          added.filter (!·.isAssemblyLevel) ≠ [] ∧
          ins.text = memberText (added.filter (!·.isAssemblyLevel)) ∨
        ins.placement = .after ∧ ins.position = Text.offset text.utf8ByteSize ∧
          added.filter (·.isAssemblyLevel) ≠ [] ∧
          ins.text = assemblyText text (added.filter (·.isAssemblyLevel))) := by
  unfold insertionsOf at h
  rw [List.partition_eq_filter_filter] at h
  rcases List.mem_append.1 h with h | h
  · split at h
    · simp at h
    · next hne =>
      rw [List.mem_singleton.1 h]
      exact ⟨rfl, Or.inl ⟨rfl, rfl, by simpa using hne, rfl⟩⟩
  · split at h
    · simp at h
    · next hne =>
      rw [List.mem_singleton.1 h]
      exact ⟨rfl, Or.inr ⟨rfl, rfl, by simpa using hne, rfl⟩⟩

/-- The first text of a node stands in front of the second. -/
theorem unsorted_pairwise :
    (unsorted t requests).Pairwise fun a b =>
      a.owner < b.owner ∨ a.owner = b.owner ∧ a.placement = .before ∧ b.placement = .after := by
  unfold unsorted
  rw [List.pairwise_flatMap]
  constructor
  · intro entry _
    unfold insertionsOf
    dsimp only
    split <;> split <;> simp
  · have hindex : t.nodes.toList.zipIdx.Pairwise fun a b => a.2 < b.2 := by
      rw [← List.pairwise_map (f := Prod.snd) (R := (· < ·)), List.zipIdx_map_snd]
      exact List.pairwise_lt_range'
    apply hindex.imp
    intro a b hab x hx y hy
    have hx' := (mem_insertionsOf hx).1
    have hy' := (mem_insertionsOf hy).1
    exact Or.inl (by omega)

/-- No two insertions are the same text of the same node. -/
theorem insertions_distinct :
    (insertions t requests).Pairwise fun a b => a.owner ≠ b.owner ∨ a.placement ≠ b.placement := by
  refine (insertions_perm.pairwise_iff fun h => ?_).2 (unsorted_pairwise.imp fun {a b} hab => ?_)
  · exact h.imp Ne.symm Ne.symm
  · rcases hab with hlt | ⟨-, ha, hb⟩
    · exact Or.inl (Nat.ne_of_lt hlt)
    · exact Or.inr (by simp [ha, hb])

/-- Insertions of one offset are sorted by owner already, so sorting keeps their order. -/
theorem filter_insertions {f : Insertion → Bool} {p : Nat}
    (hf : ∀ ins, f ins = true → ins.position = p) :
    (insertions t requests).filter f = (unsorted t requests).filter f := by
  apply filter_mergeSort Insertion.le_trans Insertion.le_total
  apply (unsorted_pairwise.filter f).imp_of_mem
  intro a b ha hb hab
  have ha' := hf a (List.mem_filter.1 ha).2
  have hb' := hf b (List.mem_filter.1 hb).2
  rw [Insertion.le_iff]
  omega

/-- Sorting keeps the marks of every offset. -/
theorem marks_insertions (f : Insertion → Bool) (p : Nat) :
    Insertion.marks ((insertions t requests).filter f) p =
      Insertion.marks ((unsorted t requests).filter f) p := by
  rw [← Insertion.marks_filter, ← Insertion.marks_filter ((unsorted t requests).filter f),
    List.filter_filter, List.filter_filter]
  congr 1
  apply filter_insertions (p := p)
  intro ins hins
  exact of_decide_eq_true (Bool.and_eq_true_iff.1 hins).1

end HotReload.Marking
