import HotReload.Proofs.Marking.AnyBatch
import HotReload.Proofs.Text.Parts
import Mathlib.Data.List.Nodup

/-
  Where the text comes from that batches of markers leave. It is made of parts (`Text.Part`): text that
  was there, renderings of markers, and the blanks and line ends around them (`Origin`). What a batch
  puts in has the rendering of every pair of a node and a marker that it adds, and of no other
  (`filter_written`): the texts of one node have its new markers, each once (`filter_block`), and the
  insertions of a batch are those of all nodes.
-/

namespace HotReload

/-- The markers on the node at a position. -/
def Tree.stored (t : Tree) (id : Nat) : List Marker := (t.nodes[id]?.map Node.markers).getD []

theorem Tree.stored_eq (t : Tree) (id : t.Id) : t.stored id.1 = (t.node id).markers := by
  rw [stored, t.getElem?_node id]
  rfl

namespace Marking

open Text

/-- Where a part of a marked text comes from. -/
inductive Origin where
  /-- It was there before any marker. -/
  | source
  /-- A blank or a line end that goes with markers. -/
  | layout
  /-- It says that the node has the marker. -/
  | marker (id : Nat) (m : Marker)
  deriving DecidableEq

/-- The text of a marker on a node. -/
def rendering (id : Nat) (m : Marker) : Text.Part Origin := ⟨.marker id m, m.render.toList⟩

/-- A blank behind markers. -/
def blank : Text.Part Origin := ⟨.layout, [' ']⟩

/-- The end of a line of its own. -/
def newline : Text.Part Origin := ⟨.layout, ['\n']⟩

/-- What is put in front of a node. -/
def memberParts (id : Nat) (markers : List Marker) : List (Text.Part Origin) :=
  markers.map (rendering id) ++ [blank]

/-- What is put at the end of the file. -/
def assemblyParts (text : String) (id : Nat) (markers : List Marker) : List (Text.Part Origin) :=
  (if text.isEmpty || text.toList.getLast? = some '\n' then [] else [newline]) ++
    markers.flatMap fun m => [rendering id m, newline]

/-- The parts of an insertion. -/
def Insertion.parts (text : String) (added : Nat → List Marker) (ins : Insertion) :
    List (Text.Part Origin) :=
  match ins.placement with
  | .before => memberParts ins.owner ((added ins.owner).filter (!·.isAssemblyLevel))
  | .after => assemblyParts text ins.owner ((added ins.owner).filter (·.isAssemblyLevel))

/-- The markers that a batch adds to the node at a position. -/
def gained (t : Tree) (requests : List Request) (id : Nat) : List Marker :=
  additions requests id (t.stored id)

/-- The parts that a batch puts in, in order of position. -/
def written (t : Tree) (requests : List Request) : List (Text.Part Origin) :=
  (insertions t requests).flatMap (Insertion.parts t.text (gained t requests))

variable {t : Tree} {requests : List Request} {ins : Insertion} {id : Nat} {m : Marker}

theorem gained_eq (id : t.Id) : gained t requests id.1 = t.added requests id := by
  unfold gained Tree.added
  rw [t.stored_eq id]

/-! ## The text of the parts -/

theorem spell_memberParts (id : Nat) (markers : List Marker) :
    spell (memberParts id markers) = (memberText markers).toList := by
  unfold memberParts memberText
  rw [spell_append, String.toList_append, spell, List.flatMap_map]
  congr 1
  induction markers with
  | nil => rfl
  | cons m markers ih =>
    rw [List.flatMap_cons, List.map_cons, String.join_cons, String.toList_append, ih]
    rfl

theorem spell_assemblyParts (text : String) (id : Nat) (markers : List Marker) :
    spell (assemblyParts text id markers) = (assemblyText text markers).toList := by
  unfold assemblyParts assemblyText
  rw [spell_append, String.toList_append]
  congr 1
  · split <;> rfl
  · induction markers with
    | nil => rfl
    | cons m markers ih =>
      rw [List.flatMap_cons, spell_append, List.map_cons, String.join_cons, String.toList_append, ih]
      simp [rendering, newline]

theorem spell_parts (h : ins ∈ insertions t requests) :
    spell (ins.parts t.text (gained t requests)) = ins.text.toList := by
  obtain ⟨id, hid⟩ := mem_insertions_iff.1 h
  obtain ⟨howner, ⟨hplacement, -, -, htext⟩ | ⟨hplacement, -, -, htext⟩⟩ := mem_insertionsOf hid
  · unfold Insertion.parts
    rw [hplacement, htext, howner, gained_eq]
    exact spell_memberParts _ _
  · unfold Insertion.parts
    rw [hplacement, htext, howner, gained_eq]
    exact spell_assemblyParts _ _ _

/-! ## Which renderings -/

theorem nodup_eraseDups {α : Type} [BEq α] [LawfulBEq α] (l : List α) : l.eraseDups.Nodup := by
  match l with
  | [] => exact List.nodup_nil
  | a :: l =>
    rw [List.eraseDups_cons, List.nodup_cons, List.mem_eraseDups, List.mem_filter]
    have hshorter : (l.filter fun b => !b == a).length < l.length + 1 :=
      Nat.lt_succ_of_le (List.length_filter_le _ _)
    exact ⟨by simp, nodup_eraseDups _⟩
termination_by l.length

/-- No marker is added twice. -/
theorem nodup_additions (requests : List Request) (id : Nat) (present : List Marker) :
    (additions requests id present).Nodup := by
  rw [additions_eq]
  exact nodup_eraseDups _

/-- The part says that the node has the marker. -/
def tells (id : Nat) (m : Marker) (part : Text.Part Origin) : Bool := part.origin = .marker id m

theorem tells_rendering {owner : Nat} {x : Marker} :
    tells id m (rendering owner x) = decide (owner = id ∧ x = m) := by
  simp [tells, rendering]

/-- The renderings of a marker among those of some markers of a node. -/
def spoken (id : Nat) (m : Marker) (owner : Nat) (markers : List Marker) : List (Text.Part Origin) :=
  (markers.filter fun x => owner = id ∧ x = m).map (rendering owner)

theorem filter_memberParts (owner : Nat) (markers : List Marker) :
    (memberParts owner markers).filter (tells id m) = spoken id m owner markers := by
  unfold memberParts spoken
  rw [List.filter_append, List.filter_map]
  have hblank : [blank].filter (tells id m) = [] := rfl
  rw [hblank, List.append_nil]
  exact congrArg _ (List.filter_congr fun x _ => tells_rendering)

theorem filter_assemblyParts (text : String) (owner : Nat) (markers : List Marker) :
    (assemblyParts text owner markers).filter (tells id m) = spoken id m owner markers := by
  unfold assemblyParts spoken
  rw [List.filter_append]
  have hlead : ((if text.isEmpty || text.toList.getLast? = some '\n' then [] else [newline] :
      List (Text.Part Origin))).filter (tells id m) = [] := by
    split <;> rfl
  rw [hlead, List.nil_append]
  induction markers with
  | nil => rfl
  | cons x markers ih =>
    rw [List.flatMap_cons, List.filter_append, ih, List.filter_cons, List.filter_cons, tells_rendering]
    by_cases h : owner = id ∧ x = m
    · simp [h, tells, newline]
    · simp [h, tells, newline]

theorem spoken_append (owner : Nat) (front back : List Marker) :
    spoken id m owner front ++ spoken id m owner back = spoken id m owner (front ++ back) := by
  unfold spoken
  rw [List.filter_append, List.map_append]

theorem spoken_of_nodup (owner : Nat) {markers : List Marker} (h : markers.Nodup) :
    spoken id m owner markers =
      if owner = id ∧ m ∈ markers then [rendering owner m] else [] := by
  unfold spoken
  by_cases howner : owner = id
  · have hfilter : (markers.filter fun x => owner = id ∧ x = m) = markers.filter (· == m) :=
      List.filter_congr fun x _ => by simp [howner, beq_eq_decide]
    rw [hfilter, List.filter_beq]
    by_cases hm : m ∈ markers
    · rw [List.count_eq_one_of_mem h hm, if_pos ⟨howner, hm⟩]
      rfl
    · rw [List.count_eq_zero_of_not_mem hm, if_neg fun h => hm h.2]
      rfl
  · rw [if_neg fun h => howner h.1, List.filter_eq_nil_iff.2 fun x _ => by simp [howner]]
    rfl

/-- An insertion is made for some markers only if there are any. -/
theorem filter_unless {new : Insertion → List (Text.Part Origin)} {owner : Nat} {markers : List Marker}
    (h : (new ins).filter (tells id m) = spoken id m owner markers) :
    ((if markers.isEmpty then [] else [ins]).flatMap new).filter (tells id m) =
      spoken id m owner markers := by
  split
  · next hempty =>
    rw [List.isEmpty_iff.1 hempty]
    rfl
  · rw [List.flatMap_singleton, h]

/-- What is put in for a node has the rendering of a marker that it gains, and no other of them. -/
theorem filter_block (owner : t.Id) :
    ((insertionsOf t.text owner.1 (t.node owner) (t.added requests owner)).flatMap
        (Insertion.parts t.text (gained t requests))).filter (tells id m) =
      if owner.1 = id ∧ m ∈ t.added requests owner then [rendering owner.1 m] else [] := by
  let member := (t.added requests owner).filter (!·.isAssemblyLevel)
  let assembly := (t.added requests owner).filter (·.isAssemblyLevel)
  have hmember : ((⟨owner.1, (t.node owner).span.start, memberText member, .before⟩ :
      Insertion).parts t.text (gained t requests)).filter (tells id m) =
        spoken id m owner.1 member := by
    rw [← filter_memberParts, Insertion.parts, gained_eq]
  have hassembly : ((⟨owner.1, Text.offset t.text.utf8ByteSize, assemblyText t.text assembly,
      .after⟩ : Insertion).parts t.text (gained t requests)).filter (tells id m) =
        spoken id m owner.1 assembly := by
    rw [← filter_assemblyParts t.text, Insertion.parts, gained_eq]
  -- both texts of a node have its markers, in another order
  have hperm : (member ++ assembly).Perm (t.added requests owner) :=
    List.perm_append_comm.trans (List.filter_append_perm _ _)
  have hnodup := hperm.nodup_iff.2 (nodup_additions requests owner.1 (t.node owner).markers)
  unfold insertionsOf
  rw [List.partition_eq_filter_filter, List.flatMap_append, List.filter_append]
  refine (congrArg₂ (· ++ ·) (filter_unless hmember) (filter_unless hassembly)).trans ?_
  rw [spoken_append, spoken_of_nodup owner.1 hnodup]
  simp only [hperm.mem_iff]

theorem flatMap_eq_of_unique {α β : Type} {l : List α} {f : α → List β} {a : α} (hl : l.Nodup)
    (ha : a ∈ l) (h : ∀ b, b ≠ a → f b = []) : l.flatMap f = f a := by
  obtain ⟨front, back, rfl⟩ := List.append_of_mem ha
  have hne : ∀ b ∈ front ++ back, b ≠ a := by
    rintro b hb rfl
    exact (List.nodup_middle.1 hl).notMem hb
  rw [List.flatMap_append, List.flatMap_cons,
    List.flatMap_eq_nil_iff.2 fun b hb => h b (hne b (List.mem_append_left _ hb)),
    List.flatMap_eq_nil_iff.2 fun b hb => h b (hne b (List.mem_append_right _ hb)),
    List.nil_append, List.append_nil]

/-- A batch puts in the rendering of every pair that it adds, once. -/
theorem filter_written (hknown : ∀ r ∈ requests, r.1 < t.nodes.size) (id : Nat) (m : Marker) :
    (written t requests).filter (tells id m) =
      if m ∈ gained t requests id then [rendering id m] else [] := by
  have hperm : ((written t requests).filter (tells id m)).Perm
      (t.ids.flatMap fun owner =>
        if owner.1 = id ∧ m ∈ t.added requests owner then [rendering owner.1 m] else []) := by
    refine ((insertions_perm.flatMap_right _).filter _).trans (List.Perm.of_eq ?_)
    rw [unsorted_eq, List.flatMap_assoc, List.filter_flatMap]
    exact List.flatMap_congr fun owner _ => filter_block owner
  split
  · next hm =>
    have hid : id < t.nodes.size := hknown _ (mem_additions.1 hm).1
    rw [flatMap_eq_of_unique (a := ⟨id, hid⟩) (List.nodup_finRange _) (List.mem_finRange _),
      if_pos ⟨rfl, by rwa [← gained_eq]⟩] at hperm
    · exact List.perm_singleton.1 hperm
    · rintro owner hne
      exact if_neg fun h => hne (Fin.ext h.1)
  · next hm =>
    rw [List.flatMap_eq_nil_iff.2 fun owner _ => if_neg ?_] at hperm
    · exact List.perm_nil.1 hperm
    · rintro ⟨rfl, hadded⟩
      exact hm (by rwa [gained_eq])

theorem mem_written {part : Text.Part Origin} (h : part ∈ written t requests) :
    part = blank ∨ part = newline ∨ ∃ id m, part = rendering id m := by
  obtain ⟨ins, -, hpart⟩ := List.mem_flatMap.1 h
  unfold Insertion.parts at hpart
  split at hpart
  · rcases List.mem_append.1 hpart with hpart | hpart
    · obtain ⟨m, -, rfl⟩ := List.mem_map.1 hpart
      exact .inr (.inr ⟨_, _, rfl⟩)
    · exact .inl (List.mem_singleton.1 hpart)
  · rcases List.mem_append.1 hpart with hpart | hpart
    · split at hpart
      · exact absurd hpart List.not_mem_nil
      · exact .inr (.inl (List.mem_singleton.1 hpart))
    · obtain ⟨m, -, hpart⟩ := List.mem_flatMap.1 hpart
      rcases List.mem_pair.1 hpart with rfl | rfl
      · exact .inr (.inr ⟨_, _, rfl⟩)
      · exact .inr (.inl rfl)

end Marking

end HotReload
