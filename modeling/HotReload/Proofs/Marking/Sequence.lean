import HotReload.Proofs.Marking.Parts

/-
  Batches of markers one after the other. `Between` is what the first of two batches leaves of a tree:
  spans and markers of every node, read off the old tree. In it, the second batch finds its nodes
  where the text of the first has moved them (`Between.members_eq`), is admissible still
  (`Between.admits`), makes the text that both make at once (`Between.markedText_eq`) and moves every
  node to where both move it at once (`Between.pushedNode_pushedNode`). So two batches about different
  nodes make, in either order, the tree that one batch makes (`AfterRounds.addMarkers_in_turn`).
-/

namespace HotReload

namespace Tree

open Marking

variable {t t₁ : Tree} {first second both requests : List Request} {ins : Insertion}

/-- Owners with significant text that starts at one offset stand below one another. -/
theorem Sound.stacked (hs : t.Sound) (hadm : t.Admits requests) :
    Stacked t.nodes (members t requests) := by
  intro u hu v hv hposition hlt
  obtain ⟨a, ha, rfl⟩ := mem_members_iff.1 hu
  obtain ⟨b, hb, rfl⟩ := mem_members_iff.1 hv
  dsimp only at hposition hlt ⊢
  refine startMoves_iff.2 ⟨hlt, t.node a, t.getElem?_node a, Nat.lt_of_not_le fun hbehind => ?_⟩
  -- what stands behind the subtree starts behind its text
  have hapart := hs.laid.apart (t.getElem?_node a) (t.getElem?_node b) hbehind
  have ha' := hs.laid.within (t.getElem?_node a)
  have hb' := hs.laid.within (t.getElem?_node b)
  have := hs.nonempty hadm ha
  omega

/-! ## A tree between two batches -/

/-- A part of an admissible batch is admissible. -/
theorem Admits.part (hadm : t.Admits both) (h : Merges first second both) : t.Admits first := by
  have hadded : ∀ id : t.Id, t.added first id = t.added both id ∨ t.added first id = [] := by
    intro id
    cases hid : owns first id.1 with
    | true => exact Or.inl (h.additions_of_owns hid _).symm
    | false => exact Or.inr (additions_of_not_owns hid _)
  refine ⟨fun r hr => hadm.member r (h.mem_of_mem hr), fun r hr => hadm.assembly r (h.mem_of_mem hr),
    Nat.le_trans ?_ hadm.size⟩
  unfold Tree.markedText
  rw [Text.byteLength_append, Text.byteLength_append]
  refine Nat.add_le_add (Text.byteLength_weave_le fun p => Text.byteLength_flatMap_le (fun id => ?_) _)
    (Text.byteLength_flatMap_le (fun id => ?_) _)
  · unfold Tree.memberMarks
    rcases hadded id with heq | hnil
    · rw [heq]
      exact Or.inl rfl
    · rw [hnil]
      exact Or.inr (ite_self _)
  · unfold Tree.assemblyMarks
    rcases hadded id with heq | hnil
    · rw [heq]
      exact Or.inl rfl
    · rw [hnil]
      exact Or.inr rfl

/-- What is written at the end of a file depends on its last character. -/
theorem assemblyText_congr {text text' : String} (h : text.toList.getLast? = text'.toList.getLast?)
    (markers : List Marker) : assemblyText text markers = assemblyText text' markers := by
  have hempty : ∀ s : String, s.isEmpty = s.toList.getLast?.isNone := by
    intro s
    rw [Bool.eq_iff_iff, String.isEmpty_iff, Option.isNone_iff_eq_none, List.getLast?_eq_none_iff,
      String.toList_eq_nil_iff]
  unfold assemblyText
  rw [hempty, hempty, h]

/-- The end of the file only has text for the root. -/
theorem endMarks_eq (hnone : ∀ id : t.Id, id.1 ≠ 0 → t.assemblyMarks requests id = []) :
    t.endMarks requests t.ids =
      if h : 0 < t.nodes.size then t.assemblyMarks requests ⟨0, h⟩ else [] := by
  have hroot : ∀ {k : Nat} (f : Fin k → List Char), (∀ i, i.1 ≠ 0 → f i = []) →
      (List.finRange k).flatMap f = if h : 0 < k then f ⟨0, h⟩ else [] := by
    intro k f hf
    cases k with
    | zero => rfl
    | succ k =>
      rw [List.finRange_succ, List.flatMap_cons, List.flatMap_map, dif_pos (Nat.succ_pos k),
        List.flatMap_eq_nil_iff.2 fun i _ => hf i.succ (Nat.succ_ne_zero _), List.append_nil]
      rfl
  exact hroot _ hnone

theorem assemblyMarks_eq_nil (hadm : t.Admits requests) (id : t.Id) (hid : id.1 ≠ 0) :
    t.assemblyMarks requests id = [] :=
  if_pos (List.isEmpty_iff.2 (List.filter_eq_nil_iff.2 fun _ hm hassembly =>
    hid (eq_root_of_assembly hadm hm hassembly)))

/-- What the first batch leaves of a tree. -/
structure Between (t : Tree) (first : List Request) (t₁ : Tree) : Prop where
  sound : t₁.Sound
  text : t₁.text.toList = t.markedText first
  size : t₁.nodes.size = t.nodes.size
  node : ∀ id : t.Id, t₁.nodes[id.1]? = some (t.pushedNode first id.1 (t.node id))

theorem Sound.between (hs : t.Sound) (hadm : t.Admits first) :
    ∃ t₁, t.addMarkers first = .ok t₁ ∧ Between t first t₁ := by
  obtain ⟨t₁, hadded, hrewritten, hsound⟩ := hs.addMarkers hadm
  refine ⟨t₁, hadded, hsound, ?_, hrewritten.size, fun id => hs.getElem?_addMarkers hadm hadded id⟩
  rw [hrewritten.text, String.toList_ofList]

namespace Between

variable (hb : Between t first t₁)

include hb

theorem subtreeEnd (k : Nat) :
    t₁.nodes[k]?.map Node.subtreeEnd = t.nodes[k]?.map Node.subtreeEnd := by
  rcases Nat.lt_or_ge k t.nodes.size with hk | hk
  · have hnode := hb.node ⟨k, hk⟩
    dsimp only at hnode
    rw [hnode, t.getElem?_node ⟨k, hk⟩]
    rfl
  · rw [Array.getElem?_eq_none hk, Array.getElem?_eq_none (hb.size ▸ hk)]

theorem startMoves : Marking.startMoves t₁.nodes = Marking.startMoves t.nodes :=
  startMoves_congr hb.subtreeEnd

theorem stopMoves : Marking.stopMoves t₁.nodes = Marking.stopMoves t.nodes :=
  stopMoves_congr hb.subtreeEnd

/-- The node of the old tree, and the node of the new one. -/
theorem node_eq (id : t.Id) (id₁ : t₁.Id) (hid : id₁.1 = id.1) :
    t₁.node id₁ = t.pushedNode first id.1 (t.node id) :=
  Option.some.inj ((t₁.getElem?_node id₁).symm.trans (hid ▸ hb.node id))

variable (h : Merges first second both)

include h

/-- The second batch adds what it would have added at once. -/
theorem added_eq (id : t.Id) (id₁ : t₁.Id) (hid : id₁.1 = id.1) :
    t₁.added second id₁ = t.added second id := by
  unfold Tree.added
  rw [hb.node_eq id id₁ hid, hid]
  cases hfirst : owns first id.1 with
  | true =>
    have hnot := h.owns_apart hfirst
    rw [additions_of_not_owns hnot, additions_of_not_owns hnot]
  | false =>
    have hmarkers : (t.pushedNode first id.1 (t.node id)).markers = (t.node id).markers := by
      rw [markers_pushedNode, additions_of_not_owns hfirst, List.append_nil]
    rw [hmarkers]

variable (hs : t.Sound) (hadm : t.Admits both)

include hs hadm

/-- In front of nodes, the second batch writes what it would have written at once, behind what the
first one wrote. -/
theorem members_eq :
    members t₁ second = (members t second).map (·.behind (members t first) 0) := by
  obtain ⟨hfirst, hsecond⟩ := h.filter_members t
  have hstart : ∀ id : t.Id, (t.added second id).filter (!·.isAssemblyLevel) ≠ [] →
      (⟨id.1, (t.pushedNode first id.1 (t.node id)).span.start,
        memberText ((t.added second id).filter (!·.isAssemblyLevel)), .before⟩ : Insertion) =
        Insertion.behind ⟨id.1, (t.node id).span.start,
          memberText ((t.added second id).filter (!·.isAssemblyLevel)), .before⟩
          (members t first) 0 := by
    intro id hne
    have hmem := mem_members_iff.2 ⟨id, hne, rfl⟩
    rw [← hsecond] at hmem
    have hposition := position_behind (hs.stacked hadm) hs.nested
      (f := fun ins => owns first ins.owner) (List.mem_filter.1 hmem).1
    rw [hfirst] at hposition
    exact congrArg (fun p => (⟨id.1, p, memberText ((t.added second id).filter
      (!·.isAssemblyLevel)), .before⟩ : Insertion)) hposition.symm
  apply eq_of_mem_iff members_pairwise
  · rw [List.pairwise_map]
    exact members_pairwise.imp fun huv => before_behind huv _ _
  intro ins
  rw [List.mem_map, mem_members_iff]
  constructor
  · rintro ⟨id₁, hne, rfl⟩
    have hid : id₁.1 < t.nodes.size := hb.size ▸ id₁.2
    rw [hb.added_eq h ⟨id₁.1, hid⟩ id₁ rfl] at hne ⊢
    rw [hb.node_eq ⟨id₁.1, hid⟩ id₁ rfl]
    exact ⟨_, mem_members_iff.2 ⟨⟨id₁.1, hid⟩, hne, rfl⟩, (hstart ⟨id₁.1, hid⟩ hne).symm⟩
  · rintro ⟨v, hv, rfl⟩
    obtain ⟨id, hne, rfl⟩ := mem_members_iff.1 hv
    have hid : id.1 < t₁.nodes.size := hb.size.symm ▸ id.2
    refine ⟨⟨id.1, hid⟩, ?_, ?_⟩
    · rwa [hb.added_eq h id ⟨id.1, hid⟩ rfl]
    · rw [hb.added_eq h id ⟨id.1, hid⟩ rfl, hb.node_eq id ⟨id.1, hid⟩ rfl]
      exact (hstart id hne).symm

omit hs hadm in
theorem assemblyMarks_eq (id : t.Id) (id₁ : t₁.Id) (hid : id₁.1 = id.1)
    (htext : t₁.text.toList.getLast? = t.text.toList.getLast?) :
    t₁.assemblyMarks second id₁ = t.assemblyMarks second id := by
  unfold Tree.assemblyMarks
  rw [hb.added_eq h id id₁ hid]
  simp only [assemblyText_congr htext]

theorem endMarks_parts :
    t.endMarks first t.ids ++ t₁.endMarks second t₁.ids = t.endMarks both t.ids := by
  have hnone := assemblyMarks_eq_nil (hadm.part h)
  have hnone₁ : ∀ id₁ : t₁.Id, id₁.1 ≠ 0 → t₁.assemblyMarks second id₁ = [] := by
    intro id₁ hne
    refine if_pos (List.isEmpty_iff.2 (List.filter_eq_nil_iff.2 fun m hm hassembly => ?_))
    rw [hb.added_eq h ⟨id₁.1, hb.size ▸ id₁.2⟩ id₁ rfl] at hm
    exact hne (eq_root_of_assembly (hadm.part h.symm) hm hassembly)
  by_cases hsize : 0 < t.nodes.size
  · have hsize₁ : 0 < t₁.nodes.size := hb.size.symm ▸ hsize
    have hend : t.endMarks first t.ids = t.assemblyMarks first ⟨0, hsize⟩ := by
      rw [endMarks_eq hnone, dif_pos hsize]
    rw [hend, endMarks_eq hnone₁, endMarks_eq (assemblyMarks_eq_nil hadm), dif_pos hsize₁,
      dif_pos hsize]
    have hadded := hb.added_eq h ⟨0, hsize⟩ ⟨0, hsize₁⟩ rfl
    cases hroot : owns first 0 with
    | true =>
      have hsecond : t.added second ⟨0, hsize⟩ = [] := additions_of_not_owns (h.owns_apart hroot) _
      have hfirst : t.added first ⟨0, hsize⟩ = t.added both ⟨0, hsize⟩ :=
        (h.additions_of_owns hroot _).symm
      unfold assemblyMarks
      rw [hadded, hsecond, hfirst]
      exact List.append_nil _
    | false =>
      have hfirst : t.added first ⟨0, hsize⟩ = [] := additions_of_not_owns hroot _
      have hnil : t.assemblyMarks first ⟨0, hsize⟩ = [] := by
        unfold assemblyMarks
        rw [hfirst]
        rfl
      have hboth : t.added both ⟨0, hsize⟩ = t.added second ⟨0, hsize⟩ := h.additions_of_not hroot _
      have htext : t₁.text.toList.getLast? = t.text.toList.getLast? := by
        rw [hb.text, Marking.markedText_eq, hend, hnil, List.append_nil]
        refine Insertion.getLast?_weave_marks (fun ins hins => ?_) hs.cuts_members
        rw [Nat.zero_add]
        exact hs.position_lt (hadm.part h) ins hins
      rw [hnil, List.nil_append, hb.assemblyMarks_eq h ⟨0, hsize⟩ ⟨0, hsize₁⟩ rfl htext]
      unfold assemblyMarks
      rw [hboth]
  · rw [endMarks_eq hnone, endMarks_eq hnone₁, endMarks_eq (assemblyMarks_eq_nil hadm), dif_neg hsize,
      dif_neg (hb.size ▸ hsize), dif_neg hsize, List.append_nil]

/-- The second batch makes the text that both make at once. -/
theorem markedText_eq : t₁.markedText second = t.markedText both := by
  obtain ⟨hfirst, hsecond⟩ := h.filter_members t
  have hfront : ∀ ins ∈ members t₁ second, ins.position ≤ 0 + Text.byteLength
      (Text.weave (Insertion.marks (members t first)) 0 t.text.toList) := by
    intro ins hins
    rw [hb.members_eq h hs hadm] at hins
    obtain ⟨v, hv, rfl⟩ := List.mem_map.1 hins
    have hlt := hs.position_lt (hadm.part h.symm) v hv
    have hle : room ((members t first).filter fun u => u.Before v) ≤ room (members t first) :=
      room_filter_le_room
    rw [byteLength_weave_marks members_sorted hs.cuts_members]
    unfold Insertion.behind
    dsimp only
    omega
  have hcuts : ∀ ins ∈ members t both,
      ∃ a b, t.text.toList = a ++ b ∧ 0 + Text.byteLength a = ins.position := hs.cuts_members
  have hparts := weave_parts (fun ins => owns first ins.owner) members_pairwise hcuts 0
  rw [hfirst, hsecond, ← hb.members_eq h hs hadm] at hparts
  rw [Marking.markedText_eq, hb.text, Marking.markedText_eq t first,
    Insertion.weave_marks_front hfront, List.append_assoc, hb.endMarks_parts h hs hadm,
    Marking.markedText_eq t both, ← hparts]

/-- What is left of the batch is admissible behind the first part. -/
theorem admits : t₁.Admits second := by
  refine ⟨fun r hr hmember => ?_, fun r hr hassembly => ?_, ?_⟩
  · obtain ⟨id, hid, hspan⟩ := hadm.member r (h.symm.mem_of_mem hr) hmember
    have hid₁ : id.1 < t₁.nodes.size := hb.size.symm ▸ id.2
    refine ⟨⟨id.1, hid₁⟩, hid, decide_eq_false (Nat.ne_of_lt ?_)⟩
    -- a node of the second batch gained nothing, so its span is what the texts around it make of it
    have hnot : owns first id.1 = false :=
      h.symm.owns_apart (List.any_eq_true.2 ⟨r, hr, decide_eq_true hid.symm⟩)
    have hlt : (t.node id).span.start < (t.node id).span.stop :=
      Nat.lt_of_le_of_ne (hs.laid.within (t.getElem?_node id)).2.1 (of_decide_eq_false hspan)
    rw [hb.node_eq id ⟨id.1, hid₁⟩ rfl, (spans_pushedNode (additions_of_not_owns hnot _)).1]
    exact pushed_lt hlt
  · obtain ⟨id, hroot, hid⟩ := hadm.assembly r (h.symm.mem_of_mem hr) hassembly
    have hid₁ : id.1 < t₁.nodes.size := hb.size.symm ▸ id.2
    have hzero : id.1 = 0 := root_eq_ok_iff.1 hroot
    exact ⟨⟨id.1, hid₁⟩, root_eq_ok_iff.2 hzero, hid⟩
  · rw [hb.markedText_eq h hs hadm]
    exact hadm.size

/-- Offsets move twice as they move at once. -/
theorem pushed_pushed {moves : Nat → Bool} (hrising : Rising t.nodes moves) (p : Nat) :
    pushed (members t₁ second) moves (pushed (members t first) moves p) =
      pushed (members t both) moves p := by
  obtain ⟨hfirst, hsecond⟩ := h.filter_members t
  have hstacked : Stacked t.nodes (members t₁ second) := by
    have hstacked₁ := hb.sound.stacked (hb.admits h hs hadm)
    unfold Stacked at hstacked₁ ⊢
    rwa [hb.startMoves] at hstacked₁
  rw [← hfirst]
  apply pushed_parts (hs.stacked hadm) hs.nested hrising hstacked
  rw [hfirst, hsecond, hb.members_eq h hs hadm]

/-- A root that reaches to the end of the file does so behind the second batch. -/
theorem pushed_end {t₂ : Tree} (hb₂ : Between t₁ second t₂) (id : t.Id) (hid : id.1 = 0)
    (hsecond : ∀ present, additions second id.1 present = [])
    (hroot : (t.pushedNode first id.1 (t.node id)).fullSpan.stop =
      Text.byteLength (t.markedText first)) :
    pushed (members t₁ second) (Marking.stopMoves t.nodes id.1)
      (Text.byteLength (t.markedText first)) = Text.byteLength (t.markedText both) := by
  have hid₁ : id.1 < t₁.nodes.size := hb.size.symm ▸ id.2
  have hnode : t₂.nodes[0]? = some (t₁.pushedNode second id.1 (t.pushedNode first id.1 (t.node id))) := by
    rw [← hid, ← hb.node_eq id ⟨id.1, hid₁⟩ rfl]
    exact hb₂.node ⟨id.1, hid₁⟩
  have hfull := congrArg Span.stop (hb₂.sound.laid.root hnode)
  rw [hb₂.text, hb.markedText_eq h hs hadm] at hfull
  refine Eq.trans ?_ hfull
  rw [← hroot, ← hb.stopMoves, (spans_pushedNode (hsecond _)).2]
  rfl

/-- A node goes where it goes at once. -/
theorem pushedNode_pushedNode {t₂ : Tree} (hb₂ : Between t₁ second t₂) (id : t.Id) :
    t₁.pushedNode second id.1 (t.pushedNode first id.1 (t.node id)) =
      t.pushedNode both id.1 (t.node id) := by
  have hstart := hb.pushed_pushed h hs hadm (rising_startMoves hs.nested id.1)
  have hstop := hb.pushed_pushed h hs hadm (rising_stopMoves hs.nested id.1)
  cases hfirst : owns first id.1 with
  | false =>
    have hnil : ∀ present, additions first id.1 present = [] := additions_of_not_owns hfirst
    have hboth : ∀ present, additions both id.1 present = additions second id.1 present :=
      h.additions_of_not hfirst
    simp only [pushedNode, pushNode, hb.startMoves, hb.stopMoves, hnil, hboth, List.append_nil,
      List.any_nil, Bool.false_eq_true, if_false, hb.markedText_eq h hs hadm, hstart, hstop]
  | true =>
    have hnil : ∀ present, additions second id.1 present = [] :=
      additions_of_not_owns (h.owns_apart hfirst)
    have hboth : ∀ present, additions both id.1 present = additions first id.1 present :=
      h.additions_of_owns hfirst
    cases hany : (additions first id.1 (t.node id).markers).any (·.isAssemblyLevel) with
    | false =>
      simp only [pushedNode, pushNode, hb.startMoves, hb.stopMoves, hnil, hboth, List.append_nil,
        List.any_nil, hany, Bool.false_eq_true, if_false, hstart, hstop]
    | true =>
      obtain ⟨m, hm, hassembly⟩ := List.any_eq_true.1 hany
      have hid : id.1 = 0 := eq_root_of_assembly (hadm.part h) hm hassembly
      have hend := hb.pushed_end h hs hadm hb₂ id hid hnil (by simp only [pushedNode, hany, if_true])
      simp only [pushedNode, pushNode, hb.startMoves, hb.stopMoves, hnil, hboth, List.append_nil,
        List.any_nil, hany, Bool.false_eq_true, if_false, if_true, hstart, hend]

end Between

/-- Two batches about different nodes make the tree that both make at once. -/
theorem Sound.addMarkers_addMarkers (hs : t.Sound) (h : Merges first second both)
    (hadm : t.Admits both) :
    ∃ t', t.addMarkers both = .ok t' ∧
      (do let t₁ ← t.addMarkers first; t₁.addMarkers second) = .ok t' := by
  obtain ⟨t₁, hadded₁, hb₁⟩ := hs.between (hadm.part h)
  have hadm₁ := hb₁.admits h hs hadm
  obtain ⟨t₂, hadded₂, hb₂⟩ := hb₁.sound.between hadm₁
  obtain ⟨t', hadded, hb'⟩ := hs.between hadm
  refine ⟨t', hadded, ?_⟩
  rw [hadded₁]
  refine hadded₂.trans (congrArg Except.ok ?_)
  have hpath : t₂.path = t'.path := by
    rw [path_addMarkers hadded₂, path_addMarkers hadded₁, path_addMarkers hadded]
  have hsymbols : t₂.symbols = t'.symbols := by
    rw [(nodes_addMarkers hadded₂).2.2, (nodes_addMarkers hadded₁).2.2, (nodes_addMarkers hadded).2.2]
  have hlist : t₂.childList = t'.childList := by
    rw [childList_addMarkers hadded₂, childList_addMarkers hadded₁, childList_addMarkers hadded]
  have htext : t₂.text = t'.text := by
    rw [← String.toList_inj, hb₂.text, hb'.text, hb₁.markedText_eq h hs hadm]
  have hnodes : t₂.nodes = t'.nodes := by
    apply Array.ext_getElem?
    intro i
    rcases Nat.lt_or_ge i t.nodes.size with hi | hi
    · have hi₁ : i < t₁.nodes.size := hb₁.size.symm ▸ hi
      have hnode₂ := hb₂.node ⟨i, hi₁⟩
      rw [hb₁.node_eq ⟨i, hi⟩ ⟨i, hi₁⟩ rfl] at hnode₂
      rw [hnode₂, hb'.node ⟨i, hi⟩]
      exact congrArg some (hb₁.pushedNode_pushedNode h hs hadm hb₂ ⟨i, hi⟩)
    · rw [Array.getElem?_eq_none (hb₂.size.trans hb₁.size ▸ hi),
        Array.getElem?_eq_none (hb'.size ▸ hi)]
  exact eq_of_fields hpath htext hsymbols hnodes hlist

/-- One batch of markers makes the tree that any two batches make that it can be cut into, node by
node, in either order. -/
theorem AfterRounds.addMarkers_in_turn (hrounds : t.AfterRounds) (h : Merges first second both)
    (hadm : t.Admits both) :
    ∃ t', t.addMarkers both = .ok t' ∧
      (do let t₁ ← t.addMarkers first; t₁.addMarkers second) = .ok t' ∧
      (do let t₁ ← t.addMarkers second; t₁.addMarkers first) = .ok t' := by
  obtain ⟨t', hboth, hfirst⟩ := hrounds.sound.addMarkers_addMarkers h hadm
  obtain ⟨t'', hboth', hsecond⟩ := hrounds.sound.addMarkers_addMarkers h.symm hadm
  obtain rfl : t' = t'' := Except.ok.inj (hboth.symm.trans hboth')
  exact ⟨t', hboth, hfirst, hsecond⟩

/-- Both rounds in one batch, with owners in no order. -/
def bothRounds : List Request :=
  [(3, .methodBody), (1, .methodBody), (2, .accessorBody .get), (0, .patches "")]

theorem addMarkers_in_turn_nestedOwners :
    nestedOwners.AfterRounds ∧ Merges firstRound secondRound bothRounds ∧
    nestedOwners.Admits bothRounds ∧
    ∃ t', nestedOwners.addMarkers bothRounds = .ok t' ∧
      (do let t₁ ← nestedOwners.addMarkers firstRound; t₁.addMarkers secondRound) = .ok t' ∧
      (do let t₁ ← nestedOwners.addMarkers secondRound; t₁.addMarkers firstRound) = .ok t' := by
  have hbuilt : nestedOwners.AfterRounds := .built ofEvents_nestedEvents
  have hmerges : Merges firstRound secondRound bothRounds := merges_filter (· = 1) bothRounds
  have hadm : nestedOwners.Admits bothRounds := by decide +kernel
  exact ⟨hbuilt, hmerges, hadm, hbuilt.addMarkers_in_turn hmerges hadm⟩

end Tree

end HotReload
