import HotReload.Proofs.Marking.MarkedText

/-
  Markers over any number of rounds. `Tree.AfterRounds` are the trees that come from events by
  adding admissible batches of markers, one after the other. Every further admissible batch has a
  result: the text that `Tree.markedText` says, with the nodes of the old tree, whose spans are in
  order again and cut out the old text of the node with the markers in it
  (`Tree.AfterRounds.exists_rewritten`).

  What one batch needs and keeps is `Tree.Sound`; the rounds are an induction over it.
-/

namespace HotReload

namespace Tree

/-- The tree comes from events, by admissible batches of markers. -/
inductive AfterRounds : Tree → Prop
  | built {path : String} {symbols : Symbols} {events : List Event} {t : Tree}
      (built : Tree.ofEvents path symbols events = .ok t) : AfterRounds t
  | round {t t' : Tree} {requests : List Marking.Request} (before : AfterRounds t)
      (admits : t.Admits requests) (added : t.addMarkers requests = .ok t') : AfterRounds t'

/-- Spans are in order: in the text, significant text in the full span, children in their parents and
one behind the other. They start and end where characters do, and the root has the whole text. -/
structure Consistent (t : Tree) : Prop where
  spans : ∀ id, (t.node id).fullSpan.start ≤ (t.node id).span.start ∧
    (t.node id).span.start ≤ (t.node id).span.stop ∧
    (t.node id).span.stop ≤ (t.node id).fullSpan.stop ∧
    (t.node id).fullSpan.stop ≤ t.text.utf8ByteSize
  child : ∀ id, ∀ c ∈ t.children id, (t.node id).fullSpan.contains (t.node c).fullSpan = true
  siblings : ∀ id, (t.children id).toList.Pairwise fun a b =>
    (t.node a).fullSpan.stop ≤ (t.node b).fullSpan.start
  cuts : ∀ id,
    (Text.slice? (t.node id).span.start (t.node id).span.stop t.text.toList).isSome ∧
    (Text.slice? (t.node id).fullSpan.start (t.node id).fullSpan.stop t.text.toList).isSome
  root : ∀ id, t.root = .ok id → (t.node id).fullSpan = ⟨0, t.text.utf8ByteSize⟩

/-- The second tree is the first one with a batch of markers: everything but spans and markers is the
same, and every node has its text with the markers put in. -/
structure Rewritten (t : Tree) (requests : List Marking.Request) (t' : Tree) : Prop where
  path : t'.path = t.path
  symbols : t'.symbols = t.symbols
  text : t'.text = String.ofList (t.markedText requests)
  size : t'.nodes.size = t.nodes.size
  childList : t'.childList = t.childList
  node : ∀ id : t.Id, ∃ span fullSpan,
    t'.nodes[id.1]? = some
      { t.node id with
        span := span
        fullSpan := fullSpan
        markers := (t.node id).markers ++ t.added requests id } ∧
    t'.slice span = String.ofList (t.markedNodeText requests id)

/-! ## The invariant of the rounds -/

/-- What a batch of markers relies on. -/
structure Sound (t : Tree) : Prop where
  nested : Nested t.nodes
  children : NestedChildren t.nodes t.childList
  laid : Laid t.nodes t.text.toList
  size : t.text.utf8ByteSize ≤ Text.maxOffset

variable {t : Tree} {requests : List Marking.Request}

theorem sound_of_built {path : String} {symbols : Symbols} {events : List Event}
    (hbuilt : Tree.ofEvents path symbols events = .ok t) : t.Sound := by
  obtain ⟨htext, hsize, -⟩ := Tree.ofEvents_eq_ok hbuilt
  refine ⟨Tree.nested hbuilt, Tree.nestedChildren hbuilt, Tree.laid hbuilt, ?_⟩
  rw [htext, Event.utf8ByteSize_written]
  exact hsize

theorem Sound.consistent (hs : t.Sound) : t.Consistent where
  spans id := by
    have hwithin := hs.laid.within (t.getElem?_node id)
    have hstop := (hs.laid.cuts (t.getElem?_node id)).2.2.2.le_byteLength
    rw [Text.utf8ByteSize_eq_byteLength]
    exact ⟨hwithin.1, hwithin.2.1, hwithin.2.2, hstop⟩
  child id c hc := by
    have hmem : c.1 ∈ (t.node id).children.slice t.childList := by
      rw [← Array.mem_toList_iff, ← toList_children]
      exact List.mem_map_of_mem (Array.mem_toList_iff.2 hc)
    have hchild := hs.children.child (t.getElem?_node id) c.1 hmem
    have hbelow := hs.laid.below (t.getElem?_node id) (t.getElem?_node c) hchild.1 hchild.2
    exact Span.contains_iff.2 ⟨hbelow.1, hbelow.2.1⟩
  siblings id := by
    have hsiblings := hs.children.siblings (t.getElem?_node id)
    rw [← toList_children, List.pairwise_map] at hsiblings
    apply hsiblings.imp
    intro a b hab
    exact hs.laid.apart (t.getElem?_node a) (t.getElem?_node b) (hab (t.getElem?_node a))
  cuts id := by
    have hwithin := hs.laid.within (t.getElem?_node id)
    obtain ⟨h1, h2, h3, h4⟩ := hs.laid.cuts (t.getElem?_node id)
    exact ⟨Option.isSome_iff_exists.2 (Text.exists_slice? h1 h2 hwithin.2.1),
      Option.isSome_iff_exists.2 (Text.exists_slice? h3 h4 (by omega))⟩
  root id hroot := by
    have hnode := t.getElem?_node id
    rw [root_eq_ok_iff.1 hroot] at hnode
    rw [Text.utf8ByteSize_eq_byteLength]
    exact hs.laid.root hnode

end Tree

/-! ## One batch -/

namespace Marking

variable {t : Tree} {requests : List Request}

theorem getElem?_attach {i : Nat} : (attach t requests).nodes[i]? = t.nodes[i]?.map fun n =>
    { n with markers := n.markers ++ additions requests i n.markers } := by
  unfold attach
  rw [Array.getElem?_mapFinIdx]
  cases t.nodes[i]? <;> rfl

theorem getElem?_attach_of {i : Nat} {n : Node} (hn : t.nodes[i]? = some n) :
    (attach t requests).nodes[i]? =
      some { n with markers := n.markers ++ additions requests i n.markers } := by
  rw [getElem?_attach, hn, Option.map_some]

/-- Shifting trees is shifting their arenas. -/
theorem foldr_shiftSpans (l : List Insertion) (t : Tree) :
    (l.foldr (fun ins t => shiftSpans t ins) t).nodes =
        l.foldr (fun ins arena => shiftAll arena ins) t.nodes ∧
      (l.foldr (fun ins t => shiftSpans t ins) t).path = t.path ∧
      (l.foldr (fun ins t => shiftSpans t ins) t).symbols = t.symbols := by
  induction l with
  | nil => exact ⟨rfl, rfl, rfl⟩
  | cons ins l ih =>
    obtain ⟨hnodes, hpath, hsymbols⟩ := ih
    refine ⟨?_, hpath, hsymbols⟩
    rw [List.foldr_cons, List.foldr_cons, ← hnodes]
    rfl

theorem childList_foldr_shiftSpans (l : List Insertion) (t : Tree) :
    (l.foldr (fun ins t => shiftSpans t ins) t).childList = t.childList := by
  induction l with
  | nil => rfl
  | cons ins l ih => exact ih

/-- Nothing but markers changes when they are attached. -/
theorem exists_of_getElem?_attach {i : Nat} {n' : Node}
    (h : (attach t requests).nodes[i]? = some n') :
    ∃ n, t.nodes[i]? = some n ∧
      n' = { n with markers := n.markers ++ additions requests i n.markers } := by
  rw [getElem?_attach] at h
  obtain ⟨n, hn, rfl⟩ := Option.map_eq_some_iff.1 h
  exact ⟨n, hn, rfl⟩

theorem nested_attach (h : Nested t.nodes) : Nested (attach t requests).nodes := by
  refine h.congr (by simp [attach]) ?_
  intro i n' hn'
  obtain ⟨n, hn, rfl⟩ := exists_of_getElem?_attach hn'
  exact ⟨n, hn, rfl⟩

/-- Children stay where they are, whatever is attached and shifted. -/
theorem nestedChildren_foldr (h : NestedChildren t.nodes t.childList) (requests : List Request)
    (l : List Insertion) :
    NestedChildren (l.foldr (fun ins arena => shiftAll arena ins) (attach t requests).nodes)
      t.childList := by
  induction l with
  | nil =>
    refine h.congr fun {i n'} hn' => ?_
    obtain ⟨n, hn, rfl⟩ := exists_of_getElem?_attach hn'
    exact ⟨n, hn, rfl, rfl⟩
  | cons ins l ih => exact nestedChildren_shiftAll ih ins

theorem laid_attach {cs : List Char} (h : Laid t.nodes cs) :
    Laid (attach t requests).nodes cs := by
  refine h.congr ?_
  intro i n' hn'
  obtain ⟨n, hn, rfl⟩ := exists_of_getElem?_attach hn'
  exact ⟨n, hn, rfl, rfl, rfl⟩

theorem batch_attach {cs : List Char} {l : List Insertion} (h : Batch t.nodes cs l) :
    Batch (attach t requests).nodes cs l where
  sorted := h.sorted
  distinct := h.distinct
  placed := by
    intro ins hins
    cases h.placed ins hins with
    | before placement getElem? position nonempty =>
      exact .before placement (getElem?_attach_of getElem?) position nonempty
    | after placement owner position => exact .after placement owner position

end Marking

namespace Tree

open Marking

variable {t : Tree} {requests : List Request}

/-! ## Any batch -/

/-- What a batch with a result does. -/
theorem exists_of_addMarkers {t' : Tree} (h : t.addMarkers requests = .ok t') :
    ∃ text, Edit.applyAll t.text ((insertions t requests).map Insertion.edit) = .ok text ∧
      t' = { (insertions t requests).reverse.foldl shiftSpans (attach t requests) with text } := by
  unfold Tree.addMarkers at h
  split at h
  · simp at h
  · dsimp only at h
    split at h
    · simp at h
    next text htext => exact ⟨text, htext, (Except.ok.inj h).symm⟩

/-- A batch attaches its markers and shifts the arena from the last insertion to the first. -/
theorem nodes_addMarkers {t' : Tree} (h : t.addMarkers requests = .ok t') :
    t'.nodes = (insertions t requests).foldr (fun ins arena => shiftAll arena ins)
        (attach t requests).nodes ∧
      t'.path = t.path ∧ t'.symbols = t.symbols := by
  obtain ⟨text, -, rfl⟩ := exists_of_addMarkers h
  rw [List.foldl_reverse]
  exact foldr_shiftSpans _ _

theorem path_addMarkers {t' : Tree} (h : t.addMarkers requests = .ok t') : t'.path = t.path :=
  (nodes_addMarkers h).2.1

/-- No batch moves children. -/
theorem childList_addMarkers {t' : Tree} (h : t.addMarkers requests = .ok t') :
    t'.childList = t.childList := by
  obtain ⟨text, -, rfl⟩ := exists_of_addMarkers h
  rw [List.foldl_reverse]
  exact childList_foldr_shiftSpans _ _

/-- A tree is its data. -/
theorem eq_of_fields {u : Tree} (hpath : t.path = u.path) (htext : t.text = u.text)
    (hsymbols : t.symbols = u.symbols) (hnodes : t.nodes = u.nodes)
    (hlist : t.childList = u.childList) : t = u := by
  cases t
  cases u
  simp_all

/-- The nodes get the markers that they lack. -/
theorem markers_addMarkers {t' : Tree} (h : t.addMarkers requests = .ok t') (i : Nat) :
    t'.nodes[i]?.map Node.markers =
      t.nodes[i]?.map fun n => n.markers ++ additions requests i n.markers := by
  rw [(nodes_addMarkers h).1]
  induction insertions t requests with
  | nil =>
    rw [List.foldr_nil, getElem?_attach, Option.map_map]
    rfl
  | cons ins l ih =>
    rw [List.foldr_cons, ← ih, shiftAll, Array.getElem?_mapFinIdx]
    cases (l.foldr (fun ins arena => shiftAll arena ins) (attach t requests).nodes)[i]? <;> rfl

/-- A batch about nodes has a result if no insertion is at an offset inside a character. -/
theorem addMarkers_eq_of_cuts (h : ∀ r ∈ requests, r.1 < t.nodes.size)
    (hcuts : ∀ ins ∈ insertions t requests, Text.IsCut t.text.toList ins.position) :
    t.addMarkers requests = .ok
      { (insertions t requests).reverse.foldl shiftSpans (attach t requests) with
        text := String.ofList
          (Text.weave (Insertion.marks (insertions t requests)) 0 t.text.toList) } := by
  unfold Tree.addMarkers
  split
  · next hfind =>
    -- no request is about a position outside of the tree
    have hsize := List.find?_some hfind
    exact absurd (h _ (List.mem_of_find?_eq_some hfind)) (Nat.not_lt.2 (of_decide_eq_true hsize))
  · dsimp only
    rw [Insertion.applyAll_eq insertions_position_le hcuts]

/-- The end of the file is no offset inside a character. -/
theorem isCut_stop (hsize : t.text.utf8ByteSize ≤ Text.maxOffset) :
    Text.IsCut t.text.toList (Text.offset t.text.utf8ByteSize) := by
  rw [Text.offset_eq_self hsize, Text.utf8ByteSize_eq_byteLength]
  exact Text.IsCut.length _

/-- Insertions stand where characters end, if nodes start there and offsets reach the end. -/
theorem isCut_position_of_starts (hsize : t.text.utf8ByteSize ≤ Text.maxOffset)
    (hstarts : ∀ id : t.Id, Text.IsCut t.text.toList (t.node id).span.start) :
    ∀ ins ∈ insertions t requests, Text.IsCut t.text.toList ins.position := by
  intro ins hins
  obtain ⟨id, hid⟩ := mem_insertions_iff.1 hins
  obtain ⟨-, ⟨-, hposition, -⟩ | ⟨-, hposition, -⟩⟩ := mem_insertionsOf hid
  · exact hposition ▸ hstarts id
  · exact hposition ▸ isCut_stop hsize

theorem Sound.isCut_position (hs : t.Sound) :
    ∀ ins ∈ insertions t requests, Text.IsCut t.text.toList ins.position :=
  isCut_position_of_starts hs.size fun id => (hs.laid.cuts (t.getElem?_node id)).1

/-- Every batch about nodes of a sound tree has a result. -/
theorem Sound.addMarkers_eq (hs : t.Sound) (h : ∀ r ∈ requests, r.1 < t.nodes.size) :
    t.addMarkers requests = .ok
      { (insertions t requests).reverse.foldl shiftSpans (attach t requests) with
        text := String.ofList
          (Text.weave (Insertion.marks (insertions t requests)) 0 t.text.toList) } :=
  addMarkers_eq_of_cuts h hs.isCut_position

/-! ## An admissible batch -/

/-- All requests of an admissible batch are about nodes. -/
theorem Admits.lt_size (hadm : t.Admits requests) : ∀ r ∈ requests, r.1 < t.nodes.size := by
  intro r hr
  cases hm : r.2.isAssemblyLevel with
  | false =>
    obtain ⟨id, hid, -⟩ := hadm.member r hr hm
    exact hid ▸ id.2
  | true =>
    obtain ⟨id, -, hid⟩ := hadm.assembly r hr hm
    exact hid ▸ id.2

theorem toList_slice {span : Span} {m : List Char}
    (h : Text.slice? span.start span.stop t.text.toList = some m) : (t.slice span).toList = m := by
  rw [slice, h, Option.getD_some, String.toList_ofList]

/-- The text of a file with its insertions. -/
theorem Sound.weave_insertions (hs : t.Sound) (hadm : t.Admits requests) :
    Text.weave (Insertion.marks (insertions t requests)) 0 t.text.toList =
      t.markedText requests := by
  have howners : t.ids = t.ids.filter fun _ => true := (List.filter_eq_self.2 fun _ _ => rfl).symm
  have hend : t.endMarks requests t.ids = [] ∨
      0 + Text.byteLength t.text.toList = Text.byteLength t.text.toList := Or.inr (Nat.zero_add _)
  have hweave := Marking.weave_insertions hs.laid hs.size hadm (fun _ => true) howners hend
  rwa [List.filter_eq_self.2 fun _ _ => rfl] at hweave

/-- The text of a node with the insertions of its subtree. -/
theorem Sound.weave_below (hs : t.Sound) (hadm : t.Admits requests) (id : t.Id) {m : List Char}
    (hm : Text.slice? (t.node id).span.start
      (reach t.text.toList (insertions t requests) id.1 (t.node id)) t.text.toList = some m) :
    Text.weave (Insertion.marks (below id.1 (t.node id) (insertions t requests)))
      (t.node id).span.start m = t.markedNodeText requests id := by
  rw [reach_insertions] at hm
  unfold markedNodeText
  dsimp only
  rw [toList_slice hm]
  refine Marking.weave_insertions hs.laid hs.size hadm
    (fun owner => Around owner id.1 (t.node id).subtreeEnd) ?_ ?_
  · unfold descendants
    congr 1
    funext c
    exact (Bool.decide_and _ _).symm
  · split at hm
    · obtain ⟨-, -, -, -, hlength⟩ := Text.slice?_eq_some_iff.1 hm
      rw [← Text.utf8ByteSize_eq_byteLength]
      exact Or.inr hlength
    · next hnone =>
      -- a node below that gains markers about the program would be this one
      refine Or.inl (List.flatMap_eq_nil_iff.2 fun c hc => if_pos (List.isEmpty_iff.2 ?_))
      apply List.filter_eq_nil_iff.2
      intro marker hmarker hassembly
      have hc' := (List.mem_filter.1 hc).2
      have hzero := eq_root_of_assembly hadm hmarker hassembly
      obtain rfl : c = id := by
        simp only [Bool.and_eq_true, decide_eq_true_eq] at hc'
        exact Fin.ext (by omega)
      exact hnone (List.any_eq_true.2 ⟨marker, hmarker, hassembly⟩)

/-- Where the text of a node ends for a batch, characters end. -/
theorem Sound.exists_reach (hs : t.Sound) (id : t.Id) (l : List Insertion) :
    ∃ m, Text.slice? (t.node id).span.start (reach t.text.toList l id.1 (t.node id))
      t.text.toList = some m := by
  have hwithin := hs.laid.within (t.getElem?_node id)
  have hcuts := hs.laid.cuts (t.getElem?_node id)
  have hstop := hcuts.2.1.le_byteLength
  unfold reach
  split
  · exact Text.exists_slice? hcuts.1 (Text.IsCut.length _) (by omega)
  · exact Text.exists_slice? hcuts.1 hcuts.2.1 hwithin.2.1

/-- The arena that an admissible batch leaves. -/
theorem Sound.written (hs : t.Sound) (hadm : t.Admits requests) :
    Written (attach t requests).nodes
      ((insertions t requests).foldr (fun ins arena => shiftAll arena ins)
        (attach t requests).nodes) t.text.toList (insertions t requests) := by
  apply written_foldr (nested_attach hs.nested) (laid_attach hs.laid)
  · exact batch_attach (batch_insertions hs.laid hs.size hadm)
  · rw [hs.weave_insertions hadm]
    exact hadm.size

/-- An admissible batch has a result, and a further batch can be added to it. -/
theorem Sound.addMarkers (hs : t.Sound) (hadm : t.Admits requests) :
    ∃ t', t.addMarkers requests = .ok t' ∧ t.Rewritten requests t' ∧ t'.Sound := by
  have hw := hs.written hadm
  have hweave := hs.weave_insertions hadm
  obtain ⟨hnodes, hpath, hsymbols⟩ :=
    foldr_shiftSpans (insertions t requests) (attach t requests)
  have hlist := childList_foldr_shiftSpans (insertions t requests) (attach t requests)
  have hchildren := nestedChildren_foldr hs.children requests (insertions t requests)
  rw [← hnodes, ← List.foldl_reverse] at hw hchildren
  rw [← List.foldl_reverse] at hpath hsymbols hlist
  refine ⟨_, hs.addMarkers_eq hadm.lt_size, ⟨hpath, hsymbols, ?_, ?_, hlist, fun id => ?_⟩, ?_⟩
  · exact congrArg String.ofList hweave
  · exact hw.size.trans (Array.size_mapFinIdx ..)
  · obtain ⟨n', hn', hwn⟩ := hw.node (getElem?_attach_of (t.getElem?_node id))
    obtain ⟨m, hm⟩ := hs.exists_reach id (insertions t requests)
    have hslice := (hwn.slice hm).trans (congrArg some (hs.weave_below hadm id hm))
    refine ⟨n'.span, n'.fullSpan, hn'.trans (congrArg some hwn.same), ?_⟩
    rw [slice, String.toList_ofList, hslice]
    rfl
  · refine ⟨hw.nested, hlist ▸ hchildren, ?_, ?_⟩
    · rw [String.toList_ofList]
      exact hw.laid
    · rw [Text.utf8ByteSize_eq_byteLength, String.toList_ofList, hweave]
      exact hadm.size

theorem AfterRounds.sound (h : t.AfterRounds) : t.Sound := by
  induction h with
  | built hbuilt => exact sound_of_built hbuilt
  | round _ hadm hadded ih =>
    obtain ⟨t', hadded', -, hsound⟩ := ih.addMarkers hadm
    obtain rfl := Except.ok.inj (hadded.symm.trans hadded')
    exact hsound

/-- After any number of rounds, an admissible batch of markers gives a consistent tree with the
markers written where they belong. -/
theorem AfterRounds.exists_rewritten (h : t.AfterRounds) (hadm : t.Admits requests) :
    ∃ t', t.addMarkers requests = .ok t' ∧ t.Rewritten requests t' ∧ t'.Consistent := by
  obtain ⟨t', hadded, hrewritten, hsound⟩ := h.sound.addMarkers hadm
  exact ⟨t', hadded, hrewritten, hsound.consistent⟩

/-- A type, a method and a body that start at one offset. -/
def nestedEvents : List Event :=
  [.start .compilationUnit none, .start .typeDecl "A", .start .method "M", .start .block none,
    .token "m", .finish, .finish, .finish, .finish]

/-- The tree of these nodes. -/
def nestedOwners : Tree := .ofBuilder "A.cs" .empty (Builder.empty.run nestedEvents)

/-- The type is marked first, and then two nodes that moved. -/
def firstRound : List Request := [(1, .methodBody)]

/-- Two owners at one offset, and a marker for the program. -/
def secondRound : List Request := [(3, .methodBody), (2, .accessorBody .get), (0, .patches "")]

/-- The tree between the rounds. -/
def betweenRounds : Tree :=
  { (unsorted nestedOwners firstRound).reverse.foldl shiftSpans (attach nestedOwners firstRound) with
    text := "[MethodBodyChange] m" }

theorem ofEvents_nestedEvents : Tree.ofEvents "A.cs" .empty nestedEvents = .ok nestedOwners := rfl

theorem addMarkers_firstRound :
    nestedOwners.Admits firstRound ∧ nestedOwners.addMarkers firstRound = .ok betweenRounds := by
  have hsound := sound_of_built ofEvents_nestedEvents
  have hfirst : nestedOwners.Admits firstRound := by decide +kernel
  have hinsertions : insertions nestedOwners firstRound = unsorted nestedOwners firstRound := by
    unfold insertions
    exact List.mergeSort_of_pairwise (by decide +kernel)
  have hadded := hsound.addMarkers_eq hfirst.lt_size
  rw [hsound.weave_insertions hfirst, hinsertions] at hadded
  exact ⟨hfirst, hadded⟩

theorem rewritten_betweenRounds :
    betweenRounds.AfterRounds ∧ betweenRounds.Admits secondRound ∧
    ∃ t', betweenRounds.addMarkers secondRound = .ok t' ∧
      betweenRounds.Rewritten secondRound t' ∧ t'.Consistent := by
  obtain ⟨hfirst, hadded⟩ := addMarkers_firstRound
  have hbetween : betweenRounds.AfterRounds := .round (.built ofEvents_nestedEvents) hfirst hadded
  have hsecond : betweenRounds.Admits secondRound := by decide +kernel
  exact ⟨hbetween, hsecond, hbetween.exists_rewritten hsecond⟩

end Tree

end HotReload
