import HotReload.Proofs.Source.Encodings

/-
  What the spans of a tree say about the events it was built from (`Tree.describes_events`).
  `Event.before` and `Event.inside` read off a sequence of events what stands in front of the start
  of a node and what stands between its start and its end.

  Every node has an `Extent`: a split of the events at its start and its end, with a forest in
  between, whose row the node is. The split is found in the forest of the root
  (`Forest.exists_row_of_places`), and it is the one that the two functions find.
-/

namespace HotReload

namespace Event

/-- The number of nodes that events start. -/
def starts : List Event → Nat
  | [] => 0
  | .start _ _ :: rest => starts rest + 1
  | .token _ :: rest | .trivia _ :: rest | .finish :: rest => starts rest

/-- The events in front of the start of the node at a position. -/
def before : Nat → List Event → List Event
  | _, [] => []
  | 0, .start _ _ :: _ => []
  | id + 1, .start kind name :: rest => .start kind name :: before id rest
  | id, .token text :: rest => .token text :: before id rest
  | id, .trivia text :: rest => .trivia text :: before id rest
  | id, .finish :: rest => .finish :: before id rest

/-- The events behind the start of the node at a position. -/
def behind : Nat → List Event → List Event
  | _, [] => []
  | 0, .start _ _ :: rest => rest
  | id + 1, .start _ _ :: rest => behind id rest
  | id, .token _ :: rest | id, .trivia _ :: rest | id, .finish :: rest => behind id rest

/-- The events in front of the end of a node, if `depth` nodes are open inside of it. -/
def untilFinish : Nat → List Event → List Event
  | _, [] => []
  | 0, .finish :: _ => []
  | depth + 1, .finish :: rest => .finish :: untilFinish depth rest
  | depth, .start kind name :: rest => .start kind name :: untilFinish (depth + 1) rest
  | depth, .token text :: rest => .token text :: untilFinish depth rest
  | depth, .trivia text :: rest => .trivia text :: untilFinish depth rest

/-- The events between the start and the end of the node at a position. -/
def inside (id : Nat) (events : List Event) : List Event := untilFinish 0 (behind id events)

/-- Where the node at a position starts. -/
def startOf (id : Nat) (events : List Event) : Nat := bytes (before id events)

/-- Where the node at a position ends. -/
def stopOf (id : Nat) (events : List Event) : Nat := startOf id events + bytes (inside id events)

/-- Where the significant text of the node at a position stands. -/
def tokensOf (id : Nat) (events : List Event) : List Span :=
  tokens (startOf id events) (inside id events)

theorem starts_append (a b : List Event) : starts (a ++ b) = starts a + starts b := by
  induction a with
  | nil => exact (Nat.zero_add _).symm
  | cons e a ih =>
    cases e with
    | start kind name => simp only [List.cons_append, starts, ih, Nat.add_right_comm]
    | token text | trivia text | finish => exact ih

/-- Text starts no nodes. -/
theorem starts_writing {events : List Event} (h : ∀ e ∈ events, e.isWriting) :
    starts events = 0 := by
  induction events with
  | nil => rfl
  | cons e events ih =>
    have htail := ih fun e' he' => h e' (List.mem_cons_of_mem _ he')
    cases e with
    | start kind name => simpa [isWriting] using h _ List.mem_cons_self
    | token text | trivia text | finish => exact htail

variable {kind : NodeKind} {name : Option String} {rest : List Event}

theorem before_append (front : List Event) (id : Nat) :
    before (starts front + id) (front ++ rest) = front ++ before id rest := by
  induction front with
  | nil => rw [starts, Nat.zero_add, List.nil_append, List.nil_append]
  | cons e front ih =>
    cases e with
    | start kind name =>
      rw [List.cons_append, starts, Nat.add_right_comm, before, ih, List.cons_append]
    | token text | trivia text | finish =>
      rw [List.cons_append, starts, before, ih, List.cons_append]

theorem before_append_start (front : List Event) :
    before (starts front) (front ++ .start kind name :: rest) = front := by
  have happend : before (starts front + 0) (front ++ .start kind name :: rest) = _ :=
    before_append front 0
  rwa [Nat.add_zero, before, List.append_nil] at happend

theorem behind_append_start (front : List Event) :
    behind (starts front) (front ++ .start kind name :: rest) = rest := by
  induction front with
  | nil => rfl
  | cons e front ih => cases e <;> simp only [List.cons_append, starts, behind, ih]

theorem untilFinish_writing {lead : List Event} (h : ∀ e ∈ lead, e.isWriting) (depth : Nat)
    (rest : List Event) : untilFinish depth (lead ++ rest) = lead ++ untilFinish depth rest := by
  induction lead with
  | nil => rfl
  | cons e lead ih =>
    have htail := ih fun e' he' => h e' (List.mem_cons_of_mem _ he')
    cases e with
    | token text | trivia text => rw [List.cons_append, untilFinish, htail, List.cons_append]
    | start kind name => simpa [isWriting] using h _ List.mem_cons_self
    | finish => simpa [isWriting] using h _ List.mem_cons_self

theorem untilFinish_forest (f : Forest) (depth : Nat) (rest : List Event) :
    untilFinish depth (f.events ++ rest) = f.events ++ untilFinish depth rest := by
  induction f generalizing depth rest with
  | nil => rfl
  | token text f ih | trivia text f ih =>
    simp only [Forest.events, List.cons_append, untilFinish, ih]
  | node kind name parts f ihp ihr =>
    simp only [Forest.events, List.cons_append, List.append_assoc, untilFinish, ihp, ihr]

theorem inside_append_start (front : List Event) (parts : Forest) :
    inside (starts front) (front ++ .start kind name :: (parts.events ++ .finish :: rest)) =
      parts.events := by
  rw [inside, behind_append_start, untilFinish_forest, untilFinish, List.append_nil]

/-- What stands in front of some events only opens and ends nodes and moves the text on. -/
theorem pieces_append (front : List Event) (next : Nat) (stack : List Nat) (offset : Nat) :
    ∃ older stack', ∀ rest, pieces next stack offset (front ++ rest) =
      older ++ pieces (next + starts front) stack' (offset + bytes front) rest := by
  induction front generalizing next stack offset with
  | nil => exact ⟨[], stack, fun rest => rfl⟩
  | cons e front ih =>
    cases e with
    | start kind name =>
      obtain ⟨older, stack', h⟩ := ih (next + 1) (next :: stack) offset
      refine ⟨older, stack', fun rest => ?_⟩
      rw [List.cons_append, pieces, h, starts, bytes_cons, Nat.add_right_comm, Nat.add_assoc next]
      simp [Event.text]
    | finish =>
      obtain ⟨older, stack', h⟩ := ih next stack.tail offset
      refine ⟨older, stack', fun rest => ?_⟩
      rw [List.cons_append, pieces, h, starts, bytes_cons]
      simp [Event.text]
    | token text =>
      obtain ⟨older, stack', h⟩ := ih next stack (offset + text.utf8ByteSize)
      refine ⟨(stack.head?.map fun id => ⟨id, true, offset, offset + text.utf8ByteSize⟩).toList ++
        older, stack', fun rest => ?_⟩
      rw [List.cons_append, pieces, h, starts, bytes_cons, List.append_assoc, Event.text,
        Nat.add_assoc offset]
    | trivia text =>
      obtain ⟨older, stack', h⟩ := ih next stack (offset + text.utf8ByteSize)
      refine ⟨(stack.head?.map fun id => ⟨id, false, offset, offset + text.utf8ByteSize⟩).toList ++
        older, stack', fun rest => ?_⟩
      rw [List.cons_append, pieces, h, starts, bytes_cons, List.append_assoc, Event.text,
        Nat.add_assoc offset]

end Event

/-! ## In a forest -/

namespace Forest

variable {f : Forest} {parent : Option Nat} {id offset listed j : Nat} {n : Node}

theorem starts_events (f : Forest) : Event.starts f.events = f.size := by
  induction f with
  | nil => rfl
  | token text f ih | trivia text f ih => exact ih
  | node kind name parts f ihp ihr =>
    simp only [events, Event.starts, Event.starts_append, ihp, ihr, size]
    omega

/-- A node of a forest is the row of the parts between its start and its end. -/
theorem exists_row_of_places (h : f.Places parent id offset listed j n) :
    ∃ (front : List Event) (parts : Forest) (rest : List Event),
      f.events = front ++ .start n.kind n.name :: (parts.events ++ .finish :: rest) ∧
      id + Event.starts front = j ∧
      ∃ before, n = parts.row n.parent j (offset + Event.bytes front) before n.kind n.name := by
  induction f generalizing parent id offset listed with
  | nil => exact h.elim
  | token text f ih | trivia text f ih =>
    obtain ⟨front, parts, rest, hevents, hstarts, before, hrow⟩ := ih h
    refine ⟨_ :: front, parts, rest, congrArg (List.cons _) hevents, hstarts, before, ?_⟩
    rwa [Event.bytes_cons, ← Nat.add_assoc]
  | node kind name parts f ihp ihr =>
    rcases h with ⟨rfl, rfl⟩ | h | h
    · exact ⟨[], parts, f.events, rfl, rfl, listed, rfl⟩
    · obtain ⟨front, inner, rest, hevents, hstarts, before, hrow⟩ := ihp h
      refine ⟨.start kind name :: front, inner, rest ++ .finish :: f.events, ?_, ?_, before, ?_⟩
      · simp only [events, hevents, List.cons_append, List.append_assoc]
      · simp only [Event.starts]
        omega
      · simpa [Event.text] using hrow
    · obtain ⟨front, inner, rest, hevents, hstarts, before, hrow⟩ := ihr h
      refine ⟨.start kind name :: (parts.events ++ .finish :: front), inner, rest, ?_, ?_, before, ?_⟩
      · simp only [events, hevents, List.cons_append, List.append_assoc]
      · simp only [Event.starts, Event.starts_append, starts_events]
        omega
      · simpa [Event.text, bytes_events, Nat.add_assoc] using hrow

end Forest

/-! ## In a tree -/

namespace Tree

variable {path : String} {symbols : Symbols} {events : List Event} {t : Tree} {id : t.Id}

/-- The node at a position is the row of the parts between its start and its end; the full span of
the root is the whole file instead. -/
structure Extent (t : Tree) (events : List Event) (id : t.Id) (front : List Event) (parts : Forest)
    (rest : List Event) : Prop where
  events_eq : events = front ++
    .start (t.node id).kind (t.node id).name :: (parts.events ++ .finish :: rest)
  starts_eq : Event.starts front = id.1
  span_eq : (t.node id).span =
    Forest.cover (parts.tokens (Event.bytes front)) (Event.bytes front + parts.bytes)
  fullSpan_eq : id.1 ≠ 0 →
    (t.node id).fullSpan = ⟨Event.bytes front, Event.bytes front + parts.bytes⟩
  subtreeEnd_eq : (t.node id).subtreeEnd = id.1 + 1 + parts.size

theorem exists_extent (hbuilt : Tree.ofEvents path symbols events = .ok t) (id : t.Id) :
    ∃ front parts rest, t.Extent events id front parts rest := by
  obtain ⟨-, -, ⟨hempty, -⟩ | ⟨r, rfl, hrows⟩⟩ := Tree.ofEvents_eq_ok hbuilt
  · exact absurd id.2 (by simp [hempty])
  have hbefore := Event.starts_writing r.before_writing
  rcases r.root_or_places hrows (t.getElem?_node id) with ⟨hid, hnode⟩ | hplaces
  · refine ⟨r.before, r.parts, r.after, ?_, ?_, ?_, fun h => absurd hid h, ?_⟩
    · rw [hnode]
      rfl
    · rw [hbefore, hid]
    · rw [hnode]
      rfl
    · rw [hnode, hid]
      rfl
  · obtain ⟨front, parts, rest, hevents, hstarts, _, hrow⟩ := Forest.exists_row_of_places hplaces
    have hbytes : Event.bytes (r.before ++ .start r.kind r.name :: front) =
        r.offset + Event.bytes front := by
      simp [Event.text, Rooted.offset]
    refine ⟨r.before ++ .start r.kind r.name :: front, parts, rest ++ .finish :: r.after, ?_, ?_, ?_,
      fun _ => ?_, ?_⟩
    · rw [Rooted.events, hevents]
      simp
    · rw [Event.starts_append, hbefore, Event.starts]
      omega
    · rw [hbytes, hrow]
      rfl
    · rw [hbytes, hrow]
      rfl
    · rw [hrow]
      rfl

namespace Extent

variable {front rest : List Event} {parts : Forest}

theorem before_eq (h : t.Extent events id front parts rest) : Event.before id.1 events = front := by
  rw [h.events_eq, ← h.starts_eq]
  exact Event.before_append_start front

theorem inside_eq (h : t.Extent events id front parts rest) :
    Event.inside id.1 events = parts.events := by
  rw [h.events_eq, ← h.starts_eq]
  exact Event.inside_append_start front parts

theorem startOf_eq (h : t.Extent events id front parts rest) :
    Event.startOf id.1 events = Event.bytes front := by
  rw [Event.startOf, h.before_eq]

theorem stopOf_eq (h : t.Extent events id front parts rest) :
    Event.stopOf id.1 events = Event.bytes front + parts.bytes := by
  rw [Event.stopOf, h.startOf_eq, h.inside_eq, Forest.bytes_events]

theorem tokensOf_eq (h : t.Extent events id front parts rest) :
    Event.tokensOf id.1 events = parts.tokens (Event.bytes front) := by
  rw [Event.tokensOf, h.startOf_eq, h.inside_eq, Forest.tokens_events]

/-- The pieces of the parts are pieces of the whole text. -/
theorem mem_pieces (h : t.Extent events id front parts rest) {p : Piece}
    (hp : p ∈ parts.pieces id.1 (id.1 + 1) (Event.bytes front)) :
    p ∈ Event.pieces 0 [] 0 events := by
  obtain ⟨older, stack, hpieces⟩ := Event.pieces_append front 0 [] 0
  rw [h.events_eq, hpieces, h.starts_eq, Event.pieces, Nat.zero_add, Nat.zero_add,
    Forest.pieces_events]
  exact List.mem_append_right _ (List.mem_append_left _ hp)

end Extent

/-- A tree has as many nodes as its description starts. -/
theorem starts_eq_size (hbuilt : Tree.ofEvents path symbols events = .ok t) :
    Event.starts events = t.size := by
  obtain ⟨-, -, ⟨hempty, hwriting⟩ | ⟨r, rfl, hrows⟩⟩ := Tree.ofEvents_eq_ok hbuilt
  · rw [Event.starts_writing hwriting, size, hempty]
    rfl
  · rw [size, Rooted.size_eq hrows, Rooted.events, Event.starts_append, Event.starts,
      Event.starts_append, Event.starts, Forest.starts_events, Event.starts_writing r.before_writing,
      Event.starts_writing r.after_writing]
    omega

/-- Significant text of a node lies in the significant span of every node around it. -/
theorem contains_of_mem_tokensOf (hbuilt : Tree.ofEvents path symbols events = .ok t)
    {above : t.Id} (habove : above.1 ≤ id.1) (hbelow : id.1 < (t.node above).subtreeEnd) {s : Span}
    (hs : s ∈ Event.tokensOf id.1 events) : (t.node above).span.contains s = true := by
  obtain ⟨front, parts, rest, hextent⟩ := exists_extent hbuilt id
  rw [hextent.tokensOf_eq] at hs
  obtain ⟨owner, howner⟩ := Forest.exists_piece_of_mem_tokens id.1 (id.1 + 1) hs
  have hbounds := (Forest.pieces_bounds howner).2.2.2
  have hend := (Tree.nested hbuilt).end_le (t.getElem?_node above) (t.getElem?_node id) habove hbelow
  have hsize := hextent.subtreeEnd_eq
  exact contains_of_below hbuilt (hextent.mem_pieces howner) rfl (by dsimp only at *; omega)
    (by dsimp only at *; omega)

/-- The significant span of a node goes from its first significant text to its last. -/
theorem span_of_tokensOf (hbuilt : Tree.ofEvents path symbols events = .ok t) {first last : Span}
    (hfirst : (Event.tokensOf id.1 events).head? = some first)
    (hlast : (Event.tokensOf id.1 events).getLast? = some last) :
    (t.node id).span = ⟨first.start, last.stop⟩ := by
  obtain ⟨front, parts, rest, hextent⟩ := exists_extent hbuilt id
  rw [hextent.tokensOf_eq] at hfirst hlast
  rw [hextent.span_eq, Forest.cover, hfirst, hlast]
  rfl

/-- A node without significant text is an insertion point at its end. -/
theorem span_of_tokenless (hbuilt : Tree.ofEvents path symbols events = .ok t)
    (hnone : Event.tokensOf id.1 events = []) :
    (t.node id).span = .point (Event.stopOf id.1 events) := by
  obtain ⟨front, parts, rest, hextent⟩ := exists_extent hbuilt id
  rw [hextent.tokensOf_eq] at hnone
  rw [hextent.span_eq, hextent.stopOf_eq, hnone]
  rfl

/-- The significant span of a node that has significant text lies in that of every node around it,
and this holds for empty text, too. -/
theorem contains_span (hbuilt : Tree.ofEvents path symbols events = .ok t) {above : t.Id}
    (habove : above.1 ≤ id.1) (hbelow : id.1 < (t.node above).subtreeEnd)
    (htokens : Event.tokensOf id.1 events ≠ []) :
    (t.node above).span.contains (t.node id).span = true := by
  have hfirst := List.head?_eq_some_head htokens
  have hlast := List.getLast?_eq_some_getLast htokens
  have hcontainsFirst := contains_of_mem_tokensOf hbuilt habove hbelow (List.head_mem htokens)
  have hcontainsLast := contains_of_mem_tokensOf hbuilt habove hbelow (List.getLast_mem htokens)
  rw [span_of_tokensOf hbuilt hfirst hlast]
  exact Span.contains_iff.2
    ⟨(Span.contains_iff.1 hcontainsFirst).1, (Span.contains_iff.1 hcontainsLast).2⟩

/-- The text between two places of the events. -/
theorem slice_written (front middle rest : List Event)
    (htext : t.text = Event.written (front ++ middle ++ rest)) :
    t.slice ⟨Event.bytes front, Event.bytes front + Event.bytes middle⟩ = Event.written middle := by
  have hslice := Text.slice?_append (Event.written front).toList (Event.written middle).toList
    (Event.written rest).toList
  simp only [← Text.utf8ByteSize_eq_byteLength, Event.utf8ByteSize_written] at hslice
  rw [slice, htext, Event.written_append, Event.written_append, String.toList_append,
    String.toList_append, hslice, Option.getD_some, String.ofList_toList]

/-- The full span of the root is the whole file. -/
theorem fullSpan_root (hbuilt : Tree.ofEvents path symbols events = .ok t) (hid : id.1 = 0) :
    (t.node id).fullSpan = ⟨0, t.text.utf8ByteSize⟩ := by
  rw [Text.utf8ByteSize_eq_byteLength]
  exact (Tree.laid hbuilt).root (hid ▸ t.getElem?_node id)

theorem slice_root (hbuilt : Tree.ofEvents path symbols events = .ok t) (hid : id.1 = 0) :
    t.slice (t.node id).fullSpan = t.text := by
  have htext : t.text = Event.written events := (Tree.ofEvents_eq_ok hbuilt).1
  have hslice := slice_written (t := t) [] events []
    (by rw [htext, List.nil_append, List.append_nil])
  rw [Event.bytes_nil, Nat.zero_add] at hslice
  rw [fullSpan_root hbuilt hid, htext, Event.utf8ByteSize_written, hslice]

/-- The full span of any other node goes from its start to its end. -/
theorem fullSpan_eq (hbuilt : Tree.ofEvents path symbols events = .ok t) (hid : id.1 ≠ 0) :
    (t.node id).fullSpan = ⟨Event.startOf id.1 events, Event.stopOf id.1 events⟩ := by
  obtain ⟨front, parts, rest, hextent⟩ := exists_extent hbuilt id
  rw [hextent.fullSpan_eq hid, hextent.startOf_eq, hextent.stopOf_eq]

/-- The full span of a node holds what was written between its start and its end. -/
theorem slice_fullSpan (hbuilt : Tree.ofEvents path symbols events = .ok t) (hid : id.1 ≠ 0) :
    t.slice (t.node id).fullSpan = Event.written (Event.inside id.1 events) := by
  have htext : t.text = Event.written events := (Tree.ofEvents_eq_ok hbuilt).1
  obtain ⟨front, parts, rest, hextent⟩ := exists_extent hbuilt id
  rw [hextent.fullSpan_eq hid, hextent.inside_eq, ← Forest.bytes_events]
  have hslice := slice_written (t := t) (front ++ [.start (t.node id).kind (t.node id).name])
    parts.events (.finish :: rest) (by rw [htext, hextent.events_eq]; simp)
  rwa [Event.bytes_append, Event.bytes_cons, Event.bytes_nil, Event.text,
    String.utf8ByteSize_empty, Nat.add_zero] at hslice

/-- The spans of a tree say where its nodes stand in the text that some events write. -/
structure Describes (t : Tree) (events : List Event) : Prop where
  /-- The text is everything written, in order. -/
  text : t.text = Event.written events
  /-- The full span of the root is the whole file. -/
  root : ∀ id, id.1 = 0 → (t.node id).fullSpan = ⟨0, t.text.utf8ByteSize⟩ ∧
    t.slice (t.node id).fullSpan = t.text
  /-- The full span of any other node goes from its start to its end, and its text is what was
  written in between. -/
  fullSpan : ∀ id, id.1 ≠ 0 →
    (t.node id).fullSpan = ⟨Event.startOf id.1 events, Event.stopOf id.1 events⟩ ∧
    t.slice (t.node id).fullSpan = Event.written (Event.inside id.1 events)
  /-- The significant span goes from the first significant text inside the node to the last; -/
  span : ∀ id first last, (Event.tokensOf id.1 events).head? = some first →
    (Event.tokensOf id.1 events).getLast? = some last → (t.node id).span = ⟨first.start, last.stop⟩
  /-- without any, it is the insertion point at the end of the node. -/
  tokenless : ∀ id, Event.tokensOf id.1 events = [] →
    (t.node id).span = .point (Event.stopOf id.1 events)
  /-- Spans are not inverted and stand in the text, the significant one in the full one, -/
  ordered : ∀ id, (t.node id).fullSpan.start ≤ (t.node id).span.start ∧
    (t.node id).span.start ≤ (t.node id).span.stop ∧
    (t.node id).span.stop ≤ (t.node id).fullSpan.stop ∧
    (t.node id).fullSpan.stop ≤ t.text.utf8ByteSize
  /-- and characters end at all their offsets. -/
  cuts : ∀ id, Text.IsCut t.text.toList (t.node id).span.start ∧
    Text.IsCut t.text.toList (t.node id).span.stop ∧
    Text.IsCut t.text.toList (t.node id).fullSpan.start ∧
    Text.IsCut t.text.toList (t.node id).fullSpan.stop
  /-- Children stand inside of their parent, -/
  child : ∀ id, ∀ c ∈ t.children id,
    (t.node id).fullSpan.contains (t.node c).fullSpan = true ∧
    (Event.tokensOf c.1 events ≠ [] → (t.node id).span.contains (t.node c).span = true)
  /-- each behind the one before. -/
  siblings : ∀ id, (t.children id).toList.Pairwise fun a b =>
    (t.node a).fullSpan.stop ≤ (t.node b).fullSpan.start

/-- The spans of every tree from events describe the text that the events write. -/
theorem describes_events (hbuilt : Tree.ofEvents path symbols events = .ok t) :
    t.Describes events where
  text := (Tree.ofEvents_eq_ok hbuilt).1
  root id hid := ⟨fullSpan_root hbuilt hid, slice_root hbuilt hid⟩
  fullSpan id hid := ⟨fullSpan_eq hbuilt hid, slice_fullSpan hbuilt hid⟩
  span _ _ _ := span_of_tokensOf hbuilt
  tokenless _ := span_of_tokenless hbuilt
  ordered id := by
    obtain ⟨hstart, hle, hstop⟩ := (Tree.laid hbuilt).within (t.getElem?_node id)
    have hcut := ((Tree.laid hbuilt).cuts (t.getElem?_node id)).2.2.2
    rw [Text.utf8ByteSize_eq_byteLength]
    exact ⟨hstart, hle, hstop, hcut.le_byteLength⟩
  cuts id := (Tree.laid hbuilt).cuts (t.getElem?_node id)
  child id c hc := by
    have hp := (mem_children_iff_parent? hbuilt).1 hc
    obtain ⟨hlt, hend⟩ := below_of_parent? hbuilt hp (Nat.le_refl _) (lt_subtreeEnd hbuilt id).1
    obtain ⟨hstart, hstop, -⟩ :=
      (Tree.laid hbuilt).below (t.getElem?_node id) (t.getElem?_node c) hlt hend
    exact ⟨Span.contains_iff.2 ⟨hstart, hstop⟩, contains_span hbuilt (Nat.le_of_lt hlt) hend⟩
  siblings id := by
    have hsiblings := (Tree.nestedChildren hbuilt).siblings (t.getElem?_node id)
    rw [← toList_children, List.pairwise_map] at hsiblings
    refine hsiblings.imp fun {a b} hab => ?_
    exact (Tree.laid hbuilt).apart (t.getElem?_node a) (t.getElem?_node b) (hab (t.getElem?_node a))

/-- A file with a comment in front of its root and a line break behind it, a node without any text, a
node whose only text is empty, and a character of two bytes. -/
def spareEvents : List Event :=
  [.trivia "// é\n", .start .compilationUnit none, .start .attributeList none, .finish,
    .start .method "M", .trivia " ", .token "é", .start .block none, .token "", .finish,
    .trivia "\n", .finish, .finish, .trivia "\n"]

/-- The tree of these nodes. -/
def spare : Tree := .ofBuilder "A.cs" .empty (Builder.empty.run spareEvents)

theorem describes_events_spare :
    Tree.ofEvents "A.cs" .empty spareEvents = .ok spare ∧ spare.Describes spareEvents :=
  ⟨rfl, describes_events (rfl : Tree.ofEvents "A.cs" .empty spareEvents = .ok spare)⟩

end Tree

end HotReload
