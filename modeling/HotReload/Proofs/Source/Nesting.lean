import HotReload.Proofs.Source.Accept

/-
  How the nodes of a tree stand to one another and to the text. `Forest.Places` says that a forest
  puts a node at a position; its facts are inductions on the forest.

  A node and a piece of text are apart, or the piece is inside the node and the node is an ancestor
  of the one that the piece is written in (`Tree.apart_or_below`). The ends of subtrees and the
  parents describe one order: what stands below a node by its end has the node among its ancestors,
  and nothing but nodes below it comes before (`Tree.exists_ancestors_eq`).
-/

namespace HotReload

/-- A piece of the text: the node that it is written straight into, and where it stands. -/
structure Piece where
  owner : Nat
  significant : Bool
  span : Span
  deriving DecidableEq, Repr

/-- The pieces of the text that some events write while a node is open. The nodes in `stack` are
open, innermost first, and the next node gets position `next`. -/
def Event.pieces (next : Nat) (stack : List Nat) (offset : Nat) : List Event → List Piece
  | [] => []
  | .start _ _ :: rest => pieces (next + 1) (next :: stack) offset rest
  | .finish :: rest => pieces next stack.tail offset rest
  | .token text :: rest =>
    (stack.head?.map fun id => ⟨id, true, offset, offset + text.utf8ByteSize⟩).toList ++
      pieces next stack (offset + text.utf8ByteSize) rest
  | .trivia text :: rest =>
    (stack.head?.map fun id => ⟨id, false, offset, offset + text.utf8ByteSize⟩).toList ++
      pieces next stack (offset + text.utf8ByteSize) rest

namespace Forest

/-- The pieces of a forest inside of the node `owner`. -/
def pieces (owner id offset : Nat) : Forest → List Piece
  | nil => []
  | token text rest =>
    ⟨owner, true, offset, offset + text.utf8ByteSize⟩ ::
      rest.pieces owner id (offset + text.utf8ByteSize)
  | trivia text rest =>
    ⟨owner, false, offset, offset + text.utf8ByteSize⟩ ::
      rest.pieces owner id (offset + text.utf8ByteSize)
  | node _ _ parts rest =>
    parts.pieces id (id + 1) offset ++
      rest.pieces owner (id + 1 + parts.size) (offset + parts.bytes)

theorem pieces_events (f : Forest) (owner : Nat) (stack : List Nat) (id offset : Nat)
    (events : List Event) :
    Event.pieces id (owner :: stack) offset (f.events ++ events) =
      f.pieces owner id offset ++
        Event.pieces (id + f.size) (owner :: stack) (offset + f.bytes) events := by
  induction f generalizing owner stack id offset events with
  | nil => rfl
  | token text rest ih | trivia text rest ih =>
    simp only [Forest.events, List.cons_append, Event.pieces, ih, pieces, bytes, size]
    simp [Nat.add_assoc]
  | node kind name parts rest ihp ihr =>
    simp only [Forest.events, List.cons_append, List.append_assoc, Event.pieces, ihp,
      List.tail_cons, ihr, pieces, bytes, size]
    rw [show id + 1 + parts.size + rest.size = id + (parts.size + 1 + rest.size) by omega,
      Nat.add_assoc offset]

/-- The forest puts a node at position `j`, if its first node gets position `id`, its text starts at
an offset, and the list of children has `listed` entries before. -/
def Places (parent : Option Nat) (id offset listed j : Nat) (n : Node) : Forest → Prop
  | nil => False
  | token text rest | trivia text rest =>
    rest.Places parent id (offset + text.utf8ByteSize) listed j n
  | node kind name parts rest =>
    (j = id ∧ n = parts.row parent id offset listed kind name) ∨
      parts.Places (some id) (id + 1) offset listed j n ∨
      rest.Places parent (id + 1 + parts.size) (offset + parts.bytes) (listed + parts.size) j n

variable {f : Forest} {parent : Option Nat} {id offset listed i j : Nat} {m n : Node}

theorem places_of_getElem? {k : Nat} (h : (f.layout parent id offset listed)[k]? = some n) :
    f.Places parent id offset listed (id + k) n := by
  induction f generalizing parent id offset listed k with
  | nil => simp [layout] at h
  | token text rest ih | trivia text rest ih => exact ih h
  | node kind name parts rest ihp ihr =>
    simp only [layout] at h
    cases k with
    | zero => exact Or.inl ⟨rfl, (Option.some.inj h).symm⟩
    | succ k =>
      rw [List.getElem?_cons_succ] at h
      by_cases hk : k < parts.size
      · rw [List.getElem?_append_left (by simpa using hk)] at h
        have := ihp h
        rw [show id + 1 + k = id + (k + 1) by omega] at this
        exact Or.inr (Or.inl this)
      · rw [List.getElem?_append_right (by simpa using hk), length_layout] at h
        have := ihr h
        rw [show id + 1 + parts.size + (k - parts.size) = id + (k + 1) by omega] at this
        exact Or.inr (Or.inr this)

/-- Positions and offsets of a node stay within the forest. -/
theorem bounds_of_places (h : f.Places parent id offset listed j n) :
    id ≤ j ∧ j < n.subtreeEnd ∧ n.subtreeEnd ≤ id + f.size ∧
    offset ≤ n.fullSpan.start ∧ n.fullSpan.start ≤ n.fullSpan.stop ∧
    n.fullSpan.stop ≤ offset + f.bytes := by
  induction f generalizing parent id offset listed with
  | nil => exact h.elim
  | token text rest ih | trivia text rest ih =>
    have := ih h
    simp only [size, bytes]
    omega
  | node kind name parts rest ihp ihr =>
    simp only [size, bytes]
    rcases h with ⟨rfl, rfl⟩ | h | h
    · simp only [row]
      omega
    · have := ihp h
      omega
    · have := ihr h
      omega

/-- Of two nodes in a forest that starts with a node, the one in front is that node and the other one
stands in its parts, or both stand in its parts, or both behind it; or else the subtree of the one in
front has ended where the rest begins, with the other one in it. -/
theorem cases_of_places {kind : NodeKind} {name : Option String} {parts rest : Forest}
    (hm : (node kind name parts rest).Places parent id offset listed i m)
    (hn : (node kind name parts rest).Places parent id offset listed j n) (hij : i < j) :
    (j < m.subtreeEnd ∧ (i = id ∧ m = parts.row parent id offset listed kind name) ∧
        parts.Places (some id) (id + 1) offset listed j n) ∨
      (parts.Places (some id) (id + 1) offset listed i m ∧
        parts.Places (some id) (id + 1) offset listed j n) ∨
      (rest.Places parent (id + 1 + parts.size) (offset + parts.bytes) (listed + parts.size) i m ∧
        rest.Places parent (id + 1 + parts.size) (offset + parts.bytes) (listed + parts.size) j n) ∨
      (m.subtreeEnd ≤ j ∧
        ((i = id ∧ m = parts.row parent id offset listed kind name) ∨
          parts.Places (some id) (id + 1) offset listed i m) ∧
        rest.Places parent (id + 1 + parts.size) (offset + parts.bytes) (listed + parts.size) j n) := by
  rcases hn with ⟨rfl, -⟩ | hn | hn
  · -- nothing stands in front of the first node
    have hbounds := bounds_of_places hm
    omega
  · have hbounds := bounds_of_places hn
    rcases hm with ⟨rfl, rfl⟩ | hm | hm
    · exact .inl ⟨Nat.lt_of_lt_of_le (by omega) hbounds.2.2.1, ⟨rfl, rfl⟩, hn⟩
    · exact .inr (.inl ⟨hm, hn⟩)
    · have := bounds_of_places hm
      omega
  · have hbounds := bounds_of_places hn
    rcases hm with hm | hm | hm
    · refine .inr (.inr (.inr ⟨?_, .inl hm, hn⟩))
      rw [hm.2]
      exact hbounds.1
    · have := bounds_of_places hm
      exact .inr (.inr (.inr ⟨by omega, .inr hm, hn⟩))
    · exact .inr (.inr (.inl ⟨hm, hn⟩))

/-- The parent of a node is the one of the forest or a node of the forest before it. -/
theorem parent_of_places (h : f.Places parent id offset listed j n) :
    n.parent = parent ∨ ∃ p, n.parent = some p ∧ id ≤ p ∧ p < j := by
  induction f generalizing parent id offset listed with
  | nil => exact h.elim
  | token text rest ih | trivia text rest ih => exact ih h
  | node kind name parts rest ihp ihr =>
    rcases h with ⟨rfl, rfl⟩ | h | h
    · exact Or.inl rfl
    · have hbounds := bounds_of_places h
      rcases ihp h with hp | ⟨p, hp, hle, hlt⟩
      · exact Or.inr ⟨id, hp, Nat.le_refl _, by omega⟩
      · exact Or.inr ⟨p, hp, by omega, hlt⟩
    · rcases ihr h with hp | ⟨p, hp, hle, hlt⟩
      · exact Or.inl hp
      · exact Or.inr ⟨p, hp, by omega, hlt⟩

/-- What stands below a node by its end has a parent that is the node or stands below it, too. -/
theorem parent_of_places_below (hm : f.Places parent id offset listed i m)
    (hn : f.Places parent id offset listed j n) (hij : i < j) (hj : j < m.subtreeEnd) :
    ∃ p, n.parent = some p ∧ i ≤ p ∧ p < j := by
  induction f generalizing parent id offset listed with
  | nil => exact hm.elim
  | token text rest ih | trivia text rest ih => exact ih hm hn
  | node kind name parts rest ihp ihr =>
    rcases cases_of_places hm hn hij with
      ⟨-, ⟨rfl, -⟩, hn⟩ | ⟨hm, hn⟩ | ⟨hm, hn⟩ | ⟨hend, -⟩
    · rcases parent_of_places hn with hp | ⟨p, hp, hle, hlt⟩
      · exact ⟨i, hp, Nat.le_refl _, hij⟩
      · exact ⟨p, hp, by omega, hlt⟩
    · exact ihp hm hn
    · exact ihr hm hn
    · omega

/-- What has its parent at or below a node stands below the node. -/
theorem below_of_parent_below {q : Nat} (hm : f.Places parent id offset listed i m)
    (hn : f.Places parent id offset listed j n) (hparent : ∀ p, parent = some p → p < id)
    (hq : n.parent = some q) (hiq : i ≤ q) (hqm : q < m.subtreeEnd) :
    i < j ∧ j < m.subtreeEnd := by
  have hij : i < j := by
    have hbounds := bounds_of_places hm
    rcases parent_of_places hn with hp | ⟨p, hp, -, hlt⟩
    · have := hparent q (hp ▸ hq)
      omega
    · have := Option.some.inj (hp.symm.trans hq)
      omega
  refine ⟨hij, ?_⟩
  induction f generalizing parent id offset listed with
  | nil => exact hm.elim
  | token text rest ih | trivia text rest ih => exact ih hm hn hparent
  | node kind name parts rest ihp ihr =>
    have hfirst := bounds_of_places hm
    rcases cases_of_places hm hn hij with ⟨hlt, -⟩ | ⟨hm, hn⟩ | ⟨hm, hn⟩ | ⟨-, hm, hn⟩
    · exact hlt
    · refine ihp hm hn fun p hp => ?_
      exact Option.some.inj hp ▸ Nat.lt_succ_self _
    · refine ihr hm hn fun p hp => ?_
      have := hparent p hp
      omega
    · -- in the rest, parents are outside of the forest or in the rest, too
      have hend : m.subtreeEnd ≤ id + 1 + parts.size := by
        rcases hm with ⟨-, rfl⟩ | hm
        · exact Nat.le_refl _
        · exact (bounds_of_places hm).2.2.1
      rcases parent_of_places hn with hp | ⟨p, hp, hle, -⟩
      · have := hparent q (hp ▸ hq)
        omega
      · have := Option.some.inj (hp.symm.trans hq)
        omega

/-- Nodes in pre-order are in order of where they start. -/
theorem start_le_of_places (hm : f.Places parent id offset listed i m)
    (hn : f.Places parent id offset listed j n) (hij : i < j) :
    m.fullSpan.start ≤ n.fullSpan.start := by
  induction f generalizing parent id offset listed with
  | nil => exact hm.elim
  | token text rest ih | trivia text rest ih => exact ih hm hn
  | node kind name parts rest ihp ihr =>
    rcases cases_of_places hm hn hij with
      ⟨-, ⟨-, rfl⟩, hn⟩ | ⟨hm, hn⟩ | ⟨hm, hn⟩ | ⟨-, ⟨-, rfl⟩ | hm, hn⟩
    · exact (bounds_of_places hn).2.2.2.1
    · exact ihp hm hn
    · exact ihr hm hn
    · exact Nat.le_trans (Nat.le_add_right _ _) (bounds_of_places hn).2.2.2.1
    · have hboundsM := bounds_of_places hm
      have hbounds := bounds_of_places hn
      omega

/-- Pieces stay within the forest, and in its nodes or in the one around it. -/
theorem pieces_bounds {owner : Nat} {p : Piece} (h : p ∈ f.pieces owner id offset) :
    offset ≤ p.span.start ∧ p.span.start ≤ p.span.stop ∧ p.span.stop ≤ offset + f.bytes ∧
    (p.owner = owner ∨ id ≤ p.owner ∧ p.owner < id + f.size) := by
  induction f generalizing owner id offset with
  | nil => simp [pieces] at h
  | token text rest ih | trivia text rest ih =>
    simp only [pieces, List.mem_cons] at h
    simp only [size, bytes]
    rcases h with rfl | h
    · exact ⟨Nat.le_refl _, Nat.le_add_right _ _, by dsimp only; omega, Or.inl rfl⟩
    · have := ih h
      omega
  | node kind name parts rest ihp ihr =>
    simp only [pieces, List.mem_append] at h
    simp only [size, bytes]
    rcases h with h | h
    · have := ihp h
      omega
    · have := ihr h
      omega

theorem mem_tokens_of_mem_pieces {owner : Nat} {p : Piece} (h : p ∈ f.pieces owner id offset)
    (hsignificant : p.significant = true) : p.span ∈ f.tokens offset := by
  induction f generalizing owner id offset with
  | nil => simp [pieces] at h
  | token text rest ih =>
    simp only [pieces, List.mem_cons] at h
    rcases h with rfl | h
    · exact List.mem_cons_self
    · exact List.mem_cons_of_mem _ (ih h)
  | trivia text rest ih =>
    simp only [pieces, List.mem_cons] at h
    rcases h with rfl | h
    · simp at hsignificant
    · exact ih h
  | node kind name parts rest ihp ihr =>
    simp only [pieces, List.mem_append] at h
    exact List.mem_append.2 (h.imp ihp ihr)

theorem exists_piece_of_mem_tokens {s : Span} (owner id : Nat) (h : s ∈ f.tokens offset) :
    ∃ w, ⟨w, true, s⟩ ∈ f.pieces owner id offset := by
  induction f generalizing owner id offset with
  | nil => simp [tokens] at h
  | token text rest ih =>
    simp only [tokens, List.mem_cons] at h
    rcases h with rfl | h
    · exact ⟨owner, List.mem_cons_self⟩
    · obtain ⟨w, hw⟩ := ih _ _ h
      exact ⟨w, List.mem_cons_of_mem _ hw⟩
  | trivia text rest ih =>
    obtain ⟨w, hw⟩ := ih _ _ h
    exact ⟨w, List.mem_cons_of_mem _ hw⟩
  | node kind name parts rest ihp ihr =>
    simp only [tokens, List.mem_append] at h
    rcases h with h | h
    · obtain ⟨w, hw⟩ := ihp _ _ h
      exact ⟨w, List.mem_append_left _ hw⟩
    · obtain ⟨w, hw⟩ := ihr _ _ h
      exact ⟨w, List.mem_append_right _ hw⟩

/-- The significant span of a node covers the significant text of its parts. -/
theorem cover_contains {stop : Nat} {s : Span} (h : s ∈ f.tokens offset) :
    (cover (f.tokens offset) stop).contains s = true :=
  cover_of_mem (fun _ ht => (tokens_bounds ht).2.1) (f.tokens_pairwise offset) h

/-- A node and a piece are apart, or the piece is inside the node, and in it or in a node below
it. -/
theorem apart_or_below {owner : Nat} {p : Piece} (howner : owner < id)
    (hp : p ∈ f.pieces owner id offset) (hn : f.Places parent id offset listed j n) :
    p.span.stop ≤ n.fullSpan.start ∨ n.fullSpan.stop ≤ p.span.start ∨
      ((p.significant = true → n.span.contains p.span = true) ∧ j ≤ p.owner ∧
        p.owner < n.subtreeEnd) := by
  induction f generalizing parent owner id offset listed with
  | nil => exact hn.elim
  | token text rest ih | trivia text rest ih =>
    simp only [pieces, List.mem_cons] at hp
    rcases hp with rfl | hp
    · exact Or.inl (bounds_of_places (f := rest) hn).2.2.2.1
    · exact ih howner hp hn
  | node kind name parts rest ihp ihr =>
    simp only [pieces, List.mem_append] at hp
    rcases hp with hp | hp <;> have hbounds := pieces_bounds hp
    · rcases hn with ⟨rfl, rfl⟩ | hn | hn
      · refine Or.inr (Or.inr ⟨fun hs => cover_contains (mem_tokens_of_mem_pieces hp hs), ?_, ?_⟩)
        · omega
        · simp only [row]
          omega
      · exact ihp (Nat.lt_succ_self _) hp hn
      · have := bounds_of_places hn
        omega
    · rcases hn with ⟨rfl, rfl⟩ | hn | hn
      · simp only [row]
        omega
      · have := bounds_of_places hn
        omega
      · exact ihr (by omega) hp hn

/-- What is written in a node or below it lies in its full span, and in its span if it is
significant. -/
theorem contains_of_below {owner : Nat} {p : Piece} (howner : owner < id)
    (hp : p ∈ f.pieces owner id offset) (hn : f.Places parent id offset listed j n)
    (hle : j ≤ p.owner) (hlt : p.owner < n.subtreeEnd) :
    n.fullSpan.contains p.span = true ∧
      (p.significant = true → n.span.contains p.span = true) := by
  induction f generalizing parent owner id offset listed with
  | nil => exact hn.elim
  | token text rest ih | trivia text rest ih =>
    simp only [pieces, List.mem_cons] at hp
    rcases hp with rfl | hp
    · have := bounds_of_places (f := rest) hn
      dsimp only at hle
      omega
    · exact ih howner hp hn
  | node kind name parts rest ihp ihr =>
    simp only [pieces, List.mem_append] at hp
    rcases hp with hp | hp <;> have hbounds := pieces_bounds hp
    · rcases hn with ⟨rfl, rfl⟩ | hn | hn
      · exact ⟨Span.contains_iff.2 ⟨hbounds.1, hbounds.2.2.1⟩,
          fun hs => cover_contains (mem_tokens_of_mem_pieces hp hs)⟩
      · exact ihp (Nat.lt_succ_self _) hp hn
      · have := bounds_of_places hn
        omega
    · rcases hn with ⟨rfl, rfl⟩ | hn | hn
      · simp only [row] at hlt
        omega
      · have := bounds_of_places hn
        omega
      · exact ihr (by omega) hp hn

end Forest

namespace Rooted

theorem pieces_writing {es : List Event} (h : ∀ e ∈ es, e.isWriting) (next offset : Nat)
    (events : List Event) :
    Event.pieces next [] offset (es ++ events) =
      Event.pieces next [] (offset + Event.bytes es) events := by
  induction es generalizing offset with
  | nil => rfl
  | cons e es ih =>
    have hes := fun e' he' => h e' (List.mem_cons_of_mem _ he')
    cases e with
    | token text | trivia text =>
      simp only [List.cons_append, Event.pieces, ih hes, Event.bytes_cons, Event.text]
      simp [Nat.add_assoc]
    | start kind name => simpa [Event.isWriting] using h _ List.mem_cons_self
    | finish => simpa [Event.isWriting] using h _ List.mem_cons_self

/-- Every piece is written in the root or below it. -/
theorem pieces_events (r : Rooted) :
    Event.pieces 0 [] 0 r.events = r.parts.pieces 0 1 r.offset := by
  have hafter := pieces_writing r.after_writing (1 + r.parts.size) (r.offset + r.parts.bytes) []
  rw [List.append_nil] at hafter
  rw [events, pieces_writing r.before_writing, Event.pieces, Forest.pieces_events, Event.pieces,
    List.tail_cons, Nat.zero_add, Nat.zero_add]
  exact (congrArg _ hafter).trans (List.append_nil _)

/-- A node of the tree is the root, or one of the parts. -/
theorem eq_or_places {t : Tree} {r : Rooted} (h : t.nodes.toList = r.rows) (id : t.Id) :
    (id.1 = 0 ∧ (t.node id).span = (r.parts.row none 0 r.offset 0 r.kind r.name).span ∧
      (t.node id).subtreeEnd = 1 + r.parts.size) ∨
    r.parts.Places (some 0) 1 r.offset 0 id.1 (t.node id) := by
  have hnode : r.rows[id.1]? = some (t.node id) := by
    rw [← h, Array.getElem?_toList]
    exact Array.getElem?_eq_getElem id.2
  cases hid : id.1 with
  | zero =>
    rw [hid] at hnode
    rw [← Option.some.inj hnode]
    exact Or.inl ⟨rfl, rfl, by simp [Forest.row]⟩
  | succ i =>
    rw [hid] at hnode
    have hplaces := Forest.places_of_getElem? (f := r.parts) hnode
    rw [Nat.add_comm] at hplaces
    exact Or.inr hplaces

end Rooted

namespace Tree

variable {path : String} {symbols : Symbols} {events : List Event} {t : Tree}

/-- The root has all significant text in its span, and all nodes below it. -/
theorem root_contains (hbuilt : Tree.ofEvents path symbols events = .ok t) {p : Piece}
    (hp : p ∈ Event.pieces 0 [] 0 events) {id : t.Id} (hid : id.1 = 0) :
    (p.significant = true → (t.node id).span.contains p.span = true) ∧
      p.owner < (t.node id).subtreeEnd := by
  obtain ⟨-, -, ⟨hempty, -⟩ | ⟨r, rfl, hrows⟩⟩ := Tree.ofEvents_eq_ok hbuilt
  · exact absurd id.2 (by simp [hempty])
  rw [r.pieces_events] at hp
  rcases r.eq_or_places hrows id with ⟨-, hspan, hend⟩ | hplaces
  · have hbounds := Forest.pieces_bounds hp
    rw [hspan, hend]
    exact ⟨fun hs => Forest.cover_contains (Forest.mem_tokens_of_mem_pieces hp hs), by omega⟩
  · have := Forest.bounds_of_places hplaces
    omega

theorem piece_bounds (hbuilt : Tree.ofEvents path symbols events = .ok t) {p : Piece}
    (hp : p ∈ Event.pieces 0 [] 0 events) (hnodes : 0 < t.size) :
    p.span.start ≤ p.span.stop ∧ p.owner < t.size := by
  obtain ⟨-, -, ⟨hempty, -⟩ | ⟨r, rfl, hrows⟩⟩ := Tree.ofEvents_eq_ok hbuilt
  · exact absurd hnodes (by simp [size, hempty])
  rw [r.pieces_events] at hp
  have hbounds := Forest.pieces_bounds hp
  rw [size, ← Array.length_toList, hrows, Rooted.rows, List.length_cons, Forest.length_layout]
  omega

/-- A node and a piece of text are apart, or the node is an ancestor of the one that the piece is
written in, and its significant span covers the piece if that is significant. -/
theorem apart_or_below (hbuilt : Tree.ofEvents path symbols events = .ok t) {p : Piece}
    (hp : p ∈ Event.pieces 0 [] 0 events) (id : t.Id) :
    p.span.stop ≤ (t.node id).fullSpan.start ∨ (t.node id).fullSpan.stop ≤ p.span.start ∨
      ((p.significant = true → (t.node id).span.contains p.span = true) ∧ id.1 ≤ p.owner ∧
        p.owner < (t.node id).subtreeEnd) := by
  by_cases hid : id.1 = 0
  · obtain ⟨hspan, hend⟩ := root_contains hbuilt hp hid
    exact Or.inr (Or.inr ⟨hspan, by omega, hend⟩)
  obtain ⟨-, -, ⟨hempty, -⟩ | ⟨r, rfl, hrows⟩⟩ := Tree.ofEvents_eq_ok hbuilt
  · exact absurd id.2 (by simp [hempty])
  rw [r.pieces_events] at hp
  rcases r.eq_or_places hrows id with ⟨hroot, -⟩ | hplaces
  · exact absurd hroot hid
  · exact Forest.apart_or_below Nat.zero_lt_one hp hplaces

/-- Significant text that is written in a node or below it lies in its span. -/
theorem contains_of_below (hbuilt : Tree.ofEvents path symbols events = .ok t) {p : Piece}
    (hp : p ∈ Event.pieces 0 [] 0 events) (hsignificant : p.significant = true) {id : t.Id}
    (hle : id.1 ≤ p.owner) (hlt : p.owner < (t.node id).subtreeEnd) :
    (t.node id).span.contains p.span = true := by
  by_cases hid : id.1 = 0
  · exact (root_contains hbuilt hp hid).1 hsignificant
  obtain ⟨-, -, ⟨hempty, -⟩ | ⟨r, rfl, hrows⟩⟩ := Tree.ofEvents_eq_ok hbuilt
  · exact absurd id.2 (by simp [hempty])
  rw [r.pieces_events] at hp
  rcases r.eq_or_places hrows id with ⟨hroot, -⟩ | hplaces
  · exact absurd hroot hid
  · exact (Forest.contains_of_below Nat.zero_lt_one hp hplaces hle hlt).2 hsignificant

/-- What is written in a node behind the root or below it lies in its full span. -/
theorem full_contains_of_below (hbuilt : Tree.ofEvents path symbols events = .ok t) {p : Piece}
    (hp : p ∈ Event.pieces 0 [] 0 events) {id : t.Id} (hid : id.1 ≠ 0) (hle : id.1 ≤ p.owner)
    (hlt : p.owner < (t.node id).subtreeEnd) : (t.node id).fullSpan.contains p.span = true := by
  obtain ⟨-, -, ⟨hempty, -⟩ | ⟨r, rfl, hrows⟩⟩ := Tree.ofEvents_eq_ok hbuilt
  · exact absurd id.2 (by simp [hempty])
  rw [r.pieces_events] at hp
  rcases r.eq_or_places hrows id with ⟨hroot, -⟩ | hplaces
  · exact absurd hroot hid
  · exact (Forest.contains_of_below Nat.zero_lt_one hp hplaces hle hlt).1

/-- The end of a subtree is behind its root, and within the tree. -/
theorem lt_subtreeEnd (hbuilt : Tree.ofEvents path symbols events = .ok t) (id : t.Id) :
    id.1 < (t.node id).subtreeEnd ∧ (t.node id).subtreeEnd ≤ t.size := by
  obtain ⟨-, -, ⟨hempty, -⟩ | ⟨r, rfl, hrows⟩⟩ := Tree.ofEvents_eq_ok hbuilt
  · exact absurd id.2 (by simp [hempty])
  have hsize : t.size = 1 + r.parts.size := by
    rw [size, ← Array.length_toList, hrows, Rooted.rows, List.length_cons, Forest.length_layout]
    omega
  rcases r.eq_or_places hrows id with ⟨hid, -, hend⟩ | hplaces
  · omega
  · have := Forest.bounds_of_places hplaces
    omega

/-- The root is the first node. -/
theorem root_eq_ok_iff {t : Tree} {id : t.Id} : t.root = .ok id ↔ id.1 = 0 := by
  unfold root
  split
  · rw [Except.ok.injEq, Fin.ext_iff]
    exact eq_comm
  · next hpos => exact iff_of_false nofun fun h => hpos (h ▸ Nat.zero_lt_of_lt id.2)

theorem getElem?_node (t : Tree) (id : t.Id) : t.nodes[id.1]? = some (t.node id) :=
  Array.getElem?_eq_getElem id.2

theorem toList_children (id : t.Id) :
    (t.children id).toList.map Fin.val = ((t.node id).children.slice t.childList).toList := by
  unfold children
  simp

theorem parent?_eq_some_iff {id p : t.Id} :
    t.parent? id = some p ↔ (t.node id).parent = some p.1 := by
  unfold parent?
  rw [Option.map_eq_some_iff]
  constructor
  · rintro ⟨⟨q, hq⟩, -, rfl⟩
    exact hq
  · exact fun h => ⟨⟨p.1, h⟩, Option.attach_eq_some _ _, rfl⟩

/-- What stands below a node has a parent that is the node or stands below it, too. -/
theorem exists_parent? (hbuilt : Tree.ofEvents path symbols events = .ok t) {a b : t.Id}
    (hab : a.1 < b.1) (hb : b.1 < (t.node a).subtreeEnd) :
    ∃ p, t.parent? b = some p ∧ a.1 ≤ p.1 ∧ p.1 < b.1 := by
  obtain ⟨-, -, ⟨hempty, -⟩ | ⟨r, rfl, hrows⟩⟩ := Tree.ofEvents_eq_ok hbuilt
  · exact absurd a.2 (by simp [hempty])
  have hparent : ∃ p, (t.node b).parent = some p ∧ a.1 ≤ p ∧ p < b.1 := by
    rcases r.eq_or_places hrows b with ⟨hid, -⟩ | hplacesB
    · omega
    rcases r.eq_or_places hrows a with ⟨hid, -⟩ | hplacesA
    · rcases Forest.parent_of_places hplacesB with hp | ⟨p, hp, -, hlt⟩
      · exact ⟨0, hp, by omega, by omega⟩
      · exact ⟨p, hp, by omega, hlt⟩
    · exact Forest.parent_of_places_below hplacesA hplacesB hab hb
  obtain ⟨p, hp, hap, hpb⟩ := hparent
  exact ⟨⟨p, Nat.lt_trans hpb b.2⟩, parent?_eq_some_iff.2 hp, hap, hpb⟩

/-- What has its parent at or below a node stands below the node. -/
theorem below_of_parent? (hbuilt : Tree.ofEvents path symbols events = .ok t) {a b p : t.Id}
    (hp : t.parent? b = some p) (hap : a.1 ≤ p.1) (hpa : p.1 < (t.node a).subtreeEnd) :
    a.1 < b.1 ∧ b.1 < (t.node a).subtreeEnd := by
  have hpb := t.lt_of_parent? hp
  have hparent := parent?_eq_some_iff.1 hp
  refine ⟨Nat.lt_of_le_of_lt hap hpb, ?_⟩
  obtain ⟨-, -, ⟨hempty, -⟩ | ⟨r, rfl, hrows⟩⟩ := Tree.ofEvents_eq_ok hbuilt
  · exact absurd a.2 (by simp [hempty])
  rcases r.eq_or_places hrows b with ⟨hid, -⟩ | hplacesB
  · omega
  rcases r.eq_or_places hrows a with ⟨-, -, hend⟩ | hplacesA
  · have := Forest.bounds_of_places hplacesB
    omega
  · refine (Forest.below_of_parent_below hplacesA hplacesB (fun p hp => ?_) hparent hap hpa).2
    rw [← Option.some.inj hp]
    exact Nat.zero_lt_one

/-- What stands below a node stands below everything above that node. -/
theorem below_trans (hbuilt : Tree.ofEvents path symbols events = .ok t) {a b c : t.Id}
    (hab : a.1 ≤ b.1) (hb : b.1 < (t.node a).subtreeEnd) (hbc : b.1 ≤ c.1)
    (hc : c.1 < (t.node b).subtreeEnd) : a.1 ≤ c.1 ∧ c.1 < (t.node a).subtreeEnd := by
  by_cases heq : b.1 = c.1
  · exact ⟨by omega, heq ▸ hb⟩
  obtain ⟨p, hp, hbp, hpc⟩ := exists_parent? hbuilt (by omega) hc
  obtain ⟨hap, hpa⟩ := below_trans hbuilt hab hb hbp (Nat.lt_trans hpc hc)
  obtain ⟨hac, hca⟩ := below_of_parent? hbuilt hp hap hpa
  exact ⟨Nat.le_of_lt hac, hca⟩
termination_by c.1

/-- Nodes behind the root are in order of where they start. -/
theorem start_le (hbuilt : Tree.ofEvents path symbols events = .ok t) {a b : t.Id}
    (ha : a.1 ≠ 0) (hab : a.1 < b.1) : (t.node a).fullSpan.start ≤ (t.node b).fullSpan.start := by
  obtain ⟨-, -, ⟨hempty, -⟩ | ⟨r, rfl, hrows⟩⟩ := Tree.ofEvents_eq_ok hbuilt
  · exact absurd a.2 (by simp [hempty])
  rcases r.eq_or_places hrows a with ⟨hroot, -⟩ | hplacesA
  · exact absurd hroot ha
  rcases r.eq_or_places hrows b with ⟨hroot, -⟩ | hplacesB
  · omega
  exact Forest.start_le_of_places hplacesA hplacesB hab

theorem ancestors_of_parent?_eq_none {id : t.Id} (h : t.parent? id = none) :
    t.ancestors id = [id] := by
  rw [ancestors]
  split
  · rfl
  · next p hsome => simp [h] at hsome

theorem ancestors_of_parent? {id p : t.Id} (h : t.parent? id = some p) :
    t.ancestors id = id :: t.ancestors p := by
  rw [ancestors]
  split
  · next hnone => rw [h] at hnone; simp at hnone
  · next q hsome => rw [Option.some.inj (h.symm.trans hsome)]

/-- The segments of the declaration path of a node, outermost first. -/
def segments (t : Tree) (id : t.Id) : List String :=
  ((t.ancestors id).filterMap fun a => (t.node a).pathSegment?).reverse

theorem declarationPath_eq (t : Tree) (id : t.Id) :
    t.declarationPath id = ".".intercalate (t.segments id) := rfl

theorem segments_of_parent? {id p : t.Id} (h : t.parent? id = some p) :
    t.segments id = t.segments p ++ (t.node id).pathSegment?.toList := by
  unfold segments
  rw [ancestors_of_parent? h, List.filterMap_cons]
  cases (t.node id).pathSegment? <;> simp

/-- The ancestors of a node go on with those of every node it stands below, and what comes before
stands below that node, too. -/
theorem exists_ancestors_eq (hbuilt : Tree.ofEvents path symbols events = .ok t) {a b : t.Id}
    (hab : a.1 ≤ b.1) (hb : b.1 < (t.node a).subtreeEnd) :
    ∃ between, t.ancestors b = between ++ t.ancestors a ∧
      ∀ x ∈ between, a.1 < x.1 ∧ x.1 < (t.node a).subtreeEnd := by
  by_cases heq : a = b
  · subst heq
    exact ⟨[], rfl, by simp⟩
  have hlt : a.1 < b.1 := by
    have := Fin.val_ne_of_ne heq
    omega
  obtain ⟨p, hp, hap, hpb⟩ := exists_parent? hbuilt hlt hb
  obtain ⟨between, hbetween, hbelow⟩ := exists_ancestors_eq hbuilt hap (Nat.lt_trans hpb hb)
  refine ⟨b :: between, ?_, fun x hx => ?_⟩
  · rw [ancestors_of_parent? hp, hbetween, List.cons_append]
  · rcases List.mem_cons.1 hx with rfl | hx
    · exact ⟨hlt, hb⟩
    · exact hbelow x hx
termination_by b.1

end Tree
end HotReload
