import HotReload.Proofs.Source.Listing
import HotReload.Proofs.Text.Weave

/-
  Where the nodes of a tree stand, said for an arena and a text, so that it can be said again after
  markers have been written. `Nested` is about the shape: subtrees are ranges of positions, one
  inside the other or apart. `NestedChildren` says the same of the lists of children. `Laid` is about
  the spans: they follow the subtrees, all significant text of a node lies in the span of every node
  around it, and characters end at all of their offsets.

  Every tree from events has them (`Tree.nested`, `Tree.nestedChildren`, `Tree.laid`). The facts on a
  forest are inductions on it; in each a node is the first one, one of its parts, or one of the rest.
-/

namespace HotReload

/-- Subtrees are ranges of positions, one inside the other or apart. -/
structure Nested (nodes : Array Node) : Prop where
  lt_end : ∀ {i : Nat} {n : Node}, nodes[i]? = some n → i < n.subtreeEnd
  end_le : ∀ {i j : Nat} {m n : Node}, nodes[i]? = some m → nodes[j]? = some n → i ≤ j →
    j < m.subtreeEnd → n.subtreeEnd ≤ m.subtreeEnd
  root : ∀ {n : Node}, nodes[0]? = some n → nodes.size ≤ n.subtreeEnd

/-- Children stand one behind the other in the subtree of their parent. -/
structure NestedChildren (nodes : Array Node) (childList : Array Nat) : Prop where
  child : ∀ {i : Nat} {n : Node}, nodes[i]? = some n → ∀ c ∈ n.children.slice childList,
    i < c ∧ c < n.subtreeEnd
  siblings : ∀ {i : Nat} {n : Node}, nodes[i]? = some n →
    (n.children.slice childList).toList.Pairwise fun a b =>
      ∀ {m : Node}, nodes[a]? = some m → m.subtreeEnd ≤ b

/-- The spans of an arena follow its subtrees and the characters of a text. -/
structure Laid (nodes : Array Node) (cs : List Char) : Prop where
  within : ∀ {i : Nat} {n : Node}, nodes[i]? = some n → n.fullSpan.start ≤ n.span.start ∧
    n.span.start ≤ n.span.stop ∧ n.span.stop ≤ n.fullSpan.stop
  below : ∀ {i j : Nat} {m n : Node}, nodes[i]? = some m → nodes[j]? = some n → i < j →
    j < m.subtreeEnd → m.fullSpan.start ≤ n.fullSpan.start ∧ n.fullSpan.stop ≤ m.fullSpan.stop ∧
      (n.span.start < n.span.stop → m.span.start ≤ n.span.start ∧ n.span.stop ≤ m.span.stop)
  apart : ∀ {i j : Nat} {m n : Node}, nodes[i]? = some m → nodes[j]? = some n →
    m.subtreeEnd ≤ j → m.fullSpan.stop ≤ n.fullSpan.start
  root : ∀ {n : Node}, nodes[0]? = some n → n.fullSpan = ⟨0, Text.byteLength cs⟩
  cuts : ∀ {i : Nat} {n : Node}, nodes[i]? = some n → Text.IsCut cs n.span.start ∧
    Text.IsCut cs n.span.stop ∧ Text.IsCut cs n.fullSpan.start ∧ Text.IsCut cs n.fullSpan.stop

/-- The shape of an arena is in its links only. -/
theorem Nested.congr {nodes nodes' : Array Node} (h : Nested nodes)
    (hsize : nodes'.size = nodes.size)
    (hsame : ∀ {i : Nat} {n' : Node}, nodes'[i]? = some n' → ∃ n, nodes[i]? = some n ∧
      n'.subtreeEnd = n.subtreeEnd) : Nested nodes' where
  lt_end hn' := by
    obtain ⟨n, hn, hend⟩ := hsame hn'
    rw [hend]
    exact h.lt_end hn
  end_le hm' hn' hij hj := by
    obtain ⟨m, hm, hmend⟩ := hsame hm'
    obtain ⟨n, hn, hnend⟩ := hsame hn'
    rw [hmend] at hj ⊢
    rw [hnend]
    exact h.end_le hm hn hij hj
  root hn' := by
    obtain ⟨n, hn, hend⟩ := hsame hn'
    rw [hsize, hend]
    exact h.root hn

theorem NestedChildren.congr {nodes nodes' : Array Node} {childList : Array Nat}
    (h : NestedChildren nodes childList)
    (hsame : ∀ {i : Nat} {n' : Node}, nodes'[i]? = some n' → ∃ n, nodes[i]? = some n ∧
      n'.subtreeEnd = n.subtreeEnd ∧ n'.children = n.children) :
    NestedChildren nodes' childList where
  child hn' := by
    obtain ⟨n, hn, hend, hchildren⟩ := hsame hn'
    rw [hend, hchildren]
    exact h.child hn
  siblings hn' := by
    obtain ⟨n, hn, -, hchildren⟩ := hsame hn'
    rw [hchildren]
    apply (h.siblings hn).imp
    intro a b hab m' hm'
    obtain ⟨m, hm, hend, -⟩ := hsame hm'
    rw [hend]
    exact hab hm

/-- Spans stay laid out when nodes change in other data only. -/
theorem Laid.congr {nodes nodes' : Array Node} {cs : List Char} (h : Laid nodes cs)
    (hsame : ∀ {i : Nat} {n' : Node}, nodes'[i]? = some n' → ∃ n, nodes[i]? = some n ∧
      n'.subtreeEnd = n.subtreeEnd ∧ n'.span = n.span ∧ n'.fullSpan = n.fullSpan) :
    Laid nodes' cs where
  within hn' := by
    obtain ⟨n, hn, -, hspan, hfull⟩ := hsame hn'
    rw [hspan, hfull]
    exact h.within hn
  below hm' hn' hij hj := by
    obtain ⟨m, hm, hmend, hmspan, hmfull⟩ := hsame hm'
    obtain ⟨n, hn, -, hnspan, hnfull⟩ := hsame hn'
    rw [hmspan, hmfull, hnspan, hnfull]
    exact h.below hm hn hij (hmend ▸ hj)
  apart hm' hn' hj := by
    obtain ⟨m, hm, hmend, -, hmfull⟩ := hsame hm'
    obtain ⟨n, hn, -, -, hnfull⟩ := hsame hn'
    rw [hmfull, hnfull]
    exact h.apart hm hn (hmend ▸ hj)
  root hn' := by
    obtain ⟨n, hn, -, -, hfull⟩ := hsame hn'
    rw [hfull]
    exact h.root hn
  cuts hn' := by
    obtain ⟨n, hn, -, hspan, hfull⟩ := hsame hn'
    rw [hspan, hfull]
    exact h.cuts hn

/-! ## In a forest -/

namespace Forest

variable {f : Forest} {parent : Option Nat} {id offset listed i j : Nat} {m n : Node}
  {list : Array Nat}

theorem byteLength_text (f : Forest) : Text.byteLength f.text.toList = f.bytes := by
  rw [← Text.utf8ByteSize_eq_byteLength, utf8ByteSize_text]

/-- Some characters of the forest end at the offset. -/
def CutAt (f : Forest) (offset p : Nat) : Prop :=
  ∃ a b, f.text.toList = a ++ b ∧ offset + Text.byteLength a = p

theorem cutAt_start (f : Forest) (offset : Nat) : f.CutAt offset offset :=
  ⟨[], f.text.toList, rfl, rfl⟩

theorem cutAt_stop (f : Forest) (offset : Nat) : f.CutAt offset (offset + f.bytes) :=
  ⟨f.text.toList, [], by simp, by rw [byteLength_text]⟩

theorem cutAt_token {text : String} {rest : Forest} {p : Nat}
    (h : rest.CutAt (offset + text.utf8ByteSize) p) : (token text rest).CutAt offset p := by
  obtain ⟨a, b, heq, rfl⟩ := h
  refine ⟨text.toList ++ a, b, ?_, ?_⟩
  · rw [Forest.text, String.toList_append, heq, List.append_assoc]
  · rw [Text.byteLength_append, ← Text.utf8ByteSize_eq_byteLength, Nat.add_assoc]

theorem cutAt_parts {kind : NodeKind} {name : Option String} {parts rest : Forest} {p : Nat}
    (h : parts.CutAt offset p) : (node kind name parts rest).CutAt offset p := by
  obtain ⟨a, b, heq, rfl⟩ := h
  refine ⟨a, b ++ rest.text.toList, ?_, rfl⟩
  rw [Forest.text, String.toList_append, heq, List.append_assoc]

theorem cutAt_rest {kind : NodeKind} {name : Option String} {parts rest : Forest} {p : Nat}
    (h : rest.CutAt (offset + parts.bytes) p) : (node kind name parts rest).CutAt offset p := by
  obtain ⟨a, b, heq, rfl⟩ := h
  refine ⟨parts.text.toList ++ a, b, ?_, ?_⟩
  · rw [Forest.text, String.toList_append, heq, List.append_assoc]
  · rw [Text.byteLength_append, byteLength_text, Nat.add_assoc]

/-- Significant text starts and ends at cuts. -/
theorem cutAt_of_mem_tokens {s : Span} (h : s ∈ f.tokens offset) :
    f.CutAt offset s.start ∧ f.CutAt offset s.stop := by
  induction f generalizing offset with
  | nil => simp [tokens] at h
  | token text rest ih =>
    rcases List.mem_cons.1 h with rfl | h
    · exact ⟨cutAt_start _ _, cutAt_token (cutAt_start _ _)⟩
    · exact (ih h).imp cutAt_token cutAt_token
  | trivia text rest ih => exact (ih h).imp cutAt_token cutAt_token
  | node kind name parts rest ihp ihr =>
    rcases List.mem_append.1 h with h | h
    · exact (ihp h).imp cutAt_parts cutAt_parts
    · exact (ihr h).imp cutAt_rest cutAt_rest

/-- The span of a node starts and ends with significant text of the forest, or it is the insertion
point at the end of the node. -/
theorem span_row (parts : Forest) (parent : Option Nat) (id offset listed : Nat) (kind : NodeKind)
    (name : Option String) :
    (parts.row parent id offset listed kind name).span = .point (offset + parts.bytes) ∨
      (∃ s ∈ parts.tokens offset, s.start = (parts.row parent id offset listed kind name).span.start) ∧
        ∃ s ∈ parts.tokens offset, s.stop = (parts.row parent id offset listed kind name).span.stop := by
  unfold row cover
  cases h : parts.tokens offset with
  | nil => exact Or.inl rfl
  | cons s rest =>
    refine Or.inr ⟨⟨s, List.mem_cons_self, rfl⟩, (s :: rest).getLast (by simp), ?_, ?_⟩
    · exact List.getLast_mem _
    · rw [List.getLast?_eq_some_getLast (by simp)]
      rfl

/-- Significant spans are not inverted, and lie in the full ones. -/
theorem span_of_places (h : f.Places parent id offset listed j n) :
    n.fullSpan.start ≤ n.span.start ∧ n.span.start ≤ n.span.stop ∧
      n.span.stop ≤ n.fullSpan.stop := by
  induction f generalizing parent id offset listed with
  | nil => exact h.elim
  | token text rest ih | trivia text rest ih => exact ih h
  | node kind name parts rest ihp ihr =>
    rcases h with ⟨-, rfl⟩ | h | h
    · rcases span_row parts parent id offset listed kind name with
        hpoint | ⟨⟨s, hs, hstart⟩, u, hu, hstop⟩
      · rw [hpoint]
        exact ⟨Nat.le_add_right _ _, Nat.le_refl _, Nat.le_refl _⟩
      · have hcontains : (cover (parts.tokens offset) (offset + parts.bytes)).contains s = true :=
          cover_contains hs
        have hcover := Span.contains_iff.1 hcontains
        have hbounds := tokens_bounds hs
        have hbounds' := tokens_bounds hu
        rw [← hstart, ← hstop]
        refine ⟨hbounds.1, ?_, hbounds'.2.2⟩
        have hlast : s.stop ≤ (parts.row parent id offset listed kind name).span.stop := hcover.2
        omega
    · exact ihp h
    · exact ihr h

/-- A span that is not empty starts and ends with significant text of the forest. -/
theorem exists_tokens_of_places (h : f.Places parent id offset listed j n)
    (hspan : n.span.start < n.span.stop) :
    (∃ s ∈ f.tokens offset, s.start = n.span.start) ∧
      ∃ s ∈ f.tokens offset, s.stop = n.span.stop := by
  induction f generalizing parent id offset listed with
  | nil => exact h.elim
  | token text rest ih =>
    obtain ⟨⟨s, hs, hstart⟩, u, hu, hstop⟩ := ih h
    exact ⟨⟨s, List.mem_cons_of_mem _ hs, hstart⟩, u, List.mem_cons_of_mem _ hu, hstop⟩
  | trivia text rest ih => exact ih h
  | node kind name parts rest ihp ihr =>
    rcases h with ⟨-, rfl⟩ | h | h
    · rcases span_row parts parent id offset listed kind name with
        hpoint | ⟨⟨s, hs, hstart⟩, u, hu, hstop⟩
      · rw [hpoint] at hspan
        exact absurd hspan (Nat.lt_irrefl _)
      · exact ⟨⟨s, List.mem_append_left _ hs, hstart⟩, u, List.mem_append_left _ hu, hstop⟩
    · obtain ⟨⟨s, hs, hstart⟩, u, hu, hstop⟩ := ihp h
      exact ⟨⟨s, List.mem_append_left _ hs, hstart⟩, u, List.mem_append_left _ hu, hstop⟩
    · obtain ⟨⟨s, hs, hstart⟩, u, hu, hstop⟩ := ihr h
      exact ⟨⟨s, List.mem_append_right _ hs, hstart⟩, u, List.mem_append_right _ hu, hstop⟩

/-- The span of a node around a forest covers every span in the forest that is not empty. -/
theorem cover_contains_span {stop : Nat} (h : f.Places parent id offset listed j n)
    (hspan : n.span.start < n.span.stop) :
    (cover (f.tokens offset) stop).start ≤ n.span.start ∧
      n.span.stop ≤ (cover (f.tokens offset) stop).stop := by
  obtain ⟨⟨s, hs, hstart⟩, u, hu, hstop⟩ := exists_tokens_of_places h hspan
  rw [← hstart, ← hstop]
  exact ⟨(Span.contains_iff.1 (cover_contains hs)).1, (Span.contains_iff.1 (cover_contains hu)).2⟩

/-- What stands below a node lies inside of it. -/
theorem nested_of_places (hm : f.Places parent id offset listed i m)
    (hn : f.Places parent id offset listed j n) (hij : i < j) (hj : j < m.subtreeEnd) :
    n.subtreeEnd ≤ m.subtreeEnd ∧ m.fullSpan.start ≤ n.fullSpan.start ∧
      n.fullSpan.stop ≤ m.fullSpan.stop ∧
      (n.span.start < n.span.stop → m.span.start ≤ n.span.start ∧ n.span.stop ≤ m.span.stop) := by
  induction f generalizing parent id offset listed with
  | nil => exact hm.elim
  | token text rest ih | trivia text rest ih => exact ih hm hn
  | node kind name parts rest ihp ihr =>
    rcases cases_of_places hm hn hij with
      ⟨-, ⟨-, rfl⟩, hn⟩ | ⟨hm, hn⟩ | ⟨hm, hn⟩ | ⟨hend, -⟩
    · have hbounds := bounds_of_places hn
      exact ⟨hbounds.2.2.1, hbounds.2.2.2.1, hbounds.2.2.2.2.2, cover_contains_span hn⟩
    · exact ihp hm hn
    · exact ihr hm hn
    · omega

/-- What stands behind a subtree starts behind its text. -/
theorem apart_of_places (hm : f.Places parent id offset listed i m)
    (hn : f.Places parent id offset listed j n) (hj : m.subtreeEnd ≤ j) : m.fullSpan.stop ≤ n.fullSpan.start := by
  induction f generalizing parent id offset listed with
  | nil => exact hm.elim
  | token text rest ih | trivia text rest ih => exact ih hm hn
  | node kind name parts rest ihp ihr =>
    have hij : i < j := Nat.lt_of_lt_of_le (bounds_of_places hm).2.1 hj
    rcases cases_of_places hm hn hij with
      ⟨hlt, -⟩ | ⟨hm, hn⟩ | ⟨hm, hn⟩ | ⟨-, ⟨-, rfl⟩ | hm, hn⟩
    · omega
    · exact ihp hm hn
    · exact ihr hm hn
    · exact (bounds_of_places hn).2.2.2.1
    · have hboundsM := bounds_of_places hm
      have hbounds := bounds_of_places hn
      omega

/-- Characters end at all offsets of a node. -/
theorem cuts_of_places (h : f.Places parent id offset listed j n) :
    f.CutAt offset n.span.start ∧ f.CutAt offset n.span.stop ∧
      f.CutAt offset n.fullSpan.start ∧ f.CutAt offset n.fullSpan.stop := by
  induction f generalizing parent id offset listed with
  | nil => exact h.elim
  | token text rest ih | trivia text rest ih =>
    exact (ih h).imp cutAt_token fun h => h.imp cutAt_token fun h => h.imp cutAt_token cutAt_token
  | node kind name parts rest ihp ihr =>
    rcases h with ⟨-, rfl⟩ | h | h
    · have hstop : (node kind name parts rest).CutAt offset (offset + parts.bytes) :=
        cutAt_parts (parts.cutAt_stop offset)
      rcases span_row parts parent id offset listed kind name with hpoint | ⟨⟨s, hs, hs'⟩, u, hu, hu'⟩
      · rw [hpoint]
        exact ⟨hstop, hstop, cutAt_start _ _, hstop⟩
      · rw [← hs', ← hu']
        exact ⟨cutAt_parts (cutAt_of_mem_tokens hs).1, cutAt_parts (cutAt_of_mem_tokens hu).2,
          cutAt_start _ _, hstop⟩
    · exact (ihp h).imp cutAt_parts fun h => h.imp cutAt_parts fun h => h.imp cutAt_parts cutAt_parts
    · exact (ihr h).imp cutAt_rest fun h => h.imp cutAt_rest fun h => h.imp cutAt_rest cutAt_rest

/-- The outermost nodes stand within the forest, and each behind the subtree of the one before. -/
theorem roots_pairwise (f : Forest) (parent : Option Nat) (id offset listed : Nat) :
    (∀ c ∈ f.roots id, id ≤ c ∧ c < id + f.size) ∧
      (f.roots id).Pairwise fun a b => ∀ {m : Node}, f.Places parent id offset listed a m →
        m.subtreeEnd ≤ b := by
  induction f generalizing id offset listed with
  | nil => exact ⟨by simp [roots], .nil⟩
  | token text rest ih | trivia text rest ih => exact ih id _ _
  | node kind name parts rest ihp ihr =>
    obtain ⟨hbounds, hpairwise⟩ := ihr (id + 1 + parts.size) (offset + parts.bytes) (listed + parts.size)
    simp only [roots, size]
    constructor
    · intro c hc
      rcases List.mem_cons.1 hc with rfl | hc
      · omega
      · have := hbounds c hc
        omega
    · refine List.pairwise_cons.2 ⟨?_, hpairwise.imp_of_mem ?_⟩
      · intro c hc m hm
        have := hbounds c hc
        rcases hm with ⟨-, rfl⟩ | hm | hm
        · exact this.1
        · have := bounds_of_places hm
          omega
        · have := bounds_of_places hm
          omega
      · intro a b ha _ hab m hm
        have := hbounds a ha
        rcases hm with ⟨rfl, -⟩ | hm | hm
        · omega
        · have := bounds_of_places hm
          omega
        · exact hab hm

/-- Children stand below their parent, and each behind the subtree of the one before. -/
theorem children_of_places (hlist : f.Lists list listed id)
    (h : f.Places parent id offset listed j n) :
    (∀ c ∈ n.children.slice list, j < c ∧ c < n.subtreeEnd) ∧
      (n.children.slice list).toList.Pairwise fun a b =>
        ∀ {m : Node}, f.Places parent id offset listed a m → m.subtreeEnd ≤ b := by
  induction f generalizing parent id offset listed with
  | nil => exact h.elim
  | token text rest ih | trivia text rest ih => exact ih hlist h
  | node kind name parts rest ihp ihr =>
    rcases h with ⟨rfl, rfl⟩ | h | h
    · obtain ⟨hbounds, hpairwise⟩ := roots_pairwise parts (some j) (j + 1) offset listed
      rw [hlist.slice_row parent offset]
      simp only [row, List.mem_toArray]
      constructor
      · intro c hc
        have := hbounds c hc
        omega
      · apply hpairwise.imp_of_mem
        intro a b ha _ hab m hm
        have := hbounds a ha
        rcases hm with ⟨rfl, -⟩ | hm | hm
        · omega
        · exact hab hm
        · have := bounds_of_places hm
          omega
    · obtain ⟨hchild, hpairwise⟩ := ihp hlist.left h
      have hbounds := bounds_of_places h
      refine ⟨hchild, hpairwise.imp_of_mem ?_⟩
      intro a b ha _ hab m hm
      have := hchild a (Array.mem_toList_iff.1 ha)
      rcases hm with ⟨rfl, -⟩ | hm | hm
      · omega
      · exact hab hm
      · have := bounds_of_places hm
        omega
    · obtain ⟨hchild, hpairwise⟩ := ihr hlist.right h
      have hbounds := bounds_of_places h
      refine ⟨hchild, hpairwise.imp_of_mem ?_⟩
      intro a b ha _ hab m hm
      have := hchild a (Array.mem_toList_iff.1 ha)
      rcases hm with ⟨rfl, -⟩ | hm | hm
      · omega
      · have := bounds_of_places hm
        omega
      · exact hab hm

end Forest

/-! ## In a tree -/

theorem Event.written_append (a b : List Event) : written (a ++ b) = written a ++ written b := by
  induction a with
  | nil => simp [written]
  | cons e a ih => rw [List.cons_append, written, written, ih, String.append_assoc]

theorem Forest.written_events (f : Forest) : Event.written f.events = f.text := by
  induction f with
  | nil => rfl
  | token text rest ih | trivia text rest ih => rw [events, Event.written, ih]; rfl
  | node kind name parts rest ihp ihr =>
    simp only [events, Event.written, Event.written_append, Event.text, ihp, ihr, Forest.text,
      String.empty_append]

namespace Rooted

variable {t : Tree} {r : Rooted}

/-- The root of the description. -/
def rootRow (r : Rooted) : Node :=
  { r.parts.row none 0 r.offset 0 r.kind r.name with fullSpan := ⟨0, Event.bytes r.events⟩ }

/-- A node of the tree is the root, or one of the parts. -/
theorem root_or_places (h : t.nodes.toList = r.rows) {i : Nat} {n : Node}
    (hn : t.nodes[i]? = some n) :
    (i = 0 ∧ n = r.rootRow) ∨ r.parts.Places (some 0) 1 r.offset 0 i n := by
  rw [← Array.getElem?_toList, h] at hn
  cases i with
  | zero => exact Or.inl ⟨rfl, (Option.some.inj hn).symm⟩
  | succ i =>
    have hplaces := Forest.places_of_getElem? (f := r.parts) hn
    rw [Nat.add_comm] at hplaces
    exact Or.inr hplaces

theorem size_eq (h : t.nodes.toList = r.rows) : t.nodes.size = 1 + r.parts.size := by
  rw [← Array.length_toList, h, rows, List.length_cons, Forest.length_layout, Nat.add_comm]

/-- Where characters of the parts end, characters of the text do. -/
theorem isCut_of_cutAt {p : Nat} (h : r.parts.CutAt r.offset p) :
    Text.IsCut (Event.written r.events).toList p := by
  obtain ⟨a, b, heq, rfl⟩ := h
  refine ⟨(Event.written r.before).toList ++ a, b ++ (Event.written r.after).toList, ?_, ?_⟩
  · simp only [events, Event.written_append, Event.written, Event.text, Forest.written_events,
      String.toList_append, heq]
    simp
  · rw [Text.byteLength_append, ← Text.utf8ByteSize_eq_byteLength, Event.utf8ByteSize_written]
    rfl

theorem nested (h : t.nodes.toList = r.rows) : Nested t.nodes where
  lt_end hn := by
    rcases root_or_places h hn with ⟨rfl, rfl⟩ | hn
    · exact Nat.lt_of_lt_of_le Nat.zero_lt_one (Nat.le_add_right _ _)
    · exact (Forest.bounds_of_places hn).2.1
  end_le {i j m n} hm hn hij hj := by
    rcases Nat.lt_or_eq_of_le hij with hij | rfl
    · rcases root_or_places h hn with ⟨rfl, -⟩ | hn
      · omega
      rcases root_or_places h hm with ⟨-, rfl⟩ | hm
      · have := (Forest.bounds_of_places hn).2.2.1
        simp only [rootRow, Forest.row]
        omega
      · exact (Forest.nested_of_places hm hn hij hj).1
    · obtain rfl := Option.some.inj (hm.symm.trans hn)
      exact Nat.le_refl _
  root hn := by
    rcases root_or_places h hn with ⟨-, rfl⟩ | hn
    · rw [size_eq h]
      simp [rootRow, Forest.row]
    · have := Forest.bounds_of_places hn
      omega
theorem lists_self (hlist : t.childList.toList = r.listing) :
    (Forest.node r.kind r.name r.parts .nil).Lists t.childList 0 0 :=
  ⟨[], [], by simpa [Forest.listing, listing] using hlist, rfl⟩

theorem slice_rootRow (hlist : t.childList.toList = r.listing) :
    r.rootRow.children.slice t.childList = (r.parts.roots 1).toArray :=
  (lists_self hlist).slice_row none r.offset

theorem nestedChildren (h : t.nodes.toList = r.rows) (hlist : t.childList.toList = r.listing) :
    NestedChildren t.nodes t.childList where
  child {i n} hn := by
    rcases root_or_places h hn with ⟨rfl, rfl⟩ | hn
    · intro c hc
      rw [slice_rootRow hlist, List.mem_toArray] at hc
      have hbounds := (Forest.roots_pairwise r.parts (some 0) 1 r.offset 0).1 c hc
      simp only [rootRow, Forest.row]
      omega
    · exact (Forest.children_of_places (lists_self hlist).left hn).1
  siblings {i n} hn := by
    have hroot : ∀ {a b : Nat}, 0 < a → (∀ {m : Node}, r.parts.Places (some 0) 1 r.offset 0 a m →
        m.subtreeEnd ≤ b) → ∀ {m : Node}, t.nodes[a]? = some m → m.subtreeEnd ≤ b := by
      intro a b ha hab m hm
      rcases root_or_places h hm with ⟨rfl, -⟩ | hm
      · exact absurd ha (Nat.lt_irrefl 0)
      · exact hab hm
    rcases root_or_places h hn with ⟨rfl, rfl⟩ | hn
    · obtain ⟨hbounds, hpairwise⟩ := Forest.roots_pairwise r.parts (some 0) 1 r.offset 0
      rw [slice_rootRow hlist]
      exact hpairwise.imp_of_mem fun ha _ hab => hroot (hbounds _ ha).1 hab
    · obtain ⟨hchild, hpairwise⟩ := Forest.children_of_places (lists_self hlist).left hn
      exact hpairwise.imp_of_mem fun ha _ hab =>
        hroot (Nat.lt_of_le_of_lt (Nat.zero_le _) (hchild _ (Array.mem_toList_iff.1 ha)).1) hab

theorem byteLength_written (r : Rooted) :
    Text.byteLength (Event.written r.events).toList = Event.bytes r.events := by
  rw [← Text.utf8ByteSize_eq_byteLength, Event.utf8ByteSize_written]

/-- The significant span of the root is in the text. -/
theorem span_rootRow (r : Rooted) : r.rootRow.fullSpan.start ≤ r.rootRow.span.start ∧
    r.rootRow.span.start ≤ r.rootRow.span.stop ∧
    r.rootRow.span.stop ≤ r.rootRow.fullSpan.stop := by
  have hbytes := r.bytes_events
  -- the root as a node of a forest of its own
  have hself : (Forest.node r.kind r.name r.parts .nil).Places none 0 r.offset 0 0
      (r.parts.row none 0 r.offset 0 r.kind r.name) := Or.inl ⟨rfl, rfl⟩
  have hspan := Forest.span_of_places hself
  simp only [rootRow, Forest.row] at hspan ⊢
  omega

/-- The significant span of the root starts and ends where tokens do, or is an empty one at the end
of the parts. -/
theorem cuts_rootRow (r : Rooted) :
    Text.IsCut (Event.written r.events).toList r.rootRow.span.start ∧
      Text.IsCut (Event.written r.events).toList r.rootRow.span.stop := by
  rcases Forest.span_row r.parts none 0 r.offset 0 r.kind r.name with
    hpoint | ⟨⟨s, hs, hstart⟩, u, hu, hstop⟩
  · have hcut := isCut_of_cutAt (r.parts.cutAt_stop r.offset)
    simp only [rootRow, hpoint]
    exact ⟨hcut, hcut⟩
  · simp only [rootRow, ← hstart, ← hstop]
    exact ⟨isCut_of_cutAt (Forest.cutAt_of_mem_tokens hs).1,
      isCut_of_cutAt (Forest.cutAt_of_mem_tokens hu).2⟩

theorem laid (h : t.nodes.toList = r.rows) : Laid t.nodes (Event.written r.events).toList where
  within hn := by
    rcases root_or_places h hn with ⟨-, rfl⟩ | hn
    · exact r.span_rootRow
    · exact Forest.span_of_places hn
  below hm hn hij hj := by
    rcases root_or_places h hn with ⟨rfl, -⟩ | hn
    · omega
    rcases root_or_places h hm with ⟨-, rfl⟩ | hm
    · have hbounds := Forest.bounds_of_places hn
      have hbytes := r.bytes_events
      refine ⟨Nat.zero_le _, ?_, Forest.cover_contains_span hn⟩
      simp only [rootRow]
      omega
    · exact (Forest.nested_of_places hm hn hij hj).2
  apart hm hn hj := by
    rcases root_or_places h hm with ⟨rfl, rfl⟩ | hm
    · obtain ⟨hlt, -⟩ := Array.getElem?_eq_some_iff.1 hn
      rw [size_eq h] at hlt
      simp only [rootRow, Forest.row] at hj
      omega
    rcases root_or_places h hn with ⟨rfl, -⟩ | hn
    · have := (Forest.bounds_of_places hm).2.1
      omega
    · exact Forest.apart_of_places hm hn hj
  root hn := by
    rcases root_or_places h hn with ⟨-, rfl⟩ | hn
    · rw [r.byteLength_written]
      rfl
    · have := Forest.bounds_of_places hn
      omega
  cuts hn := by
    rcases root_or_places h hn with ⟨-, rfl⟩ | hn
    · have hfull := Text.IsCut.length (Event.written r.events).toList
      rw [r.byteLength_written] at hfull
      exact ⟨r.cuts_rootRow.1, r.cuts_rootRow.2, Text.IsCut.zero _, hfull⟩
    · obtain ⟨hstart, hstop, hfullStart, hfullStop⟩ := Forest.cuts_of_places hn
      exact ⟨isCut_of_cutAt hstart, isCut_of_cutAt hstop, isCut_of_cutAt hfullStart,
        isCut_of_cutAt hfullStop⟩

end Rooted

namespace Tree

variable {path : String} {symbols : Symbols} {events : List Event} {t : Tree}

theorem nested (hbuilt : Tree.ofEvents path symbols events = .ok t) : Nested t.nodes := by
  obtain ⟨-, -, ⟨hempty, -⟩ | ⟨r, rfl, hrows⟩⟩ := Tree.ofEvents_eq_ok hbuilt
  · rw [hempty]
    exact ⟨by simp, by simp, by simp⟩
  · exact r.nested hrows

theorem nestedChildren (hbuilt : Tree.ofEvents path symbols events = .ok t) :
    NestedChildren t.nodes t.childList := by
  obtain ⟨-, -, ⟨hempty, -⟩ | ⟨r, rfl, hrows⟩⟩ := Tree.ofEvents_eq_ok hbuilt
  · rw [hempty]
    exact ⟨by simp, by simp⟩
  · exact r.nestedChildren hrows (Rooted.toList_childList hbuilt)

theorem laid (hbuilt : Tree.ofEvents path symbols events = .ok t) : Laid t.nodes t.text.toList := by
  obtain ⟨htext, -, ⟨hempty, -⟩ | ⟨r, rfl, hrows⟩⟩ := Tree.ofEvents_eq_ok hbuilt
  · rw [hempty]
    exact ⟨by simp, by simp, by simp, by simp, by simp⟩
  · rw [htext]
    exact r.laid hrows

end Tree
end HotReload
