import HotReload.Proofs.Outline.Cover

/-
  The tree of a plain file as a whole. `Items.Builds` says that items are plain and that a tree is
  made from their events; every node but the root and every significant piece then has a role, and
  every byte of code belongs to a significant piece.

  A node that touches an offset inside of what is written straight into a declaration is the
  declaration or stands above it (`Opens.below_of_touches`), since no node is empty.
-/

namespace HotReload.Outline

open Marked

namespace Items

/-- The text of a file with these items, with its code marked. -/
def marks (items : Items) : Marked := Event.marks items.events

/-- The pieces of a file with these items. -/
def pieces (items : Items) : List Piece := Event.pieces 0 [] 0 items.events

/-- The description of a file with these items. -/
def rooted (items : Items) : Rooted where
  before := []
  kind := .compilationUnit
  name := none
  parts := items.forest 0 .nil
  after := []
  before_writing := by simp
  after_writing := by simp

theorem events_rooted (items : Items) : items.rooted.events = items.events := rfl

/-- A byte of code belongs to a significant piece. -/
theorem exists_piece {items : Items} {i : Nat} (hi : codeAt items.marks i = true) :
    ∃ p ∈ items.pieces, p.significant = true ∧ p.span.start ≤ i ∧ i < p.span.stop := by
  have hmarks : items.marks = (items.forest 0 .nil).marks := by
    unfold marks Forest.marks events within
    rw [List.cons_append, Event.marks, Event.marks_append]
    exact List.append_nil _
  rw [hmarks] at hi
  obtain ⟨p, hp, hsignificant, hstart, hstop⟩ := Forest.exists_piece_of_codeAt 0 1 0 hi
  rw [Nat.zero_add] at hstart hstop
  have hpieces := Rooted.pieces_events items.rooted
  rw [events_rooted] at hpieces
  rw [pieces, hpieces]
  exact ⟨p, hp, hsignificant, hstart, hstop⟩

/-- The items are plain, and the tree is made from them. -/
structure Builds (items : Items) (t : Tree) : Prop where
  plain : items.IsPlain .file
  built : ∃ path symbols, Tree.ofEvents path symbols items.events = .ok t

namespace Builds

variable {items : Items} {t : Tree}

theorem toList_nodes (h : items.Builds t) : t.nodes.toList = items.rooted.rows := by
  obtain ⟨path, symbols, hbuilt⟩ := h.built
  exact Rooted.toList_nodes hbuilt

theorem size_pos (h : items.Builds t) : 0 < t.size := by
  rw [Tree.size, ← Array.length_toList, h.toList_nodes]
  exact Nat.zero_lt_succ _

/-- The root is no declaration and has no parent. -/
theorem root (h : items.Builds t) {i : t.Id} (hi : i.1 = 0) :
    t.kind i = .compilationUnit ∧ t.parent? i = none ∧ t.segments i = [] := by
  have hnode : items.rooted.rows[i.1]? = some (t.node i) := by
    rw [← h.toList_nodes, Array.getElem?_toList]
    exact Array.getElem?_eq_getElem i.2
  rw [hi] at hnode
  have hnode := Option.some.inj hnode
  have hkind : t.kind i = .compilationUnit := by
    unfold Tree.kind
    rw [← hnode]
    rfl
  have hparent : t.parent? i = none := by
    cases hp : t.parent? i with
    | none => rfl
    | some p =>
      have := t.lt_of_parent? hp
      omega
  refine ⟨hkind, hparent, ?_⟩
  have hnone : (t.node i).pathSegment? = none := by
    unfold Node.pathSegment?
    rw [show (t.node i).kind = .compilationUnit from hkind]
    rfl
  unfold Tree.segments Tree.ancestors
  split
  · simp [hnone]
  · next p hp => exact absurd (hparent.symm.trans hp) (by simp)

/-- Everything stands below the root. -/
theorem exists_root (h : items.Builds t) (i : t.Id) :
    ∃ r : t.Id, r.1 = 0 ∧ i.1 < (t.node r).subtreeEnd := by
  refine ⟨⟨0, h.size_pos⟩, rfl, ?_⟩
  rcases Rooted.eq_or_places h.toList_nodes ⟨0, h.size_pos⟩ with ⟨-, -, hend⟩ | hplaces
  · have hsize : t.size = 1 + items.rooted.parts.size := by
      rw [Tree.size, ← Array.length_toList, h.toList_nodes, Rooted.rows, List.length_cons,
        Forest.length_layout]
      omega
    rw [hend, ← hsize]
    exact i.2
  · exact absurd (Forest.bounds_of_places hplaces).1 (Nat.not_succ_le_zero 0)

/-- Everything behind the root has a role. -/
theorem known (h : items.Builds t) :
    (items.forest 0 .nil).Known t items.marks items.pieces 0 1 0 := by
  obtain ⟨path, symbols, hbuilt⟩ := h.built
  have hknown : ∀ r : t.Id, r.1 = 0 →
      (items.forest 0 .nil).Known t items.marks items.pieces r.1 1 0 := by
    intro r hr
    have hwithin : (items.forest 0 .nil).Within t items.marks items.pieces r.1 1 0 := by
      rw [hr]
      exact Rooted.within_parts (r := items.rooted) hbuilt
    refine items.known hbuilt h.plain hwithin ⟨hr, ?_, Or.inl hr, Or.inl hr⟩ (Or.inl rfl)
      fun _ => .nil
    rw [(h.root hr).2.2]
    rfl
  exact hknown ⟨0, h.size_pos⟩ rfl

theorem role (h : items.Builds t) {i : t.Id} (hi : i.1 ≠ 0) :
    NodeRole t items.marks items.pieces i := by
  rcases Rooted.eq_or_places h.toList_nodes i with ⟨hroot, -⟩ | hplaces
  · exact absurd hroot hi
  · exact h.known.nodes i _ hplaces

theorem pieceRole (h : items.Builds t) {p : Piece} (hp : p ∈ items.pieces)
    (hsignificant : p.significant = true) : PieceRole t items.marks items.pieces p := by
  refine h.known.pieces p ?_ hsignificant
  have hpieces := Rooted.pieces_events items.rooted
  rw [events_rooted] at hpieces
  rw [pieces, hpieces] at hp
  exact hp

/-- Declarations are the nodes that are said to be. -/
theorem declared (h : items.Builds t) {d : t.Id} (hd : (t.kind d).isDeclaration = true) :
    ∃ scope depth head, Declared t items.marks items.pieces scope depth head d := by
  have hd0 : d.1 ≠ 0 := by
    intro h0
    rw [(h.root h0).1] at hd
    exact absurd hd Bool.false_ne_true
  cases h.role hd0 with
  | declared scope depth head hdeclared => exact ⟨scope, depth, head, hdeclared⟩
  | stated depth text hs =>
    rw [hs.kind] at hd
    exact absurd hd Bool.false_ne_true
  | part hkind _ =>
    rcases hkind with hkind | hkind | hkind | hkind <;>
      (rw [hkind] at hd; exact absurd hd Bool.false_ne_true)

/-- Statements are the nodes that are said to be. -/
theorem stated (h : items.Builds t) {s : t.Id} (hs : t.kind s = .statement) :
    ∃ depth text, Stated t items.marks items.pieces depth text s := by
  have hs0 : s.1 ≠ 0 := by
    intro h0
    rw [(h.root h0).1] at hs
    exact absurd hs (by decide)
  cases h.role hs0 with
  | declared scope depth head hd =>
    rw [hd.kind] at hs
    cases head <;> exact absurd hs (by simp [Head.kind])
  | stated depth text hstated => exact ⟨depth, text, hstated⟩
  | part hkind _ =>
    rcases hkind with hkind | hkind | hkind | hkind <;>
      (rw [hkind] at hs; exact absurd hs (by decide))

/-- There are no attributes and no namespaces. -/
theorem kind_ne (h : items.Builds t) (i : t.Id) :
    t.kind i ≠ .attributeArguments ∧ t.kind i ≠ .namespaceBlock := by
  by_cases hi : i.1 = 0
  · rw [(h.root hi).1]
    decide
  cases h.role hi with
  | declared scope depth head hd =>
    rw [hd.kind]
    cases head <;> simp [Head.kind]
  | stated depth text hs =>
    rw [hs.kind]
    decide
  | part hkind _ =>
    rcases hkind with hkind | hkind | hkind | hkind <;> (rw [hkind]; decide)

/-- Only declarations have a segment in a path. -/
theorem pathSegment?_eq_none (h : items.Builds t) {i : t.Id}
    (hi : (t.kind i).isDeclaration = false) : (t.node i).pathSegment? = none := by
  have hsegment : (t.kind i).isPathSegment = false := by
    have hne := (h.kind_ne i).2
    cases hk : t.kind i <;> simp_all [NodeKind.isPathSegment]
  exact if_neg (Bool.eq_false_iff.1 hsegment)

/-- No node but the root is empty. -/
theorem full_pos (h : items.Builds t) {i : t.Id} (hi : i.1 ≠ 0) :
    (t.node i).fullSpan.start < (t.node i).fullSpan.stop := by
  cases h.role hi with
  | declared scope depth head hd => exact hd.full_pos
  | stated depth text hs => exact hs.full_pos
  | part _ hfull => exact hfull

end Builds

end Items

end HotReload.Outline
