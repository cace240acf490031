import HotReload.Proofs.Source.Nesting
import HotReload.Proofs.Text.Marked

/-
  A forest at its place. `Forest.Within` says of a forest that its nodes are nodes of a tree, its
  pieces are pieces of the text and its text stands at an offset of the text. What holds of a whole
  description holds of its parts (`within_parts`, `Within.node`, `Within.token`, `Within.trivia`), so
  an induction on what a forest was made from can speak about the tree all along.
-/

namespace HotReload

open Marked

namespace Event

/-- The text that events write, with the significant text marked as code. -/
def marks : List Event → Marked
  | [] => []
  | .token text :: rest => code text.toList ++ marks rest
  | .trivia text :: rest => Marked.trivia text.toList ++ marks rest
  | .start _ _ :: rest | .finish :: rest => marks rest

theorem marks_append (a b : List Event) : marks (a ++ b) = marks a ++ marks b := by
  induction a with
  | nil => rfl
  | cons e a ih => cases e <;> simp [marks, ih]

theorem text_marks (events : List Event) :
    Marked.text (marks events) = (written events).toList := by
  induction events with
  | nil => rfl
  | cons e events ih => cases e <;> simp [marks, written, Event.text, ih]

theorem width_marks (events : List Event) : width (marks events) = bytes events := by
  rw [width, text_marks, ← Text.utf8ByteSize_eq_byteLength, utf8ByteSize_written]

end Event

namespace Forest

/-- The text of a forest, with the significant text marked as code. -/
def marks (f : Forest) : Marked := Event.marks f.events

@[simp] theorem marks_nil : marks nil = [] := rfl

@[simp] theorem marks_token (text : String) (rest : Forest) :
    marks (token text rest) = code text.toList ++ rest.marks := rfl

@[simp] theorem marks_trivia (text : String) (rest : Forest) :
    marks (trivia text rest) = Marked.trivia text.toList ++ rest.marks := rfl

@[simp] theorem marks_node (kind : NodeKind) (name : Option String) (parts rest : Forest) :
    marks (node kind name parts rest) = parts.marks ++ rest.marks := by
  simp only [marks, events, Event.marks, Event.marks_append]

theorem width_marks (f : Forest) : width f.marks = f.bytes := by
  rw [marks, Event.width_marks, bytes_events]

/-- Every byte of code belongs to a significant piece. -/
theorem exists_piece_of_codeAt {f : Forest} {i : Nat} (owner id offset : Nat)
    (h : codeAt f.marks i = true) :
    ∃ p ∈ f.pieces owner id offset, p.significant = true ∧ p.span.start ≤ offset + i ∧
      offset + i < p.span.stop := by
  induction f generalizing owner id offset i with
  | nil => simp [codeAt] at h
  | token text rest ih =>
    rw [marks_token, codeAt_append, width_code, ← Text.utf8ByteSize_eq_byteLength] at h
    by_cases hi : i < text.utf8ByteSize
    · exact ⟨_, List.mem_cons_self, rfl, Nat.le_add_right _ _, Nat.add_lt_add_left hi _⟩
    · rw [if_neg hi] at h
      obtain ⟨p, hp, hs, hstart, hstop⟩ := ih owner id (offset + text.utf8ByteSize) h
      exact ⟨p, List.mem_cons_of_mem _ hp, hs, by omega, by omega⟩
  | trivia text rest ih =>
    rw [marks_trivia, codeAt_append, width_trivia, ← Text.utf8ByteSize_eq_byteLength,
      codeAt_trivia] at h
    by_cases hi : i < text.utf8ByteSize
    · rw [if_pos hi] at h
      exact absurd h (by decide)
    · rw [if_neg hi] at h
      obtain ⟨p, hp, hs, hstart, hstop⟩ := ih owner id (offset + text.utf8ByteSize) h
      exact ⟨p, List.mem_cons_of_mem _ hp, hs, by omega, by omega⟩
  | node kind name parts rest ihp ihr =>
    rw [marks_node, codeAt_append, width_marks] at h
    by_cases hi : i < parts.bytes
    · rw [if_pos hi] at h
      obtain ⟨p, hp, hs⟩ := ihp id (id + 1) offset h
      exact ⟨p, List.mem_append_left _ hp, hs⟩
    · rw [if_neg hi] at h
      obtain ⟨p, hp, hs, hstart, hstop⟩ :=
        ihr owner (id + 1 + parts.size) (offset + parts.bytes) h
      exact ⟨p, List.mem_append_right _ hp, hs, by omega, by omega⟩

/-- The forest stands at this place of a tree and of a text in pieces. -/
structure Within (t : Tree) (all : Marked) (pieces : List Piece) (parent id offset : Nat)
    (f : Forest) : Prop where
  places : ∃ listed, ∀ j n, f.Places (some parent) id offset listed j n →
    ∃ i : t.Id, i.1 = j ∧ t.node i = n
  pieces : ∀ p ∈ f.pieces parent id offset, p ∈ pieces
  marks : At all offset f.marks

namespace Within

variable {t : Tree} {all : Marked} {ps : List Piece} {parent id offset : Nat}
  {text : String} {rest parts : Forest} {kind : NodeKind} {name : Option String}

theorem token (h : (Forest.token text rest).Within t all ps parent id offset) :
    ⟨parent, true, offset, offset + text.utf8ByteSize⟩ ∈ ps ∧ At all offset (code text.toList) ∧
      rest.Within t all ps parent id (offset + text.utf8ByteSize) := by
  refine ⟨h.pieces _ List.mem_cons_self, h.marks.left, h.places,
    fun p hp => h.pieces p (List.mem_cons_of_mem _ hp), ?_⟩
  have hmarks := h.marks.right
  rwa [width_code, ← Text.utf8ByteSize_eq_byteLength] at hmarks

theorem trivia (h : (Forest.trivia text rest).Within t all ps parent id offset) :
    ⟨parent, false, offset, offset + text.utf8ByteSize⟩ ∈ ps ∧
      At all offset (Marked.trivia text.toList) ∧
      rest.Within t all ps parent id (offset + text.utf8ByteSize) := by
  refine ⟨h.pieces _ List.mem_cons_self, h.marks.left, h.places,
    fun p hp => h.pieces p (List.mem_cons_of_mem _ hp), ?_⟩
  have hmarks := h.marks.right
  rwa [width_trivia, ← Text.utf8ByteSize_eq_byteLength] at hmarks

theorem node (h : (Forest.node kind name parts rest).Within t all ps parent id offset) :
    (∃ i : t.Id, i.1 = id ∧
        ∃ listed, t.node i = parts.row (some parent) id offset listed kind name) ∧
      parts.Within t all ps id (id + 1) offset ∧
      rest.Within t all ps parent (id + 1 + parts.size) (offset + parts.bytes) := by
  have hmarks := h.marks
  rw [marks_node] at hmarks
  obtain ⟨listed, hplaces⟩ := h.places
  obtain ⟨i, hi, hnode⟩ := hplaces id _ (Or.inl ⟨rfl, rfl⟩)
  refine ⟨⟨i, hi, listed, hnode⟩, ⟨⟨listed, fun j n hn => hplaces j n (Or.inr (Or.inl hn))⟩,
    fun p hp => h.pieces p (List.mem_append_left _ hp), hmarks.left⟩,
    ⟨listed + parts.size, fun j n hn => hplaces j n (Or.inr (Or.inr hn))⟩,
    fun p hp => h.pieces p (List.mem_append_right _ hp), ?_⟩
  have hright := hmarks.right
  rwa [width_marks] at hright

end Within

variable {f : Forest} {parent : Option Nat} {id offset listed j : Nat} {n : Node}

theorem getElem?_of_places (h : f.Places parent id offset listed j n) :
    (f.layout parent id offset listed)[j - id]? = some n := by
  induction f generalizing parent id offset listed with
  | nil => exact h.elim
  | token text rest ih | trivia text rest ih => exact ih h
  | node kind name parts rest ihp ihr =>
    rcases h with ⟨rfl, rfl⟩ | h | h
    · rw [Nat.sub_self]
      rfl
    · have hbounds := bounds_of_places h
      rw [layout, show j - id = j - (id + 1) + 1 by omega, List.getElem?_cons_succ,
        List.getElem?_append_left (by rw [length_layout]; omega)]
      exact ihp h
    · have hbounds := bounds_of_places h
      rw [layout, show j - id = j - (id + 1) + 1 by omega, List.getElem?_cons_succ,
        List.getElem?_append_right (by rw [length_layout]; omega), length_layout,
        show j - (id + 1) - parts.size = j - (id + 1 + parts.size) by omega]
      exact ihr h

end Forest

namespace Rooted

variable {path : String} {symbols : Symbols} {t : Tree} {r : Rooted}

/-- What the parts of the root put at a position is the node there. -/
theorem getElem?_of_places (h : t.nodes.toList = r.rows) {j : Nat} {n : Node}
    (hn : r.parts.Places (some 0) 1 r.offset 0 j n) : t.nodes[j]? = some n := by
  have hbounds := Forest.bounds_of_places hn
  have hget := Forest.getElem?_of_places hn
  rw [← Array.getElem?_toList, h, rows, show j = j - 1 + 1 by omega, List.getElem?_cons_succ]
  exact hget

/-- The parts of the root stand behind what is written in front of it. -/
theorem within_parts (h : Tree.ofEvents path symbols r.events = .ok t) :
    r.parts.Within t (Event.marks r.events) (Event.pieces 0 [] 0 r.events) 0 1 r.offset where
  places := by
    refine ⟨0, fun j n hn => ?_⟩
    obtain ⟨hj, hnode⟩ := Array.getElem?_eq_some_iff.1 (getElem?_of_places (toList_nodes h) hn)
    exact ⟨⟨j, hj⟩, rfl, hnode⟩
  pieces p hp := by
    rw [pieces_events]
    exact hp
  marks := by
    refine ⟨Event.marks r.before, Event.marks r.after, ?_, Event.width_marks _⟩
    simp only [events, Event.marks_append, Event.marks, Forest.marks, List.append_assoc]

end Rooted
end HotReload
