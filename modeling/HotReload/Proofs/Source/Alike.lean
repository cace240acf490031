import HotReload.Proofs.Source.Nesting
import Mathlib.Data.List.Forall2

/-
  Descriptions that differ in trivia only. The builder makes the same nodes from them, but for their
  spans (`Builder.Alike.run`): every step keeps the two builders alike, as kinds, names and parents
  depend on the starts and ends alone. So a node and its counterpart have one declaration path
  (`Tree.declarationPath_eq_of_alike`).
-/

namespace HotReload

/-- The events are the same, or both write trivia. -/
inductive Event.Alike : Event → Event → Prop where
  | same (e : Event) : Alike e e
  | trivia (a b : String) : Alike (.trivia a) (.trivia b)

/-- What a node is, apart from where it stands in the text. -/
def Node.label (n : Node) : NodeKind × Option String × Option Nat := (n.kind, n.name, n.parent)

namespace Builder

/-- The nodes are the same ones, and the same ones are open. -/
structure Alike (b c : Builder) : Prop where
  labels : b.nodes.map Node.label = c.nodes.map Node.label
  stack : b.stack.map OpenNode.id = c.stack.map OpenNode.id

theorem map_label_modify (nodes : Array Node) (i : Nat) {f : Node → Node}
    (hf : ∀ n, (f n).label = n.label) :
    (nodes.modify i f).map Node.label = nodes.map Node.label := by
  refine Array.ext (by simp) fun j hj hj' => ?_
  simp only [Array.getElem_map, Array.getElem_modify]
  split
  · rw [hf]
  · rfl

namespace Alike

variable {b c : Builder}

theorem size_eq (h : b.Alike c) : b.nodes.size = c.nodes.size := by
  simpa using congrArg Array.size h.labels

theorem head?_eq (h : b.Alike c) : b.stack.head?.map (·.id) = c.stack.head?.map (·.id) := by
  rw [← List.head?_map, ← List.head?_map, h.stack]

theorem isEmpty_eq (h : b.Alike c) :
    (b.stack.isEmpty && !b.nodes.isEmpty) = (c.stack.isEmpty && !c.nodes.isEmpty) := by
  have hstack := congrArg List.isEmpty h.stack
  rw [List.isEmpty_map, List.isEmpty_map] at hstack
  have hnodes : b.nodes.isEmpty = c.nodes.isEmpty := by
    rw [Array.isEmpty, Array.isEmpty, h.size_eq]
  rw [hstack, hnodes]

theorem start (h : b.Alike c) (kind : NodeKind) (name : Option String) :
    (b.start kind name).Alike (c.start kind name) := by
  unfold Builder.start
  rw [h.isEmpty_eq]
  split
  · exact ⟨h.labels, h.stack⟩
  · refine ⟨?_, ?_⟩
    · simp only [Array.map_push, h.labels]
      simp only [freshNode, Node.label, h.head?_eq]
    · simp only [map_id_startStack, h.stack, h.size_eq]

theorem token (h : b.Alike c) (text : String) : (b.token text).Alike (c.token text) := by
  refine ⟨h.labels, ?_⟩
  simp only [Builder.token, List.map_map]
  exact h.stack

theorem finish (h : b.Alike c) : b.finish.Alike c.finish := by
  have hstack := h.stack
  unfold Builder.finish
  split
  · next hb =>
    split
    · exact ⟨h.labels, hstack⟩
    · next hc => simp [hb, hc] at hstack
  · next hb =>
    split
    · next hc => simp [hb, hc] at hstack
    · next hc =>
      rw [hb, hc, List.map_cons, List.map_cons] at hstack
      refine ⟨?_, (List.cons.inj hstack).2⟩
      have hclose : ∀ o stop size listed n, (closeNode o stop size listed n).label = n.label :=
        fun _ _ _ _ _ => rfl
      rw [map_label_modify _ _ (hclose _ _ _ _), map_label_modify _ _ (hclose _ _ _ _)]
      exact h.labels

/-- One event keeps builders alike. -/
theorem step (h : b.Alike c) {e e' : Event} (he : e.Alike e') : (b.step e).Alike (c.step e') := by
  cases he with
  | trivia a a' => exact ⟨h.labels, h.stack⟩
  | same e =>
    cases e with
    | start kind name => exact h.start kind name
    | token text => exact h.token text
    | trivia text => exact ⟨h.labels, h.stack⟩
    | finish => exact h.finish

/-- A whole description keeps builders alike. -/
theorem run (h : b.Alike c) {events events' : List Event}
    (hevents : List.Forall₂ Event.Alike events events') : (b.run events).Alike (c.run events') := by
  induction hevents generalizing b c with
  | nil => exact h
  | cons he _ ih => exact ih (h.step he)

end Alike

end Builder

namespace Tree

variable {t u : Tree}

/-- The nodes of the two trees differ in their spans only. -/
def Alike (t u : Tree) : Prop := t.nodes.map Node.label = u.nodes.map Node.label

theorem alike_of_events {path path' : String} {symbols symbols' : Symbols}
    {events events' : List Event} (hevents : List.Forall₂ Event.Alike events events')
    (ht : Tree.ofEvents path symbols events = .ok t)
    (hu : Tree.ofEvents path' symbols' events' = .ok u) : t.Alike u := by
  have hlabels : ∀ (path : String) (symbols : Symbols) (b : Builder),
      (ofBuilder path symbols b).nodes.map Node.label = b.nodes.map Node.label := fun _ _ b =>
    Builder.map_label_modify _ 0 (f := fun n => { n with fullSpan := ⟨0, b.position⟩ }) fun _ => rfl
  have hempty : Builder.empty.Alike .empty := ⟨rfl, rfl⟩
  rw [Alike, eq_ofBuilder ht, eq_ofBuilder hu, hlabels, hlabels, (hempty.run hevents).labels]

theorem Alike.size_eq (h : t.Alike u) : t.size = u.size := by
  have hsize := congrArg Array.size h
  rwa [Array.size_map, Array.size_map] at hsize

theorem label_eq_of_alike (h : t.Alike u) {i : t.Id} {j : u.Id} (hij : i.1 = j.1) :
    (t.node i).label = (u.node j).label := by
  have hget : (t.nodes.map Node.label)[i.1]? = (u.nodes.map Node.label)[j.1]? := by rw [h, hij]
  rw [Array.getElem?_map, Array.getElem?_map, getElem?_node, getElem?_node] at hget
  exact Option.some.inj hget

theorem map_val_parent? (t : Tree) (id : t.Id) :
    (t.parent? id).map Fin.val = (t.node id).parent := by
  unfold parent?
  simp

/-- The declarations around a node are the ones around its counterpart. -/
theorem segments_eq_of_alike (h : t.Alike u) {i : t.Id} {j : u.Id} (hij : i.1 = j.1) :
    t.segments i = u.segments j := by
  obtain ⟨hkind, hname, hparent⟩ : (t.node i).kind = (u.node j).kind ∧
      (t.node i).name = (u.node j).name ∧ (t.node i).parent = (u.node j).parent := by
    simpa [Node.label] using label_eq_of_alike h hij
  have hsegment : (t.node i).pathSegment? = (u.node j).pathSegment? := by
    rw [Node.pathSegment?, Node.pathSegment?, hkind, hname]
  rw [← map_val_parent?, ← map_val_parent?] at hparent
  cases hp : t.parent? i with
  | none =>
    rw [hp, Option.map_none, eq_comm, Option.map_eq_none_iff] at hparent
    rw [segments, segments, ancestors_of_parent?_eq_none hp, ancestors_of_parent?_eq_none hparent,
      List.filterMap_cons, List.filterMap_cons, hsegment]
    rfl
  | some p =>
    rw [hp, Option.map_some, eq_comm, Option.map_eq_some_iff] at hparent
    obtain ⟨q, hq, hqp⟩ := hparent
    have := t.lt_of_parent? hp
    rw [segments_of_parent? hp, segments_of_parent? hq, hsegment, segments_eq_of_alike h hqp.symm]
termination_by i.1

theorem declarationPath_eq_of_alike (h : t.Alike u) {i : t.Id} {j : u.Id} (hij : i.1 = j.1) :
    t.declarationPath i = u.declarationPath j := by
  rw [declarationPath_eq, declarationPath_eq, segments_eq_of_alike h hij]

end Tree

end HotReload
