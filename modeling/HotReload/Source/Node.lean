import HotReload.Source.Marker
import HotReload.Text.Span

/-!
The nodes of a source tree. A tree keeps its nodes in pre-order in one array, and nodes refer to one
another by position. Three encodings of the tree shape stand side by side: the parent, the end of the
subtree, and the children, which are a range of one list for the whole tree.

Positions have 32 bits, and the last one stands for no node, so a tree has room for fewer nodes than
`Node.noId`. Positions are counted without that bound here. With fewer nodes it makes no difference,
since then every number in a node fits (`Tree.Coherent.fits`).
-/

namespace HotReload

/-- A range of the list of children of a tree. -/
structure ChildRange where
  start : Nat
  length : Nat
  deriving DecidableEq, Repr

namespace ChildRange

/-- The range of a node without children. -/
def empty : ChildRange := ⟨0, 0⟩

/-- One past the last entry. -/
def stop (r : ChildRange) : Nat := r.start + r.length

/-- The entries of the range. -/
def slice (r : ChildRange) (list : Array Nat) : Array Nat := list.extract r.start r.stop

@[simp] theorem stop_empty : empty.stop = 0 := rfl

@[simp] theorem slice_empty (list : Array Nat) : empty.slice list = #[] := by
  simp [slice, empty, stop]

theorem slice_append_of_le {r : ChildRange} {list : Array Nat} (h : r.stop ≤ list.size)
    (more : Array Nat) : r.slice (list ++ more) = r.slice list := by
  have hmore : more.extract (r.start - list.size) (r.stop - list.size) = #[] :=
    Array.extract_empty_of_stop_le_start (by omega)
  rw [slice, Array.extract_append, hmore, Array.append_empty, slice]

theorem slice_append_size (list more : Array Nat) :
    slice ⟨list.size, more.size⟩ (list ++ more) = more := by
  simp [slice, stop, Array.extract_append]

end ChildRange

/-- One node of a source tree. -/
structure Node where
  kind : NodeKind
  /-- The name of a declaration or attribute. -/
  name : Option String
  /-- The significant text. -/
  span : Span
  /-- The significant text with the trivia that belongs to it. -/
  fullSpan : Span
  /-- The parent, which the root lacks. -/
  parent : Option Nat
  /-- One past the last descendant in pre-order. -/
  subtreeEnd : Nat
  children : ChildRange
  markers : List Marker
  deriving DecidableEq, Repr

namespace Node

/-- The position of the root. -/
def rootId : Nat := 0

/-- The position that stands for no node. -/
def noId : Nat := 4294967295

/-- The text of a node's position in messages. -/
def idText (id : Nat) : String := if id = noId then "NodeId::INVALID" else s!"NodeId({id})"

/-- The node's segment of a declaration path: its name, or the accessor's if it has none. -/
def pathSegment? (n : Node) : Option String :=
  if n.kind.isPathSegment then
    match n.name, n.kind with
    | some name, _ => some name
    | none, .accessor a => some a.name
    | none, _ => none
  else none

end Node

/-- Parents stand before their children, and no child stands beyond the end. Walks up and down the
tree come to an end by this. -/
structure Linked (nodes : Array Node) (childList : Array Nat) : Prop where
  parent_lt : ∀ (i : Nat) (h : i < nodes.size), ∀ p, nodes[i].parent = some p → p < i
  /-- The children of a node are in the list, -/
  range_le : ∀ (i : Nat) (h : i < nodes.size), nodes[i].children.stop ≤ childList.size
  /-- and behind the node. -/
  child_gt : ∀ (i : Nat) (h : i < nodes.size), ∀ c ∈ nodes[i].children.slice childList,
    i < c ∧ c < nodes.size

namespace Linked

variable {nodes : Array Node} {childList : Array Nat}

theorem empty : Linked #[] #[] := ⟨by simp, by simp, by simp⟩

/-- Changing nodes without touching their links keeps the arena linked. -/
theorem mapFinIdx (hl : Linked nodes childList) {f : (i : Nat) → Node → i < nodes.size → Node}
    (hp : ∀ i n h, (f i n h).parent = n.parent) (hc : ∀ i n h, (f i n h).children = n.children) :
    Linked (nodes.mapFinIdx f) childList := by
  refine ⟨fun i h p => ?_, fun i h => ?_, fun i h c => ?_⟩
  · simp only [Array.getElem_mapFinIdx, hp]
    exact hl.parent_lt i (by simpa using h) p
  · simp only [Array.getElem_mapFinIdx, hc]
    exact hl.range_le i (by simpa using h)
  · simp only [Array.getElem_mapFinIdx, hc, Array.size_mapFinIdx]
    exact hl.child_gt i (by simpa using h) c

/-- Changing one node without touching its links keeps the arena linked. -/
theorem modify (hl : Linked nodes childList) (j : Nat) {f : Node → Node}
    (hp : ∀ n, (f n).parent = n.parent) (hc : ∀ n, (f n).children = n.children) :
    Linked (nodes.modify j f) childList := by
  refine ⟨fun i h p => ?_, fun i h => ?_, fun i h c => ?_⟩
  · rw [Array.getElem_modify]
    split <;> simpa only [hp] using hl.parent_lt i (by simpa using h) p
  · rw [Array.getElem_modify]
    split <;> simpa only [hc] using hl.range_le i (by simpa using h)
  · rw [Array.getElem_modify, Array.size_modify]
    split <;> simpa only [hc] using hl.child_gt i (by simpa using h) c

/-- The arena stays linked when a node without children starts behind its parent. -/
theorem push (hl : Linked nodes childList) {fresh : Node} (hchildren : fresh.children = .empty)
    (hparent : ∀ p, fresh.parent = some p → p < nodes.size) :
    Linked (nodes.push fresh) childList := by
  refine ⟨fun i h p => ?_, fun i h => ?_, fun i h c => ?_⟩ <;> rw [Array.getElem_push] <;> split
  · exact hl.parent_lt i _ p
  · intro hp
    have := hparent p hp
    rw [Array.size_push] at h
    omega
  · exact hl.range_le i _
  · simp [hchildren]
  · intro hc
    have := hl.child_gt i _ c hc
    rw [Array.size_push]
    omega
  · simp [hchildren]

/-- The arena stays linked when a node ends and its children go to the end of the list. -/
theorem close (hl : Linked nodes childList) (j : Nat) {f : Node → Node} {children : Array Nat}
    (hp : ∀ n, (f n).parent = n.parent)
    (hc : ∀ n, (f n).children = ⟨childList.size, children.size⟩)
    (hchildren : ∀ c ∈ children, j < c ∧ c < nodes.size) :
    Linked (nodes.modify j f) (childList ++ children) := by
  refine ⟨fun i h p => ?_, fun i h => ?_, fun i h c => ?_⟩
  · rw [Array.getElem_modify]
    split <;> simpa only [hp] using hl.parent_lt i (by simpa using h) p
  · rw [Array.getElem_modify, Array.size_append]
    split
    · rw [hc]
      exact Nat.le_refl _
    · exact Nat.le_trans (hl.range_le i (by simpa using h)) (Nat.le_add_right _ _)
  · rw [Array.getElem_modify, Array.size_modify]
    split
    · next hij =>
      rw [hc, ChildRange.slice_append_size]
      exact hij ▸ hchildren c
    · rw [ChildRange.slice_append_of_le (hl.range_le i (by simpa using h))]
      exact hl.child_gt i (by simpa using h) c

end Linked

end HotReload
