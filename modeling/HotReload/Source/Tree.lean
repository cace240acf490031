import HotReload.Order.SortedSet
import HotReload.Source.Node

/-!
Source trees: one version of one file, with its text, its conditional compilation symbols and its
nodes. A tree is a value; marking nodes makes a new tree.

The look-ups here go up (`ancestors`), down (`descendants`, `children`) and from a span to the
innermost node around it (`enclosing`).
-/

namespace HotReload

/-- The active conditional compilation symbols of a file. -/
abbrev Symbols := SortedSet String

/-- One version of a file. -/
structure Tree where
  path : String
  text : String
  symbols : Symbols
  nodes : Array Node
  /-- The children of all nodes, those of one node together. -/
  childList : Array Nat
  linked : Linked nodes childList
  deriving DecidableEq

/-- A tree without nodes has no root. -/
structure UnresolvedRoot where
  path : String
  deriving DecidableEq, Repr

/-- The text of the error. -/
def UnresolvedRoot.message (e : UnresolvedRoot) : String :=
  "root node of `" ++ e.path ++ "` could not be resolved"

namespace Tree

/-- The nodes of one tree by position. -/
abbrev Id (t : Tree) : Type := Fin t.nodes.size

variable (t : Tree)

/-- The number of nodes. -/
def size : Nat := t.nodes.size

/-- The node at a position, if the tree is large enough. -/
def id? (n : Nat) : Option t.Id := if h : n < t.nodes.size then some ⟨n, h⟩ else none

/-- The node's data. -/
def node (id : t.Id) : Node := t.nodes[id]

/-- The node's kind. -/
def kind (id : t.Id) : NodeKind := (t.node id).kind

/-- The first node, which every other node stands below. -/
def root : Except UnresolvedRoot t.Id :=
  if h : 0 < t.nodes.size then .ok ⟨0, h⟩ else .error ⟨t.path⟩

/-! ## Up and down -/

theorem parent_lt {id : t.Id} {p : Nat} (h : (t.node id).parent = some p) : p < id.1 :=
  t.linked.parent_lt id.1 id.2 p h

/-- The node right above; the root has none. -/
def parent? (id : t.Id) : Option t.Id :=
  (t.node id).parent.attach.map fun ⟨p, h⟩ => ⟨p, Nat.lt_trans (t.parent_lt h) id.2⟩

theorem lt_of_parent? {id p : t.Id} (h : t.parent? id = some p) : p.1 < id.1 := by
  obtain ⟨⟨q, hq⟩, _, rfl⟩ := Option.map_eq_some_iff.1 h
  exact t.parent_lt hq

/-- The nodes right below, in order. -/
def children (id : t.Id) : Array t.Id :=
  ((t.node id).children.slice t.childList).attach.map fun ⟨c, h⟩ =>
    ⟨c, (t.linked.child_gt id.1 id.2 c h).2⟩

theorem lt_of_mem_children {id c : t.Id} (h : c ∈ t.children id) : id.1 < c.1 := by
  obtain ⟨⟨q, hq⟩, _, rfl⟩ := Array.mem_map.1 h
  exact (t.linked.child_gt id.1 id.2 q hq).1

/-- The node, then everything above it up to the root. -/
def ancestors (id : t.Id) : List t.Id :=
  match _ : t.parent? id with
  | none => [id]
  | some p => id :: ancestors p
termination_by id.1
decreasing_by exact t.lt_of_parent? ‹_›

/-- The node and everything below it, in pre-order. -/
def descendants (id : t.Id) : List t.Id :=
  (List.finRange t.nodes.size).filter fun c => id.1 ≤ c.1 && c.1 < (t.node id).subtreeEnd

/-- The second position stands at or below the node at the first. A first position behind the second
is never above it; otherwise it has to be a node. -/
def isAncestor? (above below : Nat) : Option Bool :=
  if above ≤ below then (t.id? above).map fun a => below < (t.node a).subtreeEnd else some false

/-- The second node is the first or stands below it. -/
def isAncestor (above below : t.Id) : Bool :=
  above.1 ≤ below.1 && below.1 < (t.node above).subtreeEnd

/-! ## Text and names -/

/-- The text of a span; empty if the text has no such span. -/
def slice (span : Span) : String :=
  String.ofList ((Text.slice? span.start span.stop t.text.toList).getD [])

/-- The significant text of a node. -/
def nodeText (id : t.Id) : String := t.slice (t.node id).span

/-- The names of the declarations around a node, outermost first, with dots between. -/
def declarationPath (id : t.Id) : String :=
  ".".intercalate ((t.ancestors id).filterMap fun a => (t.node a).pathSegment?).reverse

/-- Both files have the same text and the same symbols. -/
def isTextIdentical (u : Tree) : Bool := t.text = u.text && t.symbols = u.symbols

/-! ## The innermost node around a span -/

/-- The first position from `low` on, below `high`, where `p` fails, found by halving. The answer
is right if `p` holds up to some position and fails behind it. -/
def firstFailure (p : Nat → Bool) (low high : Nat) : Nat :=
  if low < high then
    let middle := (low + high) / 2
    if p middle then firstFailure p (middle + 1) high else firstFailure p low middle
  else low
termination_by high - low

/-- The last child that starts, trivia included, at or before the offset. -/
def childAt? (id : t.Id) (offset : Nat) : Option t.Id :=
  let kids := t.children id
  let startsBefore (i : Nat) : Bool :=
    kids[i]?.any fun c => (t.node c).fullSpan.start ≤ offset
  match firstFailure startsBefore 0 kids.size with
  | 0 => none
  | i + 1 => kids[i]?

theorem lt_of_childAt? {id c : t.Id} {offset : Nat} (h : t.childAt? id offset = some c) :
    id.1 < c.1 := by
  simp only [childAt?] at h
  split at h
  · simp at h
  · exact t.lt_of_mem_children (Array.mem_of_getElem? h)

/-- Go down from a node, as long as the child at the start of the span contains the span. -/
def enclosingFrom (span : Span) (id : t.Id) : t.Id :=
  match _ : t.childAt? id span.start with
  | none => id
  | some c => if (t.node c).fullSpan.contains span then enclosingFrom span c else id
termination_by t.nodes.size - id.1
decreasing_by
  have := t.lt_of_childAt? ‹_›
  omega

/-- The innermost node whose full span contains the span, or the root if there is none. Of two
siblings that touch, the one that starts there is taken. -/
def enclosing (span : Span) : Except UnresolvedRoot t.Id :=
  t.root.map (t.enclosingFrom span)

end Tree

end HotReload
