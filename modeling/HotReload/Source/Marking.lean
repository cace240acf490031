import HotReload.Source.Tree
import HotReload.Text.Edit
import HotReload.Text.Shift

/-!
Adding markers to a tree. All markers of a batch speak about nodes of the same tree. A marker that
a node already carries is not added again. Markers about a member are written right in front of its
significant text, markers about the whole program at the end of the file, and every span moves along.

Spans are shifted from the last insertion to the first, inner owners first, so every shift sees
offsets that have not moved yet or lie behind it.
-/

namespace HotReload

/-- Why a batch of markers has no result. -/
inductive MarkError where
  /-- The first position in the batch that is no node. -/
  | unknownNode (path : String) (id : Nat)
  | edit (error : EditError)
  deriving DecidableEq, Repr

/-- The text of the error. -/
def MarkError.message : MarkError → String
  | unknownNode path id => "`" ++ path ++ "`: no node " ++ Node.idText id ++ " to replace"
  | edit error => error.message

namespace Marking

/-- A marker for the node at a position. -/
abbrev Request := Nat × Marker

/-- The markers that a batch adds to a node, in order of first request. -/
def additions (requests : List Request) (id : Nat) (present : List Marker) : List Marker :=
  requests.foldl (fun added (target, m) =>
    if target = id && !present.contains m && !added.contains m then added ++ [m] else added) []

/-- Where inserted text stands. -/
inductive Placement where
  /-- In front of the owner's significant text. -/
  | before
  /-- At the end of the file. -/
  | after
  deriving DecidableEq, Repr

/-- Marker text to insert for a node. -/
structure Insertion where
  owner : Nat
  position : Nat
  text : String
  placement : Placement
  deriving DecidableEq, Repr

namespace Insertion

/-- The length of the inserted text. -/
def length (ins : Insertion) : Nat := Text.offset ins.text.utf8ByteSize

/-- The insertion as an edit. -/
def edit (ins : Insertion) : Edit := .insertion ins.position ins.text

/-- Insertions go by position, and outer owners come first. -/
def le (a b : Insertion) : Bool :=
  ((compare a.position b.position).then (compare a.owner b.owner)).isLE

end Insertion

/-- Markers about a member: one after the other, and a blank. -/
def memberText (markers : List Marker) : String := String.join (markers.map Marker.render) ++ " "

/-- Markers about the program: one a line, on lines of their own. -/
def assemblyText (text : String) (markers : List Marker) : String :=
  (if text.isEmpty || text.toList.getLast? = some '\n' then "" else "\n") ++
  String.join (markers.map fun m => m.render ++ "\n")

/-- The text that added markers put into a file, for one node. -/
def insertionsOf (text : String) (id : Nat) (n : Node) (added : List Marker) : List Insertion :=
  let (assembly, member) := added.partition Marker.isAssemblyLevel
  (if member.isEmpty then [] else [⟨id, n.span.start, memberText member, .before⟩]) ++
  (if assembly.isEmpty then []
    else [⟨id, Text.offset text.utf8ByteSize, assemblyText text assembly, .after⟩])

/-- The text that a batch puts into a file, in order of position. -/
def insertions (t : Tree) (requests : List Request) : List Insertion :=
  (t.nodes.toList.zipIdx.flatMap fun (n, id) =>
    insertionsOf t.text id n (additions requests id n.markers)).mergeSort Insertion.le

/-- The second position stands at or below the node at the first. -/
def covers (nodes : Array Node) (above below : Nat) : Bool :=
  above ≤ below && nodes[above]?.any fun n => below < n.subtreeEnd

/-- The spans of a node after an insertion. An offset right at the insertion moves if the inserted
text belongs in front of it: starts strictly inside the owner do, and ends of nodes around or inside
the owner. Text at the end of the file belongs to the nodes around its owner. -/
def shiftNode (nodes : Array Node) (ins : Insertion) (id : Nat) (n : Node) : Node :=
  let shift := Shift.insertion ins.position ins.length
  let inside := covers nodes ins.owner id && id ≠ ins.owner
  let around := covers nodes id ins.owner
  let (startStays, stopStays) := match ins.placement with
    | .before => (!inside, !(inside || around))
    | .after => (true, !around)
  let move (s : Span) : Span := ⟨shift.adjust s.start startStays, shift.adjust s.stop stopStays⟩
  let reach (s : Span) : Span :=
    if ins.placement = .after ∧ id = ins.owner then
      ⟨s.start, max s.stop (Text.offset (ins.position + ins.length))⟩
    else s
  { n with span := reach (move n.span), fullSpan := reach (move n.fullSpan) }

/-- The tree with the spans after an insertion. -/
def shiftSpans (t : Tree) (ins : Insertion) : Tree :=
  { t with
    nodes := t.nodes.mapFinIdx fun id n _ => shiftNode t.nodes ins id n
    linked := t.linked.mapFinIdx (fun _ _ _ => rfl) (fun _ _ _ => rfl) }

/-- The tree with the added markers on its nodes and nothing written yet. -/
def attach (t : Tree) (requests : List Request) : Tree :=
  { t with
    nodes := t.nodes.mapFinIdx fun id n _ =>
      { n with markers := n.markers ++ additions requests id n.markers }
    linked := t.linked.mapFinIdx (fun _ _ _ => rfl) (fun _ _ _ => rfl) }

end Marking

/-- The tree with a batch of markers added. -/
def Tree.addMarkers (t : Tree) (requests : List Marking.Request) : Except MarkError Tree :=
  match requests.find? fun (id, _) => t.nodes.size ≤ id with
  | some (id, _) => .error (.unknownNode t.path id)
  | none =>
    let insertions := Marking.insertions t requests
    match Edit.applyAll t.text (insertions.map Marking.Insertion.edit) with
    | .error e => .error (.edit e)
    | .ok text =>
      .ok { insertions.reverse.foldl Marking.shiftSpans (Marking.attach t requests) with text }

end HotReload
