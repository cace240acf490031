import HotReload.Source.Tree

/-!
Building a tree from events. A front end describes a file as a sequence of events: a node starts or
ends, significant text or trivia is written. The builder appends the text, lays the nodes out in
pre-order and computes both spans of each. The children of a node are written down when it ends, so
the list of children is in another order than the nodes: what ends first comes first.

Events after a mistake are still followed, and the first mistake is the one reported.
-/

namespace HotReload

/-- One step in the description of a file. -/
inductive Event where
  | start (kind : NodeKind) (name : Option String)
  | token (text : String)
  | trivia (text : String)
  | finish
  deriving DecidableEq, Repr

/-- What is wrong with a sequence of events. -/
inductive BuildFault where
  /-- So many nodes were still open at the end. -/
  | unclosed (count : Nat)
  /-- A node ended that had not started. -/
  | unbalanced
  /-- A node started after the root had ended. -/
  | secondRoot
  /-- The text is longer than offsets reach. -/
  | tooLarge
  deriving DecidableEq, Repr

/-- A file that could not be built. -/
structure BuildError where
  path : String
  fault : BuildFault
  deriving DecidableEq, Repr

/-- The text of the error. -/
def BuildError.message (e : BuildError) : String :=
  "`" ++ e.path ++ "`: " ++ match e.fault with
  | .unclosed count => s!"{count} node(s) still open at finish"
  | .unbalanced => "finish_node called with no open node"
  | .secondRoot => "a second root node was started"
  | .tooLarge => "text exceeds u32::MAX bytes"

/-- A node that has started and not ended. -/
structure OpenNode where
  id : Nat
  /-- Where it starts, trivia included. -/
  fullStart : Nat
  /-- Where the first token since its start begins. -/
  firstToken : Option Nat
  lastTokenEnd : Nat
  /-- The nodes that have started right below it. -/
  children : Array Nat
  deriving DecidableEq, Repr

namespace OpenNode

/-- The node has one more child. -/
def adopt (child : Nat) (o : OpenNode) : OpenNode := { o with children := o.children.push child }

/-- The significant span of a node that ends at `stop`; a node without a token is an insertion point
at its end. -/
def spanAt (o : OpenNode) (stop : Nat) : Span :=
  match o.firstToken with
  | some first => ⟨first, o.lastTokenEnd⟩
  | none => .point stop

/-- The node stands in an arena of some size, and its children stand behind it. -/
structure Fits (o : OpenNode) (size : Nat) : Prop where
  id_lt : o.id < size
  child_gt : ∀ c ∈ o.children, o.id < c ∧ c < size

theorem Fits.mono {o : OpenNode} {size size' : Nat} (h : o.Fits size) (hle : size ≤ size') :
    o.Fits size' :=
  ⟨Nat.lt_of_lt_of_le h.id_lt hle, fun c hc =>
    ⟨(h.child_gt c hc).1, Nat.lt_of_lt_of_le (h.child_gt c hc).2 hle⟩⟩

/-- A node may adopt the next one of the arena. -/
theorem Fits.adopt {o : OpenNode} {size : Nat} (h : o.Fits size) :
    (o.adopt size).Fits (size + 1) := by
  refine ⟨Nat.lt_succ_of_lt h.id_lt, fun c hc => ?_⟩
  rcases Array.mem_push.1 hc with hc | rfl
  · exact (h.mono (Nat.le_succ size)).child_gt c hc
  · exact ⟨h.id_lt, Nat.lt_succ_self _⟩

end OpenNode

/-- A file under construction. -/
structure Builder where
  text : String
  nodes : Array Node
  /-- The children of the nodes that have ended, those that ended first in front. -/
  childList : Array Nat
  /-- The open nodes, innermost first. -/
  stack : List OpenNode
  fault : Option BuildFault
  linked : Linked nodes childList
  stack_fits : ∀ o ∈ stack, o.Fits nodes.size

namespace Builder

/-- Nothing is written yet. -/
def empty : Builder := ⟨"", #[], #[], [], none, .empty, by simp⟩

/-- Where the next text goes. -/
def position (b : Builder) : Nat := Text.offset b.text.utf8ByteSize

/-- Record a mistake, unless there was one before. -/
def fail (b : Builder) (fault : BuildFault) : Builder :=
  { b with fault := b.fault <|> some fault }

/-- Append text that belongs to no node's significant span. -/
def trivia (b : Builder) (text : String) : Builder := { b with text := b.text ++ text }

/-- Append significant text to every open node. -/
def token (b : Builder) (text : String) : Builder :=
  let after := b.trivia text
  { after with
    stack := b.stack.map fun o =>
      { o with firstToken := o.firstToken <|> some b.position, lastTokenEnd := after.position }
    stack_fits := by
      intro o ho
      obtain ⟨o', ho', rfl⟩ := List.mem_map.1 ho
      exact ⟨(b.stack_fits o' ho').id_lt, (b.stack_fits o' ho').child_gt⟩ }

/-- The node as it stands when it has just started. -/
def freshNode (b : Builder) (kind : NodeKind) (name : Option String) : Node where
  kind := kind
  name := name
  span := .point b.position
  fullSpan := .point b.position
  parent := b.stack.head?.map (·.id)
  subtreeEnd := b.nodes.size
  children := .empty
  markers := []

/-- The node that has just started, as an open one. -/
def freshOpen (b : Builder) : OpenNode := ⟨b.nodes.size, b.position, none, b.position, #[]⟩

/-- The open nodes when one more has started: it is a child of the innermost one so far. -/
def startStack (b : Builder) : List OpenNode :=
  b.freshOpen :: b.stack.modifyHead (.adopt b.nodes.size)

@[simp] theorem length_startStack (b : Builder) : b.startStack.length = b.stack.length + 1 := by
  simp [startStack]

@[simp] theorem map_id_startStack (b : Builder) :
    b.startStack.map OpenNode.id = b.nodes.size :: b.stack.map OpenNode.id := by
  unfold startStack
  cases b.stack <;> rfl

theorem fits_startStack (b : Builder) : ∀ o ∈ b.startStack, o.Fits (b.nodes.size + 1) := by
  intro o ho
  rcases List.mem_cons.1 ho with rfl | ho
  · exact ⟨Nat.lt_succ_self _, by simp [freshOpen]⟩
  · have hfits := b.stack_fits
    cases h : b.stack with
    | nil => simp [h] at ho
    | cons inner rest =>
      rw [h] at ho hfits
      rcases List.mem_cons.1 ho with rfl | ho
      · exact (hfits inner List.mem_cons_self).adopt
      · exact (hfits o (List.mem_cons_of_mem _ ho)).mono (Nat.le_succ _)

/-- Start a node inside the innermost open one. -/
def start (b : Builder) (kind : NodeKind) (name : Option String) : Builder :=
  if b.stack.isEmpty && !b.nodes.isEmpty then b.fail .secondRoot
  else
    { b with
      nodes := b.nodes.push (b.freshNode kind name)
      stack := b.startStack
      linked := b.linked.push rfl fun p hp => by
        obtain ⟨o, ho, rfl⟩ := Option.map_eq_some_iff.1 hp
        exact (b.stack_fits o (List.mem_of_mem_head? ho)).id_lt
      stack_fits := by
        rw [Array.size_push]
        exact b.fits_startStack }

/-- The node as it stands when it ends, with its children behind `listed` other ones in the list. -/
def closeNode (o : OpenNode) (stop size listed : Nat) (n : Node) : Node :=
  { n with
    span := o.spanAt stop
    fullSpan := ⟨o.fullStart, stop⟩
    subtreeEnd := size
    children := ⟨listed, o.children.size⟩ }

/-- End the innermost open node; its children go to the end of the list. -/
def finish (b : Builder) : Builder :=
  match h : b.stack with
  | [] => b.fail .unbalanced
  | o :: rest =>
    { b with
      nodes := b.nodes.modify o.id (closeNode o b.position b.nodes.size b.childList.size)
      childList := b.childList ++ o.children
      stack := rest
      linked := b.linked.close o.id (fun _ => rfl) (fun _ => rfl)
        (b.stack_fits o (h ▸ List.mem_cons_self)).child_gt
      stack_fits := by
        intro o' ho'
        rw [Array.size_modify]
        exact b.stack_fits o' (h ▸ List.mem_cons_of_mem _ ho') }

/-- Follow one event. -/
def step (b : Builder) : Event → Builder
  | .start kind name => b.start kind name
  | .token text => b.token text
  | .trivia text => b.trivia text
  | .finish => b.finish

/-- Follow a sequence of events. -/
def run (b : Builder) (events : List Event) : Builder := events.foldl step b

/-- What is wrong at the end, if anything is. -/
def finalFault (b : Builder) : Option BuildFault :=
  b.fault <|>
    if b.stack.length ≠ 0 then some (.unclosed b.stack.length)
    else if b.text.utf8ByteSize > Text.maxOffset then some .tooLarge
    else none

end Builder

/-- The whole file belongs to the root, with the trivia before and behind it. -/
def Tree.ofBuilder (path : String) (symbols : Symbols) (b : Builder) : Tree where
  path := path
  text := b.text
  symbols := symbols
  nodes := b.nodes.modify 0 fun n => { n with fullSpan := ⟨0, b.position⟩ }
  childList := b.childList
  linked := b.linked.modify 0 (fun _ => rfl) (fun _ => rfl)

/-- The tree that a sequence of events describes. -/
def Tree.ofEvents (path : String) (symbols : Symbols) (events : List Event) :
    Except BuildError Tree :=
  let b := Builder.empty.run events
  match b.finalFault with
  | some fault => .error ⟨path, fault⟩
  | none => .ok (.ofBuilder path symbols b)

/-- A file that is one piece of unstructured text. -/
def Tree.ofPlainText (path text : String) (symbols : Symbols) : Except BuildError Tree :=
  Tree.ofEvents path symbols
    [.start .compilationUnit none, .start .other none, .token text, .finish, .finish]

end HotReload
