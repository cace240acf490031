import HotReload.Proofs.Source.Forest

/-
  What the builder makes of a forest. `Forest.layout` lists the nodes of a forest in pre-order, each
  with its spans and links. `Builder.run_forest`: below an open node, the events of a forest append
  its text, its layout and its listing of children, hang its roots below the innermost open node and
  tell every open node of the significant text; nothing else changes. The induction is on the forest,
  so a node is one start, the run of its parts, one end and the run of what follows.
-/

namespace HotReload

/-! ## Layout -/

namespace Forest

/-- The span from the start of the first of some significant texts to the end of the last; an
insertion point where there are none. -/
def cover (tokens : List Span) (stop : Nat) : Span :=
  ⟨(tokens.head?.map Span.start).getD stop, (tokens.getLast?.map Span.stop).getD stop⟩

/-- Significant text in order is covered. -/
theorem cover_of_mem {tokens : List Span} {stop : Nat} (hle : ∀ s ∈ tokens, s.start ≤ s.stop)
    (hpairwise : tokens.Pairwise fun a b => a.stop ≤ b.start) {s : Span} (hs : s ∈ tokens) :
    (cover tokens stop).contains s = true := by
  have hfirst : ∃ first, tokens.head? = some first ∧ first.start ≤ s.start := by
    cases tokens with
    | nil => simp at hs
    | cons first rest =>
      refine ⟨first, rfl, ?_⟩
      rcases List.mem_cons.1 hs with rfl | hs
      · exact Nat.le_refl _
      · exact Nat.le_trans (hle first List.mem_cons_self) (List.rel_of_pairwise_cons hpairwise hs)
  have hlast : ∃ last, tokens.getLast? = some last ∧ s.stop ≤ last.stop := by
    rcases List.eq_nil_or_concat tokens with rfl | ⟨rest, last, rfl⟩
    · simp at hs
    · rw [List.concat_eq_append] at hs hpairwise hle ⊢
      refine ⟨last, by simp, ?_⟩
      rcases List.mem_append.1 hs with hs | hs
      · have hrel := (List.pairwise_append.1 hpairwise).2.2 s hs last List.mem_cons_self
        exact Nat.le_trans hrel (hle last (by simp))
      · have heq : s = last := List.mem_singleton.1 hs
        exact Nat.le_of_eq (congrArg Span.stop heq)
  obtain ⟨first, hhead, hstart⟩ := hfirst
  obtain ⟨last, hgetLast, hstop⟩ := hlast
  unfold cover
  rw [hhead, hgetLast]
  simp [Span.contains, hstart, hstop]

/-- The node at position `id` that starts at an offset and has the given parts. Its children stand in
the list of children behind those of its parts, and these behind `listed` other entries. -/
def row (parent : Option Nat) (id offset listed : Nat) (kind : NodeKind) (name : Option String)
    (parts : Forest) : Node where
  kind := kind
  name := name
  span := cover (parts.tokens offset) (offset + parts.bytes)
  fullSpan := ⟨offset, offset + parts.bytes⟩
  parent := parent
  subtreeEnd := id + 1 + parts.size
  children := ⟨listed + (parts.listing (id + 1)).length, (parts.roots (id + 1)).length⟩
  markers := []

/-- The nodes of a forest in pre-order, if the first one gets position `id`, the text starts at an
offset, and the list of children has `listed` entries before. -/
def layout (parent : Option Nat) (id offset listed : Nat) : Forest → List Node
  | nil => []
  | token text rest | trivia text rest =>
    rest.layout parent id (offset + text.utf8ByteSize) listed
  | node kind name parts rest =>
    parts.row parent id offset listed kind name ::
      (parts.layout (some id) (id + 1) offset listed ++
        rest.layout parent (id + 1 + parts.size) (offset + parts.bytes) (listed + parts.size))

@[simp] theorem length_layout (f : Forest) (parent : Option Nat) (id offset listed : Nat) :
    (f.layout parent id offset listed).length = f.size := by
  induction f generalizing parent id offset listed with
  | nil => rfl
  | token text rest ih | trivia text rest ih => exact ih _ _ _ _
  | node kind name parts rest ihp ihr =>
    simp only [layout, size, List.length_cons, List.length_append, ihp, ihr]
    omega

end Forest

/-! ## Open nodes -/

namespace OpenNode

/-- An open node after more significant text. -/
def touch (o : OpenNode) (tokens : List Span) : OpenNode :=
  { o with
    firstToken := o.firstToken <|> tokens.head?.map Span.start
    lastTokenEnd := (tokens.getLast?.map Span.stop).getD o.lastTokenEnd }

/-- An open node with more children. -/
def adoptAll (ids : List Nat) (o : OpenNode) : OpenNode :=
  { o with children := o.children ++ ids.toArray }

@[simp] theorem touch_nil (o : OpenNode) : o.touch [] = o := by
  unfold touch
  simp

theorem touch_touch (o : OpenNode) (a b : List Span) : (o.touch a).touch b = o.touch (a ++ b) := by
  unfold touch
  congr 1
  · rw [List.head?_append, Option.map_or]
    cases o.firstToken <;> cases a.head? <;> simp
  · rw [List.getLast?_append, Option.map_or]
    cases b.getLast? <;> cases a.getLast? <;> simp

@[simp] theorem adoptAll_nil (o : OpenNode) : o.adoptAll [] = o := by simp [adoptAll]

theorem adoptAll_adoptAll (o : OpenNode) (a b : List Nat) :
    (o.adoptAll a).adoptAll b = o.adoptAll (a ++ b) := by simp [adoptAll]

theorem adopt_eq_adoptAll (child : Nat) (o : OpenNode) : o.adopt child = o.adoptAll [child] := by
  simp [adopt, adoptAll]

theorem touch_adoptAll (o : OpenNode) (tokens : List Span) (ids : List Nat) :
    (o.adoptAll ids).touch tokens = (o.touch tokens).adoptAll ids := rfl

/-- A node that has seen some significant text since its start ends with the span of that text. -/
theorem spanAt_touch (id start stop : Nat) (tokens : List Span) (children : Array Nat) :
    ((⟨id, start, none, start, children⟩ : OpenNode).touch tokens).spanAt stop =
      Forest.cover tokens stop := by
  cases tokens with
  | nil => rfl
  | cons s rest => simp [touch, spanAt, Forest.cover, List.getLast?_cons]

end OpenNode

/-- The open nodes after significant text and new nodes below the innermost one. -/
def growStack (tokens : List Span) (roots : List Nat) (stack : List OpenNode) : List OpenNode :=
  (stack.map (·.touch tokens)).modifyHead (·.adoptAll roots)

@[simp] theorem growStack_nil (tokens : List Span) (roots : List Nat) :
    growStack tokens roots [] = [] := rfl

@[simp] theorem growStack_cons (tokens : List Span) (roots : List Nat) (o : OpenNode)
    (rest : List OpenNode) :
    growStack tokens roots (o :: rest) =
      (o.touch tokens).adoptAll roots :: rest.map (·.touch tokens) := rfl

theorem growStack_growStack (tokens₁ tokens₂ : List Span) (roots₁ roots₂ : List Nat)
    (stack : List OpenNode) :
    growStack tokens₂ roots₂ (growStack tokens₁ roots₁ stack) =
      growStack (tokens₁ ++ tokens₂) (roots₁ ++ roots₂) stack := by
  cases stack with
  | nil => rfl
  | cons o rest =>
    simp only [growStack_cons, OpenNode.touch_adoptAll, OpenNode.touch_touch,
      OpenNode.adoptAll_adoptAll, List.map_map, Function.comp_def]

@[simp] theorem growStack_nil_nil (stack : List OpenNode) : growStack [] [] stack = stack := by
  cases stack with
  | nil => rfl
  | cons o rest => simp

theorem map_id_growStack (tokens : List Span) (roots : List Nat) (stack : List OpenNode) :
    (growStack tokens roots stack).map OpenNode.id = stack.map OpenNode.id := by
  cases stack with
  | nil => rfl
  | cons o rest =>
    rw [growStack_cons, List.map_cons, List.map_map]
    rfl

/-! ## Running a forest -/

namespace Builder

theorem modify_append_cons {α : Type} {as bs : List α} {a : α} {i : Nat} (f : α → α)
    (h : as.length = i) : (as ++ a :: bs).modify i f = as ++ f a :: bs := by
  subst h
  induction as with
  | nil => rfl
  | cons _ as ih => simpa using ih

theorem run_append (b : Builder) (es fs : List Event) : b.run (es ++ fs) = (b.run es).run fs :=
  List.foldl_append

theorem run_cons (b : Builder) (e : Event) (es : List Event) : b.run (e :: es) = (b.step e).run es :=
  rfl

theorem run_node (b : Builder) (kind : NodeKind) (name : Option String) (es fs : List Event) :
    b.run (.start kind name :: (es ++ .finish :: fs)) =
      (((b.start kind name).run es).finish).run fs := by
  rw [run_cons, run_append]
  rfl

theorem position_eq {b : Builder} (h : b.text.utf8ByteSize ≤ Text.maxOffset) :
    b.position = b.text.utf8ByteSize := Nat.min_eq_left h

/-- What balanced events do below an open node: they append text, put significant text into every
open node, hang new nodes below the innermost one, and append the rows of all new nodes and the
children of these. -/
structure Appends (b b' : Builder) (text : String) (tokens : List Span) (roots listing : List Nat)
    (rows : List Node) : Prop where
  text : b'.text = b.text ++ text
  stack : b'.stack = growStack tokens roots b.stack
  nodes : b'.nodes.toList = b.nodes.toList ++ rows
  childList : b'.childList.toList = b.childList.toList ++ listing
  fault : b'.fault = b.fault

namespace Appends

variable {b b₁ b₂ : Builder} {text text₁ text₂ : String} {tokens tokens₁ tokens₂ : List Span}
  {roots roots₁ roots₂ listing listing₁ listing₂ : List Nat} {rows rows₁ rows₂ : List Node}

/-- Text outside new nodes. -/
theorem of_text (htext : b₁.text = b.text ++ text) (hstack : b₁.stack = growStack tokens [] b.stack)
    (hnodes : b₁.nodes = b.nodes) (hlist : b₁.childList = b.childList) (hfault : b₁.fault = b.fault) :
    b.Appends b₁ text tokens [] [] [] where
  text := htext
  stack := hstack
  nodes := by rw [hnodes, List.append_nil]
  childList := by rw [hlist, List.append_nil]
  fault := hfault

theorem refl (b : Builder) : b.Appends b "" [] [] [] [] :=
  of_text (by simp) (by simp) rfl rfl rfl

theorem id_head?_stack (h : b.Appends b₁ text tokens roots listing rows) :
    b₁.stack.head?.map (·.id) = b.stack.head?.map (·.id) := by
  rw [← List.head?_map, ← List.head?_map, h.stack, map_id_growStack]

theorem stack_ne_nil (h : b.Appends b₁ text tokens roots listing rows) (hopen : b.stack ≠ []) :
    b₁.stack ≠ [] := by
  obtain ⟨o, rest, hstack⟩ := List.exists_cons_of_ne_nil hopen
  rw [h.stack, hstack]
  exact List.cons_ne_nil _ _

theorem utf8ByteSize_text (h : b.Appends b₁ text tokens roots listing rows) :
    b₁.text.utf8ByteSize = b.text.utf8ByteSize + text.utf8ByteSize := by
  rw [h.text, String.utf8ByteSize_append]

theorem size_nodes (h : b.Appends b₁ text tokens roots listing rows) :
    b₁.nodes.size = b.nodes.size + rows.length := by
  rw [← Array.length_toList, h.nodes, List.length_append, Array.length_toList]

theorem size_childList (h : b.Appends b₁ text tokens roots listing rows) :
    b₁.childList.size = b.childList.size + listing.length := by
  rw [← Array.length_toList, h.childList, List.length_append, Array.length_toList]

theorem trans (h₁ : b.Appends b₁ text₁ tokens₁ roots₁ listing₁ rows₁)
    (h₂ : b₁.Appends b₂ text₂ tokens₂ roots₂ listing₂ rows₂) :
    b.Appends b₂ (text₁ ++ text₂) (tokens₁ ++ tokens₂) (roots₁ ++ roots₂) (listing₁ ++ listing₂)
      (rows₁ ++ rows₂) where
  text := by rw [h₂.text, h₁.text, String.append_assoc]
  stack := by rw [h₂.stack, h₁.stack, growStack_growStack]
  nodes := by rw [h₂.nodes, h₁.nodes, List.append_assoc]
  childList := by rw [h₂.childList, h₁.childList, List.append_assoc]
  fault := by rw [h₂.fault, h₁.fault]

end Appends

theorem appends_token (b : Builder) (text : String)
    (hsize : b.text.utf8ByteSize + text.utf8ByteSize ≤ Text.maxOffset) :
    b.Appends (b.token text) text
      [⟨b.text.utf8ByteSize, b.text.utf8ByteSize + text.utf8ByteSize⟩] [] [] [] := by
  refine .of_text rfl ?_ rfl rfl rfl
  have hbefore : b.position = b.text.utf8ByteSize := position_eq (by omega)
  have hafter : (b.trivia text).position = b.text.utf8ByteSize + text.utf8ByteSize := by
    rw [position_eq] <;> simp only [trivia, String.utf8ByteSize_append]
    exact hsize
  unfold token
  simp only [hbefore, hafter]
  cases b.stack with
  | nil => rfl
  | cons o rest => simp [OpenNode.touch]

theorem appends_trivia (b : Builder) (text : String) :
    b.Appends (b.trivia text) text [] [] [] [] :=
  .of_text rfl (by simp [trivia]) rfl rfl rfl

/-- A node has started: a fresh one stands behind the older nodes, and it is open. -/
structure Starts (b s : Builder) (kind : NodeKind) (name : Option String) : Prop where
  text : s.text = b.text
  stack : s.stack = b.startStack
  nodes : s.nodes = b.nodes.push (b.freshNode kind name)
  childList : s.childList = b.childList
  fault : s.fault = b.fault

theorem Starts.size_nodes {b s : Builder} {kind : NodeKind} {name : Option String}
    (h : b.Starts s kind name) : s.nodes.size = b.nodes.size + 1 := by
  rw [h.nodes, Array.size_push]

/-- A node may start below an open one, and where there is no root yet. -/
theorem starts {b : Builder} (h : b.stack ≠ [] ∨ b.nodes = #[]) (kind : NodeKind)
    (name : Option String) : b.Starts (b.start kind name) kind name := by
  have hroot : ¬(b.stack.isEmpty && !b.nodes.isEmpty) = true := by
    rcases h with h | h <;> simp [h]
  unfold start
  rw [if_neg hroot]
  exact ⟨rfl, rfl, rfl, rfl, rfl⟩

theorem finish_of_open {b : Builder} {o : OpenNode} {rest : List OpenNode}
    (h : b.stack = o :: rest) :
    b.finish.text = b.text ∧ b.finish.stack = rest ∧
    b.finish.nodes.toList =
      b.nodes.toList.modify o.id (closeNode o b.position b.nodes.size b.childList.size) ∧
    b.finish.childList.toList = b.childList.toList ++ o.children.toList ∧
    b.finish.fault = b.fault := by
  unfold finish
  split
  · next hnil => rw [h] at hnil; simp at hnil
  · next o' rest' hcons =>
    obtain ⟨rfl, rfl⟩ := List.cons.inj (hcons.symm.trans h)
    exact ⟨rfl, rfl, Array.toList_modify, Array.toList_append, rfl⟩

/-- A fresh node that ends after some parts is the row of its parts. -/
theorem closeNode_freshNode {b : Builder} {parts : Forest} (kind : NodeKind) (name : Option String)
    (hsize : b.text.utf8ByteSize + parts.bytes ≤ Text.maxOffset) :
    closeNode ((b.freshOpen.touch (parts.tokens b.text.utf8ByteSize)).adoptAll
          (parts.roots (b.nodes.size + 1)))
        (b.text.utf8ByteSize + parts.bytes) (b.nodes.size + 1 + parts.size)
        (b.childList.size + (parts.listing (b.nodes.size + 1)).length) (b.freshNode kind name) =
      parts.row (b.stack.head?.map (·.id)) b.nodes.size b.text.utf8ByteSize b.childList.size kind
        name := by
  have hposition : b.position = b.text.utf8ByteSize := position_eq (by omega)
  unfold closeNode freshOpen
  rw [← OpenNode.touch_adoptAll, OpenNode.adoptAll, OpenNode.spanAt_touch]
  simp [freshNode, Forest.row, OpenNode.touch, hposition]

/-- A node that has started, and its parts, end: the parts have done below the node what a forest
does, so the fresh row becomes the row of the parts. -/
theorem Starts.finish {b s b' : Builder} {parts : Forest} {kind : NodeKind} {name : Option String}
    (hs : b.Starts s kind name) (hsize : b.text.utf8ByteSize + parts.bytes ≤ Text.maxOffset)
    (h : s.Appends b' parts.text (parts.tokens b.text.utf8ByteSize)
      (parts.roots (b.nodes.size + 1)) (parts.listing (b.nodes.size + 1))
      (parts.layout (some b.nodes.size) (b.nodes.size + 1) b.text.utf8ByteSize b.childList.size)) :
    b.Appends b'.finish parts.text (parts.tokens b.text.utf8ByteSize) [b.nodes.size]
      (parts.listing (b.nodes.size + 1) ++ parts.roots (b.nodes.size + 1))
      (parts.row (b.stack.head?.map (·.id)) b.nodes.size b.text.utf8ByteSize b.childList.size kind
          name ::
        parts.layout (some b.nodes.size) (b.nodes.size + 1) b.text.utf8ByteSize
          b.childList.size) := by
  have htext : b'.text = b.text ++ parts.text := by rw [h.text, hs.text]
  have hposition : b'.position = b.text.utf8ByteSize + parts.bytes := by
    rw [position_eq] <;>
      simp only [htext, String.utf8ByteSize_append, Forest.utf8ByteSize_text]
    exact hsize
  have hcount : b'.nodes.size = b.nodes.size + 1 + parts.size := by
    rw [h.size_nodes, hs.size_nodes, Forest.length_layout]
  have hlisted := h.size_childList
  rw [hs.childList] at hlisted
  have hstack := h.stack
  rw [hs.stack, startStack, growStack_cons] at hstack
  obtain ⟨htext', hstack', hnodes', hlist', hfault'⟩ := finish_of_open hstack
  refine ⟨htext'.trans htext, ?_, ?_, ?_, by rw [hfault', h.fault, hs.fault]⟩
  · rw [hstack']
    cases b.stack with
    | nil => rfl
    | cons o rest =>
      rw [List.modifyHead_cons, List.map_cons, OpenNode.adopt_eq_adoptAll,
        OpenNode.touch_adoptAll, growStack_cons]
  · rw [hnodes', h.nodes, hs.nodes, Array.toList_push, hposition, hcount, hlisted,
      List.append_assoc, List.singleton_append]
    rw [← closeNode_freshNode kind name hsize]
    exact modify_append_cons _ Array.length_toList
  · rw [hlist', h.childList, hs.childList, List.append_assoc]
    simp [OpenNode.adoptAll, freshOpen, OpenNode.touch]

/-- Below an open node, the events of a forest append the forest. -/
theorem run_forest (f : Forest) (b : Builder) (hopen : b.stack ≠ [])
    (hsize : b.text.utf8ByteSize + f.bytes ≤ Text.maxOffset) :
    b.Appends (b.run f.events) f.text (f.tokens b.text.utf8ByteSize) (f.roots b.nodes.size)
      (f.listing b.nodes.size)
      (f.layout (b.stack.head?.map (·.id)) b.nodes.size b.text.utf8ByteSize b.childList.size) := by
  induction f generalizing b with
  | nil => exact .refl b
  | token text rest ih =>
    simp only [Forest.bytes] at hsize
    have htoken := appends_token b text (by omega)
    have hrest := ih (b.token text) (htoken.stack_ne_nil hopen)
      (by rw [htoken.utf8ByteSize_text]; omega)
    rw [htoken.utf8ByteSize_text, htoken.id_head?_stack] at hrest
    exact htoken.trans hrest
  | trivia text rest ih =>
    simp only [Forest.bytes] at hsize
    have htrivia := appends_trivia b text
    have hrest := ih (b.trivia text) (htrivia.stack_ne_nil hopen)
      (by rw [htrivia.utf8ByteSize_text]; omega)
    rw [htrivia.utf8ByteSize_text] at hrest
    exact htrivia.trans hrest
  | node kind name parts rest ihp ihr =>
    simp only [Forest.bytes] at hsize
    -- the start, the parts and the end append one node …
    have hs := starts (.inl hopen) kind name
    have hparts := ihp (b.start kind name) (by rw [hs.stack]; exact List.cons_ne_nil _ _)
      (by rw [hs.text]; omega)
    rw [hs.text, hs.size_nodes, hs.stack, hs.childList] at hparts
    have hnode := hs.finish (by omega) hparts
    -- … and the rest goes behind it
    have hrest := ihr _ (hnode.stack_ne_nil hopen)
      (by rw [hnode.utf8ByteSize_text, Forest.utf8ByteSize_text]; omega)
    have hlisted := parts.length_listing_add_roots (b.nodes.size + 1)
    rw [hnode.utf8ByteSize_text, Forest.utf8ByteSize_text, hnode.id_head?_stack, hnode.size_nodes,
      hnode.size_childList, List.length_cons, Forest.length_layout, List.length_append, hlisted,
      ← Nat.add_assoc, Nat.add_right_comm b.nodes.size] at hrest
    have happends := hnode.trans hrest
    rw [List.append_assoc] at happends
    rw [Forest.events, run_node]
    exact happends

end Builder
end HotReload
