import HotReload.Proofs.Source.Spans
import HotReload.Proofs.Source.Within
import Mathlib.Data.List.Basic
import Mathlib.Logic.Relation
import Mathlib.Tactic.TFAE

/-
  The encodings of the shape of a tree say the same (`Tree.encodings_agree`): the parents, the ranges
  of the list of children and the ends of subtrees. A node is in the range of its parent and in no
  other one (`Forest.mem_children_iff`), and the subtrees of the children fill the one of their parent
  without a gap (`Forest.tiles_children`). The list itself is in post-order, and the ranges of two nodes
  stay apart (`Tree.ranges_apart`). So a walk up from a node, the range of positions of a subtree and a
  walk down from child to child meet the same nodes.
-/

namespace HotReload

/-- Ranges of positions follow one another without a gap, from one position up to another. -/
def Tiles {α : Type} (start stop : α → Nat) : Nat → List α → Nat → Prop
  | low, [], high => low = high
  | low, a :: rest, high => start a = low ∧ Tiles start stop (stop a) rest high

theorem tiles_map {α β : Type} {start stop : β → Nat} {f : α → β} {l : List α} {low high : Nat} :
    Tiles start stop low (l.map f) high ↔
      Tiles (fun a => start (f a)) (fun a => stop (f a)) low l high := by
  induction l generalizing low with
  | nil => exact Iff.rfl
  | cons a l ih => exact and_congr_right fun _ => ih

/-! ## In a forest -/

namespace Forest

variable {f : Forest} {parent : Option Nat} {id offset listed i j : Nat} {m n : Node}
  {list : Array Nat}

/-- The nodes whose parent is the one of the forest are the outermost ones. -/
theorem mem_roots_iff (hparent : ∀ p, parent = some p → p < id)
    (hn : f.Places parent id offset listed j n) : j ∈ f.roots id ↔ n.parent = parent := by
  induction f generalizing id offset listed with
  | nil => exact hn.elim
  | token text rest ih | trivia text rest ih => exact ih hparent hn
  | node kind name parts rest ihp ihr =>
    have hrest := (roots_pairwise rest parent (id + 1 + parts.size) (offset + parts.bytes)
      (listed + parts.size)).1
    rw [roots, List.mem_cons]
    rcases hn with ⟨rfl, rfl⟩ | hn | hn
    · exact iff_of_true (.inl rfl) rfl
    · -- a part is behind the first node and before the rest, and its parent is not outside
      have hbounds := bounds_of_places hn
      refine iff_of_false ?_ fun hp => ?_
      · rintro (rfl | hj)
        · omega
        · have := hrest j hj
          omega
      · rcases parent_of_places hn with h | ⟨p, h, hle, -⟩
        · have := hparent id (hp ▸ h)
          omega
        · have := hparent p (hp ▸ h)
          omega
    · have hbounds := bounds_of_places hn
      rw [or_iff_right (by omega)]
      refine ihr (fun p hp => ?_) hn
      have := hparent p hp
      omega

/-- A node has those nodes as children whose parent it is. -/
theorem mem_children_iff (hlist : f.Lists list listed id)
    (hparent : ∀ p, parent = some p → p < id) (hm : f.Places parent id offset listed i m)
    (hn : f.Places parent id offset listed j n) :
    j ∈ m.children.slice list ↔ n.parent = some i := by
  -- either way the second node stands in the subtree of the first one
  by_cases hbelow : i < j ∧ j < m.subtreeEnd
  case neg =>
    refine iff_of_false (fun hj => hbelow ((children_of_places hlist hm).1 j hj)) fun hp => hbelow ?_
    exact below_of_parent_below hm hn hparent hp (Nat.le_refl i) (bounds_of_places hm).2.1
  obtain ⟨hij, hj⟩ := hbelow
  induction f generalizing parent id offset listed with
  | nil => exact hm.elim
  | token text rest ih | trivia text rest ih => exact ih hlist hparent hm hn
  | node kind name parts rest ihp ihr =>
    have hfirst : ∀ p, some id = some p → p < id + 1 :=
      fun p hp => Option.some.inj hp ▸ Nat.lt_succ_self _
    rcases cases_of_places hm hn hij with
      ⟨-, ⟨rfl, rfl⟩, hn⟩ | ⟨hm, hn⟩ | ⟨hm, hn⟩ | ⟨hend, -⟩
    · rw [hlist.slice_row parent offset, ← mem_roots_iff hfirst hn]
      exact List.mem_toArray
    · exact ihp hlist.left hfirst hm hn
    · refine ihr hlist.right (fun p hp => ?_) hm hn
      have := hparent p hp
      omega
    · omega

variable {ends : Nat → Nat}

/-- The subtrees of the outermost nodes fill the positions of the forest. -/
theorem tiles_roots (hends : ∀ {j n}, f.Places parent id offset listed j n → ends j = n.subtreeEnd) :
    Tiles (fun j => j) ends id (f.roots id) (id + f.size) := by
  induction f generalizing id offset listed with
  | nil => exact rfl
  | token text rest ih | trivia text rest ih => exact ih hends
  | node kind name parts rest ihp ihr =>
    have hfirst : ends id = id + 1 + parts.size := hends (Or.inl ⟨rfl, rfl⟩)
    have hrest := ihr fun hn => hends (Or.inr (Or.inr hn))
    refine ⟨rfl, ?_⟩
    rwa [hfirst, size, show id + (parts.size + 1 + rest.size) = id + 1 + parts.size + rest.size by
      omega]

/-- The subtrees of its children fill the one of a node. -/
theorem tiles_children (hlist : f.Lists list listed id)
    (hends : ∀ {j n}, f.Places parent id offset listed j n → ends j = n.subtreeEnd)
    (hm : f.Places parent id offset listed i m) :
    Tiles (fun j => j) ends (i + 1) (m.children.slice list).toList m.subtreeEnd := by
  induction f generalizing parent id offset listed with
  | nil => exact hm.elim
  | token text rest ih | trivia text rest ih => exact ih hlist hends hm
  | node kind name parts rest ihp ihr =>
    rcases hm with ⟨rfl, rfl⟩ | hm | hm
    · rw [hlist.slice_row parent offset]
      exact tiles_roots fun hn => hends (Or.inr (Or.inl hn))
    · exact ihp hlist.left (fun hn => hends (Or.inr (Or.inl hn))) hm
    · exact ihr hlist.right (fun hn => hends (Or.inr (Or.inr hn))) hm

end Forest

/-! ## In a tree -/

namespace Rooted

variable {t : Tree} {r : Rooted} {i j : Nat} {m n : Node}

theorem mem_children_iff (h : t.nodes.toList = r.rows) (hlist : t.childList.toList = r.listing)
    (hm : t.nodes[i]? = some m) (hn : t.nodes[j]? = some n) :
    j ∈ m.children.slice t.childList ↔ n.parent = some i := by
  have hzero : ∀ p, some 0 = some p → p < 1 := fun p hp => Option.some.inj hp ▸ Nat.zero_lt_one
  have hchild := (r.nestedChildren h hlist).child hm j
  rcases root_or_places h hm with ⟨rfl, rfl⟩ | hm'
  · rcases root_or_places h hn with ⟨rfl, rfl⟩ | hn
    · refine iff_of_false (fun hj => ?_) (by simp [rootRow, Forest.row])
      exact Nat.lt_irrefl _ (hchild hj).1
    · rw [← Forest.mem_roots_iff hzero hn, slice_rootRow hlist]
      exact List.mem_toArray
  · have hbounds := Forest.bounds_of_places hm'
    rcases root_or_places h hn with ⟨rfl, rfl⟩ | hn
    · refine iff_of_false (fun hj => ?_) (by simp [rootRow, Forest.row])
      exact Nat.not_lt_zero _ (hchild hj).1
    · exact Forest.mem_children_iff (lists_self hlist).left hzero hm' hn

theorem tiles_children (h : t.nodes.toList = r.rows) (hlist : t.childList.toList = r.listing)
    {ends : Nat → Nat} (hends : ∀ {j n}, t.nodes[j]? = some n → ends j = n.subtreeEnd)
    (hm : t.nodes[i]? = some m) :
    Tiles (fun j => j) ends (i + 1) (m.children.slice t.childList).toList m.subtreeEnd := by
  have hparts : ∀ {j n}, r.parts.Places (some 0) 1 r.offset 0 j n → ends j = n.subtreeEnd :=
    fun hn => hends (getElem?_of_places h hn)
  rcases root_or_places h hm with ⟨rfl, rfl⟩ | hm
  · rw [slice_rootRow hlist]
    exact Forest.tiles_roots hparts
  · exact Forest.tiles_children (lists_self hlist).left hparts hm

/-- Every node but the root is in the list of children once. -/
theorem childList_perm (h : t.nodes.toList = r.rows) (hlist : t.childList.toList = r.listing) :
    t.childList.toList.Perm (List.range' 1 (t.nodes.size - 1)) := by
  rw [hlist, size_eq h, Nat.add_sub_cancel_left]
  exact r.parts.listing_append_roots_perm 1

/-- The ranges of two nodes stay apart. -/
theorem ranges_apart (h : t.nodes.toList = r.rows) (hm : t.nodes[i]? = some m)
    (hn : t.nodes[j]? = some n) (hij : i < j) :
    (j < m.subtreeEnd → n.children.stop ≤ m.children.start) ∧
      (m.subtreeEnd ≤ j → m.children.stop ≤ n.children.start) := by
  have hlength := r.parts.length_listing_add_roots 1
  rcases root_or_places h hn with ⟨rfl, -⟩ | hn
  · omega
  rcases root_or_places h hm with ⟨rfl, rfl⟩ | hm
  · have hrange := Forest.range_of_places hn
    have hbounds := Forest.bounds_of_places hn
    simp only [rootRow, Forest.row, Nat.zero_add]
    omega
  · exact Forest.ranges_of_places hm hn hij

theorem parent_eq_none_iff (h : t.nodes.toList = r.rows) (hn : t.nodes[i]? = some n) :
    n.parent = none ↔ i = 0 := by
  rcases root_or_places h hn with ⟨rfl, rfl⟩ | hn
  · exact iff_of_true rfl rfl
  · have hbounds := Forest.bounds_of_places hn
    refine iff_of_false (fun hp => ?_) (by omega)
    rcases Forest.parent_of_places hn with h | ⟨p, h, -⟩ <;> simp [hp] at h

end Rooted

namespace Tree

variable {path : String} {symbols : Symbols} {events : List Event} {t : Tree}

/-- The links and the order of the nodes of a tree fit together. -/
structure Coherent (t : Tree) : Prop where
  /-- Only the first node has no parent. -/
  orphan : ∀ id, t.parent? id = none ↔ id.1 = 0
  /-- Parents come first. -/
  parent : ∀ id p, t.parent? id = some p → p.1 < id.1
  /-- The children are the nodes that have the node as parent, -/
  child : ∀ id c, c ∈ t.children id ↔ t.parent? c = some id
  /-- each of them once, in order. -/
  ascending : ∀ id, (t.children id).toList.Pairwise fun a b => a.1 < b.1
  /-- The first child stands right behind the node, every other one where the subtree of the child
  before it ends, and the last subtree ends with that of the node. -/
  tiles : ∀ id, Tiles Fin.val (fun c => (t.node c).subtreeEnd) (id.1 + 1) (t.children id).toList
    (t.node id).subtreeEnd
  /-- Every node but the first is in the list of children once. -/
  listed : t.childList.toList.Perm (List.range' 1 (t.size - 1))
  /-- The ranges of two nodes stay apart. A node's range is behind those of the nodes below it, -/
  range_below : ∀ a b, a.1 < b.1 → b.1 < (t.node a).subtreeEnd →
    (t.node b).children.stop ≤ (t.node a).children.start
  /-- and in front of those of the nodes behind its subtree. -/
  range_behind : ∀ a b, (t.node a).subtreeEnd ≤ b.1 →
    (t.node a).children.stop ≤ (t.node b).children.start
  /-- All numbers are below the one that stands for no node. -/
  fits : ∀ id, (∀ p, (t.node id).parent = some p → p < Node.noId) ∧
    (t.node id).subtreeEnd < Node.noId ∧ (t.node id).children.stop < Node.noId
  /-- The second node stands at or below the first: by the walk up, by the range of the subtree, by the
  test of positions, and by the walk down. -/
  below : ∀ a b, [a ∈ t.ancestors b, b ∈ t.descendants a, t.isAncestor a b = true,
    t.isAncestor? a.1 b.1 = some true,
    Relation.ReflTransGen (fun above child => child ∈ t.children above) a b].TFAE

/-- Where the subtree of the node at a position ends. -/
def subtreeEndAt (t : Tree) (j : Nat) : Nat := (t.nodes[j]?.map Node.subtreeEnd).getD 0

theorem subtreeEndAt_of {j : Nat} {n : Node} (h : t.nodes[j]? = some n) :
    t.subtreeEndAt j = n.subtreeEnd := by
  rw [subtreeEndAt, h, Option.map_some, Option.getD_some]

theorem parent?_eq_none_iff {id : t.Id} : t.parent? id = none ↔ (t.node id).parent = none := by
  unfold parent?
  rw [Option.map_eq_none_iff, Option.attach_eq_none_iff]

theorem mem_children_iff {id c : t.Id} :
    c ∈ t.children id ↔ c.1 ∈ (t.node id).children.slice t.childList := by
  rw [← Array.mem_toList_iff, ← Array.mem_toList_iff, ← toList_children]
  exact (List.mem_map_of_injective fun _ _ => Fin.ext).symm

theorem isAncestor?_eq (a b : t.Id) : t.isAncestor? a.1 b.1 = some (t.isAncestor a b) := by
  unfold isAncestor? isAncestor id?
  by_cases hab : a.1 ≤ b.1 <;> simp [hab]

theorem mem_descendants_iff {a b : t.Id} : b ∈ t.descendants a ↔ t.isAncestor a b = true := by
  unfold descendants isAncestor
  rw [List.mem_filter]
  exact and_iff_right (List.mem_finRange b)

theorem isAncestor_iff {a b : t.Id} :
    t.isAncestor a b = true ↔ a.1 ≤ b.1 ∧ b.1 < (t.node a).subtreeEnd := by
  unfold isAncestor
  rw [Bool.and_eq_true, decide_eq_true_eq, decide_eq_true_eq]

theorem mem_ancestors_self (id : t.Id) : id ∈ t.ancestors id := by
  rw [ancestors]
  split <;> exact List.mem_cons_self

section Built

variable (hbuilt : Tree.ofEvents path symbols events = .ok t)

include hbuilt

/-- Children and parents are the same links. -/
theorem mem_children_iff_parent? {id c : t.Id} : c ∈ t.children id ↔ t.parent? c = some id := by
  rw [mem_children_iff, parent?_eq_some_iff]
  obtain ⟨-, -, ⟨hempty, -⟩ | ⟨r, rfl, hrows⟩⟩ := Tree.ofEvents_eq_ok hbuilt
  · exact absurd id.2 (by simp [hempty])
  · exact r.mem_children_iff hrows (Rooted.toList_childList hbuilt) (t.getElem?_node id)
      (t.getElem?_node c)

/-- Of two nodes, the one that ends first has its range first. -/
theorem ranges_apart {a b : t.Id} (hab : a.1 < b.1) :
    (b.1 < (t.node a).subtreeEnd → (t.node b).children.stop ≤ (t.node a).children.start) ∧
      ((t.node a).subtreeEnd ≤ b.1 → (t.node a).children.stop ≤ (t.node b).children.start) := by
  obtain ⟨-, -, ⟨hempty, -⟩ | ⟨r, rfl, hrows⟩⟩ := Tree.ofEvents_eq_ok hbuilt
  · exact absurd a.2 (by simp [hempty])
  · exact r.ranges_apart hrows (t.getElem?_node a) (t.getElem?_node b) hab

/-- A walk up follows a walk down. -/
theorem reachable_of_mem_ancestors {a b : t.Id} (h : a ∈ t.ancestors b) :
    Relation.ReflTransGen (fun above child => child ∈ t.children above) a b := by
  cases hp : t.parent? b with
  | none =>
    rw [ancestors_of_parent?_eq_none hp, List.mem_singleton] at h
    exact h ▸ .refl
  | some p =>
    rw [ancestors_of_parent? hp] at h
    rcases List.mem_cons.1 h with rfl | h
    · exact .refl
    · have := t.lt_of_parent? hp
      exact (reachable_of_mem_ancestors h).tail ((mem_children_iff_parent? hbuilt).2 hp)
termination_by b.1

/-- A walk down stays in the subtree. -/
theorem isAncestor_of_reachable {a b : t.Id}
    (h : Relation.ReflTransGen (fun above child => child ∈ t.children above) a b) :
    t.isAncestor a b = true := by
  rw [isAncestor_iff]
  induction h with
  | refl => exact ⟨Nat.le_refl _, (lt_subtreeEnd hbuilt a).1⟩
  | tail _ hchild ih =>
    have hp := (mem_children_iff_parent? hbuilt).1 hchild
    obtain ⟨hlt, hend⟩ := below_of_parent? hbuilt hp ih.1 ih.2
    exact ⟨Nat.le_of_lt hlt, hend⟩

end Built

/-- The list of children has an entry for every node but the first. -/
theorem childList_perm (hbuilt : Tree.ofEvents path symbols events = .ok t) :
    t.childList.toList.Perm (List.range' 1 (t.size - 1)) := by
  obtain ⟨-, -, ⟨hempty, hwriting⟩ | ⟨r, rfl, hrows⟩⟩ := Tree.ofEvents_eq_ok hbuilt
  · have hlist := childList_of_writing hbuilt hwriting
    simp [hlist, size, hempty]
  · exact r.childList_perm hrows (Rooted.toList_childList hbuilt)

/-- With room for its nodes, a tree from events has room for all numbers in them. -/
theorem fits (hbuilt : Tree.ofEvents path symbols events = .ok t) (hsize : t.size < Node.noId)
    (id : t.Id) : (∀ p, (t.node id).parent = some p → p < Node.noId) ∧
      (t.node id).subtreeEnd < Node.noId ∧ (t.node id).children.stop < Node.noId := by
  have hend := (lt_subtreeEnd hbuilt id).2
  have hrange : (t.node id).children.stop ≤ t.childList.size := t.linked.range_le id.1 id.2
  have hlength := (childList_perm hbuilt).length_eq
  rw [Array.length_toList, List.length_range'] at hlength
  refine ⟨fun p hp => ?_, by omega, by omega⟩
  have hp := t.parent_lt hp
  have hid : id.1 < t.size := id.2
  omega

/-- Every tree from events is coherent, if it has room for its nodes. -/
theorem encodings_agree (hbuilt : Tree.ofEvents path symbols events = .ok t)
    (hsize : t.size < Node.noId) : t.Coherent where
  orphan id := by
    rw [parent?_eq_none_iff]
    obtain ⟨-, -, ⟨hempty, -⟩ | ⟨r, rfl, hrows⟩⟩ := Tree.ofEvents_eq_ok hbuilt
    · exact absurd id.2 (by simp [hempty])
    · exact r.parent_eq_none_iff hrows (t.getElem?_node id)
  parent id p hp := t.lt_of_parent? hp
  child id c := mem_children_iff_parent? hbuilt
  ascending id := by
    have hsiblings := (Tree.nestedChildren hbuilt).siblings (t.getElem?_node id)
    rw [← toList_children, List.pairwise_map] at hsiblings
    refine hsiblings.imp fun {a b} hab => ?_
    exact Nat.lt_of_lt_of_le (lt_subtreeEnd hbuilt a).1 (hab (t.getElem?_node a))
  tiles id := by
    obtain ⟨-, -, ⟨hempty, -⟩ | ⟨r, rfl, hrows⟩⟩ := Tree.ofEvents_eq_ok hbuilt
    · exact absurd id.2 (by simp [hempty])
    have htiles := r.tiles_children hrows (Rooted.toList_childList hbuilt) subtreeEndAt_of
      (t.getElem?_node id)
    have hstop : (fun c : t.Id => t.subtreeEndAt c.1) = fun c => (t.node c).subtreeEnd :=
      funext fun c => subtreeEndAt_of (t.getElem?_node c)
    rwa [← toList_children, tiles_map, hstop] at htiles
  listed := childList_perm hbuilt
  range_below a b hab hb := (ranges_apart hbuilt hab).1 hb
  range_behind a b hb :=
    (ranges_apart hbuilt (Nat.lt_of_lt_of_le (lt_subtreeEnd hbuilt a).1 hb)).2 hb
  fits := fits hbuilt hsize
  below a b := by
    tfae_have 1 → 5 := reachable_of_mem_ancestors hbuilt
    tfae_have 5 → 3 := isAncestor_of_reachable hbuilt
    tfae_have 3 → 1 := by
      intro h
      obtain ⟨hab, hb⟩ := isAncestor_iff.1 h
      obtain ⟨between, heq, -⟩ := exists_ancestors_eq hbuilt hab hb
      exact heq ▸ List.mem_append_right _ (mem_ancestors_self a)
    tfae_have 2 ↔ 3 := mem_descendants_iff
    tfae_have 4 ↔ 3 := by rw [isAncestor?_eq, Option.some_inj]
    tfae_finish

/-- Two types, the first of them with two methods. -/
def siblingEvents : List Event :=
  [.start .compilationUnit none, .start .typeDecl "A", .start .method "M", .token "m", .finish,
    .start .method "N", .start .block none, .token "n", .finish, .finish, .finish,
    .start .typeDecl "B", .token "b", .finish, .finish]

/-- The tree of these nodes. -/
def siblings : Tree := .ofBuilder "A.cs" .empty (Builder.empty.run siblingEvents)

theorem encodings_agree_siblings :
    Tree.ofEvents "A.cs" .empty siblingEvents = .ok siblings ∧ siblings.size < Node.noId ∧
    siblings.childList = #[4, 2, 3, 1, 5] ∧ siblings.Coherent :=
  ⟨rfl, by decide, rfl,
    encodings_agree (rfl : Tree.ofEvents "A.cs" .empty siblingEvents = .ok siblings) (by decide)⟩

end Tree

end HotReload
