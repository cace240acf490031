import HotReload.Proofs.Marking.Pushed
import HotReload.Proofs.Source.Enclosing

/-
  What a batch of markers about members does to the nodes that it does not mark. A node without a token
  has no text of its own: its markers are written at the offset where it stands, and there the next
  node may start. The start of that node stays, so it begins with text that is not its own.

  `MarksApart` says that no node with text in it starts where the markers of a node without text are
  written. Then unmarked nodes keep their text (`Spread.nodeText_eq`) and siblings share no byte
  (`Spread.siblingsApart`); and if there is such a node, two siblings do share one
  (`Spread.overlap`). `unmarked_kept_iff` has both directions, `unmarked_not_kept` a tree where it
  fails.
-/

namespace HotReload

namespace Marking

/-- Text that no insertion stands in is found again behind the insertions in front of it. -/
theorem slice?_weave_marks {l : List Insertion} {cs m : List Char} {start stop : Nat}
    (hsorted : l.Pairwise Insertion.Before)
    (hcuts : ∀ ins ∈ l, ∃ a b, cs = a ++ b ∧ 0 + Text.byteLength a = ins.position)
    (hslice : Text.slice? start stop cs = some m) (hlt : start < stop)
    (hside : ∀ v ∈ l, v.position ≤ start ∨ stop ≤ v.position) :
    Text.slice? (start + room (l.filter fun v => v.position ≤ start))
      (stop + room (l.filter fun v => v.position ≤ start))
      (Text.weave (Insertion.marks l) 0 cs) = some m := by
  obtain ⟨a, b, rfl, rfl, rfl⟩ := Text.slice?_eq_some_iff.1 hslice
  let front := l.filter fun v => v.position ≤ Text.byteLength a
  let back := l.filter fun v => !decide (v.position ≤ Text.byteLength a)
  have hfront : ∀ v ∈ front, v.position ≤ 0 + Text.byteLength a := by
    intro v hv
    rw [Nat.zero_add]
    exact of_decide_eq_true (List.mem_filter.1 hv).2
  have hback : ∀ v ∈ back, 0 + Text.byteLength a + Text.byteLength m ≤ v.position := by
    intro v hv
    obtain ⟨hvl, hv'⟩ := List.mem_filter.1 hv
    rw [Nat.zero_add]
    refine (hside v hvl).resolve_left fun hle => ?_
    rw [decide_eq_true hle] at hv'
    exact Bool.false_ne_true hv'
  have hsplit : l = front ++ back := by
    refine (eq_of_perm (List.filter_append_perm _ _) ?_ hsorted).symm
    refine List.pairwise_append.2 ⟨hsorted.filter _, hsorted.filter _, fun u hu v hv => ?_⟩
    have := hfront u hu
    have := hback v hv
    exact Or.inl (by omega)
  have hcutsFront : ∀ ins ∈ front, ∃ p q, a = p ++ q ∧ 0 + Text.byteLength p = ins.position := by
    intro ins hins
    obtain ⟨p, q, hpq, hp⟩ := hcuts ins (List.mem_filter.1 hins).1
    have hle := hfront ins hins
    rw [List.append_assoc] at hpq
    have hcut : Text.IsCut (a ++ (m ++ b)) (Text.byteLength p) := ⟨p, q, hpq, rfl⟩
    obtain ⟨p', q', hpq', hp'⟩ := hcut.exists_append_left (by omega)
    exact ⟨p', q', hpq', by omega⟩
  have hlength : Text.byteLength (Text.weave (Insertion.marks front) 0 a) =
      Text.byteLength a + room front := by
    refine byteLength_weave_marks ((hsorted.filter _).imp fun {u v} huv => ?_) hcutsFront
    unfold Insertion.Before at huv
    omega
  have hweave : Text.weave (Insertion.marks l) 0 (a ++ m ++ b) =
      Text.weave (Insertion.marks front) 0 a ++ m ++
        Text.weave (Insertion.marks back) (0 + Text.byteLength a + Text.byteLength m) b := by
    rw [hsplit, List.append_assoc, Insertion.weave_marks_split hfront
      (fun v hv => Nat.le_trans (Nat.le_add_right _ _) (hback v hv)),
      Insertion.weave_marks_append hback, List.append_assoc]
  rw [hweave]
  refine Text.slice?_eq_some_iff.2 ⟨_, _, rfl, hlength, ?_⟩
  change Text.byteLength a + room front + _ = Text.byteLength a + Text.byteLength m + room front
  omega

end Marking

namespace Tree

open Marking

/-- The batch adds a marker to the node or to one below it. -/
def MarksIn (t : Tree) (requests : List Request) (id : t.Id) : Prop :=
  ∃ c ∈ t.descendants id, t.added requests c ≠ []

/-- What has no new marker inside has the text that it had. -/
def KeepsUnmarked (t : Tree) (requests : List Request) (t' : Tree) : Prop :=
  ∀ id : t.Id, ¬t.MarksIn requests id → ∃ id' : t'.Id, id'.1 = id.1 ∧ t'.nodeText id' = t.nodeText id

/-- No byte belongs to two children of a node. -/
def SiblingsApart (t : Tree) : Prop :=
  ∀ id, ∀ a ∈ t.children id, ∀ b ∈ t.children id, a ≠ b → ∀ p,
    ¬((t.node a).fullSpan.start ≤ p ∧ p < (t.node a).fullSpan.stop ∧
      (t.node b).fullSpan.start ≤ p ∧ p < (t.node b).fullSpan.stop)

/-- No node behind a marked node without text of its own starts right there, unless it stays without
text. -/
def MarksApart (t : Tree) (requests : List Request) : Prop :=
  ∀ u b : t.Id, t.added requests u ≠ [] → (t.node u).span.isEmpty = true →
    (t.node u).subtreeEnd ≤ b.1 → ((t.node b).fullSpan.isEmpty = false ∨ t.MarksIn requests b) →
      (t.node u).span.start < (t.node b).fullSpan.start

instance (t : Tree) (requests : List Request) (id : t.Id) : Decidable (t.MarksIn requests id) :=
  inferInstanceAs (Decidable (∃ c ∈ _, _))

instance (t : Tree) (requests : List Request) : Decidable (t.MarksApart requests) :=
  inferInstanceAs (Decidable (∀ _ _, _))

variable {t t' : Tree} {requests : List Request} {ins : Insertion}

/-! ## A batch about members -/

/-- What a batch of markers about members leaves of a tree. -/
structure Spread (t : Tree) (requests : List Request) (t' : Tree) : Prop where
  text : t'.text.toList = Text.weave (Insertion.marks (members t requests)) 0 t.text.toList
  size : t'.nodes.size = t.nodes.size
  childList : t'.childList = t.childList
  node : ∀ id : t.Id, t'.nodes[id.1]? = some
    { pushNode t.nodes (members t requests) id.1 (t.node id) with
      markers := (t.node id).markers ++ t.added requests id }

section Members

variable (hmember : ∀ r ∈ requests, r.2.isAssemblyLevel = false)

include hmember

theorem filter_added (id : t.Id) :
    (t.added requests id).filter (!·.isAssemblyLevel) = t.added requests id := by
  rw [List.filter_eq_self]
  intro m hm
  rw [hmember _ (mem_additions.1 hm).1]
  rfl

/-- Every marked node has text in front of it, and there is no other text. -/
theorem mem_members_of_member : ins ∈ members t requests ↔
    ∃ id : t.Id, t.added requests id ≠ [] ∧
      ins = ⟨id.1, (t.node id).span.start, memberText (t.added requests id), .before⟩ := by
  rw [mem_members_iff]
  simp only [filter_added hmember]

theorem insertions_eq_members : insertions t requests = members t requests := by
  refine (List.filter_eq_self.2 fun ins hins => ?_).symm
  obtain ⟨id, hid⟩ := mem_insertions_iff.1 hins
  obtain ⟨-, ⟨hplacement, -⟩ | ⟨-, -, hne, -⟩⟩ := mem_insertionsOf hid
  · exact decide_eq_true hplacement
  · obtain ⟨m, hm, hassembly⟩ := exists_request hne
    exact absurd ((hmember _ hm).symm.trans hassembly) Bool.false_ne_true

/-- Nothing is written inside an unmarked node, so what moves its ends moves its starts. -/
theorem startMoves_of_unmarked {id : t.Id} (hunmarked : ¬t.MarksIn requests id)
    (hins : ins ∈ members t requests) (h : stopMoves t.nodes id.1 ins.owner = true) :
    startMoves t.nodes id.1 ins.owner = true := by
  refine (Bool.or_eq_true_iff.1 h).resolve_right fun hcovers => hunmarked ?_
  obtain ⟨u, hu, rfl⟩ := (mem_members_of_member hmember).1 hins
  have hbelow := (covers_iff (t.getElem?_node id)).1 hcovers
  exact ⟨u, mem_descendants_iff.2 (isAncestor_iff.2 hbelow), hu⟩

/-- A batch about members has a result, and as long as offsets reach, everything is where it should
be. -/
theorem Sound.spread (hs : t.Sound) (hids : ∀ r ∈ requests, r.1 < t.nodes.size) :
    ∃ t', t.addMarkers requests = .ok t' ∧
      (t'.text.utf8ByteSize ≤ Text.maxOffset → Spread t requests t') := by
  have hadded := hs.addMarkers_eq hids
  have hinsertions := insertions_eq_members (t := t) hmember
  refine ⟨_, hadded, fun hsize => ?_⟩
  have hnodes := (nodes_addMarkers hadded).1
  rw [Text.utf8ByteSize_eq_byteLength, String.toList_ofList, hinsertions,
    byteLength_weave_marks members_sorted hs.cuts_members] at hsize
  have hlaid : Laid (attach t requests).nodes t.text.toList := laid_attach hs.laid
  have hpush := getElem?_foldr_members hlaid subtreeEnd_attach hsize
  refine ⟨?_, ?_, childList_addMarkers hadded, fun id => ?_⟩
  · rw [String.toList_ofList, hinsertions]
  · rw [hnodes, size_foldr_shiftAll, attach, Array.size_mapFinIdx]
  · rw [hnodes, hinsertions, hpush, getElem?_attach_of (t.getElem?_node id)]
    rfl

end Members

namespace Spread

variable (hsp : Spread t requests t')

include hsp

theorem node_eq (id : t.Id) (id' : t'.Id) (hid : id'.1 = id.1) :
    t'.node id' = { pushNode t.nodes (members t requests) id.1 (t.node id) with
      markers := (t.node id).markers ++ t.added requests id } :=
  Option.some.inj ((t'.getElem?_node id').symm.trans (hid ▸ hsp.node id))

/-- A node has the children that it had. -/
theorem mem_children_iff {id c : t.Id} {id' c' : t'.Id} (hid : id'.1 = id.1) (hc : c'.1 = c.1) :
    c' ∈ t'.children id' ↔ c ∈ t.children id := by
  rw [Tree.mem_children_iff, Tree.mem_children_iff, hc, hsp.node_eq id id' hid, hsp.childList]
  exact Iff.rfl

end Spread

/-! ## Where marked nodes stand -/

theorem slice_of_empty {span : Span} (h : span.start = span.stop) : t.slice span = "" := by
  unfold slice
  cases hm : Text.slice? span.start span.stop t.text.toList with
  | none => rfl
  | some m =>
    obtain ⟨-, -, -, -, hlength⟩ := Text.slice?_eq_some_iff.1 hm
    obtain rfl : m = [] := Text.byteLength_eq_zero.1 (by omega)
    rfl

section Placed

variable (hs : t.Sound)

include hs

/-- A marked node in front of another one, and not around it, has its text in front of it. -/
theorem Sound.start_le_of_apart {u b : t.Id} (hub : (t.node u).subtreeEnd ≤ b.1) :
    (t.node u).span.start ≤ (t.node u).span.stop ∧
      (t.node u).span.stop ≤ (t.node b).fullSpan.start := by
  have hu := hs.laid.within (t.getElem?_node u)
  have hapart := hs.laid.apart (t.getElem?_node u) (t.getElem?_node b) hub
  omega

/-- Among separated marks, one that stands in front of a node that is not empty does not stand right
at it. -/
theorem MarksApart.start_lt (happart : t.MarksApart requests) {u b : t.Id}
    (hu : t.added requests u ≠ []) (hub : (t.node u).subtreeEnd ≤ b.1)
    (hb : (t.node b).fullSpan.isEmpty = false ∨ t.MarksIn requests b) :
    (t.node u).span.start < (t.node b).fullSpan.start := by
  obtain ⟨hstart, hstop⟩ := hs.start_le_of_apart hub
  by_cases hempty : (t.node u).span.isEmpty = true
  · exact happart u b hu hempty hub hb
  · have hne : (t.node u).span.start ≠ (t.node u).span.stop := fun heq => hempty (decide_eq_true heq)
    omega

variable (hmember : ∀ r ∈ requests, r.2.isAssemblyLevel = false)

include hmember

/-- With separated marks, the text in front of a marked node stands in front of an unmarked node and
moves it, or it stands behind and does not. -/
theorem Sound.passes_or_behind (happart : t.MarksApart requests) {id : t.Id}
    (hunmarked : ¬t.MarksIn requests id) (hlt : (t.node id).span.start < (t.node id).span.stop)
    {v : Insertion} (hv : v ∈ members t requests) :
    v.position ≤ (t.node id).span.start ∧
        Passes (members t requests) (startMoves t.nodes id.1) (t.node id).span.start v ∨
      (t.node id).span.stop ≤ v.position ∧
        ¬Passes (members t requests) (stopMoves t.nodes id.1) (t.node id).span.stop v := by
  obtain ⟨u, hu, rfl⟩ := (mem_members_of_member hmember).1 hv
  have hid := hs.laid.within (t.getElem?_node id)
  have hu' := hs.laid.within (t.getElem?_node u)
  have hbelow : ¬(id.1 ≤ u.1 ∧ u.1 < (t.node id).subtreeEnd) := fun h =>
    hunmarked ⟨u, mem_descendants_iff.2 (isAncestor_iff.2 h), hu⟩
  dsimp only
  rcases Nat.lt_or_ge u.1 id.1 with hui | hui
  · refine Or.inl ?_
    rcases Nat.lt_or_ge id.1 (t.node u).subtreeEnd with hin | hbehind
    · -- the mark stands around the node, and its text moves the start
      have hspan := (hs.laid.below (t.getElem?_node u) (t.getElem?_node id) hui hin).2.2 hlt
      have hmoves : startMoves t.nodes id.1 u.1 = true :=
        startMoves_iff.2 ⟨hui, t.node u, t.getElem?_node u, hin⟩
      refine ⟨hspan.1, ?_⟩
      rcases Nat.lt_or_eq_of_le hspan.1 with hlt | heq
      · exact Or.inl hlt
      · exact Or.inr ⟨heq, _, hv, heq, Nat.le_refl _, hmoves⟩
    · have hfull : (t.node id).fullSpan.isEmpty = false := decide_eq_false (by omega)
      have := happart.start_lt hs hu hbehind (Or.inl hfull)
      exact ⟨by omega, Or.inl (by dsimp only; omega)⟩
  · have hbehind : (t.node id).subtreeEnd ≤ u.1 := Nat.le_of_not_lt fun h => hbelow ⟨hui, h⟩
    have hapart := hs.laid.apart (t.getElem?_node id) (t.getElem?_node u) hbehind
    refine Or.inr ⟨by omega, ?_⟩
    rintro (hlt' | ⟨-, w, hw, -, hle, hmoves⟩)
    · dsimp only at hlt'
      omega
    · -- what moves the end is around the node, so it is no later mark
      have := (startMoves_iff.1 (startMoves_of_unmarked hmember hunmarked hw hmoves)).1
      dsimp only at hle
      omega

/-- With separated marks, an unmarked node keeps its text. -/
theorem Spread.nodeText_eq (hsp : Spread t requests t') (happart : t.MarksApart requests) {id : t.Id}
    (hunmarked : ¬t.MarksIn requests id) {id' : t'.Id} (hid : id'.1 = id.1) :
    t'.nodeText id' = t.nodeText id := by
  have hwithin := hs.laid.within (t.getElem?_node id)
  unfold nodeText
  rw [hsp.node_eq id id' hid]
  rcases Nat.lt_or_eq_of_le hwithin.2.1 with hlt | heq
  · have hside := fun v hv => hs.passes_or_behind hmember happart hunmarked hlt (v := v) hv
    obtain ⟨m, hm⟩ := Text.exists_slice? (hs.laid.cuts (t.getElem?_node id)).1
      (hs.laid.cuts (t.getElem?_node id)).2.1 hwithin.2.1
    have hstart : pushed (members t requests) (startMoves t.nodes id.1) (t.node id).span.start =
        (t.node id).span.start +
          room ((members t requests).filter fun v => v.position ≤ (t.node id).span.start) := by
      unfold pushed
      rw [List.filter_congr fun v hv => decide_eq_decide.2 ?_]
      rcases hside v hv with ⟨hle, hpass⟩ | ⟨hge, -⟩
      · exact iff_of_true hpass hle
      · refine iff_of_false ?_ (by omega)
        rintro (hlt' | ⟨heq, -⟩) <;> omega
    have hstop : pushed (members t requests) (stopMoves t.nodes id.1) (t.node id).span.stop =
        (t.node id).span.stop +
          room ((members t requests).filter fun v => v.position ≤ (t.node id).span.start) := by
      unfold pushed
      rw [List.filter_congr fun v hv => decide_eq_decide.2 ?_]
      rcases hside v hv with ⟨hle, -⟩ | ⟨hge, hpass⟩
      · exact iff_of_true (Or.inl (by omega)) hle
      · exact iff_of_false hpass (by omega)
    have hslice := slice?_weave_marks members_pairwise hs.cuts_members hm hlt fun v hv =>
      (hside v hv).imp And.left And.left
    rw [← hstart, ← hstop, ← hsp.text] at hslice
    apply String.toList_inj.1
    rw [toList_slice hm, toList_slice hslice]
  · -- both ends of an empty span move with the marks around it
    have hends : pushed (members t requests) (startMoves t.nodes id.1) (t.node id).span.start =
        pushed (members t requests) (stopMoves t.nodes id.1) (t.node id).span.stop := by
      refine Nat.le_antisymm (pushed_le hwithin.2.1 fun w _ _ _ hw => ?_)
        (pushed_le (Nat.le_of_eq heq.symm) fun w hw _ _ hmoves => ?_)
      · rw [stopMoves, hw, Bool.true_or]
      · exact startMoves_of_unmarked hmember hunmarked hw hmoves
    unfold pushNode
    rw [slice_of_empty hends, slice_of_empty heq]

/-- With separated marks, what stood behind a node does so still, or is empty still. -/
theorem Spread.apart (hsp : Spread t requests t') (happart : t.MarksApart requests) {a b : t.Id}
    (hab : (t.node a).subtreeEnd ≤ b.1) {a' b' : t'.Id} (ha : a'.1 = a.1) (hb : b'.1 = b.1) :
    (t'.node a').fullSpan.stop ≤ (t'.node b').fullSpan.start ∨
      (t'.node b').fullSpan.stop ≤ (t'.node b').fullSpan.start := by
  have hfull := hs.laid.apart (t.getElem?_node a) (t.getElem?_node b) hab
  have hend := hs.nested.lt_end (t.getElem?_node a)
  rw [hsp.node_eq a a' ha, hsp.node_eq b b' hb]
  unfold pushNode
  dsimp only
  rcases Nat.lt_or_eq_of_le hfull with hlt | heq
  · exact Or.inl (Nat.le_of_lt (pushed_lt hlt))
  by_cases hin : (t.node b).fullSpan.isEmpty = false ∨ t.MarksIn requests b
  · -- what moves the end of the first node stands around the second
    refine Or.inl (pushed_le hfull fun w hw _ hposition hmoves => ?_)
    obtain ⟨u, hu, rfl⟩ := (mem_members_of_member hmember).1 hw
    have hlt : u.1 < b.1 := by
      rcases Bool.or_eq_true_iff.1 hmoves with hmoves | hmoves
      · have hlt := (startMoves_iff.1 hmoves).1
        dsimp only at hlt
        omega
      · have hlt := ((covers_iff (t.getElem?_node a)).1 hmoves).2
        dsimp only at hlt
        omega
    refine startMoves_iff.2 ⟨hlt, t.node u, t.getElem?_node u, Nat.lt_of_not_le fun hbehind => ?_⟩
    have hstart := happart.start_lt hs hu hbehind hin
    dsimp only at hposition
    omega
  · have hempty : (t.node b).fullSpan.start = (t.node b).fullSpan.stop := by
      by_contra hne
      exact hin (Or.inl (decide_eq_false hne))
    have hunmarked : ¬t.MarksIn requests b := fun hmarked => hin (Or.inr hmarked)
    exact Or.inr (pushed_le (Nat.le_of_eq hempty.symm) fun w hw _ _ hmoves =>
      startMoves_of_unmarked hmember hunmarked hw hmoves)

end Placed

/-! ## Siblings -/

section Built

variable {path : String} {symbols : Symbols} {events : List Event}
  (hbuilt : Tree.ofEvents path symbols events = .ok t)

include hbuilt

/-- What stands around a child stands at or above its parent. -/
theorem le_of_covers_child {id c v : t.Id} (hc : c ∈ t.children id) (hvc : v.1 < c.1)
    (hcv : c.1 < (t.node v).subtreeEnd) : v.1 ≤ id.1 := by
  obtain ⟨p, hp, hle, -⟩ := exists_parent? hbuilt hvc hcv
  have hid := (mem_children_iff_parent? hbuilt).1 hc
  rwa [Option.some.inj (hid.symm.trans hp)]

/-- Of two nodes, one behind the other, one child of a node above them has the first below it and a later
one has the second. -/
theorem exists_siblings {top u b : t.Id} (hu : top.1 < u.1) (hb : b.1 < (t.node top).subtreeEnd)
    (hub : (t.node u).subtreeEnd ≤ b.1) :
    ∃ id, ∃ x ∈ t.children id, ∃ y ∈ t.children id, (t.node x).subtreeEnd ≤ y.1 ∧
      (x.1 ≤ u.1 ∧ u.1 < (t.node x).subtreeEnd) ∧ y.1 ≤ b.1 ∧ b.1 < (t.node y).subtreeEnd := by
  have huend := (lt_subtreeEnd hbuilt u).1
  obtain ⟨x, hx, hxu, hux⟩ := exists_child hbuilt hu (by omega)
  obtain ⟨y, hy, hyb, hby⟩ := exists_child hbuilt (show top.1 < b.1 by omega) hb
  rcases Nat.le_total x.1 y.1 with hxy | hyx
  · rcases eq_or_apart_of_le hbuilt hx hy hxy with rfl | ⟨hapart, -⟩
    · -- both stand below the same child
      have htop := below_of_mem_children hbuilt hx
      have hlt : x.1 < u.1 := Nat.lt_of_le_of_ne hxu fun heq => by
        rw [Fin.ext heq] at hby
        omega
      exact exists_siblings hlt hby hub
    · exact ⟨top, x, hx, y, hy, hapart, ⟨hxu, hux⟩, hyb, hby⟩
  · rcases eq_or_apart_of_le hbuilt hy hx hyx with rfl | ⟨hapart, -⟩
    · have htop := below_of_mem_children hbuilt hx
      have hlt : y.1 < u.1 := Nat.lt_of_le_of_ne hxu fun heq => by
        rw [Fin.ext heq] at hby
        omega
      exact exists_siblings hlt hby hub
    · omega
termination_by t.nodes.size - top.1
decreasing_by all_goals omega

/-- What moves starts of a child moves those of every other child of the same node. -/
theorem startMoves_sibling {id x y : t.Id} (hx : x ∈ t.children id) (hy : y ∈ t.children id)
    {owner : Nat} (h : startMoves t.nodes x.1 owner = true) :
    startMoves t.nodes y.1 owner = true := by
  obtain ⟨hlt, n, hn, hxn⟩ := startMoves_iff.1 h
  have howner : owner < t.nodes.size := (Array.getElem?_eq_some_iff.1 hn).1
  obtain rfl := Option.some.inj (hn.symm.trans (t.getElem?_node ⟨owner, howner⟩))
  have hle := le_of_covers_child hbuilt hx (v := ⟨owner, howner⟩) hlt hxn
  have hxid := below_of_mem_children hbuilt hx
  have hyid := below_of_mem_children hbuilt hy
  have hend := (Tree.nested hbuilt).end_le hn (t.getElem?_node id) hle (by omega)
  exact startMoves_iff.2 ⟨by dsimp only at hle; omega, _, hn, by omega⟩

variable (hmember : ∀ r ∈ requests, r.2.isAssemblyLevel = false)

include hmember

theorem Spread.siblingsApart (hsp : Spread t requests t') (happart : t.MarksApart requests) :
    t'.SiblingsApart := by
  have hs := sound_of_built hbuilt
  have hid : ∀ id' : t'.Id, id'.1 < t.nodes.size := fun id' => hsp.size ▸ id'.2
  intro id'
  have hordered : ∀ a' ∈ t'.children id', ∀ b' ∈ t'.children id', a'.1 < b'.1 →
      (t'.node a').fullSpan.stop ≤ (t'.node b').fullSpan.start ∨
        (t'.node b').fullSpan.stop ≤ (t'.node b').fullSpan.start := by
    intro a' ha' b' hb' hlt
    have ha : (⟨a'.1, hid a'⟩ : t.Id) ∈ t.children ⟨id'.1, hid id'⟩ :=
      (hsp.mem_children_iff rfl rfl).1 ha'
    have hb : (⟨b'.1, hid b'⟩ : t.Id) ∈ t.children ⟨id'.1, hid id'⟩ :=
      (hsp.mem_children_iff rfl rfl).1 hb'
    obtain ⟨hapart, -⟩ := (eq_or_apart_of_le hbuilt ha hb (Nat.le_of_lt hlt)).resolve_left
      fun heq => Nat.ne_of_lt hlt (congrArg (Fin.val (n := t.nodes.size)) heq)
    exact hsp.apart hs hmember happart hapart rfl rfl
  intro a' ha' b' hb' hne p hp
  rcases Nat.lt_or_gt_of_ne (Fin.val_ne_of_ne hne) with hlt | hlt
  · have hoff := hordered a' ha' b' hb' hlt
    omega
  · have hoff := hordered b' hb' a' ha' hlt
    omega

/-- The text in front of a marked node in a child ends up in the next child, if it is written where that
starts. -/
theorem Spread.overlap (hsp : Spread t requests t') {id x y u : t.Id} (hx : x ∈ t.children id)
    (hy : y ∈ t.children id) (hxy : (t.node x).subtreeEnd ≤ y.1) (hu : t.added requests u ≠ [])
    (hxu : x.1 ≤ u.1) (hux : u.1 < (t.node x).subtreeEnd)
    (hstart : (t.node u).span.start = (t.node y).fullSpan.start)
    (hstop : (t.node x).fullSpan.stop = (t.node y).fullSpan.start)
    (hin : (t.node y).fullSpan.start < (t.node y).fullSpan.stop ∨ t.MarksIn requests y) :
    ¬t'.SiblingsApart := by
  intro hsiblings
  have hs := sound_of_built hbuilt
  have hx' : x.1 < t'.nodes.size := hsp.size.symm ▸ x.2
  have hy' : y.1 < t'.nodes.size := hsp.size.symm ▸ y.2
  have hid' : id.1 < t'.nodes.size := hsp.size.symm ▸ id.2
  have hchild := below_of_mem_children hbuilt hx
  have hxspan := hs.laid.within (t.getElem?_node x)
  have hmark : ∀ c : t.Id, t.added requests c ≠ [] → ∃ w ∈ members t requests,
      w.position = (t.node c).span.start ∧ w.owner = c.1 ∧ 0 < w.bytes := fun c hc =>
    have hw := (mem_members_of_member hmember).2 ⟨c, hc, rfl⟩
    ⟨_, hw, rfl, rfl, bytes_pos _ hw⟩
  -- a mark around the second child stands in front of both children
  have hfront : ∀ {owner : Nat}, startMoves t.nodes y.1 owner = true → owner < x.1 := by
    intro owner h
    exact (startMoves_iff.1 (startMoves_sibling hbuilt hy hx h)).1
  have hfirst : pushed (members t requests) (startMoves t.nodes y.1) (t.node y).fullSpan.start <
      pushed (members t requests) (stopMoves t.nodes x.1) (t.node x).fullSpan.stop := by
    obtain ⟨w, hw, hposition, howner, hbytes⟩ := hmark u hu
    rw [hstop]
    refine pushed_lt_pushed hw (hposition.trans hstart) hbytes ?_ (fun v _ _ hle => ?_)
      fun v _ _ hmoves => ?_
    · rw [howner, stopMoves, (covers_iff (t.getElem?_node x)).2 ⟨hxu, hux⟩, Bool.or_true]
    · rw [← Bool.not_eq_true]
      intro hmoves
      have := hfront hmoves
      omega
    · rw [stopMoves, startMoves_sibling hbuilt hy hx hmoves, Bool.true_or]
  have hsecond : pushed (members t requests) (startMoves t.nodes y.1) (t.node y).fullSpan.start <
      pushed (members t requests) (stopMoves t.nodes y.1) (t.node y).fullSpan.stop := by
    by_cases hlt : (t.node y).fullSpan.start < (t.node y).fullSpan.stop
    · exact pushed_lt hlt
    obtain ⟨c, hc, hmarked⟩ := hin.resolve_left hlt
    obtain ⟨hyc, hcy⟩ := isAncestor_iff.1 (mem_descendants_iff.1 hc)
    have hbelow := fullSpan_of_below hbuilt hyc hcy
    have hcspan := hs.laid.within (t.getElem?_node c)
    obtain ⟨w, hw, hposition, howner, hbytes⟩ := hmark c hmarked
    rw [show (t.node y).fullSpan.stop = (t.node y).fullSpan.start by omega]
    refine pushed_lt_pushed hw (by omega) hbytes ?_ (fun v _ _ hle => ?_) fun v _ _ hmoves => ?_
    · rw [howner, stopMoves, (covers_iff (t.getElem?_node y)).2 ⟨hyc, hcy⟩, Bool.or_true]
    · rw [← Bool.not_eq_true]
      intro hmoves
      have := (startMoves_iff.1 hmoves).1
      omega
    · rw [stopMoves, hmoves, Bool.true_or]
  have hthird : pushed (members t requests) (startMoves t.nodes x.1) (t.node x).fullSpan.start ≤
      pushed (members t requests) (startMoves t.nodes y.1) (t.node y).fullSpan.start :=
    pushed_le (by omega) fun w _ _ _ hmoves => startMoves_sibling hbuilt hx hy hmoves
  refine hsiblings ⟨id.1, hid'⟩ ⟨x.1, hx'⟩ ((hsp.mem_children_iff rfl rfl).2 hx) ⟨y.1, hy'⟩
    ((hsp.mem_children_iff rfl rfl).2 hy) (fun heq => ?_) _ ⟨?_, ?_, Nat.le_refl _, ?_⟩
  · have := congrArg (Fin.val (n := t'.nodes.size)) heq
    dsimp only at this
    omega
  · rw [hsp.node_eq x ⟨x.1, hx'⟩ rfl, hsp.node_eq y ⟨y.1, hy'⟩ rfl]
    exact hthird
  · rw [hsp.node_eq x ⟨x.1, hx'⟩ rfl, hsp.node_eq y ⟨y.1, hy'⟩ rfl]
    exact hfirst
  · rw [hsp.node_eq y ⟨y.1, hy'⟩ rfl]
    exact hsecond

theorem Spread.marksApart (hsp : Spread t requests t') (hsiblings : t'.SiblingsApart) :
    t.MarksApart requests := by
  have hs := sound_of_built hbuilt
  intro u b hu _ hub hb
  obtain ⟨hstart, hstop⟩ := hs.start_le_of_apart hub
  refine Nat.lt_of_not_le fun hle => ?_
  have huend := (lt_subtreeEnd hbuilt u).1
  have hroot : 0 < t.nodes.size := Nat.zero_lt_of_lt u.2
  have hrootEnd := hs.nested.root (t.getElem?_node ⟨0, hroot⟩)
  have hpos : (⟨0, hroot⟩ : t.Id).1 < u.1 := by
    refine Nat.pos_of_ne_zero fun hzero : u.1 = 0 => ?_
    obtain rfl : u = ⟨0, hroot⟩ := Fin.ext hzero
    omega
  obtain ⟨id, x, hx, y, hy, hxy, ⟨hxu, hux⟩, hyb, hby⟩ :=
    exists_siblings hbuilt hpos (by omega) hub
  have hxfull := fullSpan_of_below hbuilt hxu hux
  have hyfull := fullSpan_of_below hbuilt hyb hby
  have hapart := hs.laid.apart (t.getElem?_node x) (t.getElem?_node y) hxy
  have huspan := hs.laid.within (t.getElem?_node u)
  have hbspan := hs.laid.within (t.getElem?_node b)
  refine hsp.overlap hbuilt hmember hx hy hxy hu hxu hux (by omega) (by omega) ?_ hsiblings
  rcases hb with hfull | ⟨c, hc, hmarked⟩
  · have hne := of_decide_eq_false hfull
    exact Or.inl (by omega)
  · obtain ⟨hbc, hcb⟩ := isAncestor_iff.1 (mem_descendants_iff.1 hc)
    have hend := hs.nested.end_le (t.getElem?_node y) (t.getElem?_node b) hyb hby
    exact Or.inr ⟨c, mem_descendants_iff.2 (isAncestor_iff.2 ⟨by omega, by omega⟩), hmarked⟩

/-- A batch about members leaves the text of unmarked nodes alone and siblings apart exactly if nothing
with text in it starts where the mark of a node without text is written. -/
theorem unmarked_kept_iff (hids : ∀ r ∈ requests, r.1 < t.nodes.size) :
    ∃ t', t.addMarkers requests = .ok t' ∧ (t'.text.utf8ByteSize ≤ Text.maxOffset →
      (t.KeepsUnmarked requests t' ∧ t'.SiblingsApart ↔ t.MarksApart requests)) := by
  have hs := sound_of_built hbuilt
  obtain ⟨t', hadded, hspread⟩ := hs.spread hmember hids
  refine ⟨t', hadded, fun hsize => ?_⟩
  have hsp := hspread hsize
  constructor
  · intro h
    exact hsp.marksApart hbuilt hmember h.2
  · intro happart
    refine ⟨fun id hunmarked => ?_, hsp.siblingsApart hbuilt hmember happart⟩
    have hid : id.1 < t'.nodes.size := hsp.size.symm ▸ id.2
    exact ⟨⟨id.1, hid⟩, rfl, hsp.nodeText_eq hs hmember happart hunmarked rfl⟩

end Built

/-- A method without text, one with a token, and another one without. -/
def tokenlessEvents : List Event :=
  [.start .compilationUnit none, .start .method "M", .finish, .start .method "N", .token "n", .finish,
    .start .method "K", .finish, .finish]

/-- The tree of these methods. -/
def tokenless : Tree := .ofBuilder "A.cs" .empty (Builder.empty.run tokenlessEvents)

/-- The last method is marked, behind which there is nothing. -/
theorem unmarked_kept_iff_tokenless :
    Tree.ofEvents "A.cs" .empty tokenlessEvents = .ok tokenless ∧
    (∀ r ∈ [((3, .methodBody) : Request)], r.2.isAssemblyLevel = false) ∧
    (∀ r ∈ [((3, .methodBody) : Request)], r.1 < tokenless.nodes.size) ∧
    ∃ t', tokenless.addMarkers [(3, .methodBody)] = .ok t' ∧
      t'.text.utf8ByteSize ≤ Text.maxOffset ∧
      (tokenless.KeepsUnmarked [(3, .methodBody)] t' ∧ t'.SiblingsApart) := by
  have hbuilt : Tree.ofEvents "A.cs" .empty tokenlessEvents = .ok tokenless := rfl
  have hmember : ∀ r ∈ [((3, .methodBody) : Request)], r.2.isAssemblyLevel = false := by decide
  have hids : ∀ r ∈ [((3, .methodBody) : Request)], r.1 < tokenless.nodes.size := by decide
  have happart : tokenless.MarksApart [(3, .methodBody)] := by decide +kernel
  have hinsertions : insertions tokenless [(3, .methodBody)] =
      unsorted tokenless [(3, .methodBody)] := insertions_eq_unsorted (by decide +kernel)
  obtain ⟨t', hadded, hiff⟩ := unmarked_kept_iff hbuilt hmember hids
  have hsize : t'.text.utf8ByteSize ≤ Text.maxOffset := by
    have hadded' := (sound_of_built hbuilt).addMarkers_eq hids
    rw [hadded, hinsertions] at hadded'
    rw [Except.ok.inj hadded']
    decide +kernel
  exact ⟨hbuilt, hmember, hids, t', hadded, hsize, (hiff hsize).2 happart⟩

/-- The tree with a marker on the first method: its text is in the second one as well. -/
def spilled : Tree :=
  { (unsorted tokenless [(1, .methodBody)]).reverse.foldl shiftSpans
      (attach tokenless [(1, .methodBody)]) with
    text := "[MethodBodyChange] n" }

theorem unmarked_not_kept : Tree.ofEvents "A.cs" .empty tokenlessEvents = .ok tokenless ∧
    tokenless.addMarkers [(1, .methodBody)] = .ok spilled ∧
    ¬tokenless.KeepsUnmarked [(1, .methodBody)] spilled ∧ ¬spilled.SiblingsApart := by
  have hbuilt : Tree.ofEvents "A.cs" .empty tokenlessEvents = .ok tokenless := rfl
  have hinsertions : insertions tokenless [(1, .methodBody)] =
      unsorted tokenless [(1, .methodBody)] := insertions_eq_unsorted (by decide +kernel)
  have hids : ∀ r ∈ [((1, .methodBody) : Request)], r.1 < tokenless.nodes.size := by decide
  have hadded := (sound_of_built hbuilt).addMarkers_eq hids
  have htext : String.ofList (Text.weave (Insertion.marks (unsorted tokenless [(1, .methodBody)])) 0
      tokenless.text.toList) = "[MethodBodyChange] n" := by decide +kernel
  rw [hinsertions, htext] at hadded
  refine ⟨hbuilt, hadded, fun hkeeps => ?_, fun hsiblings => ?_⟩
  · obtain ⟨id', hid, hkept⟩ := hkeeps ⟨2, by decide +kernel⟩ (by decide +kernel)
    have hid' : id'.1 = 2 := hid
    have hspilled : spilled.nodeText id' = "[MethodBodyChange] n" := by
      rw [show id' = ⟨2, by decide +kernel⟩ from Fin.ext hid']
      decide +kernel
    rw [hspilled] at hkept
    exact absurd hkept (by decide +kernel)
  · exact hsiblings ⟨0, by decide +kernel⟩ ⟨1, by decide +kernel⟩ (by decide +kernel)
      ⟨2, by decide +kernel⟩ (by decide +kernel) (by decide +kernel) 0 (by decide +kernel)

end Tree

end HotReload
