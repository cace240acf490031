import HotReload.Proofs.Source.Encodings
import HotReload.Proofs.Source.Significant

/-
  The search for the innermost node around a span finds what a scan of all nodes finds: the last one
  in pre-order that contains the span (`Tree.enclosing_eq_lastAround`). The search halves the children
  of a node (`Tree.firstFailure`), goes to the last one that starts at or before the span and never
  comes back.

  What carries the descent is `Tree.le_enclosingFrom`: no node in the subtree that contains the span
  stands behind the answer. A node behind the child that was taken starts behind the span, and a node
  in front of that child ends where the child starts or before, so it contains the span only if the
  span is the insertion point between the two, and then the child contains it, too.
-/

namespace HotReload

namespace Tree

variable {path : String} {symbols : Symbols} {events : List Event} {t : Tree} {span : Span}

/-- The nodes whose full span contains the span, in pre-order. -/
def around (t : Tree) (span : Span) : List t.Id :=
  (List.finRange t.nodes.size).filter fun id => (t.node id).fullSpan.contains span

/-- The last node in pre-order whose full span contains the span, or the root if there is none. -/
def lastAround (t : Tree) (span : Span) : Except UnresolvedRoot t.Id :=
  t.root.map fun root => (t.around span).getLast?.getD root

theorem mem_around {x : t.Id} : x ∈ t.around span ↔ (t.node x).fullSpan.contains span = true :=
  List.mem_filter.trans (and_iff_right (List.mem_finRange x))

theorem pairwise_around (t : Tree) (span : Span) : (t.around span).Pairwise (· < ·) :=
  (List.pairwise_lt_finRange _).filter _

/-- The last node around a span is the one that no node around the span stands behind. -/
theorem lastAround_eq_ok {id : t.Id} (hroot : id.1 = 0 ∨ (t.node id).fullSpan.contains span = true)
    (hle : ∀ x, (t.node x).fullSpan.contains span = true → x.1 ≤ id.1) :
    t.lastAround span = .ok id := by
  have hzero : t.root = .ok ⟨0, Nat.zero_lt_of_lt id.2⟩ := root_eq_ok_iff.2 rfl
  rw [lastAround, hzero]
  refine congrArg Except.ok ?_
  cases hlast : (t.around span).getLast? with
  | none =>
    rw [List.getLast?_eq_none_iff] at hlast
    rcases hroot with hid | hid
    · exact Fin.ext hid.symm
    · rw [← mem_around, hlast] at hid
      exact absurd hid List.not_mem_nil
  | some last =>
    have hcontains := mem_around.1 (List.mem_of_getLast? hlast)
    refine Fin.ext (Nat.le_antisymm (hle last hcontains) ?_)
    rcases hroot with hid | hid
    · omega
    · obtain ⟨front, hfront⟩ := List.getLast?_eq_some_iff.1 hlast
      have hpairwise := t.pairwise_around span
      rw [hfront, List.pairwise_append] at hpairwise
      rw [← mem_around, hfront, List.mem_append, List.mem_singleton] at hid
      rcases hid with hid | rfl
      · exact Nat.le_of_lt (hpairwise.2.2 id hid last List.mem_cons_self)
      · exact Nat.le_refl _

/-! ## Halving -/

/-- If the property holds up to some position and fails from there on, the answer is that position. -/
theorem firstFailure_spec {p : Nat → Bool} (hp : ∀ {i j}, i ≤ j → p j = true → p i = true)
    {low high : Nat} (hlow : ∀ i < low, p i = true)
    (hhigh : ∀ i, high ≤ i → p i = false) (i : Nat) :
    p i = true ↔ i < firstFailure p low high := by
  fun_induction firstFailure p low high with
  | case1 low high hlt middle hmiddle ih =>
    exact ih (fun j hj => hp (Nat.le_of_lt_succ hj) hmiddle) hhigh
  | case2 low high hlt middle hmiddle ih =>
    refine ih hlow fun j hj => ?_
    cases hpj : p j with
    | false => rfl
    | true => exact absurd (hp hj hpj) hmiddle
  | case3 low high hlt =>
    constructor
    · intro hpi
      by_contra hi
      rw [hhigh i (by omega)] at hpi
      exact absurd hpi (by decide)
    · exact hlow i

/-- The child at this place starts at or before the offset. -/
def startsBefore (t : Tree) (id : t.Id) (offset i : Nat) : Bool :=
  (t.children id)[i]?.any fun c => (t.node c).fullSpan.start ≤ offset

theorem startsBefore_iff {id : t.Id} {offset i : Nat} :
    t.startsBefore id offset i = true ↔
      ∃ c, (t.children id)[i]? = some c ∧ (t.node c).fullSpan.start ≤ offset := by
  unfold startsBefore
  rw [Option.any_eq_true]
  exact exists_congr fun c => and_congr_right fun _ => decide_eq_true_iff

/-- Where a search ends that goes on behind every child that starts at or before the offset. -/
theorem childAt?_eq (id : t.Id) (offset : Nat) : t.childAt? id offset =
    match firstFailure (t.startsBefore id offset) 0 (t.children id).size with
    | 0 => none
    | i + 1 => (t.children id)[i]? := rfl

theorem mem_children_of_childAt? {id c : t.Id} {offset : Nat} (h : t.childAt? id offset = some c) :
    c ∈ t.children id := by
  rw [childAt?_eq] at h
  split at h
  · exact absurd h nofun
  · exact Array.mem_of_getElem? h

theorem enclosingFrom_of_contains {id c : t.Id} (hc : t.childAt? id span.start = some c)
    (hcontains : (t.node c).fullSpan.contains span = true) :
    t.enclosingFrom span id = t.enclosingFrom span c := by
  rw [enclosingFrom]
  split
  · next hnone => simp [hc] at hnone
  · next d hd =>
    obtain rfl := Option.some.inj (hc.symm.trans hd)
    rw [if_pos hcontains]

section Built

variable (hbuilt : Tree.ofEvents path symbols events = .ok t)

include hbuilt

/-- Of two children, the subtree of the first ends before the second, and so does its text. -/
theorem pairwise_children (id : t.Id) : (t.children id).toList.Pairwise fun a b =>
    a.1 < b.1 ∧ (t.node a).subtreeEnd ≤ b.1 ∧
      (t.node a).fullSpan.start ≤ (t.node b).fullSpan.start ∧
      (t.node a).fullSpan.stop ≤ (t.node b).fullSpan.start := by
  have hsiblings := (Tree.nestedChildren hbuilt).siblings (t.getElem?_node id)
  rw [← toList_children, List.pairwise_map] at hsiblings
  refine hsiblings.imp fun {a b} hab => ?_
  have hend := hab (t.getElem?_node a)
  have hwithin := (Tree.laid hbuilt).within (t.getElem?_node a)
  have hapart := (Tree.laid hbuilt).apart (t.getElem?_node a) (t.getElem?_node b) hend
  exact ⟨Nat.lt_of_lt_of_le (lt_subtreeEnd hbuilt a).1 hend, hend, by omega, hapart⟩

theorem children_of_lt {id a b : t.Id} {i j : Nat} (ha : (t.children id)[i]? = some a)
    (hb : (t.children id)[j]? = some b) (hij : i < j) :
    a.1 < b.1 ∧ (t.node a).fullSpan.start ≤ (t.node b).fullSpan.start := by
  obtain ⟨hi, rfl⟩ := Array.getElem?_eq_some_iff.1 ha
  obtain ⟨hj, rfl⟩ := Array.getElem?_eq_some_iff.1 hb
  have hpairwise := List.pairwise_iff_getElem.1 (pairwise_children hbuilt id) i j hi hj hij
  exact ⟨hpairwise.1, hpairwise.2.2.1⟩

theorem eq_or_apart_of_le {id a b : t.Id} (ha : a ∈ t.children id) (hb : b ∈ t.children id)
    (hab : a.1 ≤ b.1) : a = b ∨
      ((t.node a).subtreeEnd ≤ b.1 ∧ (t.node a).fullSpan.stop ≤ (t.node b).fullSpan.start) := by
  rcases Nat.eq_or_lt_of_le hab with heq | hlt
  · exact Or.inl (Fin.ext heq)
  obtain ⟨i, hi, rfl⟩ := Array.mem_iff_getElem.1 ha
  obtain ⟨j, hj, rfl⟩ := Array.mem_iff_getElem.1 hb
  have hpairwise := List.pairwise_iff_getElem.1 (pairwise_children hbuilt id)
  rcases Nat.lt_trichotomy i j with hij | rfl | hji
  · have hrel := hpairwise i j hi hj hij
    exact Or.inr ⟨hrel.2.1, hrel.2.2.2⟩
  · exact Or.inl rfl
  · have hrel := hpairwise j i hj hi hji
    simp only [Array.getElem_toList] at hrel
    omega

/-- A child starts at or before the offset exactly if it stands in front of the end of the search. -/
theorem startsBefore_iff_lt (id : t.Id) (offset i : Nat) : t.startsBefore id offset i = true ↔
    i < firstFailure (t.startsBefore id offset) 0 (t.children id).size := by
  refine firstFailure_spec (fun {i j} hij hj => ?_) (by simp) (fun i hi => ?_) i
  · obtain ⟨b, hb, hstart⟩ := startsBefore_iff.1 hj
    rcases Nat.lt_or_eq_of_le hij with hij | rfl
    · obtain ⟨hsize, -⟩ := Array.getElem?_eq_some_iff.1 hb
      have ha := Array.getElem?_eq_getElem (Nat.lt_trans hij hsize)
      exact startsBefore_iff.2 ⟨_, ha, Nat.le_trans (children_of_lt hbuilt ha hb hij).2 hstart⟩
    · exact hj
  · rw [startsBefore, Array.getElem?_eq_none hi]
    rfl

/-- The search goes to the last child that starts at or before the offset. -/
theorem start_le_iff_childAt? {id d : t.Id} (offset : Nat) (hd : d ∈ t.children id) :
    (t.node d).fullSpan.start ≤ offset ↔ ∃ c, t.childAt? id offset = some c ∧ d.1 ≤ c.1 := by
  obtain ⟨j, hj⟩ := Array.mem_iff_getElem?.1 hd
  have hlt := startsBefore_iff_lt hbuilt id offset
  have hstart : (t.node d).fullSpan.start ≤ offset ↔ t.startsBefore id offset j = true := by
    rw [startsBefore_iff]
    exact ⟨fun h => ⟨d, hj, h⟩, fun ⟨c, hc, h⟩ => Option.some.inj (hj.symm.trans hc) ▸ h⟩
  rw [hstart, hlt, childAt?_eq]
  split
  · next hzero => simp [hzero]
  · next i hsucc =>
    -- the child in front of the end is there, and the children are in order
    obtain ⟨c, hc, -⟩ := startsBefore_iff.1 ((hlt i).2 (by omega))
    rw [hsucc, hc]
    constructor
    · intro hji
      refine ⟨c, rfl, ?_⟩
      rcases Nat.lt_or_eq_of_le (Nat.le_of_lt_succ hji) with hji | rfl
      · exact Nat.le_of_lt (children_of_lt hbuilt hj hc hji).1
      · exact Nat.le_of_eq (congrArg Fin.val (Option.some.inj (hj.symm.trans hc)))
    · rintro ⟨c', hc', hdc⟩
      obtain rfl := Option.some.inj hc'
      by_contra hij
      have := (children_of_lt hbuilt hc hj (by omega)).1
      omega

theorem below_of_mem_children {id c : t.Id} (hc : c ∈ t.children id) :
    id.1 < c.1 ∧ c.1 < (t.node id).subtreeEnd :=
  below_of_parent? hbuilt ((mem_children_iff_parent? hbuilt).1 hc) (Nat.le_refl _)
    (lt_subtreeEnd hbuilt id).1

/-- Full spans of a subtree are within that of its root. -/
theorem fullSpan_of_below {a b : t.Id} (hab : a.1 ≤ b.1) (hb : b.1 < (t.node a).subtreeEnd) :
    (t.node a).fullSpan.start ≤ (t.node b).fullSpan.start ∧
      (t.node b).fullSpan.stop ≤ (t.node a).fullSpan.stop := by
  rcases Nat.lt_or_eq_of_le hab with hab | hab
  · obtain ⟨hstart, hstop, -⟩ :=
      (Tree.laid hbuilt).below (t.getElem?_node a) (t.getElem?_node b) hab hb
    exact ⟨hstart, hstop⟩
  · obtain rfl := Fin.ext hab
    exact ⟨Nat.le_refl _, Nat.le_refl _⟩

/-- What stands below a node is a child, or stands below one. -/
theorem exists_child {a b : t.Id} (hab : a.1 < b.1) (hb : b.1 < (t.node a).subtreeEnd) :
    ∃ c ∈ t.children a, c.1 ≤ b.1 ∧ b.1 < (t.node c).subtreeEnd := by
  obtain ⟨p, hp, hap, hpb⟩ := exists_parent? hbuilt hab hb
  by_cases heq : a = p
  · subst heq
    exact ⟨b, (mem_children_iff_parent? hbuilt).2 hp, Nat.le_refl _, (lt_subtreeEnd hbuilt b).1⟩
  have hlt : a.1 < p.1 := by
    have := Fin.val_ne_of_ne heq
    omega
  obtain ⟨c, hc, hcp, hpc⟩ := exists_child hlt (Nat.lt_trans hpb hb)
  obtain ⟨hcb, hbc⟩ := below_of_parent? hbuilt hp hcp hpc
  exact ⟨c, hc, Nat.le_of_lt hcb, hbc⟩
termination_by b.1

/-! ## The descent -/

/-- The descent stays in the subtree that it started from. -/
theorem enclosingFrom_below (span : Span) (id : t.Id) :
    id.1 ≤ (t.enclosingFrom span id).1 ∧
      (t.enclosingFrom span id).1 < (t.node id).subtreeEnd := by
  fun_induction t.enclosingFrom span id with
  | case1 id hnone => exact ⟨Nat.le_refl _, (lt_subtreeEnd hbuilt id).1⟩
  | case2 id c hsome hcontains ih =>
    have hc := mem_children_of_childAt? hsome
    obtain ⟨hlt, hend⟩ := below_of_mem_children hbuilt hc
    have hsub := (Tree.nested hbuilt).end_le (t.getElem?_node id) (t.getElem?_node c)
      (Nat.le_of_lt hlt) hend
    omega
  | case3 id c hsome hcontains => exact ⟨Nat.le_refl _, (lt_subtreeEnd hbuilt id).1⟩

/-- If a node below contains the span, the search goes to the child above it or to a later one. -/
theorem exists_childAt? (hspan : span.start ≤ span.stop) {id x : t.Id} (hx : id.1 < x.1)
    (hxend : x.1 < (t.node id).subtreeEnd) (hcontains : (t.node x).fullSpan.contains span = true) :
    ∃ c, t.childAt? id span.start = some c ∧
      ((c.1 ≤ x.1 ∧ x.1 < (t.node c).subtreeEnd) ∨
        (x.1 < c.1 ∧ (t.node c).fullSpan.start = span.start ∧ span.stop = span.start)) := by
  obtain ⟨hstart, hstop⟩ := Span.contains_iff.1 hcontains
  obtain ⟨d, hd, hdx, hxd⟩ := exists_child hbuilt hx hxend
  obtain ⟨hdstart, hdstop⟩ := fullSpan_of_below hbuilt hdx hxd
  obtain ⟨c, hc, hdc⟩ :=
    (start_le_iff_childAt? hbuilt span.start hd).1 (Nat.le_trans hdstart hstart)
  have hmem := mem_children_of_childAt? hc
  have hcstart := (start_le_iff_childAt? hbuilt span.start hmem).2 ⟨c, hc, Nat.le_refl _⟩
  refine ⟨c, hc, ?_⟩
  rcases eq_or_apart_of_le hbuilt hd hmem hdc with rfl | ⟨hend, hapart⟩
  · exact Or.inl ⟨hdx, hxd⟩
  · exact Or.inr ⟨by omega, by omega, by omega⟩

/-- No node of the subtree that contains the span stands behind the end of the descent. -/
theorem le_enclosingFrom (hspan : span.start ≤ span.stop) (id : t.Id) {x : t.Id} (hx : id.1 ≤ x.1)
    (hxend : x.1 < (t.node id).subtreeEnd) (hcontains : (t.node x).fullSpan.contains span = true) :
    x.1 ≤ (t.enclosingFrom span id).1 := by
  have hbelow := enclosingFrom_below hbuilt span id
  rcases Nat.eq_or_lt_of_le hx with heq | hlt
  · omega
  obtain ⟨c, hc, hcase⟩ := exists_childAt? hbuilt hspan hlt hxend hcontains
  have hccontains : (t.node c).fullSpan.contains span = true := by
    rw [Span.contains_iff] at hcontains ⊢
    rcases hcase with ⟨hcx, hxc⟩ | ⟨-, hstart, hpoint⟩
    · have := fullSpan_of_below hbuilt hcx hxc
      omega
    · have := (Tree.laid hbuilt).within (t.getElem?_node c)
      omega
  rw [enclosingFrom_of_contains hc hccontains]
  rcases hcase with ⟨hcx, hxc⟩ | ⟨hxc, -⟩
  · have := t.lt_of_childAt? hc
    exact le_enclosingFrom hspan c hcx hxc hcontains
  · exact Nat.le_trans (Nat.le_of_lt hxc) (enclosingFrom_below hbuilt span c).1
termination_by t.nodes.size - id.1
decreasing_by omega

/-- The node around a span stands in front of no node that contains the span. -/
theorem exists_enclosing (hnodes : 0 < t.size) (hspan : span.start ≤ span.stop) :
    ∃ id, t.enclosing span = .ok id ∧
      ∀ x, (t.node x).fullSpan.contains span = true → x.1 ≤ id.1 := by
  let root : t.Id := ⟨0, hnodes⟩
  have hroot : t.root = .ok root := root_eq_ok_iff.2 rfl
  refine ⟨t.enclosingFrom span root, ?_, fun x hx => ?_⟩
  · rw [enclosing, hroot]
    rfl
  · have hend := (Tree.nested hbuilt).root (t.getElem?_node root)
    exact le_enclosingFrom hbuilt hspan root (Nat.zero_le _) (Nat.lt_of_lt_of_le x.2 hend) hx

/-- The last of the nodes that contain a span is around it. -/
theorem enclosing_eq_ok (hspan : span.start ≤ span.stop) {id : t.Id}
    (hcontains : (t.node id).fullSpan.contains span = true)
    (hlast : ∀ x : t.Id, id.1 < x.1 → (t.node x).fullSpan.contains span = false) :
    t.enclosing span = .ok id := by
  have hnodes : 0 < t.size := Nat.zero_lt_of_lt id.2
  obtain ⟨found, hfound, hle⟩ := exists_enclosing hbuilt hnodes hspan
  rcases Nat.eq_or_lt_of_le (hle id hcontains) with heq | hlt
  · rw [hfound, Fin.ext heq]
  · rcases contains_of_enclosing hfound with hzero | hc
    · omega
    · rw [hlast found hlt] at hc
      exact absurd hc (by decide)

/-- The search by halving finds the node that a scan of all nodes finds. It contains the span or is
the root, and nothing below it does; of two siblings that contain the span, the first is not above
it, and if their parent is, then so is the second or a sibling behind it. -/
theorem enclosing_eq_lastAround (hnodes : 0 < t.size) (hspan : span.start ≤ span.stop) :
    ∃ id, t.enclosing span = .ok id ∧ t.lastAround span = .ok id ∧
      (∀ x, t.isAncestor id x = true → x ≠ id → (t.node x).fullSpan.contains span = false) ∧
      ∀ p, ∀ a ∈ t.children p, ∀ b ∈ t.children p, a.1 < b.1 →
        (t.node a).fullSpan.contains span = true → (t.node b).fullSpan.contains span = true →
        t.isAncestor a id = false ∧
          (t.isAncestor p id = true → ∃ c ∈ t.children p, b.1 ≤ c.1 ∧ t.isAncestor c id = true) := by
  obtain ⟨id, hid, hle⟩ := exists_enclosing hbuilt hnodes hspan
  refine ⟨id, hid, lastAround_eq_ok (contains_of_enclosing hid) hle, fun x hx hne => ?_,
    fun p a ha b hb hab _ hbcontains => ⟨?_, fun hp => ?_⟩⟩
  · by_contra hcontains
    have hxid := hle x (by rwa [Bool.not_eq_false] at hcontains)
    exact hne (Fin.ext (Nat.le_antisymm hxid (isAncestor_iff.1 hx).1))
  · -- the answer is at the second sibling or behind it, and the subtree of the first ends before
    by_contra hancestor
    rw [Bool.not_eq_false, isAncestor_iff] at hancestor
    have hbid := hle b hbcontains
    rcases eq_or_apart_of_le hbuilt ha hb (Nat.le_of_lt hab) with rfl | ⟨hapart, -⟩ <;> omega
  · obtain ⟨-, hend⟩ := isAncestor_iff.1 hp
    have hbid := hle b hbcontains
    have hpb := below_of_mem_children hbuilt hb
    obtain ⟨c, hc, hcid, hidc⟩ := exists_child hbuilt (Nat.lt_of_lt_of_le hpb.1 hbid) hend
    refine ⟨c, hc, ?_, isAncestor_iff.2 ⟨hcid, hidc⟩⟩
    by_contra hcb
    rcases eq_or_apart_of_le hbuilt hc hb (Nat.le_of_not_le hcb) with rfl | ⟨hapart, -⟩ <;> omega

end Built

/-- Two statements and, at the insertion point between them, three nodes without any text; the second
of these has a child. -/
def touchingEvents : List Event :=
  [.start .compilationUnit none, .start .statement none, .token "a;", .finish,
    .start .attributeList none, .finish, .start .block none, .start .other none, .finish, .finish,
    .start .parameterList none, .finish, .start .statement none, .token "b;", .finish, .finish]

/-- The tree of these nodes. -/
def touching : Tree := .ofBuilder "A.cs" .empty (Builder.empty.run touchingEvents)

theorem enclosing_eq_lastAround_touching :
    Tree.ofEvents "A.cs" .empty touchingEvents = .ok touching ∧ 0 < touching.size ∧
      (Span.point 2).start ≤ (Span.point 2).stop ∧
      touching.enclosing (.point 2) = touching.lastAround (.point 2) ∧
      (touching.enclosing (.point 2)).map Fin.val = .ok 6 := by
  have hbuilt : Tree.ofEvents "A.cs" .empty touchingEvents = .ok touching := rfl
  have hspan : (Span.point 2).start ≤ (Span.point 2).stop := by decide
  refine ⟨hbuilt, by decide, hspan, ?_, by decide +kernel⟩
  obtain ⟨id, hid, hlast, -⟩ := enclosing_eq_lastAround hbuilt (by decide) hspan
  rw [hid, hlast]

end Tree

end HotReload
