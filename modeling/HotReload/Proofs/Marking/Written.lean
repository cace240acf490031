import HotReload.Proofs.Marking.Shifted

/-
  Writing a whole batch. `Batch` says which lists of insertions a batch makes: they are in order of
  position, outer owners first, and each stands in front of a node with significant text or, for the
  root, at the end of the file. The arena is shifted from the last insertion to the first, and
  `Written` is what holds between two shifts: shape and spans are those of a tree over the text that
  has been written so far, and every node has its old text with the marks of its own subtree woven
  in. The step is `Written.before`, and `written_foldr` carries it through the batch.
-/

namespace HotReload.Marking

variable {nodes nodes' : Array Node} {cs : List Char} {ins : Insertion} {l : List Insertion}
  {owner n n' : Node} {i : Nat}

/-- An insertion has its place in an arena over a text. -/
inductive Insertion.Placed (nodes : Array Node) (cs : List Char) (ins : Insertion) : Prop
  | before {owner : Node} (placement : ins.placement = .before)
      (getElem? : nodes[ins.owner]? = some owner) (position : owner.span.start = ins.position)
      (nonempty : owner.span.start < owner.span.stop)
  | after (placement : ins.placement = .after) (owner : ins.owner = 0)
      (position : ins.position = Text.byteLength cs)

/-- Insertions that are written together. -/
structure Batch (nodes : Array Node) (cs : List Char) (l : List Insertion) : Prop where
  sorted : l.Pairwise fun a b =>
    a.position < b.position ∨ a.position = b.position ∧ a.owner ≤ b.owner
  distinct : l.Pairwise fun a b => a.owner ≠ b.owner ∨ a.placement ≠ b.placement
  placed : ∀ ins ∈ l, ins.Placed nodes cs

namespace Batch

theorem tail (h : Batch nodes cs (ins :: l)) : Batch nodes cs l :=
  ⟨(List.pairwise_cons.1 h.sorted).2, (List.pairwise_cons.1 h.distinct).2,
    fun i hi => h.placed i (List.mem_cons_of_mem _ hi)⟩

/-- Nothing stands behind the text at the end of the file. -/
theorem eq_nil_of_after (h : Batch nodes cs (ins :: l)) (hlaid : Laid nodes cs)
    (hplacement : ins.placement = .after) (howner : ins.owner = 0)
    (hposition : ins.position = Text.byteLength cs) : l = [] := by
  apply List.eq_nil_iff_forall_not_mem.2
  intro i hi
  have hsorted := (List.pairwise_cons.1 h.sorted).1 i hi
  have hdistinct := (List.pairwise_cons.1 h.distinct).1 i hi
  cases h.placed i (List.mem_cons_of_mem _ hi) with
  | before placement getElem? position nonempty =>
    have hstop := (hlaid.cuts getElem?).2.1.le_byteLength
    omega
  | after placement owner position =>
    rw [howner, owner, hplacement, placement] at hdistinct
    exact hdistinct.elim (fun h => h rfl) fun h => h rfl

end Batch

instance (owner i stop : Nat) : Decidable (Around owner i stop) :=
  inferInstanceAs (Decidable (_ ∧ _))

/-- The insertions in the subtree of a node. -/
def below (i : Nat) (n : Node) (l : List Insertion) : List Insertion :=
  l.filter fun ins => Around ins.owner i n.subtreeEnd

theorem below_cons_of_around (h : Around ins.owner i n.subtreeEnd) :
    below i n (ins :: l) = ins :: below i n l :=
  List.filter_cons_of_pos (decide_eq_true h)

theorem below_cons_of_not (h : ¬Around ins.owner i n.subtreeEnd) :
    below i n (ins :: l) = below i n l :=
  List.filter_cons_of_neg (by simpa using h)

/-- Where the text of a node ends for a batch: the owner of the text at the end of the file has all
text up to there. -/
def reach (cs : List Char) (l : List Insertion) (i : Nat) (n : Node) : Nat :=
  if l.any fun ins => ins.placement = .after ∧ ins.owner = i then Text.byteLength cs
  else n.span.stop

theorem reach_cons_of_before (h : ins.placement = .before) :
    reach cs (ins :: l) i n = reach cs l i n := by
  unfold reach
  simp [h]

/-- A node before and after some insertions. -/
structure WrittenNode (cs : List Char) (l : List Insertion) (i : Nat) (n n' : Node) : Prop where
  same : n' = { n with span := n'.span, fullSpan := n'.fullSpan }
  /-- Insertions behind the start, and at the start for nodes further down, leave it there. -/
  start : (∀ ins ∈ l, n.span.start < ins.position ∨ n.span.start = ins.position ∧ i ≤ ins.owner) →
    n'.span.start = n.span.start
  nonempty : n.span.start < n.span.stop → n'.span.start < n'.span.stop
  slice : ∀ {m : List Char}, Text.slice? n.span.start (reach cs l i n) cs = some m →
    Text.slice? n'.span.start n'.span.stop (Text.weave (Insertion.marks l) 0 cs) =
      some (Text.weave (Insertion.marks (below i n l)) n.span.start m)

/-- An arena before and after some insertions. -/
structure Written (nodes nodes' : Array Node) (cs : List Char) (l : List Insertion) : Prop where
  size : nodes'.size = nodes.size
  nested : Nested nodes'
  laid : Laid nodes' (Text.weave (Insertion.marks l) 0 cs)
  node : ∀ {i : Nat} {n : Node}, nodes[i]? = some n →
    ∃ n', nodes'[i]? = some n' ∧ WrittenNode cs l i n n'

/-- Without insertions everything stays. -/
theorem Written.nil (hnested : Nested nodes) (hlaid : Laid nodes cs) :
    Written nodes nodes cs [] := by
  have hweave : ∀ {offset : Nat} {m : List Char},
      Text.weave (Insertion.marks []) offset m = m :=
    Text.weave_of_none fun p _ _ => Insertion.marks_nil p
  refine ⟨rfl, hnested, hweave.symm ▸ hlaid, fun {i n} hn => ⟨n, hn, rfl, fun _ => rfl, id, ?_⟩⟩
  intro m hm
  rw [hweave]
  exact hm.trans (congrArg some hweave.symm)

/-- Text at the end of the file is the first to be written. -/
theorem Written.after (hnested : Nested nodes) (hlaid : Laid nodes cs) (hend : AtEnd ins cs) :
    Written nodes (shiftAll nodes ins) cs [ins] := by
  have hweave : Text.weave (Insertion.marks [ins]) 0 cs = cs ++ ins.text.toList :=
    Insertion.weave_marks_last ((Nat.zero_add _).trans hend.position.symm)
  refine ⟨by simp [shiftAll], nested_shiftAll hnested ins, hweave ▸ hend.laid hlaid hnested, ?_⟩
  intro i n hn
  refine ⟨_, getElem?_shiftAll_of hn, ?_⟩
  rcases Nat.eq_zero_or_pos i with rfl | hi
  · have hbelow : below 0 n [ins] = [ins] :=
      List.filter_cons_of_pos (by simp [Around, hend.owner, hnested.lt_end hn])
    have hreach : reach cs [ins] 0 n = Text.byteLength cs := by
      simp [reach, hend.placement, hend.owner]
    have hstop := (hlaid.cuts hn).2.1.le_byteLength
    rw [hend.shiftNode_root hlaid hnested hn]
    refine ⟨rfl, fun _ => rfl, fun hlt => ?_, fun {m} hm => ?_⟩
    · rw [Text.byteLength_append]
      exact Nat.lt_of_lt_of_le hlt (Nat.le_add_right_of_le hstop)
    · rw [hreach] at hm
      obtain ⟨-, -, -, -, hlength⟩ := Text.slice?_eq_some_iff.1 hm
      rw [hbelow, hweave, Insertion.weave_marks_last (hlength.trans hend.position.symm)]
      exact Text.slice?_append_right hm ins.text.toList
  · have hbelow : below i n [ins] = [] :=
      List.filter_cons_of_neg (by simp [Around, hend.owner, Nat.ne_of_gt hi])
    have hreach : reach cs [ins] i n = n.span.stop := by
      simp [reach, hend.owner, Nat.ne_of_lt hi]
    have hstop := (hlaid.cuts hn).2.1.le_byteLength
    rw [hend.shiftNode_eq hlaid hn (Nat.ne_of_gt hi)]
    refine ⟨rfl, fun _ => rfl, id, fun {m} hm => ?_⟩
    rw [hreach] at hm
    rw [hbelow, hweave, Text.weave_of_none fun p _ _ => Insertion.marks_nil p]
    have hkept := Text.slice?_insert_of_stop_le (x := ins.text.toList) (b := [])
      ((List.append_nil cs).symm ▸ hm) hstop
    rwa [List.append_nil] at hkept

/-! ## One more insertion -/

/-- An insertion in front of a node, behind which some others stand. -/
structure Next (nodes : Array Node) (ins : Insertion) (owner : Node) (l : List Insertion) :
    Prop where
  placement : ins.placement = .before
  getElem? : nodes[ins.owner]? = some owner
  position : owner.span.start = ins.position
  nonempty : owner.span.start < owner.span.stop
  behind : ∀ i ∈ l, ins.position < i.position ∨ ins.position = i.position ∧ ins.owner ≤ i.owner

namespace Next

variable (hnext : Next nodes ins owner l)

include hnext

theorem position_le : ∀ i ∈ l, ins.position ≤ i.position := by
  intro i hi
  have := hnext.behind i hi
  omega

/-- What stands around the owner has the insertion in its text. -/
theorem bounds_of_around (hlaid : Laid nodes cs) (hn : nodes[i]? = some n)
    (haround : Around ins.owner i n.subtreeEnd) :
    n.span.start ≤ ins.position ∧ ins.position ≤ reach cs l i n := by
  have hstop := (hlaid.cuts hnext.getElem?).2.1.le_byteLength
  have hposition := hnext.position
  have hnonempty := hnext.nonempty
  unfold reach
  rcases Nat.lt_or_eq_of_le haround.1 with hlt | rfl
  · have hbelow := (hlaid.below hn hnext.getElem? hlt haround.2).2.2 hnonempty
    split <;> omega
  · obtain rfl := Option.some.inj (hn.symm.trans hnext.getElem?)
    split <;> omega

variable {a b : List Char} (ha : Text.byteLength a = ins.position)

include ha

/-- The text with the others, cut at the insertion. -/
theorem weave_others :
    Text.weave (Insertion.marks l) 0 (a ++ b) =
      a ++ Text.weave (Insertion.marks l) ins.position b := by
  have hall : ∀ i ∈ l, 0 + Text.byteLength a ≤ i.position := by
    intro i hi
    rw [Nat.zero_add, ha]
    exact hnext.position_le i hi
  rw [Insertion.weave_marks_append hall, Nat.zero_add, ha]

/-- The text with the insertion and the others. -/
theorem weave_all :
    Text.weave (Insertion.marks (ins :: l)) 0 (a ++ b) =
      a ++ ins.text.toList ++ Text.weave (Insertion.marks l) ins.position b :=
  Insertion.weave_marks_cons ((Nat.zero_add _).trans ha) hnext.position_le b

/-- With the others written, the insertion is still in front of its owner. -/
theorem exists_inFront (hw : Written nodes nodes' (a ++ b) l)
    (hsize : Text.byteLength (Text.weave (Insertion.marks (ins :: l)) 0 (a ++ b)) ≤
      Text.maxOffset) :
    ∃ owner', InFront nodes' ins owner' a (Text.weave (Insertion.marks l) ins.position b) := by
  obtain ⟨owner', howner', hwritten⟩ := hw.node hnext.getElem?
  have hstart : owner'.span.start = owner.span.start := by
    apply hwritten.start
    intro i hi
    rw [hnext.position]
    exact hnext.behind i hi
  rw [hnext.weave_all ha] at hsize
  exact ⟨owner', hnext.placement, howner', hstart.trans hnext.position,
    hwritten.nonempty hnext.nonempty, ha, hsize⟩

/-- The insertion does to a node what it should. -/
theorem writtenNode {owner' : Node} (hlaid : Laid nodes (a ++ b))
    (hw : Written nodes nodes' (a ++ b) l)
    (hfront : InFront nodes' ins owner' a (Text.weave (Insertion.marks l) ins.position b))
    (hn : nodes[i]? = some n) (hn' : nodes'[i]? = some n')
    (hwn : WrittenNode (a ++ b) l i n n') :
    WrittenNode (a ++ b) (ins :: l) i n (shiftNode nodes' ins i n') := by
  have hlaid' := hnext.weave_others ha ▸ hw.laid
  have hs := hfront.shifted hlaid' hn'
  have hsubtree : n'.subtreeEnd = n.subtreeEnd := by rw [hwn.same]
  refine ⟨?_, fun hstart => ?_, fun hlt => ?_, fun {m} hm => ?_⟩
  · calc shiftNode nodes' ins i n'
        = { n' with
            span := (shiftNode nodes' ins i n').span
            fullSpan := (shiftNode nodes' ins i n').fullSpan } := rfl
      _ = { n with
            span := (shiftNode nodes' ins i n').span
            fullSpan := (shiftNode nodes' ins i n').fullSpan } := by rw [hwn.same]
  · have hstart' := hwn.start fun j hj => hstart j (List.mem_cons_of_mem _ hj)
    have hins := hstart ins List.mem_cons_self
    rw [← hstart'] at hins ⊢
    apply hs.start.eq_self
    · omega
    · intro heq hinside
      have := hinside.1
      omega
  · exact hs.start.mono_lt hs.stop (hwn.nonempty hlt)
  · rw [reach_cons_of_before hnext.placement] at hm
    have hslice := hwn.slice hm
    rw [hnext.weave_others ha] at hslice
    rw [hnext.weave_all ha]
    by_cases haround : Around ins.owner i n.subtreeEnd
    · -- the node has the insertion in its old text, at a cut of it
      obtain ⟨hfrom, hto⟩ := hnext.bounds_of_around hlaid hn haround
      have hcut : Text.IsCut (a ++ b) ins.position := ha ▸ Text.IsCut.append a b
      obtain ⟨m₁, m₂, rfl, hm₁⟩ := Text.exists_append_of_slice? hm hcut hfrom hto
      have hstart : n'.span.start = n.span.start := by
        apply hwn.start
        intro j hj
        have := hnext.behind j hj
        have := haround.1
        omega
      have hbelow : ∀ j ∈ below i n l, ins.position ≤ j.position :=
        fun j hj => hnext.position_le j (List.mem_filter.1 hj).1
      rw [Insertion.weave_marks_append (by rw [hm₁]; exact hbelow), hm₁] at hslice
      rw [below_cons_of_around haround, Insertion.weave_marks_cons hm₁ hbelow]
      exact (hfront.slice_around hlaid' hn' (hsubtree ▸ haround) hslice (hstart ▸ hm₁)).2
    · rw [below_cons_of_not haround]
      exact hfront.slice_kept hlaid' hw.nested hn' (hsubtree ▸ haround) hslice

end Next

/-- One more insertion in front of a node, behind which the others stand. -/
theorem Written.before (hlaid : Laid nodes cs) (hw : Written nodes nodes' cs l)
    (hnext : Next nodes ins owner l)
    (hsize : Text.byteLength (Text.weave (Insertion.marks (ins :: l)) 0 cs) ≤ Text.maxOffset) :
    Written nodes (shiftAll nodes' ins) cs (ins :: l) := by
  obtain ⟨a, b, rfl, ha⟩ : Text.IsCut cs ins.position :=
    hnext.position ▸ (hlaid.cuts hnext.getElem?).1
  obtain ⟨owner', hfront⟩ := hnext.exists_inFront ha hw hsize
  have hlaid' := hnext.weave_others ha ▸ hw.laid
  refine ⟨by simp [shiftAll, hw.size], nested_shiftAll hw.nested ins, ?_, ?_⟩
  · rw [hnext.weave_all ha]
    exact hfront.laid hlaid' hw.nested
  · intro i n hn
    obtain ⟨n', hn', hwn⟩ := hw.node hn
    exact ⟨_, getElem?_shiftAll_of hn', hnext.writtenNode ha hlaid hw hfront hn hn' hwn⟩

/-- A batch is written from its last insertion to its first. -/
theorem written_foldr (hnested : Nested nodes) (hlaid : Laid nodes cs) (hbatch : Batch nodes cs l)
    (hsize : Text.byteLength (Text.weave (Insertion.marks l) 0 cs) ≤ Text.maxOffset) :
    Written nodes (l.foldr (fun ins arena => shiftAll arena ins) nodes) cs l := by
  induction l with
  | nil => exact .nil hnested hlaid
  | cons ins l ih =>
    cases hbatch.placed ins List.mem_cons_self with
    | before placement getElem? position nonempty =>
      have hle : ∀ p, Text.byteLength (Insertion.marks l p) ≤
          Text.byteLength (Insertion.marks (ins :: l) p) := by
        intro p
        rw [Insertion.marks_cons, Text.byteLength_append]
        exact Nat.le_add_left _ _
      have hw := ih hbatch.tail (Nat.le_trans (Text.byteLength_weave_le hle) hsize)
      have hbehind := (List.pairwise_cons.1 hbatch.sorted).1
      exact hw.before hlaid ⟨placement, getElem?, position, nonempty, hbehind⟩ hsize
    | after placement owner position =>
      obtain rfl := hbatch.eq_nil_of_after hlaid placement owner position
      rw [Insertion.weave_marks_last ((Nat.zero_add _).trans position.symm)] at hsize
      exact .after hnested hlaid ⟨placement, owner, position, hsize⟩

end HotReload.Marking
