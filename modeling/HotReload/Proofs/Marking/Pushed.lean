import HotReload.Proofs.Marking.Rounds

/-
  Where a whole batch moves an offset. The arena is shifted insertion by insertion, the last one
  first, so whether an insertion moves an offset is asked about an offset that others may have moved
  already. Read off the old tree, an offset moves by the bytes of the insertions that it ends up
  behind (`pushed`): those in front of it, and at the same offset those up to the last one that
  moves it (`Passes`). `pushed_cons` is the step, and `getElem?_foldr_shiftAll` carries it through a
  batch, with no condition on the owners.

  What two offsets make of the same insertions is then compared insertion by insertion
  (`pushed_lt`, `pushed_le`, `pushed_lt_pushed`). The nodes after an admissible batch, with the text at
  the end of the file, are `Tree.pushedNode` of the old ones (`Sound.getElem?_addMarkers`).
-/

namespace HotReload

namespace Marking

/-! ## The length of some insertions -/

/-- The length of the text that an insertion puts in. -/
def Insertion.bytes (ins : Insertion) : Nat := Text.byteLength ins.text.toList

/-- The length of the text that some insertions put in. -/
def room : List Insertion → Nat
  | [] => 0
  | ins :: l => ins.bytes + room l

variable {l l' : List Insertion} {ins : Insertion} {f g : Insertion → Prop} [DecidablePred f]
  [DecidablePred g]

@[simp] theorem room_nil : room [] = 0 := rfl

@[simp] theorem room_cons (ins : Insertion) (l : List Insertion) :
    room (ins :: l) = ins.bytes + room l := rfl

theorem room_append (l l' : List Insertion) : room (l ++ l') = room l + room l' := by
  induction l with
  | nil => exact (Nat.zero_add _).symm
  | cons ins l ih => rw [List.cons_append, room_cons, ih, room_cons, Nat.add_assoc]

theorem room_perm (h : l.Perm l') : room l = room l' := by
  induction h with
  | nil => rfl
  | cons ins _ ih => rw [room_cons, room_cons, ih]
  | swap a b l => exact Nat.add_left_comm _ _ _
  | trans _ _ ih ih' => exact ih.trans ih'

/-- Some of the insertions, and then all that are as well others. -/
theorem room_filter_add (h : ∀ ins ∈ l, f ins → g ins) :
    room (l.filter g) = room (l.filter f) + room (l.filter fun ins => g ins ∧ ¬f ins) := by
  induction l with
  | nil => rfl
  | cons ins l ih =>
    have hins := h ins List.mem_cons_self
    have ih := ih fun i hi => h i (List.mem_cons_of_mem _ hi)
    by_cases hf : f ins
    · simp only [List.filter_cons, hf, hins hf, decide_true, if_true, not_true_eq_false, and_false,
        decide_false, Bool.false_eq_true, if_false, room_cons]
      omega
    · by_cases hg : g ins
      · simp only [List.filter_cons, hf, hg, decide_true, if_true, not_false_eq_true, and_self,
          decide_false, Bool.false_eq_true, if_false, room_cons]
        omega
      · simp only [List.filter_cons, hf, hg, decide_false, Bool.false_eq_true, if_false, false_and]
        exact ih

theorem room_filter_le (h : ∀ ins ∈ l, f ins → g ins) :
    room (l.filter f) ≤ room (l.filter g) := by
  rw [room_filter_add h]
  exact Nat.le_add_right _ _

theorem room_filter_le_room : room (l.filter f) ≤ room l := by
  have hle : room (l.filter f) ≤ room (l.filter fun _ => True) := room_filter_le fun _ _ _ => trivial
  rwa [List.filter_eq_self.2 fun _ _ => decide_eq_true trivial] at hle

theorem bytes_le_room (h : ins ∈ l) : ins.bytes ≤ room l := by
  obtain ⟨a, b, rfl⟩ := List.append_of_mem h
  rw [room_append, room_cons]
  omega

/-! ## Where offsets go -/

/-- One insertion stands in front of another: it does so in the text, or they stand at one offset and
its owner is the outer one. -/
def Insertion.Before (u v : Insertion) : Prop :=
  u.position < v.position ∨ u.position = v.position ∧ u.owner < v.owner

instance (u v : Insertion) : Decidable (u.Before v) := inferInstanceAs (Decidable (_ ∨ _))

/-- There is one way to put insertions in order. -/
theorem eq_of_perm {l l' : List Insertion} (h : l.Perm l') (hl : l.Pairwise Insertion.Before)
    (hl' : l'.Pairwise Insertion.Before) : l = l' := by
  apply List.Perm.eq_of_pairwise _ hl hl' h
  intro a b _ _ hab hba
  unfold Insertion.Before at hab hba
  omega

/-- Insertions in order are determined by what they are. -/
theorem eq_of_mem_iff {l l' : List Insertion} (hl : l.Pairwise Insertion.Before)
    (hl' : l'.Pairwise Insertion.Before) (h : ∀ ins, ins ∈ l ↔ ins ∈ l') : l = l' := by
  have hnodup : ∀ {l : List Insertion}, l.Pairwise Insertion.Before → l.Nodup := by
    intro l hl
    apply hl.imp
    rintro a _ hlt rfl
    unfold Insertion.Before at hlt
    omega
  exact eq_of_perm ((List.perm_ext_iff_of_nodup (hnodup hl) (hnodup hl')).2 h) hl hl'

/-- An offset ends up behind an insertion: it lies behind it, or at it and this insertion or a later
one there moves it. -/
def Passes (l : List Insertion) (moves : Nat → Bool) (p : Nat) (ins : Insertion) : Prop :=
  ins.position < p ∨
    ins.position = p ∧ ∃ w ∈ l, w.position = p ∧ ins.owner ≤ w.owner ∧ moves w.owner = true

instance (l : List Insertion) (moves : Nat → Bool) (p : Nat) : DecidablePred (Passes l moves p) :=
  fun _ => inferInstanceAs (Decidable (_ ∨ _ ∧ _))

/-- Where some insertions move an offset. -/
def pushed (l : List Insertion) (moves : Nat → Bool) (p : Nat) : Nat :=
  p + room (l.filter (Passes l moves p))

variable {moves moves' : Nat → Bool} {p q : Nat}

theorem pushed_eq_self (h : ∀ ins ∈ l, ¬Passes l moves p ins) : pushed l moves p = p := by
  unfold pushed
  rw [List.filter_eq_nil_iff.2 fun ins hins => by simpa using h ins hins, room_nil, Nat.add_zero]

theorem pushed_eq_add (h : ∀ ins ∈ l, Passes l moves p ins) : pushed l moves p = p + room l := by
  unfold pushed
  rw [List.filter_eq_self.2 fun ins hins => decide_eq_true (h ins hins)]

theorem pushed_le_add : pushed l moves p ≤ p + room l :=
  Nat.add_le_add_left room_filter_le_room p

/-- Offsets keep their order, whatever moves them. -/
theorem pushed_lt (h : p < q) : pushed l moves p < pushed l moves' q := by
  have hpass : ∀ ins ∈ l, Passes l moves p ins → Passes l moves' q ins := by
    intro ins _ hp
    unfold Passes at hp
    exact Or.inl (by omega)
  exact Nat.add_lt_add_of_lt_of_le h (room_filter_le hpass)

theorem passes_mono (hmoves : ∀ w ∈ l, w.position = p → moves w.owner = true →
    moves' w.owner = true) (h : Passes l moves p ins) : Passes l moves' p ins := by
  rcases h with h | ⟨h, w, hw, hp, hle, hm⟩
  · exact Or.inl h
  · exact Or.inr ⟨h, w, hw, hp, hle, hmoves w hw hp hm⟩

/-- Of two offsets, the one behind stays behind if at a common place it moves with all that the other
moves with. -/
theorem pushed_le (h : p ≤ q) (hmoves : ∀ w ∈ l, p = q → w.position = p → moves w.owner = true →
    moves' w.owner = true) : pushed l moves p ≤ pushed l moves' q := by
  rcases Nat.lt_or_eq_of_le h with hlt | rfl
  · exact Nat.le_of_lt (pushed_lt hlt)
  · exact Nat.add_le_add_left
      (room_filter_le fun ins _ => passes_mono fun w hw => hmoves w hw rfl) p

/-- An offset comes behind another one at its place with the text of an insertion there that moves it,
if neither this insertion nor a later one moves the other. -/
theorem pushed_lt_pushed {w : Insertion} (hw : w ∈ l) (hp : w.position = p) (hbytes : 0 < w.bytes)
    (hw' : moves' w.owner = true)
    (hnone : ∀ v ∈ l, v.position = p → w.owner ≤ v.owner → moves v.owner = false)
    (hmoves : ∀ v ∈ l, v.position = p → moves v.owner = true → moves' v.owner = true) :
    pushed l moves p < pushed l moves' p := by
  unfold pushed
  rw [room_filter_add fun ins _ => passes_mono hmoves]
  have hpasses : Passes l moves' p w ∧ ¬Passes l moves p w := by
    refine ⟨Or.inr ⟨hp, w, hw, hp, Nat.le_refl _, hw'⟩, ?_⟩
    rintro (hlt | ⟨-, v, hv, hvp, hle, hm⟩)
    · omega
    · rw [hnone v hv hvp hle] at hm
      exact Bool.false_ne_true hm
  have hmem : w ∈ l.filter fun ins => Passes l moves' p ins ∧ ¬Passes l moves p ins :=
    List.mem_filter.2 ⟨hw, by simpa using hpasses⟩
  have hle := bytes_le_room hmem
  omega

/-! ## One more insertion -/

theorem lt_pushed {w : Insertion} (hw : w ∈ l) (hbytes : 0 < w.bytes) (h : Passes l moves p w) :
    p < pushed l moves p := by
  have hmem : w ∈ l.filter (Passes l moves p) := List.mem_filter.2 ⟨hw, by simpa using h⟩
  have hle := bytes_le_room hmem
  unfold pushed
  omega

/-- An insertion in front of others is no later one for them. -/
theorem passes_cons_iff (hbehind : ∀ w ∈ l, ins.Before w) {u : Insertion} (hu : u ∈ l) :
    Passes (ins :: l) moves p u ↔ Passes l moves p u := by
  constructor
  · rintro (hlt | ⟨hup, w, hw, hwp, hle, hm⟩)
    · exact Or.inl hlt
    · rcases List.mem_cons.1 hw with rfl | hw
      · have hu' := hbehind u hu
        unfold Insertion.Before at hu'
        omega
      · exact Or.inr ⟨hup, w, hw, hwp, hle, hm⟩
  · rintro (hlt | ⟨hup, w, hw, hrest⟩)
    · exact Or.inl hlt
    · exact Or.inr ⟨hup, w, List.mem_cons_of_mem _ hw, hrest⟩

/-- What an offset passes that stands behind an insertion makes it pass the insertion as well. -/
theorem passes_of_behind {w : Insertion} (hbehind : ∀ w ∈ l, ins.Before w) (hw : w ∈ l)
    (h : Passes l moves p w) : Passes (ins :: l) moves p ins ∧ ins.position ≤ p := by
  have hins := hbehind w hw
  unfold Insertion.Before at hins
  rcases h with hwp | ⟨hwp, v, hv, hvp, hle, hm⟩
  · exact ⟨Or.inl (by omega), by omega⟩
  · refine ⟨?_, by omega⟩
    rcases Nat.lt_or_eq_of_le (show ins.position ≤ p by omega) with hlt | heq
    · exact Or.inl hlt
    · exact Or.inr ⟨heq, v, List.mem_cons_of_mem _ hv, hvp, by omega, hm⟩

/-- In front of others, an insertion moves the offset that they have moved exactly if the old offset
ends up behind it. -/
theorem passes_iff_moved (hbehind : ∀ w ∈ l, ins.Before w) (hbytes : ∀ w ∈ l, 0 < w.bytes) :
    Passes (ins :: l) moves p ins ↔ ins.position < pushed l moves p ∨
      ins.position = pushed l moves p ∧ moves ins.owner = true := by
  by_cases hany : ∃ w ∈ l, Passes l moves p w
  · obtain ⟨w, hw, hpass⟩ := hany
    obtain ⟨hins, hle⟩ := passes_of_behind hbehind hw hpass
    exact ⟨fun _ => Or.inl (Nat.lt_of_le_of_lt hle (lt_pushed hw (hbytes w hw) hpass)), fun _ => hins⟩
  · rw [pushed_eq_self fun w hw hpass => hany ⟨w, hw, hpass⟩]
    constructor
    · rintro (hlt | ⟨heq, w, hw, hwp, hle, hm⟩)
      · exact Or.inl hlt
      · rcases List.mem_cons.1 hw with rfl | hw
        · exact Or.inr ⟨heq, hm⟩
        · exact absurd ⟨w, hw, Or.inr ⟨hwp, w, hw, hwp, Nat.le_refl _, hm⟩⟩ hany
    · rintro (hlt | ⟨heq, hm⟩)
      · exact Or.inl hlt
      · exact Or.inr ⟨heq, ins, List.mem_cons_self, heq, Nat.le_refl _, hm⟩

theorem pushed_cons (hsorted : (ins :: l).Pairwise Insertion.Before)
    (hbytes : ∀ w ∈ l, 0 < w.bytes)
    (h : ins.Moves (moves ins.owner = true) (pushed l moves p) q) :
    q = pushed (ins :: l) moves p := by
  obtain ⟨hbehind, -⟩ := List.pairwise_cons.1 hsorted
  have hothers : l.filter (fun u => decide (Passes (ins :: l) moves p u)) =
      l.filter fun u => decide (Passes l moves p u) :=
    List.filter_congr fun u hu => decide_eq_decide.2 (passes_cons_iff hbehind hu)
  have hmoved : Passes (ins :: l) moves p ins ↔ ins.position < pushed l moves p ∨
      ins.position = pushed l moves p ∧ moves ins.owner = true := passes_iff_moved hbehind hbytes
  unfold pushed
  by_cases hpass : Passes (ins :: l) moves p ins
  · rw [List.filter_cons_of_pos (by simpa using hpass), hothers, room_cons, Nat.add_comm ins.bytes,
      ← Nat.add_assoc]
    rcases hmoved.1 hpass with hlt | ⟨heq, hm⟩
    · exact h.eq_add (Nat.le_of_lt hlt) fun heq => absurd heq.symm (Nat.ne_of_lt hlt)
    · exact h.eq_add (Nat.le_of_eq heq) fun _ => hm
  · rw [List.filter_cons_of_neg (by simpa using hpass), hothers]
    rw [hmoved, not_or, not_and] at hpass
    exact h.eq_self (Nat.not_lt.1 hpass.1) fun heq => hpass.2 heq.symm

/-! ## An arena after a batch -/

variable {nodes nodes' : Array Node} {i owner bound : Nat} {n n' : Node}

/-- A start right at an insertion moves strictly inside the owner. -/
def startMoves (nodes : Array Node) (i owner : Nat) : Bool :=
  covers nodes owner i && decide (i ≠ owner)

/-- An end right at an insertion moves inside the owner and around it. -/
def stopMoves (nodes : Array Node) (i owner : Nat) : Bool :=
  startMoves nodes i owner || covers nodes i owner

theorem covers_eq_true_iff {i j : Nat} :
    covers nodes i j = true ↔ i ≤ j ∧ ∃ n, nodes[i]? = some n ∧ j < n.subtreeEnd := by
  unfold covers
  cases nodes[i]? <;> simp

theorem startMoves_iff {i owner : Nat} : startMoves nodes i owner = true ↔
    owner < i ∧ ∃ n, nodes[owner]? = some n ∧ i < n.subtreeEnd := by
  unfold startMoves
  rw [Bool.and_eq_true, covers_eq_true_iff, decide_eq_true_eq]
  constructor
  · rintro ⟨⟨hle, h⟩, hne⟩
    exact ⟨by omega, h⟩
  · rintro ⟨hlt, h⟩
    exact ⟨⟨Nat.le_of_lt hlt, h⟩, by omega⟩

/-- A node after a batch of texts in front of nodes. -/
def pushNode (nodes : Array Node) (l : List Insertion) (i : Nat) (n : Node) : Node :=
  { n with
    span := ⟨pushed l (startMoves nodes i) n.span.start, pushed l (stopMoves nodes i) n.span.stop⟩
    fullSpan := ⟨pushed l (startMoves nodes i) n.fullSpan.start,
      pushed l (stopMoves nodes i) n.fullSpan.stop⟩ }

theorem covers_congr (h : ∀ k : Nat, nodes'[k]?.map Node.subtreeEnd = nodes[k]?.map Node.subtreeEnd)
    (i j : Nat) : covers nodes' i j = covers nodes i j := by
  have hany : ∀ o : Option Node, (o.any fun n => decide (j < n.subtreeEnd)) =
      (o.map Node.subtreeEnd).any fun stop => decide (j < stop) := by
    intro o
    cases o <;> rfl
  unfold covers
  rw [hany, hany, h]

theorem startMoves_congr
    (h : ∀ k : Nat, nodes'[k]?.map Node.subtreeEnd = nodes[k]?.map Node.subtreeEnd) :
    startMoves nodes' = startMoves nodes := by
  funext i owner
  rw [startMoves, covers_congr h, startMoves]

theorem stopMoves_congr
    (h : ∀ k : Nat, nodes'[k]?.map Node.subtreeEnd = nodes[k]?.map Node.subtreeEnd) :
    stopMoves nodes' = stopMoves nodes := by
  funext i owner
  rw [stopMoves, startMoves_congr h, covers_congr h, stopMoves]

theorem shiftNode_before (hbefore : ins.placement = .before) :
    shiftNode nodes ins i n =
      let shift := Shift.insertion ins.position ins.length
      { n with
        span := ⟨shift.adjust n.span.start (!startMoves nodes i ins.owner),
          shift.adjust n.span.stop (!stopMoves nodes i ins.owner)⟩
        fullSpan := ⟨shift.adjust n.fullSpan.start (!startMoves nodes i ins.owner),
          shift.adjust n.fullSpan.stop (!stopMoves nodes i ins.owner)⟩ } := by
  unfold shiftNode stopMoves startMoves
  simp only [hbefore, reduceCtorEq, false_and, if_false]

theorem getElem?_shiftAll_eq (nodes : Array Node) (ins : Insertion) (i : Nat) :
    (shiftAll nodes ins)[i]? = nodes[i]?.map (shiftNode nodes ins i) := by
  cases hn : nodes[i]? with
  | none =>
    rw [Array.getElem?_eq_none_iff] at hn
    rw [Option.map_none, Array.getElem?_eq_none_iff]
    simpa [shiftAll] using hn
  | some n => exact getElem?_shiftAll_of hn

theorem size_foldr_shiftAll (l : List Insertion) (nodes : Array Node) :
    (l.foldr (fun ins arena => shiftAll arena ins) nodes).size = nodes.size := by
  induction l with
  | nil => rfl
  | cons ins l ih =>
    rw [List.foldr_cons, shiftAll, Array.size_mapFinIdx, ih]

/-- Texts in front of nodes move every offset where they should. -/
theorem getElem?_foldr_shiftAll (hsorted : l.Pairwise Insertion.Before)
    (hbefore : ∀ ins ∈ l, ins.placement = .before) (hbytes : ∀ ins ∈ l, 0 < ins.bytes)
    (hbound : ∀ {i : Nat} {n : Node}, nodes[i]? = some n → n.span.start ≤ bound ∧
      n.span.stop ≤ bound ∧ n.fullSpan.start ≤ bound ∧ n.fullSpan.stop ≤ bound)
    (hsize : bound + room l ≤ Text.maxOffset) (i : Nat) :
    (l.foldr (fun ins arena => shiftAll arena ins) nodes)[i]? =
      nodes[i]?.map (pushNode nodes l i) := by
  induction l generalizing i with
  | nil =>
    rw [List.foldr_nil]
    cases nodes[i]? <;> rfl
  | cons ins l ih =>
    rw [room_cons] at hsize
    have ih := ih (List.pairwise_cons.1 hsorted).2
      (fun w hw => hbefore w (List.mem_cons_of_mem _ hw))
      (fun w hw => hbytes w (List.mem_cons_of_mem _ hw)) (by omega)
    have hends : ∀ k : Nat, (l.foldr (fun ins arena => shiftAll arena ins) nodes)[k]?.map
        Node.subtreeEnd = nodes[k]?.map Node.subtreeEnd := by
      intro k
      rw [ih, Option.map_map]
      rfl
    have hstep : ∀ (moves : Nat → Bool) {p : Nat}, p ≤ bound →
        (Shift.insertion ins.position ins.length).adjust (pushed l moves p) (!moves ins.owner) =
          pushed (ins :: l) moves p := by
      intro moves p hp
      have hle : pushed l moves p ≤ p + room l := pushed_le_add
      exact pushed_cons hsorted (fun w hw => hbytes w (List.mem_cons_of_mem _ hw))
        (moves_adjust (moves ins.owner) (by unfold Insertion.bytes at hsize; omega))
    rw [List.foldr_cons, getElem?_shiftAll_eq, ih]
    cases hn : nodes[i]? with
    | none => rfl
    | some n =>
      obtain ⟨hstart, hstop, hfullStart, hfullStop⟩ := hbound hn
      rw [Option.map_some, Option.map_some, shiftNode_before (hbefore ins List.mem_cons_self),
        startMoves_congr hends, stopMoves_congr hends]
      simp only [pushNode, hstep _ hstart, hstep _ hstop, hstep _ hfullStart, hstep _ hfullStop]
      rfl

/-! ## The texts in front of nodes -/

variable {t : Tree} {requests : List Request}

/-- What a batch puts in front of nodes, in order. -/
def members (t : Tree) (requests : List Request) : List Insertion :=
  (insertions t requests).filter fun ins => ins.placement = .before

theorem filter_insertionsOf (text : String) (id : Nat) (n : Node) (added : List Marker) :
    (insertionsOf text id n added).filter (fun ins => ins.placement = .before) =
      if (added.filter (!·.isAssemblyLevel)).isEmpty then []
      else [⟨id, n.span.start, memberText (added.filter (!·.isAssemblyLevel)), .before⟩] := by
  unfold insertionsOf
  rw [List.partition_eq_filter_filter, List.filter_append, Function.comp_def]
  cases (added.filter (!·.isAssemblyLevel)) <;> cases (added.filter (·.isAssemblyLevel)) <;> rfl

theorem members_perm : (members t requests).Perm
    ((unsorted t requests).filter fun ins => ins.placement = .before) :=
  insertions_perm.filter _

theorem mem_members_iff : ins ∈ members t requests ↔
    ∃ id : t.Id, (t.added requests id).filter (!·.isAssemblyLevel) ≠ [] ∧
      ins = ⟨id.1, (t.node id).span.start,
        memberText ((t.added requests id).filter (!·.isAssemblyLevel)), .before⟩ := by
  rw [members_perm.mem_iff, unsorted_eq, List.filter_flatMap, List.mem_flatMap]
  refine exists_congr fun id => ?_
  rw [filter_insertionsOf]
  cases (t.added requests id).filter (!·.isAssemblyLevel) <;> simp

theorem members_pairwise : (members t requests).Pairwise Insertion.Before := by
  apply ((insertions_sorted.and insertions_distinct).filter _).imp_of_mem
  intro a b ha hb hab
  have ha' := of_decide_eq_true (List.mem_filter.1 ha).2
  have hb' := of_decide_eq_true (List.mem_filter.1 hb).2
  obtain ⟨hle, hne⟩ := hab
  rw [ha', hb'] at hne
  rw [Insertion.le_iff] at hle
  have howner := hne.resolve_right fun h => h rfl
  unfold Insertion.Before
  omega

theorem members_sorted : (members t requests).Pairwise fun a b => a.position ≤ b.position :=
  insertions_position_le.filter _

theorem bytes_pos : ∀ ins ∈ members t requests, 0 < ins.bytes := by
  intro ins hins
  obtain ⟨id, -, rfl⟩ := mem_members_iff.1 hins
  unfold Insertion.bytes memberText
  rw [String.toList_append, Text.byteLength_append]
  exact Nat.lt_of_lt_of_le (by decide) (Nat.le_add_left _ _)

theorem placement_members : ∀ ins ∈ members t requests, ins.placement = .before :=
  fun _ hins => of_decide_eq_true (List.mem_filter.1 hins).2

/-- The texts in front of nodes make the marks of the batch. -/
theorem marks_members (p : Nat) :
    Insertion.marks (members t requests) p = t.marksAt requests t.ids p := by
  unfold members
  rw [marks_insertions, unsorted_eq, List.filter_flatMap]
  unfold Insertion.marks Tree.marksAt
  rw [List.flatMap_assoc]
  apply List.flatMap_congr
  intro id _
  rw [filter_insertionsOf]
  exact marks_unless _ _ p

theorem markedText_eq (t : Tree) (requests : List Request) : t.markedText requests =
    Text.weave (Insertion.marks (members t requests)) 0 t.text.toList ++
      t.endMarks requests t.ids := by
  rw [show Insertion.marks (members t requests) = t.marksAt requests t.ids from funext marks_members]
  rfl

/-- A text grows by all that is woven in. -/
theorem byteLength_weave_marks {offset : Nat} {cs : List Char}
    (hsorted : l.Pairwise fun a b => a.position ≤ b.position)
    (hcuts : ∀ ins ∈ l, ∃ a b, cs = a ++ b ∧ offset + Text.byteLength a = ins.position) :
    Text.byteLength (Text.weave (Insertion.marks l) offset cs) = Text.byteLength cs + room l := by
  induction l generalizing offset cs with
  | nil =>
    rw [Insertion.weave_marks_nil]
    rfl
  | cons ins l ih =>
    obtain ⟨hle, hrest⟩ := List.pairwise_cons.1 hsorted
    obtain ⟨a, b, rfl, hposition⟩ := hcuts ins List.mem_cons_self
    have hcuts' := Insertion.cuts_behind hposition hle hcuts
    have ih := ih hrest hcuts'
    rw [Insertion.weave_marks_cons hposition hle, Text.byteLength_append, Text.byteLength_append, ih,
      Text.byteLength_append, room_cons, Insertion.bytes]
    omega

/-! ## An admissible batch -/

/-- A batch ends with the text at the end of the file, if there is one. -/
theorem Batch.eq_append {cs : List Char} (hbatch : Batch nodes cs l) (hlaid : Laid nodes cs) :
    ∃ back, l = l.filter (fun ins => ins.placement = .before) ++ back ∧
      (back = [] ∨ ∃ last, back = [last] ∧ last.placement = .after ∧ last.owner = 0 ∧
        last.position = Text.byteLength cs) := by
  induction l with
  | nil => exact ⟨[], rfl, Or.inl rfl⟩
  | cons ins l ih =>
    cases hbatch.placed ins List.mem_cons_self with
    | before placement getElem? position nonempty =>
      obtain ⟨back, hl, hback⟩ := ih hbatch.tail
      refine ⟨back, ?_, hback⟩
      rw [List.filter_cons_of_pos (by simpa using placement), List.cons_append, ← hl]
    | after placement owner position =>
      obtain rfl := hbatch.eq_nil_of_after hlaid placement owner position
      refine ⟨[ins], ?_, Or.inr ⟨ins, rfl, placement, owner, position⟩⟩
      rw [List.filter_cons_of_neg (by simp [placement])]
      rfl

end Marking

namespace Tree

open Marking

variable {t t' : Tree} {requests : List Request} {i : Nat} {n : Node}

/-- A node of a tree after an admissible batch. A node that gains markers about the program reaches to
the end of the file. -/
def pushedNode (t : Tree) (requests : List Request) (i : Nat) (n : Node) : Node :=
  let added := additions requests i n.markers
  let pushed := pushNode t.nodes (members t requests) i n
  let reach (stop : Nat) :=
    if added.any (·.isAssemblyLevel) then Text.byteLength (t.markedText requests) else stop
  { n with
    span := ⟨pushed.span.start, reach pushed.span.stop⟩
    fullSpan := ⟨pushed.fullSpan.start, reach pushed.fullSpan.stop⟩
    markers := n.markers ++ added }

theorem markers_pushedNode : (t.pushedNode requests i n).markers =
    n.markers ++ additions requests i n.markers := rfl

/-- A node that gains nothing goes where the texts in front of nodes move it. -/
theorem spans_pushedNode (h : additions requests i n.markers = []) :
    (t.pushedNode requests i n).span = (pushNode t.nodes (members t requests) i n).span ∧
      (t.pushedNode requests i n).fullSpan =
        (pushNode t.nodes (members t requests) i n).fullSpan := by
  unfold pushedNode
  rw [h]
  exact ⟨rfl, rfl⟩

/-- Markers about members are for nodes with significant text. -/
theorem Sound.nonempty (hs : t.Sound) (hadm : t.Admits requests) {id : t.Id}
    (hne : (t.added requests id).filter (!·.isAssemblyLevel) ≠ []) :
    (t.node id).span.start < (t.node id).span.stop := by
  obtain ⟨m, hm, hmember⟩ := exists_request hne
  obtain ⟨id', hid, hspan⟩ := hadm.member _ hm (by simpa using hmember)
  obtain rfl : id' = id := Fin.ext hid
  have hle := (hs.laid.within (t.getElem?_node id')).2.1
  exact Nat.lt_of_le_of_ne hle (of_decide_eq_false hspan)

/-- Texts in front of nodes stand in front of the end of the file. -/
theorem Sound.position_lt (hs : t.Sound) (hadm : t.Admits requests) :
    ∀ ins ∈ members t requests, ins.position < Text.byteLength t.text.toList := by
  intro ins hins
  obtain ⟨id, hne, rfl⟩ := mem_members_iff.1 hins
  have hlt := hs.nonempty hadm hne
  have hstop := (hs.laid.cuts (t.getElem?_node id)).2.1.le_byteLength
  exact Nat.lt_of_lt_of_le hlt hstop

theorem Sound.cuts_insertions (hs : t.Sound) : ∀ ins ∈ insertions t requests,
    ∃ a b, t.text.toList = a ++ b ∧ 0 + Text.byteLength a = ins.position := by
  intro ins hins
  obtain ⟨a, b, heq, ha⟩ := hs.isCut_position ins hins
  exact ⟨a, b, heq, (Nat.zero_add _).trans ha⟩

theorem Sound.cuts_members (hs : t.Sound) : ∀ ins ∈ members t requests,
    ∃ a b, t.text.toList = a ++ b ∧ 0 + Text.byteLength a = ins.position :=
  fun ins hins => hs.cuts_insertions ins (List.mem_filter.1 hins).1

theorem Sound.byteLength_markedText (hs : t.Sound) (hadm : t.Admits requests) :
    Text.byteLength (t.markedText requests) =
      Text.byteLength t.text.toList + room (insertions t requests) := by
  rw [← hs.weave_insertions hadm]
  exact byteLength_weave_marks insertions_position_le hs.cuts_insertions

/-- Texts in front of nodes move the spans of every arena that has the subtrees of the tree. -/
theorem getElem?_foldr_members {base : Array Node} {cs : List Char} (hlaid : Laid base cs)
    (hends : ∀ k : Nat, base[k]?.map Node.subtreeEnd = t.nodes[k]?.map Node.subtreeEnd)
    (hsize : Text.byteLength cs + room (members t requests) ≤ Text.maxOffset) (i : Nat) :
    ((members t requests).foldr (fun ins arena => shiftAll arena ins) base)[i]? =
      base[i]?.map (pushNode t.nodes (members t requests) i) := by
  have hnode : pushNode base (members t requests) i = pushNode t.nodes (members t requests) i := by
    funext n
    rw [pushNode, startMoves_congr hends, stopMoves_congr hends, pushNode]
  rw [← hnode]
  refine getElem?_foldr_shiftAll members_pairwise placement_members bytes_pos ?_ hsize i
  intro k m hm
  obtain ⟨hstart, hspan, hstop⟩ := hlaid.within hm
  have hle := (hlaid.cuts hm).2.2.2.le_byteLength
  omega

theorem subtreeEnd_attach (k : Nat) : (attach t requests).nodes[k]?.map Node.subtreeEnd =
    t.nodes[k]?.map Node.subtreeEnd := by
  rw [getElem?_attach, Option.map_map]
  rfl

/-- A node gains markers about the program if the text behind all others is its own. -/
theorem any_back {back : List Insertion} (hl : insertions t requests = members t requests ++ back)
    (id : t.Id) : (additions requests id.1 (t.node id).markers).any (·.isAssemblyLevel) =
      back.any fun ins => ins.placement = .after ∧ ins.owner = id.1 := by
  have hbefore : ((members t requests).any fun ins => ins.placement = .after ∧ ins.owner = id.1) =
      false := by
    rw [List.any_eq_false]
    intro ins hins
    simp [placement_members ins hins]
  have hafter : ((insertions t requests).any fun ins => ins.placement = .after ∧ ins.owner = id.1) =
      (t.added requests id).any (·.isAssemblyLevel) := any_after id
  rw [hl, List.any_append, hbefore, Bool.false_or] at hafter
  exact hafter.symm

section Admissible

variable (hs : t.Sound) (hadm : t.Admits requests) (h : t.addMarkers requests = .ok t')

include hs hadm h

/-- A batch with nothing at the end of the file. -/
theorem Sound.getElem?_of_members (hl : insertions t requests = members t requests ++ [])
    (id : t.Id) : t'.nodes[id.1]? = some (t.pushedNode requests id.1 (t.node id)) := by
  have hnone : (additions requests id.1 (t.node id).markers).any (·.isAssemblyLevel) = false :=
    any_back hl id
  have hlength := hs.byteLength_markedText hadm
  have hsize := hadm.size
  rw [hl, List.append_nil] at hlength
  rw [(nodes_addMarkers h).1, hl, List.append_nil,
    getElem?_foldr_members (laid_attach hs.laid) subtreeEnd_attach (by omega),
    getElem?_attach_of (t.getElem?_node id)]
  simp only [Option.map_some, pushNode, pushedNode, hnone, Bool.false_eq_true, if_false]

/-- A batch with text at the end of the file, which is written first. -/
theorem Sound.getElem?_of_last {last : Insertion}
    (hl : insertions t requests = members t requests ++ [last]) (hplacement : last.placement = .after)
    (howner : last.owner = 0) (hposition : last.position = Text.byteLength t.text.toList) (id : t.Id) :
    t'.nodes[id.1]? = some (t.pushedNode requests id.1 (t.node id)) := by
  have hlaid : Laid (attach t requests).nodes t.text.toList := laid_attach hs.laid
  have hnested : Nested (attach t requests).nodes := nested_attach hs.nested
  have hattach : (attach t requests).nodes[id.1]? = some { t.node id with
      markers := (t.node id).markers ++ additions requests id.1 (t.node id).markers } :=
    getElem?_attach_of (t.getElem?_node id)
  have hany := any_back hl id
  have hsize := hadm.size
  have hlength : Text.byteLength (t.text.toList ++ last.text.toList) + room (members t requests) =
      Text.byteLength (t.markedText requests) := by
    rw [hs.byteLength_markedText hadm, hl, room_append, Text.byteLength_append, room_cons, room_nil,
      Insertion.bytes]
    omega
  have hend : AtEnd last t.text.toList := ⟨hplacement, howner, hposition, by omega⟩
  have hends : ∀ k : Nat, (shiftAll (attach t requests).nodes last)[k]?.map Node.subtreeEnd =
      t.nodes[k]?.map Node.subtreeEnd := by
    intro k
    rw [getElem?_shiftAll_eq, Option.map_map, ← subtreeEnd_attach]
    rfl
  rw [(nodes_addMarkers h).1, hl, List.foldr_append, List.foldr_cons, List.foldr_nil,
    getElem?_foldr_members (hend.laid hlaid hnested) hends (by omega), getElem?_shiftAll_of hattach,
    Option.map_some]
  by_cases hid : id.1 = 0
  · -- the root reaches to the end of the text, and all that is put in is in front of it
    have hall : (additions requests id.1 (t.node id).markers).any (·.isAssemblyLevel) = true := by
      rw [hany]
      simp [hplacement, howner, hid]
    have hpass : ∀ ins ∈ members t requests, Passes (members t requests) (stopMoves t.nodes id.1)
        (Text.byteLength (t.text.toList ++ last.text.toList)) ins := by
      intro ins hins
      have := hs.position_lt hadm ins hins
      exact Or.inl (by rw [Text.byteLength_append]; omega)
    have hroot : (t.node id).fullSpan.start = 0 := by
      rw [hs.laid.root (hid ▸ t.getElem?_node id)]
    have hshift := hend.shiftNode_root hlaid hnested (hid ▸ hattach)
    rw [hid] at hall hpass ⊢
    rw [hshift]
    simp only [pushNode, pushedNode, hall, if_true, pushed_eq_add hpass, hlength, hroot]
  · have hnone : (additions requests id.1 (t.node id).markers).any (·.isAssemblyLevel) = false := by
      rw [hany]
      simp [howner, Ne.symm hid]
    rw [hend.shiftNode_eq hlaid hattach hid]
    simp only [pushNode, pushedNode, hnone, Bool.false_eq_true, if_false]

/-- The nodes that an admissible batch leaves, read off the old tree. -/
theorem Sound.getElem?_addMarkers (id : t.Id) :
    t'.nodes[id.1]? = some (t.pushedNode requests id.1 (t.node id)) := by
  obtain ⟨back, hl, hback⟩ := (batch_insertions hs.laid hs.size hadm).eq_append hs.laid
  rcases hback with rfl | ⟨last, rfl, hplacement, howner, hposition⟩
  · exact hs.getElem?_of_members hadm h hl id
  · exact hs.getElem?_of_last hadm h hl hplacement howner hposition id

end Admissible

end Tree

end HotReload
