import HotReload.Proofs.Marking.Pushed

/-
  Two batches about different nodes, and the batch that has both (`Merges`). What the one writes in
  front of nodes and what the other does are the two parts of what both write, each in order
  (`Merges.filter_members`).

  Text. The insertions of one part go into a text that has those of the other part already, so each
  moves by what stands in front of it (`Insertion.behind`); then both parts make the text that they
  make at once (`weave_parts`, by induction on the insertions of both).

  Offsets. At one offset, the owners of insertions stand below one another (`Stacked`), and what moves
  with the text of an inner owner moves with that of an outer one (`Rising`). So an insertion moves an
  offset or not, whether others have been written before or not (`moves_behind_iff`), and offsets move
  twice as they move at once (`pushed_parts`).
-/

namespace HotReload

namespace Marking

/-! ## Batches about different nodes -/

/-- One batch asks for all that two batches about different nodes ask for, in order for each node. -/
structure Merges (first second both : List Request) : Prop where
  apart : ∀ a ∈ first, ∀ b ∈ second, a.1 ≠ b.1
  requests : ∀ id, both.filter (·.1 = id) = first.filter (·.1 = id) ++ second.filter (·.1 = id)

variable {first second both requests : List Request} {id : Nat}

/-- The node is in the batch. -/
def owns (requests : List Request) (id : Nat) : Bool := requests.any (·.1 = id)

theorem filter_eq_nil_of_not_owns (h : owns requests id = false) :
    requests.filter (·.1 = id) = [] := by
  rw [List.filter_eq_nil_iff]
  intro r hr hid
  exact Bool.false_ne_true (h.symm.trans (List.any_eq_true.2 ⟨r, hr, hid⟩))

theorem additions_filter (present : List Marker) :
    additions (requests.filter (·.1 = id)) id present = additions requests id present := by
  rw [additions_eq, additions_eq, asked, List.filter_filter]
  simp only [Bool.and_self, asked]

theorem additions_of_not_owns (h : owns requests id = false) (present : List Marker) :
    additions requests id present = [] := by
  rw [← additions_filter, filter_eq_nil_of_not_owns h]
  rfl

namespace Merges

variable (h : Merges first second both)

include h

theorem owns_apart (hid : owns first id = true) : owns second id = false := by
  obtain ⟨a, ha, hia⟩ := List.any_eq_true.1 hid
  unfold owns
  rw [List.any_eq_false]
  intro b hb hib
  exact h.apart a ha b hb ((of_decide_eq_true hia).trans (of_decide_eq_true hib).symm)

theorem symm : Merges second first both where
  apart b hb a ha := (h.apart a ha b hb).symm
  requests id := by
    rw [h.requests]
    cases hid : owns first id with
    | true => rw [filter_eq_nil_of_not_owns (h.owns_apart hid), List.append_nil, List.nil_append]
    | false => rw [filter_eq_nil_of_not_owns hid, List.append_nil, List.nil_append]

/-- A node of the first batch gets from both what it gets from the first. -/
theorem additions_of_owns (hid : owns first id = true) (present : List Marker) :
    additions both id present = additions first id present := by
  rw [← additions_filter, h.requests, filter_eq_nil_of_not_owns (h.owns_apart hid), List.append_nil,
    additions_filter]

/-- Any other node gets what it gets from the second. -/
theorem additions_of_not (hid : owns first id = false) (present : List Marker) :
    additions both id present = additions second id present := by
  rw [← additions_filter, h.requests, filter_eq_nil_of_not_owns hid, List.nil_append,
    additions_filter]

theorem mem_of_mem {r : Request} (hr : r ∈ first) : r ∈ both := by
  have hmem : r ∈ both.filter (·.1 = r.1) := by
    rw [h.requests]
    exact List.mem_append_left _ (List.mem_filter.2 ⟨hr, decide_eq_true rfl⟩)
  exact (List.mem_filter.1 hmem).1

/-- A batch has the texts of both batches in front of nodes. -/
theorem filter_unsorted (t : Tree) :
    (unsorted t both).filter (fun ins => owns first ins.owner) = unsorted t first ∧
      (unsorted t both).filter (fun ins => !owns first ins.owner) = unsorted t second := by
  rw [unsorted_eq, unsorted_eq, unsorted_eq, List.filter_flatMap, List.filter_flatMap]
  have howner : ∀ (id : t.Id) (p : Nat → Bool) (added : List Marker),
      (insertionsOf t.text id.1 (t.node id) added).filter (fun ins => p ins.owner) =
        if p id.1 then insertionsOf t.text id.1 (t.node id) added else [] := by
    intro id p added
    split
    · next hp =>
      exact List.filter_eq_self.2 fun ins hins => (congrArg p (mem_insertionsOf hins).1).trans hp
    · next hp =>
      exact List.filter_eq_nil_iff.2 fun ins hins => (mem_insertionsOf hins).1 ▸ hp
  constructor
  · apply List.flatMap_congr
    intro id _
    rw [howner id (owns first)]
    cases hid : owns first id.1 with
    | true => rw [if_pos rfl, Tree.added, h.additions_of_owns hid, Tree.added]
    | false => rw [if_neg Bool.false_ne_true, Tree.added, additions_of_not_owns hid]; rfl
  · apply List.flatMap_congr
    intro id _
    rw [howner id (fun id => !owns first id)]
    cases hid : owns first id.1 with
    | true =>
      rw [if_neg (by simp), Tree.added, additions_of_not_owns (h.owns_apart hid)]
      rfl
    | false => rw [if_pos (by simp), Tree.added, h.additions_of_not hid, Tree.added]

end Merges

/-- Every batch can be cut in two by its nodes. -/
theorem merges_filter (f : Nat → Bool) (requests : List Request) :
    Merges (requests.filter (f ·.1)) (requests.filter (!f ·.1)) requests where
  apart a ha b hb hab := by
    have ha' := (List.mem_filter.1 ha).2
    have hb' := (List.mem_filter.1 hb).2
    rw [← hab, ha'] at hb'
    exact Bool.false_ne_true hb'
  requests id := by
    have hpart : ∀ g : Nat → Bool, (requests.filter (g ·.1)).filter (·.1 = id) =
        if g id then requests.filter (·.1 = id) else [] := by
      intro g
      rw [List.filter_filter]
      cases hg : g id with
      | true =>
        refine List.filter_congr fun r _ => ?_
        by_cases hr : r.1 = id <;> simp [hr, hg]
      | false =>
        refine List.filter_eq_nil_iff.2 fun r _ => ?_
        by_cases hr : r.1 = id <;> simp [hr, hg]
    rw [hpart f, hpart fun id => !f id]
    cases f id <;> simp

/-- The texts of both batches in front of nodes, in order, are those of the one and of the other. -/
theorem Merges.filter_members (h : Merges first second both) (t : Tree) :
    (members t both).filter (fun ins => owns first ins.owner) = members t first ∧
      (members t both).filter (fun ins => !owns first ins.owner) = members t second := by
  obtain ⟨hfirst, hsecond⟩ := h.filter_unsorted t
  have hmembers : ∀ (requests : List Request) (p : Insertion → Bool),
      (unsorted t both).filter p = unsorted t requests →
        (members t both).filter p = members t requests := by
    intro requests p hp
    refine eq_of_perm ?_ (members_pairwise.filter _) members_pairwise
    refine (members_perm.filter p).trans (List.Perm.trans ?_ members_perm.symm)
    rw [← hp, List.filter_filter, List.filter_filter]
    refine List.Perm.of_eq (List.filter_congr fun ins _ => ?_)
    exact Bool.and_comm _ _
  exact ⟨hmembers _ _ hfirst, hmembers _ _ hsecond⟩

/-! ## Text put in between other text -/

/-- An insertion into a text that others have been written to already. -/
def Insertion.behind (v : Insertion) (written : List Insertion) (more : Nat) : Insertion :=
  { v with position := v.position + more + room (written.filter fun u => u.Before v) }

variable {l : List Insertion} {ins v : Insertion}

theorem room_map_behind (l written : List Insertion) (more : Nat) :
    room (l.map (·.behind written more)) = room l := by
  induction l with
  | nil => rfl
  | cons v l ih =>
    rw [List.map_cons, room_cons, room_cons, ih]
    rfl

theorem behind_cons (h : ins.Before v) (written : List Insertion) (more : Nat) :
    v.behind (ins :: written) more = v.behind written (more + ins.bytes) := by
  unfold Insertion.behind
  rw [List.filter_cons_of_pos (by simpa using h), room_cons]
  congr 1
  omega

/-- Insertions that come later keep their order. -/
theorem before_behind {u : Insertion} (h : u.Before v) (written : List Insertion) (more : Nat) :
    (u.behind written more).Before (v.behind written more) := by
  have hle : room (written.filter fun w => w.Before u) ≤ room (written.filter fun w => w.Before v) := by
    refine room_filter_le fun w _ hw => ?_
    unfold Insertion.Before at *
    omega
  unfold Insertion.behind
  rcases h with hlt | ⟨heq, howner⟩
  · exact Or.inl (by dsimp only; omega)
  · rcases Nat.lt_or_eq_of_le hle with hlt | heq'
    · exact Or.inl (by dsimp only; omega)
    · exact Or.inr ⟨by dsimp only; omega, howner⟩

/-- What is written in order at once can be written in two parts, each in order. -/
theorem weave_parts {offset : Nat} {cs : List Char} (first : Insertion → Bool)
    (hsorted : l.Pairwise Insertion.Before)
    (hcuts : ∀ ins ∈ l, ∃ a b, cs = a ++ b ∧ offset + Text.byteLength a = ins.position) (more : Nat) :
    Text.weave (Insertion.marks ((l.filter (!first ·)).map (·.behind (l.filter first) more)))
        (offset + more) (Text.weave (Insertion.marks (l.filter first)) offset cs) =
      Text.weave (Insertion.marks l) offset cs := by
  induction l generalizing offset cs more with
  | nil =>
    simp only [List.filter_nil, List.map_nil, Insertion.weave_marks_nil]
  | cons ins l ih =>
    obtain ⟨hbehind, hrest⟩ := List.pairwise_cons.1 hsorted
    obtain ⟨a, b, rfl, hposition⟩ := hcuts ins List.mem_cons_self
    have hle : ∀ v ∈ l, ins.position ≤ v.position := by
      intro v hv
      have := hbehind v hv
      unfold Insertion.Before at this
      omega
    have hcuts' := Insertion.cuts_behind hposition hle hcuts
    have hmine : ∀ v ∈ l.filter first, ins.position ≤ v.position :=
      fun v hv => hle v (List.mem_filter.1 hv).1
    rw [Insertion.weave_marks_cons hposition hle]
    cases hfirst : first ins with
    | true =>
      have hmap : (l.filter (!first ·)).map (·.behind (ins :: l.filter first) more) =
          (l.filter (!first ·)).map (·.behind (l.filter first) (more + ins.bytes)) :=
        List.map_congr_left fun v hv => behind_cons (hbehind v (List.mem_filter.1 hv).1) _ _
      rw [List.filter_cons_of_pos hfirst, List.filter_cons_of_neg (by simp [hfirst]), hmap,
        Insertion.weave_marks_cons hposition hmine, Insertion.weave_marks_append]
      · rw [← ih hrest hcuts' (more + ins.bytes), Text.byteLength_append]
        congr 2
        unfold Insertion.bytes
        omega
      · intro i hi
        obtain ⟨v, hv, rfl⟩ := List.mem_map.1 hi
        have := hle v (List.mem_filter.1 hv).1
        unfold Insertion.behind Insertion.bytes
        rw [Text.byteLength_append]
        dsimp only
        omega
    | false =>
      have hnone : (l.filter first).filter (fun u => u.Before ins) = [] := by
        rw [List.filter_eq_nil_iff]
        intro u hu hbefore
        have hbefore' := of_decide_eq_true hbefore
        have := hbehind u (List.mem_filter.1 hu).1
        unfold Insertion.Before at this hbefore'
        omega
      have hins : (ins.behind (l.filter first) more).position = ins.position + more := by
        unfold Insertion.behind
        rw [hnone, room_nil, Nat.add_zero]
      rw [List.filter_cons_of_neg (by simp [hfirst]), List.filter_cons_of_pos (by simp [hfirst]),
        List.map_cons, Insertion.weave_marks_append (by rw [hposition]; exact hmine), hposition,
        Insertion.weave_marks_cons]
      · rw [hins, ih hrest hcuts' more]
        rfl
      · rw [hins]
        omega
      · intro i hi
        obtain ⟨v, hv, rfl⟩ := List.mem_map.1 hi
        have := hle v (List.mem_filter.1 hv).1
        rw [hins]
        unfold Insertion.behind
        dsimp only
        omega

/-! ## Offsets among nested owners -/

/-- Of two insertions at one offset, the owner of the second stands below that of the first. -/
def Stacked (nodes : Array Node) (l : List Insertion) : Prop :=
  ∀ u ∈ l, ∀ v ∈ l, u.position = v.position → u.owner < v.owner →
    startMoves nodes v.owner u.owner = true

/-- What moves with the text of a node moves with that of every node around it. -/
def Rising (nodes : Array Node) (moves : Nat → Bool) : Prop :=
  ∀ u v, startMoves nodes v u = true → moves v = true → moves u = true

variable {nodes nodes' : Array Node} {moves : Nat → Bool} {p : Nat}

theorem Stacked.filter (h : Stacked nodes l) (f : Insertion → Bool) : Stacked nodes (l.filter f) :=
  fun u hu v hv => h u (List.mem_filter.1 hu).1 v (List.mem_filter.1 hv).1

/-- Starts move with the text of every node around their own. -/
theorem rising_startMoves (hnested : Nested nodes) (i : Nat) : Rising nodes (startMoves nodes i) := by
  intro u v hvu hiv
  obtain ⟨huv, m, hm, hv⟩ := startMoves_iff.1 hvu
  obtain ⟨hvi, n, hn, hi⟩ := startMoves_iff.1 hiv
  have hend := hnested.end_le hm hn (Nat.le_of_lt huv) hv
  exact startMoves_iff.2 ⟨by omega, m, hm, by omega⟩

/-- Ends move with the text of every node around their own, and below it. -/
theorem rising_stopMoves (hnested : Nested nodes) (i : Nat) : Rising nodes (stopMoves nodes i) := by
  intro u v hvu hiv
  obtain ⟨huv, m, hm, hv⟩ := startMoves_iff.1 hvu
  unfold stopMoves at hiv ⊢
  rcases Bool.or_eq_true_iff.1 hiv with hiv | hiv
  · rw [rising_startMoves hnested i u v hvu hiv, Bool.true_or]
  · obtain ⟨hle, n, hn, hvn⟩ := covers_eq_true_iff.1 hiv
    rw [Bool.or_eq_true]
    rcases Nat.lt_or_ge u i with hlt | hge
    · exact Or.inl (startMoves_iff.2 ⟨hlt, m, hm, by omega⟩)
    · exact Or.inr (covers_eq_true_iff.2 ⟨hge, n, hn, by omega⟩)

/-- Among nested owners, an insertion moves an offset by itself or not at all. -/
theorem passes_iff (hstacked : Stacked nodes l) (hrising : Rising nodes moves) (hins : ins ∈ l) :
    Passes l moves p ins ↔ ins.position < p ∨ ins.position = p ∧ moves ins.owner = true := by
  refine or_congr_right (and_congr_right fun hp => ⟨?_, fun hm => ?_⟩)
  · rintro ⟨w, hw, hwp, hle, hm⟩
    rcases Nat.lt_or_eq_of_le hle with hlt | heq
    · exact hrising ins.owner w.owner (hstacked ins hins w hw (hp.trans hwp.symm) hlt) hm
    · rwa [heq]
  · exact ⟨ins, hins, hp, Nat.le_refl _, hm⟩

variable {first : Nat → Bool} {back : List Insertion}

/-- An insertion that comes later is moved as the start of its owner is. -/
theorem position_behind (hstacked : Stacked nodes l) (hnested : Nested nodes) {f : Insertion → Bool}
    (hv : v ∈ l) : (v.behind (l.filter f) 0).position =
      pushed (l.filter f) (startMoves nodes v.owner) v.position := by
  unfold Insertion.behind pushed
  dsimp only
  rw [Nat.add_zero]
  congr 2
  apply List.filter_congr
  intro u hu
  apply decide_eq_decide.2
  rw [passes_iff (hstacked.filter f) (rising_startMoves hnested v.owner) hu]
  refine or_congr_right (and_congr_right fun hp => ⟨fun hlt => ?_, fun hm => ?_⟩)
  · exact hstacked u (List.mem_filter.1 hu).1 v hv hp hlt
  · exact (startMoves_iff.1 hm).1

/-- An insertion that comes later moves an offset that others have moved exactly if it moves the old
one. -/
theorem moves_behind_iff (hstacked : Stacked nodes l) (hnested : Nested nodes)
    (hrising : Rising nodes moves) (hv : v ∈ l) :
    (v.behind (l.filter fun ins => first ins.owner) 0).position <
          pushed (l.filter fun ins => first ins.owner) moves p ∨
        (v.behind (l.filter fun ins => first ins.owner) 0).position =
          pushed (l.filter fun ins => first ins.owner) moves p ∧ moves v.owner = true ↔
      v.position < p ∨ v.position = p ∧ moves v.owner = true := by
  rw [position_behind hstacked hnested hv]
  rcases Nat.lt_trichotomy v.position p with hlt | rfl | hlt
  · exact iff_of_true (Or.inl (pushed_lt hlt)) (Or.inl hlt)
  · cases hm : moves v.owner with
    | true =>
      -- what moves the insertion is around it, and moves with it
      have hle : pushed (l.filter fun ins => first ins.owner) (startMoves nodes v.owner) v.position ≤
          pushed (l.filter fun ins => first ins.owner) moves v.position :=
        pushed_le (Nat.le_refl _) fun w _ _ _ hw => hrising w.owner v.owner hw hm
      exact iff_of_true ((Nat.lt_or_eq_of_le hle).imp id fun heq => ⟨heq, rfl⟩) (Or.inr ⟨rfl, rfl⟩)
    | false =>
      have hle : pushed (l.filter fun ins => first ins.owner) moves v.position ≤
          pushed (l.filter fun ins => first ins.owner) (startMoves nodes v.owner) v.position := by
        refine pushed_le (Nat.le_refl _) fun w hw _ hwp hwm => ?_
        obtain ⟨hwl, hwfirst⟩ := List.mem_filter.1 hw
        rcases Nat.lt_trichotomy w.owner v.owner with hlt | heq | hlt
        · exact hstacked w hwl v hv hwp hlt
        · rw [heq, hm] at hwm
          exact absurd hwm Bool.false_ne_true
        · -- then the offset would move with the insertion as well
          have hv' := hrising v.owner w.owner (hstacked v hv w hwl hwp.symm hlt) hwm
          rw [hm] at hv'
          exact absurd hv' Bool.false_ne_true
      simp [Nat.not_lt.2 hle]
  · have hlt' : pushed (l.filter fun ins => first ins.owner) moves p <
        pushed (l.filter fun ins => first ins.owner) (startMoves nodes v.owner) v.position :=
      pushed_lt hlt
    exact iff_of_false (by omega) (by omega)

/-- Offsets move by two batches as they move by both at once. -/
theorem pushed_parts (hstacked : Stacked nodes l) (hnested : Nested nodes)
    (hrising : Rising nodes moves) (hstacked' : Stacked nodes back)
    (hback : back.Perm ((l.filter fun ins => !first ins.owner).map
      (·.behind (l.filter fun ins => first ins.owner) 0))) :
    pushed back moves (pushed (l.filter fun ins => first ins.owner) moves p) = pushed l moves p := by
  let front := l.filter fun ins => first ins.owner
  let rest := l.filter fun ins => !first ins.owner
  let ahead (p : Nat) (ins : Insertion) : Bool :=
    decide (ins.position < p ∨ ins.position = p ∧ moves ins.owner = true)
  have hahead : ∀ {l : List Insertion} (p : Nat), Stacked nodes l →
      pushed l moves p = p + room (l.filter (ahead p)) := by
    intro l p hstacked
    unfold pushed
    rw [List.filter_congr fun ins hins => decide_eq_decide.2 (passes_iff hstacked hrising hins)]
  have hmoved : room (back.filter (ahead (pushed front moves p))) = room (rest.filter (ahead p)) := by
    have hkeep : (rest.filter (ahead (pushed front moves p) ∘ (·.behind front 0))) =
        rest.filter (ahead p) :=
      List.filter_congr fun v hv => decide_eq_decide.2
        (moves_behind_iff hstacked hnested hrising (List.mem_filter.1 hv).1)
    calc room (back.filter (ahead (pushed front moves p)))
        = room ((rest.map (·.behind front 0)).filter (ahead (pushed front moves p))) :=
          room_perm (hback.filter _)
      _ = room ((rest.filter (ahead p)).map (·.behind front 0)) := by rw [List.filter_map, hkeep]
      _ = room (rest.filter (ahead p)) := room_map_behind _ _ _
  have hparts : room (front.filter (ahead p)) + room (rest.filter (ahead p)) =
      room (l.filter (ahead p)) := by
    rw [← room_append, ← List.filter_append]
    exact room_perm ((List.filter_append_perm _ _).filter _)
  rw [hahead _ hstacked', hmoved, hahead p hstacked, hahead p (hstacked.filter _), ← hparts]
  exact Nat.add_assoc _ _ _

end Marking

end HotReload
