import HotReload.Proofs.Marking.Insertions
import HotReload.Proofs.Source.Spans

/-
  One insertion and the spans. `Insertion.Moves` says what an insertion makes of an offset: what
  lies behind it moves by its length, what lies in front of it stays, and an offset right at it does
  the one or the other. Text in front of a node moves the starts inside of the node and the ends
  inside and around it (`shifted_before`); with these rules spans stay laid out over the longer text
  (`InFront.laid`), a node around the insertion has the new text in its own (`InFront.slice_around`),
  and every other node keeps its text (`InFront.slice_kept`). Text at the end of the file goes to the
  root (`AtEnd.laid`).
-/

namespace HotReload.Marking

/-- What an insertion makes of an offset. -/
def Insertion.Moves (ins : Insertion) (moves : Prop) (p p' : Nat) : Prop :=
  p' = p ∧ (p < ins.position ∨ p = ins.position ∧ ¬moves) ∨
    p' = p + Text.byteLength ins.text.toList ∧ (ins.position < p ∨ p = ins.position ∧ moves)

namespace Insertion.Moves

variable {ins : Insertion} {P Q : Prop} {p p' q q' : Nat}

/-- Offsets keep their order. -/
theorem mono (hp : ins.Moves P p p') (hq : ins.Moves Q q q') (hle : p ≤ q)
    (h : p = ins.position → q = ins.position → P → Q) : p' ≤ q' := by
  rcases hp with ⟨rfl, hp⟩ | ⟨rfl, hp⟩ <;> rcases hq with ⟨rfl, hq⟩ | ⟨rfl, hq⟩
  · exact hle
  · omega
  · rcases hp with hp | ⟨hp, hP⟩
    · omega
    · rcases hq with hq | ⟨hq, hQ⟩
      · omega
      · exact absurd (h hp hq hP) hQ
  · omega

theorem mono_lt (hp : ins.Moves P p p') (hq : ins.Moves Q q q') (hlt : p < q) : p' < q' := by
  unfold Insertion.Moves at hp hq
  omega

theorem eq_self (hp : ins.Moves P p p') (hle : p ≤ ins.position) (hP : p = ins.position → ¬P) :
    p' = p := by
  rcases hp with ⟨rfl, -⟩ | ⟨rfl, hlt | ⟨heq, h⟩⟩
  · rfl
  · omega
  · exact absurd h (hP heq)

theorem eq_add (hp : ins.Moves P p p') (hle : ins.position ≤ p) (hP : p = ins.position → P) :
    p' = p + Text.byteLength ins.text.toList := by
  rcases hp with ⟨rfl, hlt | ⟨heq, h⟩⟩ | ⟨rfl, -⟩
  · omega
  · exact absurd (hP heq) h
  · rfl

theorem isCut {a b : List Char} (hp : ins.Moves P p p') (ha : Text.byteLength a = ins.position)
    (h : Text.IsCut (a ++ b) p) : Text.IsCut (a ++ ins.text.toList ++ b) p' := by
  rcases hp with ⟨rfl, hp⟩ | ⟨rfl, hp⟩
  · exact h.insert_of_le (by omega)
  · exact h.insert_of_ge (by omega)

end Insertion.Moves

theorem keeps_insertion_iff {origin length p : Nat} {stay : Bool} :
    (Shift.insertion origin length).keeps p stay = true ↔ p < origin ∨ p = origin ∧ stay = true := by
  have hstop : p < (Shift.insertion origin length).stop → p < origin := fun h =>
    Nat.lt_of_lt_of_le h (Nat.min_le_left _ _)
  unfold Shift.keeps
  rw [Bool.or_eq_true, Bool.or_eq_true, Bool.and_eq_true, decide_eq_true_eq, decide_eq_true_eq,
    beq_iff_eq]
  exact ⟨fun h => h.elim id fun h => Or.inl (hstop h), Or.inl⟩

theorem length_eq {ins : Insertion} (h : Text.byteLength ins.text.toList ≤ Text.maxOffset) :
    ins.length = Text.byteLength ins.text.toList := by
  unfold Insertion.length
  rw [Text.utf8ByteSize_eq_byteLength, Text.offset_eq_self h]

/-- A shift by an insertion moves offsets as the insertion does, as long as offsets reach. -/
theorem moves_adjust {ins : Insertion} {p : Nat} (moves : Bool)
    (hsize : p + Text.byteLength ins.text.toList ≤ Text.maxOffset) :
    ins.Moves (moves = true) p
      ((Shift.insertion ins.position ins.length).adjust p (!moves)) := by
  unfold Shift.adjust
  split
  · next hkeep =>
    rw [keeps_insertion_iff, Bool.not_eq_true'] at hkeep
    exact Or.inl ⟨rfl, hkeep.imp_right fun h => ⟨h.1, by simp [h.2]⟩⟩
  · next hmove =>
    have hlength := length_eq (Nat.le_of_add_left_le hsize)
    have hsum : ((p : Int) + (ins.length : Int)).toNat % (Text.maxOffset + 1) =
        p + Text.byteLength ins.text.toList := by
      rw [hlength, ← Int.natCast_add, Int.toNat_natCast, Nat.mod_eq_of_lt (by omega)]
    rw [keeps_insertion_iff, not_or, not_and, Bool.not_eq_true', Bool.not_eq_false] at hmove
    refine Or.inr ⟨hsum, ?_⟩
    rcases Nat.lt_or_eq_of_le (Nat.not_lt.1 hmove.1) with hlt | heq
    · exact Or.inl hlt
    · exact Or.inr ⟨heq.symm, hmove.2 heq.symm⟩

/-! ## Text in front of a node -/

/-- The node stands strictly below the position whose subtree ends there. -/
def Inside (owner stop i : Nat) : Prop := owner < i ∧ i < stop

/-- The node is the owner or stands above it. -/
def Around (owner i stop : Nat) : Prop := i ≤ owner ∧ owner < stop

/-- A node before and after an insertion in front of the owner. -/
structure Shifted (ins : Insertion) (owner : Node) (i : Nat) (n n' : Node) : Prop where
  same : n' = { n with span := n'.span, fullSpan := n'.fullSpan }
  start : ins.Moves (Inside ins.owner owner.subtreeEnd i) n.span.start n'.span.start
  stop : ins.Moves (Inside ins.owner owner.subtreeEnd i ∨ Around ins.owner i n.subtreeEnd)
    n.span.stop n'.span.stop
  fullStart : ins.Moves (Inside ins.owner owner.subtreeEnd i) n.fullSpan.start n'.fullSpan.start
  fullStop : ins.Moves (Inside ins.owner owner.subtreeEnd i ∨ Around ins.owner i n.subtreeEnd)
    n.fullSpan.stop n'.fullSpan.stop

variable {nodes : Array Node} {ins : Insertion} {owner : Node} {i j : Nat} {m n n' : Node}
  {a b cs : List Char}

theorem covers_iff (hn : nodes[i]? = some n) :
    covers nodes i j = true ↔ i ≤ j ∧ j < n.subtreeEnd := by
  simp [covers, hn]

theorem Insertion.Moves.congr {P Q : Prop} {p p' : Nat} (h : ins.Moves P p p') (hPQ : P ↔ Q) :
    ins.Moves Q p p' := by
  rwa [← propext hPQ]

theorem shifted_before (hbefore : ins.placement = .before) (howner : nodes[ins.owner]? = some owner)
    (hn : nodes[i]? = some n) (hspan : n.span.start ≤ n.span.stop)
    (hfull : n.fullSpan.start ≤ n.fullSpan.stop) (hle : n.span.stop ≤ n.fullSpan.stop)
    (hsize : n.fullSpan.stop + Text.byteLength ins.text.toList ≤ Text.maxOffset) :
    Shifted ins owner i n (shiftNode nodes ins i n) := by
  have hinside : (covers nodes ins.owner i && decide (i ≠ ins.owner)) = true ↔
      Inside ins.owner owner.subtreeEnd i := by
    rw [Bool.and_eq_true, covers_iff howner, decide_eq_true_eq]
    unfold Inside
    omega
  have haround : covers nodes i ins.owner = true ↔ Around ins.owner i n.subtreeEnd :=
    covers_iff hn
  have hends : (covers nodes ins.owner i && decide (i ≠ ins.owner) || covers nodes i ins.owner) =
      true ↔ Inside ins.owner owner.subtreeEnd i ∨ Around ins.owner i n.subtreeEnd := by
    rw [Bool.or_eq_true, hinside, haround]
  have hplace : ¬(ins.placement = .after ∧ i = ins.owner) := by simp [hbefore]
  have hshift : shiftNode nodes ins i n =
      let shift := Shift.insertion ins.position ins.length
      let inside := covers nodes ins.owner i && decide (i ≠ ins.owner)
      let around := covers nodes i ins.owner
      { n with
        span := ⟨shift.adjust n.span.start (!inside), shift.adjust n.span.stop (!(inside || around))⟩
        fullSpan := ⟨shift.adjust n.fullSpan.start (!inside),
          shift.adjust n.fullSpan.stop (!(inside || around))⟩ } := by
    unfold shiftNode
    simp only [hbefore, reduceCtorEq, false_and, if_false]
  rw [hshift]
  exact ⟨rfl, (moves_adjust _ (by omega)).congr hinside, (moves_adjust _ (by omega)).congr hends,
    (moves_adjust _ (by omega)).congr hinside, (moves_adjust _ (by omega)).congr hends⟩

/-- The arena after an insertion. -/
def shiftAll (nodes : Array Node) (ins : Insertion) : Array Node :=
  nodes.mapFinIdx fun i n _ => shiftNode nodes ins i n

theorem getElem?_shiftAll (h : (shiftAll nodes ins)[i]? = some n') :
    ∃ n, nodes[i]? = some n ∧ n' = shiftNode nodes ins i n := by
  unfold shiftAll at h
  obtain ⟨hi, rfl⟩ := Array.getElem?_eq_some_iff.1 h
  have hi' : i < nodes.size := by simpa using hi
  exact ⟨nodes[i], Array.getElem?_eq_getElem hi', by simp⟩

theorem getElem?_shiftAll_of (hn : nodes[i]? = some n) :
    (shiftAll nodes ins)[i]? = some (shiftNode nodes ins i n) := by
  obtain ⟨hi, rfl⟩ := Array.getElem?_eq_some_iff.1 hn
  simp [shiftAll, hi]

theorem nested_shiftAll (h : Nested nodes) (ins : Insertion) : Nested (shiftAll nodes ins) := by
  refine h.congr (by simp [shiftAll]) ?_
  intro i n' hn'
  obtain ⟨n, hn, rfl⟩ := getElem?_shiftAll hn'
  exact ⟨n, hn, rfl⟩

theorem nestedChildren_shiftAll {childList : Array Nat} (h : NestedChildren nodes childList)
    (ins : Insertion) : NestedChildren (shiftAll nodes ins) childList := by
  refine h.congr ?_
  intro i n' hn'
  obtain ⟨n, hn, rfl⟩ := getElem?_shiftAll hn'
  exact ⟨n, hn, rfl, rfl⟩

/-- An insertion in front of a node that has significant text, at a cut of the text. -/
structure InFront (nodes : Array Node) (ins : Insertion) (owner : Node) (a b : List Char) :
    Prop where
  placement : ins.placement = .before
  getElem? : nodes[ins.owner]? = some owner
  position : owner.span.start = ins.position
  nonempty : owner.span.start < owner.span.stop
  cut : Text.byteLength a = ins.position
  size : Text.byteLength (a ++ ins.text.toList ++ b) ≤ Text.maxOffset

namespace InFront

variable (hfront : InFront nodes ins owner a b) (hlaid : Laid nodes (a ++ b))

include hfront hlaid

theorem shifted (hn : nodes[i]? = some n) : Shifted ins owner i n (shiftNode nodes ins i n) := by
  have hwithin := hlaid.within hn
  have hstop := (hlaid.cuts hn).2.2.2.le_byteLength
  have hsize := hfront.size
  simp only [Text.byteLength_append] at hstop hsize
  exact shifted_before hfront.placement hfront.getElem? hn hwithin.2.1 (by omega) hwithin.2.2
    (by omega)

/-- What stands around the owner has the insertion in its span, and not at the end. -/
theorem position_of_around (hn : nodes[i]? = some n) (haround : Around ins.owner i n.subtreeEnd) :
    n.span.start ≤ ins.position ∧ ins.position < n.span.stop := by
  have hposition := hfront.position
  have hnonempty := hfront.nonempty
  rcases Nat.lt_or_eq_of_le haround.1 with hlt | rfl
  · have hbelow := (hlaid.below hn hfront.getElem? hlt haround.2).2.2 hnonempty
    omega
  · obtain rfl := Option.some.inj (hn.symm.trans hfront.getElem?)
    omega

/-- No empty span becomes a span with text. -/
theorem nonempty_of_shifted (hn : nodes[i]? = some n)
    (hlt : (shiftNode nodes ins i n).span.start < (shiftNode nodes ins i n).span.stop) :
    n.span.start < n.span.stop := by
  have hs := hfront.shifted hlaid hn
  refine Nat.lt_of_le_of_ne (hlaid.within hn).2.1 fun heq => ?_
  by_cases haround : Around ins.owner i n.subtreeEnd
  · have := hfront.position_of_around hlaid hn haround
    omega
  · have hle := hs.stop.mono hs.start (Nat.le_of_eq heq.symm) fun _ _ h => h.resolve_right haround
    omega

/-- The root still has the whole text. -/
theorem fullSpan_root (hn : nodes[0]? = some n) :
    (shiftNode nodes ins 0 n).fullSpan =
      ⟨0, Text.byteLength (a ++ ins.text.toList ++ b)⟩ := by
  have hs := hfront.shifted hlaid hn
  have hroot := hlaid.root hn
  have hposition := hfront.position
  have hnonempty := hfront.nonempty
  have howner := (hlaid.cuts hfront.getElem?).2.1.le_byteLength
  have hlength : Text.byteLength (a ++ ins.text.toList ++ b) =
      Text.byteLength (a ++ b) + Text.byteLength ins.text.toList := by
    simp only [Text.byteLength_append]
    omega
  have hstart : (shiftNode nodes ins 0 n).fullSpan.start = 0 := by
    have hmoves := hs.fullStart
    rw [hroot] at hmoves
    exact hmoves.eq_self (Nat.zero_le _) fun _ hinside => Nat.not_lt_zero _ hinside.1
  have hstop : (shiftNode nodes ins 0 n).fullSpan.stop =
      Text.byteLength (a ++ b) + Text.byteLength ins.text.toList := by
    have hmoves := hs.fullStop
    rw [hroot] at hmoves
    exact hmoves.eq_add (by dsimp only; omega) fun heq => by dsimp only at heq; omega
  rw [hlength]
  exact Span.mk.injEq .. ▸ ⟨hstart, hstop⟩

variable (hnested : Nested nodes)

include hnested

/-- Spans of a subtree stay in those of its top node. -/
theorem below (hm : nodes[i]? = some m) (hn : nodes[j]? = some n) (hij : i < j)
    (hj : j < m.subtreeEnd) :
    (shiftNode nodes ins i m).fullSpan.start ≤ (shiftNode nodes ins j n).fullSpan.start ∧
      (shiftNode nodes ins j n).fullSpan.stop ≤ (shiftNode nodes ins i m).fullSpan.stop ∧
      ((shiftNode nodes ins j n).span.start < (shiftNode nodes ins j n).span.stop →
        (shiftNode nodes ins i m).span.start ≤ (shiftNode nodes ins j n).span.start ∧
          (shiftNode nodes ins j n).span.stop ≤ (shiftNode nodes ins i m).span.stop) := by
  have hsm := hfront.shifted hlaid hm
  have hsn := hfront.shifted hlaid hn
  obtain ⟨hstart, hstop, hspan⟩ := hlaid.below hm hn hij hj
  have hend := hnested.end_le hm hn (Nat.le_of_lt hij) hj
  -- what moves below moves above as well, starts and ends alike
  have hinside : Inside ins.owner owner.subtreeEnd i → Inside ins.owner owner.subtreeEnd j := by
    intro h
    have := hnested.end_le hfront.getElem? hm (Nat.le_of_lt h.1) h.2
    unfold Inside at *
    omega
  have hends : Inside ins.owner owner.subtreeEnd j ∨ Around ins.owner j n.subtreeEnd →
      Inside ins.owner owner.subtreeEnd i ∨ Around ins.owner i m.subtreeEnd := by
    unfold Inside Around
    omega
  refine ⟨hsm.fullStart.mono hsn.fullStart hstart fun _ _ => hinside,
    hsn.fullStop.mono hsm.fullStop hstop fun _ _ => hends, fun hlt => ?_⟩
  obtain ⟨hspanStart, hspanStop⟩ := hspan (hfront.nonempty_of_shifted hlaid hn hlt)
  exact ⟨hsm.start.mono hsn.start hspanStart fun _ _ => hinside,
    hsn.stop.mono hsm.stop hspanStop fun _ _ => hends⟩

/-- What stood behind a subtree stays behind it. -/
theorem apart (hm : nodes[i]? = some m) (hn : nodes[j]? = some n) (hj : m.subtreeEnd ≤ j) :
    (shiftNode nodes ins i m).fullSpan.stop ≤ (shiftNode nodes ins j n).fullSpan.start := by
  have hsm := hfront.shifted hlaid hm
  have hsn := hfront.shifted hlaid hn
  refine hsm.fullStop.mono hsn.fullStart (hlaid.apart hm hn hj) fun hmstop hnstart hmoves => ?_
  have howner := hlaid.within hfront.getElem?
  have hposition := hfront.position
  have hnonempty := hfront.nonempty
  rcases hmoves with hinside | haround
  · have hend := hnested.end_le hfront.getElem? hm (Nat.le_of_lt hinside.1) hinside.2
    have hlt := hnested.lt_end hm
    refine ⟨by unfold Inside at hinside; omega, ?_⟩
    -- behind the subtree of the owner there is more than the insertion
    refine Nat.lt_of_not_le fun hbehind => ?_
    have := hlaid.apart hfront.getElem? hn hbehind
    omega
  · have := hfront.position_of_around hlaid hm haround
    have := hlaid.within hm
    omega

/-- Spans stay laid out over the longer text. -/
theorem laid : Laid (shiftAll nodes ins) (a ++ ins.text.toList ++ b) where
  within hn' := by
    obtain ⟨n, hn, rfl⟩ := getElem?_shiftAll hn'
    have hs := hfront.shifted hlaid hn
    obtain ⟨hstart, hspan, hstop⟩ := hlaid.within hn
    exact ⟨hs.fullStart.mono hs.start hstart fun _ _ h => h,
      hs.start.mono hs.stop hspan fun _ _ => Or.inl, hs.stop.mono hs.fullStop hstop fun _ _ h => h⟩
  below hm' hn' hij hj := by
    obtain ⟨m, hm, rfl⟩ := getElem?_shiftAll hm'
    obtain ⟨n, hn, rfl⟩ := getElem?_shiftAll hn'
    exact hfront.below hlaid hnested hm hn hij hj
  apart hm' hn' hj := by
    obtain ⟨m, hm, rfl⟩ := getElem?_shiftAll hm'
    obtain ⟨n, hn, rfl⟩ := getElem?_shiftAll hn'
    exact hfront.apart hlaid hnested hm hn hj
  root hn' := by
    obtain ⟨n, hn, rfl⟩ := getElem?_shiftAll hn'
    exact hfront.fullSpan_root hlaid hn
  cuts hn' := by
    obtain ⟨n, hn, rfl⟩ := getElem?_shiftAll hn'
    have hs := hfront.shifted hlaid hn
    obtain ⟨hstart, hstop, hfullStart, hfullStop⟩ := hlaid.cuts hn
    exact ⟨hs.start.isCut hfront.cut hstart, hs.stop.isCut hfront.cut hstop,
      hs.fullStart.isCut hfront.cut hfullStart, hs.fullStop.isCut hfront.cut hfullStop⟩

omit hnested in
/-- A node around the insertion starts where it did and has the insertion in its text. -/
theorem slice_around {m₁ m₂ : List Char} (hn : nodes[i]? = some n)
    (haround : Around ins.owner i n.subtreeEnd)
    (hslice : Text.slice? n.span.start n.span.stop (a ++ b) = some (m₁ ++ m₂))
    (hcut : n.span.start + Text.byteLength m₁ = ins.position) :
    (shiftNode nodes ins i n).span.start = n.span.start ∧
      Text.slice? (shiftNode nodes ins i n).span.start (shiftNode nodes ins i n).span.stop
        (a ++ ins.text.toList ++ b) = some (m₁ ++ ins.text.toList ++ m₂) := by
  have hs := hfront.shifted hlaid hn
  have hposition := hfront.position_of_around hlaid hn haround
  have hstart := hs.start.eq_self hposition.1 fun _ hinside =>
    absurd haround.1 (Nat.not_le.2 hinside.1)
  have hstop := hs.stop.eq_add (Nat.le_of_lt hposition.2) fun _ => Or.inr haround
  rw [hstart, hstop]
  exact ⟨rfl, Text.slice?_insert hslice (hcut.trans hfront.cut.symm)⟩

/-- Every other node has the text that it had. -/
theorem slice_kept {m : List Char} (hn : nodes[i]? = some n)
    (haround : ¬Around ins.owner i n.subtreeEnd)
    (hslice : Text.slice? n.span.start n.span.stop (a ++ b) = some m) :
    Text.slice? (shiftNode nodes ins i n).span.start (shiftNode nodes ins i n).span.stop
      (a ++ ins.text.toList ++ b) = some m := by
  have hs := hfront.shifted hlaid hn
  have hwithin := hlaid.within hn
  have hstart := hs.start
  have hstop := hs.stop.congr (or_iff_left haround)
  rcases Nat.lt_or_eq_of_le hwithin.2.1 with hlt | hempty
  · -- significant text lies in front of the insertion, or behind it
    have hside : n.span.stop ≤ ins.position ∧ ¬Inside ins.owner owner.subtreeEnd i ∨
        ins.position ≤ n.span.start ∧
          (ins.position = n.span.start → Inside ins.owner owner.subtreeEnd i) := by
      have howner := hlaid.within hfront.getElem?
      have hposition := hfront.position
      have hnonempty := hfront.nonempty
      by_cases hinside : Inside ins.owner owner.subtreeEnd i
      · have hbelow := (hlaid.below hfront.getElem? hn hinside.1 hinside.2).2.2 hlt
        exact Or.inr ⟨by omega, fun _ => hinside⟩
      · rcases Nat.lt_or_ge ins.owner i with hi | hi
        · have hbehind : owner.subtreeEnd ≤ i := Nat.le_of_not_lt fun h => hinside ⟨hi, h⟩
          have := hlaid.apart hfront.getElem? hn hbehind
          exact Or.inr ⟨by omega, by omega⟩
        · have hbefore : n.subtreeEnd ≤ ins.owner := Nat.le_of_not_lt fun h => haround ⟨hi, h⟩
          have := hlaid.apart hn hfront.getElem? hbefore
          exact Or.inl ⟨by omega, hinside⟩
    rcases hside with ⟨hle, hinside⟩ | ⟨hle, hinside⟩
    · rw [hstart.eq_self (by omega) fun _ => hinside, hstop.eq_self hle fun _ => hinside]
      exact Text.slice?_insert_of_stop_le hslice (by rw [hfront.cut]; exact hle)
    · rw [hstart.eq_add hle fun h => hinside h.symm, hstop.eq_add (by omega) fun h => by omega]
      exact Text.slice?_insert_of_le_start hslice (by rw [hfront.cut]; exact hle)
  · -- both ends of an empty span do the same
    have hempty' : (shiftNode nodes ins i n).span.start = (shiftNode nodes ins i n).span.stop :=
      Nat.le_antisymm (hstart.mono hstop (Nat.le_of_eq hempty) fun _ _ h => h)
        (hstop.mono hstart (Nat.le_of_eq hempty.symm) fun _ _ h => h)
    obtain ⟨p, q, -, -, hm⟩ := Text.slice?_eq_some_iff.1 hslice
    obtain rfl : m = [] := Text.byteLength_eq_zero.1 (by omega)
    obtain ⟨p', q', hcut, hp'⟩ := ((hfront.laid hlaid hnested).cuts (getElem?_shiftAll_of hn)).1
    exact Text.slice?_eq_some_iff.2 ⟨p', q', by rw [hcut, List.append_nil], hp', hempty'⟩

end InFront

/-! ## Text at the end of the file -/

/-- An insertion at the end of the file, for the root. -/
structure AtEnd (ins : Insertion) (cs : List Char) : Prop where
  placement : ins.placement = .after
  owner : ins.owner = 0
  position : ins.position = Text.byteLength cs
  size : Text.byteLength (cs ++ ins.text.toList) ≤ Text.maxOffset

namespace AtEnd

variable (hend : AtEnd ins cs) (hlaid : Laid nodes cs)

include hend

/-- Starts of nodes stay. -/
theorem adjust_start {p : Nat} (hp : p ≤ Text.byteLength cs) :
    (Shift.insertion ins.position ins.length).adjust p true = p := by
  have hsize := hend.size
  rw [Text.byteLength_append] at hsize
  exact (moves_adjust false (by omega)).eq_self (by rw [hend.position]; exact hp) (by simp)

include hlaid

/-- Nodes below the root stay where they are. -/
theorem shiftNode_eq (hn : nodes[i]? = some n) (hi : i ≠ 0) : shiftNode nodes ins i n = n := by
  have hwithin := hlaid.within hn
  have hle := (hlaid.cuts hn).2.2.2.le_byteLength
  have haround : covers nodes i 0 = false := by
    rw [← Bool.not_eq_true, covers_iff hn]
    omega
  unfold shiftNode
  simp only [hend.placement, hend.owner, haround, Bool.not_false, hi, and_false, if_false]
  rw [hend.adjust_start (by omega), hend.adjust_start (by omega), hend.adjust_start (by omega),
    hend.adjust_start (by omega)]

/-- The root reaches to the end of the longer text. -/
theorem shiftNode_root (hnested : Nested nodes) (hn : nodes[0]? = some n) :
    shiftNode nodes ins 0 n =
      { n with
        span := ⟨n.span.start, Text.byteLength (cs ++ ins.text.toList)⟩
        fullSpan := ⟨0, Text.byteLength (cs ++ ins.text.toList)⟩ } := by
  have hwithin := hlaid.within hn
  have hroot := hlaid.root hn
  have haround : covers nodes 0 0 = true := by
    rw [covers_iff hn]
    exact ⟨Nat.le_refl 0, hnested.lt_end hn⟩
  have hsize := hend.size
  have hposition := hend.position
  rw [Text.byteLength_append] at hsize ⊢
  have hreach : Text.offset (ins.position + ins.length) =
      Text.byteLength cs + Text.byteLength ins.text.toList := by
    rw [length_eq (by omega), hposition]
    exact Text.offset_eq_self hsize
  have hle : n.span.stop ≤ Text.byteLength cs := by
    rw [hroot] at hwithin
    exact hwithin.2.2
  have hspan : (Shift.insertion ins.position ins.length).adjust n.span.stop false ≤
      Text.byteLength cs + Text.byteLength ins.text.toList := by
    have hmoves : ins.Moves (true = true) n.span.stop
        ((Shift.insertion ins.position ins.length).adjust n.span.stop (!true)) :=
      moves_adjust true (by omega)
    rcases hmoves with ⟨h, -⟩ | ⟨h, -⟩
    · exact Nat.le_trans (Nat.le_of_eq h) (by omega)
    · exact Nat.le_trans (Nat.le_of_eq h) (by omega)
  have hfull : (Shift.insertion ins.position ins.length).adjust (Text.byteLength cs) false =
      Text.byteLength cs + Text.byteLength ins.text.toList :=
    (moves_adjust true (by omega)).eq_add (Nat.le_of_eq hposition) fun _ => rfl
  unfold shiftNode
  simp only [hend.placement, hend.owner, haround, Bool.not_true, and_self, if_true, hroot]
  rw [hend.adjust_start (by omega), hend.adjust_start (Nat.zero_le _), hreach, hfull,
    Nat.max_eq_right hspan, Nat.max_self]

/-- Spans stay laid out over the longer text. -/
theorem laid (hnested : Nested nodes) : Laid (shiftAll nodes ins) (cs ++ ins.text.toList) where
  within {i n'} hn' := by
    obtain ⟨n, hn, rfl⟩ := getElem?_shiftAll hn'
    have hwithin := hlaid.within hn
    have hstop := (hlaid.cuts hn).2.2.2.le_byteLength
    by_cases hi : i = 0
    · subst hi
      rw [hend.shiftNode_root hlaid hnested hn, Text.byteLength_append]
      exact ⟨Nat.zero_le _, by dsimp only; omega, Nat.le_refl _⟩
    · rw [hend.shiftNode_eq hlaid hn hi]
      exact hwithin
  below {i j m' n'} hm' hn' hij hj := by
    obtain ⟨m, hm, rfl⟩ := getElem?_shiftAll hm'
    obtain ⟨n, hn, rfl⟩ := getElem?_shiftAll hn'
    obtain ⟨hstart, hfull, hspan⟩ := hlaid.below hm hn hij hj
    obtain ⟨-, hstop, -, hfullStop⟩ := hlaid.cuts hn
    rw [hend.shiftNode_eq hlaid hn (by omega)]
    by_cases hi : i = 0
    · subst hi
      rw [hend.shiftNode_root hlaid hnested hm]
      exact ⟨Nat.zero_le _, (hfullStop.append_text _).le_byteLength, fun hlt =>
        ⟨(hspan hlt).1, (hstop.append_text _).le_byteLength⟩⟩
    · rw [hend.shiftNode_eq hlaid hm hi]
      exact ⟨hstart, hfull, hspan⟩
  apart {i j m' n'} hm' hn' hj := by
    obtain ⟨m, hm, rfl⟩ := getElem?_shiftAll hm'
    obtain ⟨n, hn, rfl⟩ := getElem?_shiftAll hn'
    have hsize := (Array.getElem?_eq_some_iff.1 hn).1
    have hlt := hnested.lt_end hm
    have hj : m.subtreeEnd ≤ j := hj
    -- nothing stands behind the subtree of the root
    have hi : i ≠ 0 := by
      rintro rfl
      have := hnested.root hm
      omega
    rw [hend.shiftNode_eq hlaid hm hi, hend.shiftNode_eq hlaid hn (by omega)]
    exact hlaid.apart hm hn hj
  root hn' := by
    obtain ⟨n, hn, rfl⟩ := getElem?_shiftAll hn'
    rw [hend.shiftNode_root hlaid hnested hn]
  cuts {i n'} hn' := by
    obtain ⟨n, hn, rfl⟩ := getElem?_shiftAll hn'
    obtain ⟨hstart, hstop, hfullStart, hfullStop⟩ := hlaid.cuts hn
    by_cases hi : i = 0
    · subst hi
      rw [hend.shiftNode_root hlaid hnested hn]
      exact ⟨hstart.append_text _, Text.IsCut.length _, Text.IsCut.zero _, Text.IsCut.length _⟩
    · rw [hend.shiftNode_eq hlaid hn hi]
      exact ⟨hstart.append_text _, hstop.append_text _, hfullStart.append_text _,
        hfullStop.append_text _⟩

end AtEnd

end HotReload.Marking
