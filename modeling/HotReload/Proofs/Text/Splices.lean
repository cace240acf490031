import HotReload.Text.Edit
import HotReload.Proofs.Order.Sorting
import HotReload.Proofs.Text.Weave

/-
  Batches of edits. Only neighbours are compared, and that finds every overlap: in order of position
  the first two neighbours that overlap are the first two edits that do
  (`Edit.firstConflict?_decides`). Without an overlap every edit ends at or before the start of all
  later ones, so one pass over the text does what replacing the edits one by one does, the last one
  first (`Edit.exists_splice`, by induction on the edits from the front). `Edit.applyAll_decides` has
  both for a batch in any order.
-/

namespace HotReload

namespace Span

variable {s t u : Span}

theorem le_iff : s.le t = true ↔ s.start < t.start ∨ s.start = t.start ∧ s.stop ≤ t.stop := by
  have hcompare : compare s t = (compare s.start t.start).then (compare s.stop t.stop) := rfl
  rw [le, hcompare, Ordering.isLE_then_iff_or, Nat.compare_eq_lt, Nat.compare_eq_eq,
    Nat.isLE_compare]

theorem le_trans (s t u : Span) (hst : s.le t = true) (htu : t.le u = true) : s.le u = true := by
  rw [le_iff] at *
  omega

theorem le_total (s t : Span) : (s.le t || t.le s) = true := by
  rw [Bool.or_eq_true, le_iff, le_iff]
  omega

theorem le_antisymm (hst : s.le t = true) (hts : t.le s = true) : s = t := by
  rw [le_iff] at *
  obtain ⟨a, b⟩ := s
  obtain ⟨c, d⟩ := t
  simp only [Span.mk.injEq] at *
  omega

/-- In order of position, spans overlap if the second one starts before the end of the first one. -/
theorem overlaps_iff_of_le (hs : s.start ≤ s.stop) (ht : t.start ≤ t.stop) (hle : s.le t = true) :
    s.overlaps t = true ↔ t.start < s.stop := by
  rw [le_iff] at hle
  unfold overlaps isEmpty
  split
  · simp_all
    omega
  · split
    · simp_all
      omega
    · simp_all
      omega

theorem overlaps_comm (s t : Span) : s.overlaps t = t.overlaps s := by
  unfold overlaps isEmpty
  rw [Bool.eq_iff_iff]
  split <;> split <;> simp_all <;> omega

end Span

namespace Edit

/-- The edits sorted by start, then by end; edits of one span come in the order in which they were
given. -/
structure InOrder (edits l : List Edit) : Prop where
  perm : l.Perm edits
  sorted : l.Pairwise fun a b => a.span.start < b.span.start ∨
    a.span.start = b.span.start ∧ a.span.stop ≤ b.span.stop
  ties : ∀ s, (l.filter fun e => e.span = s) = edits.filter fun e => e.span = s

/-- Two different edits of the batch overlap, wherever they stand in it. -/
def Overlapping (edits : List Edit) : Prop :=
  ∃ i j : Fin edits.length, i ≠ j ∧ edits[i].span.overlaps edits[j].span = true

/-- No edit overlaps a later one. -/
def Apart (l : List Edit) : Prop := l.Pairwise fun a b => a.span.overlaps b.span = false

/-- The spans are those of two neighbours that overlap, and no two edits up to the first of them do. -/
def FirstOverlap (l : List Edit) (s t : Span) : Prop :=
  ∃ before a b behind, l = before ++ a :: b :: behind ∧ a.span = s ∧ b.span = t ∧
    s.overlaps t = true ∧ Apart (before ++ [a])

/-- The text with one edit put in: all in front of its span and all behind it is kept. -/
def replaceIn (e : Edit) (cs : List Char) : Option (List Char) := do
  let before ← Text.take? e.span.start cs
  let behind ← Text.drop? e.span.stop cs
  return before ++ e.newText.toList ++ behind

variable {edits edits' l l' : List Edit}

/-! ## The order of edits -/

theorem pairwise_ordered (edits : List Edit) :
    (ordered edits).Pairwise fun a b => a.span.le b.span = true :=
  List.pairwise_mergeSort (fun a b c => Span.le_trans a.span b.span c.span)
    (fun a b => Span.le_total a.span b.span) edits

theorem filter_ordered (edits : List Edit) (s : Span) :
    ((ordered edits).filter fun e => e.span = s) = edits.filter fun e => e.span = s :=
  filter_mergeSort_key span Span.le_trans Span.le_total edits s

theorem inOrder_ordered (edits : List Edit) : InOrder edits (ordered edits) where
  perm := List.mergeSort_perm edits _
  sorted := (pairwise_ordered edits).imp Span.le_iff.1
  ties := filter_ordered edits

/-- Only the order of edits of one span matters. -/
theorem ordered_congr (hperm : edits'.Perm edits)
    (hties : ∀ s, (edits'.filter fun e => e.span = s) = edits.filter fun e => e.span = s) :
    ordered edits' = ordered edits := by
  have hsorted : (ordered edits').Perm (ordered edits) :=
    (inOrder_ordered edits').perm.trans (hperm.trans (inOrder_ordered edits).perm.symm)
  refine eq_of_filter_eq span (fun _ _ => Span.le_antisymm) (pairwise_ordered edits')
    (pairwise_ordered edits) hsorted fun s => ?_
  rw [filter_ordered, filter_ordered, hties]

/-! ## Conflicts -/

theorem not_overlapping_iff : ¬Overlapping edits ↔ Apart edits := by
  unfold Overlapping Apart
  rw [List.pairwise_iff_getElem]
  constructor
  · intro h i j hi hj hij
    rw [Bool.eq_false_iff]
    intro hoverlaps
    exact h ⟨⟨i, hi⟩, ⟨j, hj⟩, by simp; omega, hoverlaps⟩
  · rintro h ⟨⟨i, hi⟩, ⟨j, hj⟩, hij, hoverlaps⟩
    rcases Nat.lt_or_gt_of_ne (fun heq => hij (Fin.ext heq)) with hlt | hlt
    · exact absurd hoverlaps (by simp [h i j hi hj hlt])
    · rw [Span.overlaps_comm] at hoverlaps
      exact absurd hoverlaps (by simp [h j i hj hi hlt])

theorem apart_ordered_iff : Apart (ordered edits) ↔ Apart edits := by
  apply (inOrder_ordered edits).perm.pairwise_iff
  intro a b hab
  rw [Span.overlaps_comm]
  exact hab

/-- In order of position, edits without an overlap leave gaps. -/
theorem apart_iff (hsorted : l.Pairwise fun a b => a.span.le b.span = true)
    (hspans : ∀ e ∈ l, e.span.start ≤ e.span.stop) :
    Apart l ↔ l.Pairwise fun a b => a.span.stop ≤ b.span.start := by
  have hiff : ∀ a ∈ l, ∀ b ∈ l, a.span.le b.span = true →
      (a.span.overlaps b.span = false ↔ a.span.stop ≤ b.span.start) := by
    intro a ha b hb hle
    rw [← Bool.not_eq_true, Span.overlaps_iff_of_le (hspans a ha) (hspans b hb) hle, Nat.not_lt]
  constructor
  · exact fun h => (hsorted.and h).imp_of_mem fun ha hb hab => (hiff _ ha _ hb hab.1).1 hab.2
  · exact fun h => (hsorted.and h).imp_of_mem fun ha hb hab => (hiff _ ha _ hb hab.1).2 hab.2

/-- An edit that ends at or before the start of the next one does so for all later ones. -/
theorem pairwise_cons_of_gap {a b : Edit}
    (hsorted : (b :: l).Pairwise fun a b => a.span.le b.span = true)
    (hgap : a.span.stop ≤ b.span.start) : ∀ e ∈ b :: l, a.span.stop ≤ e.span.start := by
  intro e he
  rcases List.mem_cons.1 he with rfl | he
  · exact hgap
  · have hle := Span.le_iff.1 (List.rel_of_pairwise_cons hsorted he)
    omega

/-- Either every edit ends at or before the start of all later ones, or the first neighbours that do
not are found. -/
theorem firstConflict?_cases (hsorted : l.Pairwise fun a b => a.span.le b.span = true) :
    firstConflict? l = none ∧ l.Pairwise (fun a b => a.span.stop ≤ b.span.start) ∨
      ∃ before a b behind, l = before ++ a :: b :: behind ∧
        firstConflict? l = some (a.span, b.span) ∧ b.span.start < a.span.stop ∧
        (before ++ [a]).Pairwise fun a b => a.span.stop ≤ b.span.start := by
  induction l with
  | nil => exact Or.inl ⟨rfl, .nil⟩
  | cons a l ih =>
    have hrest := (List.pairwise_cons.1 hsorted).2
    cases l with
    | nil => exact Or.inl ⟨rfl, List.pairwise_singleton _ a⟩
    | cons b l =>
      by_cases hconflict : b.span.start < a.span.stop
      · refine Or.inr ⟨[], a, b, l, rfl, ?_, hconflict, List.pairwise_singleton _ a⟩
        rw [firstConflict?, if_pos hconflict]
      have hgap := pairwise_cons_of_gap hrest (Nat.not_lt.1 hconflict)
      rw [firstConflict?, if_neg hconflict]
      rcases ih hrest with ⟨hnone, hgaps⟩ | ⟨before, x, y, behind, heq, hsome, hxy, hgaps⟩
      · exact Or.inl ⟨hnone, List.pairwise_cons.2 ⟨hgap, hgaps⟩⟩
      · refine Or.inr ⟨a :: before, x, y, behind, by rw [heq]; rfl, hsome, hxy, ?_⟩
        refine List.pairwise_cons.2 ⟨fun e he => hgap e ?_, hgaps⟩
        rw [heq, List.append_cons]
        exact List.mem_append_left _ he

/-- The neighbours that are found are the first edits that overlap. -/
theorem firstConflict?_decides (hsorted : l.Pairwise fun a b => a.span.le b.span = true)
    (hspans : ∀ e ∈ l, e.span.start ≤ e.span.stop) :
    firstConflict? l = none ∧ Apart l ∨
      ∃ s t, firstConflict? l = some (s, t) ∧ FirstOverlap l s t := by
  rcases firstConflict?_cases hsorted with
    ⟨hnone, hgaps⟩ | ⟨before, a, b, behind, rfl, hsome, hab, hgaps⟩
  · exact Or.inl ⟨hnone, (apart_iff hsorted hspans).2 hgaps⟩
  · have hmem : ∀ e ∈ before ++ [a], e ∈ before ++ a :: b :: behind := by
      intro e he
      rw [List.append_cons]
      exact List.mem_append_left _ he
    have hfront : (before ++ [a]).Pairwise fun a b => a.span.le b.span = true := by
      rw [List.append_cons] at hsorted
      exact (List.pairwise_append.1 hsorted).1
    have hle : a.span.le b.span = true :=
      List.rel_of_pairwise_cons (List.pairwise_append.1 hsorted).2.1 List.mem_cons_self
    refine Or.inr ⟨_, _, hsome, before, a, b, behind, rfl, rfl, rfl, ?_, ?_⟩
    · exact (Span.overlaps_iff_of_le (hspans a (by simp)) (hspans b (by simp)) hle).2 hab
    · exact (apart_iff hfront fun e he => hspans e (hmem e he)).2 hgaps

theorem FirstOverlap.not_apart {s t : Span} (h : FirstOverlap l s t) : ¬Apart l := by
  obtain ⟨before, a, b, behind, rfl, rfl, rfl, hoverlaps, -⟩ := h
  intro hapart
  have hab := List.rel_of_pairwise_cons (List.pairwise_append.1 hapart).2.1
    (List.mem_cons_self : b ∈ b :: behind)
  exact absurd hoverlaps (by simp [hab])

/-! ## Splicing -/

/-- An edit that is not in front of what is copied and cuts no character puts its text in. -/
theorem splice_cons {copied : Nat} {e : Edit} {kept removed rest : List Char}
    (hstart : copied + Text.byteLength kept = e.span.start)
    (hstop : e.span.start + Text.byteLength removed = e.span.stop) :
    splice copied (kept ++ removed ++ rest) (e :: l) =
      (splice e.span.stop rest l).map fun tail => kept ++ e.newText.toList ++ tail := by
  have hlength : copied + Text.byteLength (kept ++ removed ++ rest) =
      e.span.stop + Text.byteLength rest := by
    simp only [Text.byteLength_append]
    omega
  have hmaxStart : max copied (min e.span.start (e.span.stop + Text.byteLength rest)) =
      e.span.start := by omega
  have hmaxStop : max e.span.start (min e.span.stop (e.span.stop + Text.byteLength rest)) =
      e.span.stop := by omega
  have hkept : Text.splitAt? (e.span.start - copied) (kept ++ removed ++ rest) =
      some (kept, removed ++ rest) :=
    Text.splitAt?_eq_some_iff.2 ⟨List.append_assoc kept removed rest, by omega⟩
  have hremoved : Text.drop? (e.span.stop - e.span.start) (removed ++ rest) = some rest := by
    rw [Text.drop?, Text.splitAt?_eq_some_iff.2 ⟨rfl, by omega⟩]
    rfl
  rw [splice]
  simp only [hlength, hmaxStart, hmaxStop, hkept, hremoved]
  cases splice e.span.stop rest l <;> rfl

theorem replaceIn_eq {e : Edit} {a : List Char} (removed b : List Char)
    (hstart : Text.byteLength a = e.span.start)
    (hstop : Text.byteLength a + Text.byteLength removed = e.span.stop) :
    e.replaceIn (a ++ removed ++ b) = some (a ++ e.newText.toList ++ b) := by
  have htake : Text.take? e.span.start (a ++ removed ++ b) = some a := by
    rw [Text.take?, Text.splitAt?_eq_some_iff.2 ⟨List.append_assoc a removed b, hstart⟩]
    rfl
  have hdrop : Text.drop? e.span.stop (a ++ removed ++ b) = some b := by
    have hlength : Text.byteLength (a ++ removed) = e.span.stop := by
      rw [Text.byteLength_append, hstop]
    rw [Text.drop?, Text.splitAt?_eq_some_iff.2 ⟨rfl, hlength⟩]
    rfl
  unfold replaceIn
  rw [htake, hdrop]
  rfl

/-- One pass over what is left of the text does what replacing the edits one by one does, the last
one first. -/
theorem exists_splice (done rest : List Char)
    (hgaps : l.Pairwise fun a b => a.span.stop ≤ b.span.start)
    (hspans : ∀ e ∈ l, e.span.start ≤ e.span.stop)
    (hbehind : ∀ e ∈ l, Text.byteLength done ≤ e.span.start)
    (hcuts : ∀ e ∈ l, Text.IsCut (done ++ rest) e.span.start ∧ Text.IsCut (done ++ rest) e.span.stop) :
    ∃ out, splice (Text.byteLength done) rest l = .ok out ∧
      l.foldrM replaceIn (done ++ rest) = some (done ++ out) := by
  induction l generalizing done rest with
  | nil => exact ⟨rest, rfl, rfl⟩
  | cons e l ih =>
    obtain ⟨hgap, hrest⟩ := List.pairwise_cons.1 hgaps
    have hle := hspans e List.mem_cons_self
    obtain ⟨kept, rest', rfl, hkept⟩ :=
      (hcuts e List.mem_cons_self).1.exists_append (hbehind e List.mem_cons_self)
    have hstop := (hcuts e List.mem_cons_self).2
    rw [← List.append_assoc] at hstop
    obtain ⟨removed, rest, rfl, hremoved⟩ :=
      hstop.exists_append (by rw [Text.byteLength_append]; omega)
    rw [Text.byteLength_append] at hremoved
    have hdone : Text.byteLength (done ++ kept ++ removed) = e.span.stop := by
      rw [Text.byteLength_append, Text.byteLength_append, hremoved]
    have htext : done ++ (kept ++ (removed ++ rest)) = done ++ kept ++ removed ++ rest := by simp
    obtain ⟨tail, hsplice, hfold⟩ := ih (done ++ kept ++ removed) rest hrest
      (fun e' he' => hspans e' (List.mem_cons_of_mem _ he'))
      (fun e' he' => hdone ▸ hgap e' he')
      (fun e' he' => htext ▸ hcuts e' (List.mem_cons_of_mem _ he'))
    refine ⟨kept ++ e.newText.toList ++ tail, ?_, ?_⟩
    · rw [← List.append_assoc, splice_cons hkept (by omega), ← hdone, hsplice]
      rfl
    · rw [List.foldrM_cons, htext, hfold]
      have hreplace : e.replaceIn (done ++ kept ++ removed ++ tail) =
          some (done ++ kept ++ e.newText.toList ++ tail) :=
        replaceIn_eq removed tail (by rw [Text.byteLength_append, hkept])
          (by rw [Text.byteLength_append, hremoved])
      simpa using hreplace

/-! ## Batches -/

/-- A batch fails on the first two edits, in order of position, that overlap. -/
theorem applyAll_cases (source : String) (hspans : ∀ e ∈ edits, e.span.start ≤ e.span.stop) :
    Apart edits ∧
        applyAll source edits = (splice 0 source.toList (ordered edits)).map String.ofList ∨
      ∃ s t, applyAll source edits = .error (.conflict s t) ∧ FirstOverlap (ordered edits) s t := by
  have hordered : ∀ e ∈ ordered edits, e.span.start ≤ e.span.stop :=
    fun e he => hspans e ((inOrder_ordered edits).perm.mem_iff.1 he)
  unfold applyAll
  rcases firstConflict?_decides (pairwise_ordered edits) hordered with
    ⟨hnone, hapart⟩ | ⟨s, t, hsome, hfirst⟩
  · refine Or.inl ⟨apart_ordered_iff.1 hapart, ?_⟩
    simp only [hnone]
  · refine Or.inr ⟨s, t, ?_, hfirst⟩
    simp only [hsome]

theorem pairwise_le_of_gaps (hspans : ∀ e ∈ l, e.span.start ≤ e.span.stop)
    (hgaps : l.Pairwise fun a b => a.span.stop ≤ b.span.start) :
    l.Pairwise fun a b => a.span.le b.span = true := by
  refine hgaps.imp_of_mem fun {a b} ha hb hab => Span.le_iff.2 ?_
  have hle := hspans a ha
  have hle' := hspans b hb
  omega

/-- Edits that leave gaps are only copied in. -/
theorem applyAll_of_gaps (source : String) (hspans : ∀ e ∈ l, e.span.start ≤ e.span.stop)
    (hgaps : l.Pairwise fun a b => a.span.stop ≤ b.span.start) :
    applyAll source l = (splice 0 source.toList l).map String.ofList := by
  have hsorted := pairwise_le_of_gaps hspans hgaps
  have hordered : ordered l = l := List.mergeSort_of_pairwise hsorted
  rcases applyAll_cases source hspans with ⟨-, happly⟩ | ⟨s, t, -, hfirst⟩
  · rwa [hordered] at happly
  · rw [hordered] at hfirst
    exact absurd ((apart_iff hsorted hspans).2 hgaps) hfirst.not_apart

theorem splice_ne_conflict {copied : Nat} {rest : List Char} {s t : Span} :
    splice copied rest l ≠ .error (.conflict s t) := by
  induction l generalizing copied rest with
  | nil => simp [splice]
  | cons e l ih =>
    rw [splice]
    split
    · simp
    · split
      · simp
      · split
        · next herror =>
          intro heq
          rw [heq] at herror
          exact ih herror
        · simp

/-- A batch fails exactly if two of its edits overlap, and reports the first neighbours in order of
position that do. Otherwise its edits can be put in one by one, the last one first. The order in which
the edits come matters for edits of one span only. -/
theorem applyAll_decides (source : String) (edits : List Edit)
    (hspans : ∀ e ∈ edits, e.span.start ≤ e.span.stop) :
    InOrder edits (ordered edits) ∧
    ((∃ s t, applyAll source edits = .error (.conflict s t)) ↔ Overlapping edits) ∧
    (∀ s t, applyAll source edits = .error (.conflict s t) → FirstOverlap (ordered edits) s t) ∧
    (¬Overlapping edits →
      (∀ e ∈ edits, Text.IsCut source.toList e.span.start ∧ Text.IsCut source.toList e.span.stop) →
      ∃ out, applyAll source edits = .ok (String.ofList out) ∧
        (ordered edits).foldrM replaceIn source.toList = some out) ∧
    ∀ edits', edits'.Perm edits →
      (∀ s, (edits'.filter fun e => e.span = s) = edits.filter fun e => e.span = s) →
      applyAll source edits' = applyAll source edits := by
  have hreported : ∀ s t, applyAll source edits = .error (.conflict s t) →
      FirstOverlap (ordered edits) s t := by
    intro s t herror
    rcases applyAll_cases source hspans with ⟨-, hsplice⟩ | ⟨s', t', hconflict, hfirst⟩
    · rw [herror] at hsplice
      cases hcopy : splice 0 source.toList (ordered edits) with
      | ok out => simp [hcopy, Except.map] at hsplice
      | error e =>
        rw [hcopy] at hsplice
        obtain rfl := Except.error.inj hsplice
        exact absurd hcopy splice_ne_conflict
    · rw [herror] at hconflict
      obtain ⟨rfl, rfl⟩ := EditError.conflict.inj (Except.error.inj hconflict)
      exact hfirst
  refine ⟨inOrder_ordered edits, ?fails, hreported, ?spliced, ?order⟩
  case fails =>
    constructor
    · rintro ⟨s, t, herror⟩
      refine Classical.not_not.1 fun hnone => ?_
      exact (hreported s t herror).not_apart
        (apart_ordered_iff.2 (not_overlapping_iff.1 hnone))
    · intro hoverlapping
      rcases applyAll_cases source hspans with ⟨hapart, -⟩ | ⟨s, t, hconflict, -⟩
      · exact absurd hoverlapping (not_overlapping_iff.2 hapart)
      · exact ⟨s, t, hconflict⟩
  case spliced =>
    intro hnone hcuts
    have hapart := not_overlapping_iff.1 hnone
    have hmem : ∀ {e}, e ∈ ordered edits → e ∈ edits := (inOrder_ordered edits).perm.mem_iff.1
    have hgaps := (apart_iff (pairwise_ordered edits) fun e he => hspans e (hmem he)).1
      (apart_ordered_iff.2 hapart)
    obtain ⟨out, hsplice, hfold⟩ := exists_splice [] source.toList hgaps
      (fun e he => hspans e (hmem he)) (fun e _ => Nat.zero_le _) (fun e he => hcuts e (hmem he))
    refine ⟨out, ?_, hfold⟩
    rcases applyAll_cases source hspans with ⟨-, happly⟩ | ⟨s, t, -, hfirst⟩
    · rw [happly, ← Text.byteLength_nil, hsplice]
      rfl
    · exact absurd (apart_ordered_iff.2 hapart) hfirst.not_apart
  case order =>
    intro edits' hperm hties
    unfold applyAll
    rw [ordered_congr hperm hties]

/-- Two insertions in front of the last character of a text, and a replacement of it. -/
def frontOfLast : List Edit := [insertion 2 "1", insertion 2 "2", ⟨⟨2, 3⟩, "x"⟩]

/-- The insertions stay in front of what is replaced, wherever that comes in the batch. -/
theorem applyAll_decides_frontOfLast :
    (∀ e ∈ frontOfLast, e.span.start ≤ e.span.stop) ∧ ¬Overlapping frontOfLast ∧
    (∀ e ∈ frontOfLast, Text.IsCut "éa".toList e.span.start ∧ Text.IsCut "éa".toList e.span.stop) ∧
    (ordered frontOfLast).foldrM replaceIn "éa".toList = some "é12x".toList ∧
    applyAll "éa" [⟨⟨2, 3⟩, "x"⟩, insertion 2 "1", insertion 2 "2"] = .ok "é12x" := by
  have hspans : ∀ e ∈ frontOfLast, e.span.start ≤ e.span.stop := by decide +kernel
  have hnone : ¬Overlapping frontOfLast := not_overlapping_iff.2 (by unfold Apart; decide +kernel)
  have hcuts : ∀ e ∈ frontOfLast,
      Text.IsCut "éa".toList e.span.start ∧ Text.IsCut "éa".toList e.span.stop := by
    have htwo : Text.IsCut ['é', 'a'] 2 := ⟨['é'], ['a'], rfl, rfl⟩
    have hthree : Text.IsCut ['é', 'a'] 3 := ⟨['é', 'a'], [], rfl, rfl⟩
    simp [frontOfLast, insertion, Span.point, htwo, hthree]
  have hordered : ordered frontOfLast = frontOfLast := List.mergeSort_of_pairwise (by decide +kernel)
  have hreplaced : (ordered frontOfLast).foldrM replaceIn "éa".toList = some "é12x".toList := by
    rw [hordered]
    decide +kernel
  obtain ⟨-, -, -, hspliced, horder⟩ := applyAll_decides "éa" frontOfLast hspans
  obtain ⟨out, happly, hfold⟩ := hspliced hnone hcuts
  obtain rfl : out = "é12x".toList := Option.some.inj (hfold.symm.trans hreplaced)
  rw [String.ofList_toList] at happly
  refine ⟨hspans, hnone, hcuts, hreplaced, ?_⟩
  rw [← happly]
  refine horder ([⟨⟨2, 3⟩, "x"⟩] ++ [insertion 2 "1", insertion 2 "2"]) List.perm_append_comm
    fun s => ?_
  by_cases hlast : (⟨2, 3⟩ : Span) = s
  · subst hlast
    rfl
  · simp [frontOfLast, List.filter_cons, hlast]

end Edit

end HotReload
