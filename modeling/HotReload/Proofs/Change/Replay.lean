import HotReload.Change.Diff
import HotReload.Proofs.Change.Coverage
import HotReload.Proofs.Text.Splices

/-
  Regions replay. `Patch` says what regions between two texts are: kept text between them is shared,
  and every region takes out what stands there in the old text and puts in what stands there in the
  new one. The hunks of any script over the lines of two texts give such regions
  (`LineDiff.Covers.patch`), and splicing such regions into the old text gives the new one
  (`Patch.applyAll_eq`).
-/

namespace HotReload

theorem Text.offset_eq_self {n : Nat} (h : n ≤ maxOffset) : offset n = n := Nat.min_eq_left h

namespace Region

variable {r : Region}

theorem newLength_eq (h : r.newText.utf8ByteSize ≤ Text.maxOffset) :
    r.newLength = Text.byteLength r.newText.toList := by
  rw [newLength, Text.offset_eq_self h, Text.utf8ByteSize_eq_byteLength]

theorem newSpan_eq (h : r.newStart + Text.byteLength r.newText.toList ≤ Text.maxOffset) :
    r.newSpan = ⟨r.newStart, r.newStart + Text.byteLength r.newText.toList⟩ := by
  have hlength : r.newText.utf8ByteSize ≤ Text.maxOffset := by
    rw [Text.utf8ByteSize_eq_byteLength]
    omega
  rw [newSpan, newLength_eq hlength, Text.offset_eq_self h]

end Region

/-- The regions lead from one text to another; the first offset is where the old text starts and the
second where the new one does. -/
inductive Patch : Nat → Nat → List Region → List Char → List Char → Prop
  | rest (o n : Nat) (kept : List Char) : Patch o n [] kept kept
  | region {o n : Nat} {regions : List Region} {old new : List Char}
      (kept removed inserted : List Char)
      (behind : Patch (o + Text.byteLength kept + Text.byteLength removed)
        (n + Text.byteLength kept + Text.byteLength inserted) regions old new) :
      Patch o n
        (⟨⟨o + Text.byteLength kept, o + Text.byteLength kept + Text.byteLength removed⟩,
          n + Text.byteLength kept, String.ofList inserted⟩ :: regions)
        (kept ++ removed ++ old) (kept ++ inserted ++ new)

namespace Patch

variable {o n : Nat} {regions : List Region} {old new : List Char}

/-- Text that both sides share at the end needs no region. -/
theorem append_kept (h : Patch o n regions old new) (kept : List Char) :
    Patch o n regions (old ++ kept) (new ++ kept) := by
  induction h with
  | rest o n kept' => exact .rest o n (kept' ++ kept)
  | region kept' removed inserted _ ih =>
    simp only [List.append_assoc] at ih ⊢
    simpa only [List.append_assoc] using Patch.region kept' removed inserted ih

/-- One more region at the end. -/
theorem append_region (h : Patch o n regions old new) (removed inserted : List Char) :
    Patch o n
      (regions ++ [⟨⟨o + Text.byteLength old, o + Text.byteLength old + Text.byteLength removed⟩,
        n + Text.byteLength new, String.ofList inserted⟩])
      (old ++ removed) (new ++ inserted) := by
  induction h with
  | rest o n kept =>
    simpa using Patch.region kept removed inserted (.rest _ _ [])
  | region kept' removed' inserted' _ ih =>
    have := Patch.region kept' removed' inserted' ih
    simpa only [List.append_assoc, List.cons_append, Text.byteLength_append, Nat.add_assoc]
      using this

/-- Spans are not inverted, and none starts in front of the text. -/
theorem span_bounds (h : Patch o n regions old new) :
    ∀ r ∈ regions, o ≤ r.span.start ∧ r.span.start ≤ r.span.stop := by
  induction h with
  | rest => simp
  | region kept removed inserted _ ih =>
    intro r hr
    rcases List.mem_cons.1 hr with rfl | hr
    · exact ⟨Nat.le_add_right _ _, Nat.le_add_right _ _⟩
    · obtain ⟨h1, h2⟩ := ih r hr
      exact ⟨by omega, h2⟩

/-- Every region ends at or before the start of all later ones. -/
theorem pairwise_stop_le_start (h : Patch o n regions old new) :
    regions.Pairwise fun a b => a.span.stop ≤ b.span.start := by
  induction h with
  | rest => exact .nil
  | region kept removed inserted behind ih =>
    exact List.pairwise_cons.2 ⟨fun r hr => (behind.span_bounds r hr).1, ih⟩

/-- Copying from the start of the old text on puts every replacement in its place. -/
theorem splice_eq (h : Patch o n regions old new) :
    Edit.splice o old (regions.map Region.edit) = .ok new := by
  induction h with
  | rest => rfl
  | @region o n regions old new kept removed inserted _ ih =>
    rw [List.map_cons, Edit.splice_cons rfl rfl]
    simp only [Region.edit, ih, String.toList_ofList]
    rfl

/-- The old text and the regions make the new text. -/
theorem applyAll_eq (h : Patch 0 0 regions old new) :
    Region.applyAll (String.ofList old) regions = .ok (String.ofList new) := by
  unfold Region.applyAll
  rw [Edit.applyAll_of_gaps, String.toList_ofList, h.splice_eq]
  · rfl
  · exact List.forall_mem_map.2 fun r hr => (h.span_bounds r hr).2
  · exact List.pairwise_map.2 h.pairwise_stop_le_start

end Patch

/-! ## Trimming a hunk -/

theorem drop_length_of_eq_append {α : Type} {l a b : List α} (h : l = a ++ b) :
    l.drop a.length = b := by
  rw [h, List.drop_left]

theorem take_length_sub_of_eq_append {α : Type} {l a b : List α} (h : l = a ++ b.reverse) :
    l.take (l.length - b.length) = a := by
  rw [h, List.length_append, List.length_reverse, Nat.add_sub_cancel, List.take_left]

namespace Region

variable {α : Type} [DecidableEq α]

/-- What two lists share at their start is in front of both, and then they go on differently or one
of them ends. -/
theorem sharedStart_spec (a b : List α) :
    ∃ a' b', a = sharedStart a b ++ a' ∧ b = sharedStart a b ++ b' ∧
      ∀ x, a'.head? = some x → b'.head? ≠ some x := by
  induction a generalizing b with
  | nil => exact ⟨[], b, by simp [sharedStart]⟩
  | cons x a ih =>
    cases b with
    | nil => exact ⟨x :: a, [], by simp [sharedStart]⟩
    | cons y b =>
      by_cases hxy : x = y
      · subst hxy
        obtain ⟨a', b', ha, hb, hne⟩ := ih b
        refine ⟨a', b', ?_, ?_, hne⟩
        · simp only [sharedStart, if_true, List.cons_append, ← ha]
        · simp only [sharedStart, if_true, List.cons_append, ← hb]
      · refine ⟨x :: a, y :: b, ?_, ?_, ?_⟩
        · simp [sharedStart, hxy]
        · simp [sharedStart, hxy]
        · intro z hz hz'
          simp only [List.head?_cons, Option.some.injEq] at hz hz'
          exact hxy (hz.trans hz'.symm)

/-- Two texts cut into a shared head, what differs and a shared tail. The head is as long as it can
be, and then the tail is. -/
structure Trim (before after head removed inserted tail : List Char) : Prop where
  before_eq : before = head ++ removed ++ tail
  after_eq : after = head ++ inserted ++ tail
  head_ne : ∀ c, (removed ++ tail).head? = some c → (inserted ++ tail).head? ≠ some c
  last_ne : ∀ c, removed.getLast? = some c → inserted.getLast? ≠ some c

/-- Trimming finds such a cut, and its region is what differs, unless nothing does. -/
theorem exists_trim {oldStart newStart : Nat} {before after : List Char}
    (hold : oldStart + Text.byteLength before ≤ Text.maxOffset)
    (hnew : newStart + Text.byteLength after ≤ Text.maxOffset) :
    ∃ head removed inserted tail, Trim before after head removed inserted tail ∧
      trimmed? oldStart newStart before after =
        if removed = [] ∧ inserted = [] then none
        else some ⟨⟨oldStart + Text.byteLength head,
            oldStart + Text.byteLength head + Text.byteLength removed⟩,
          newStart + Text.byteLength head, String.ofList inserted⟩ := by
  obtain ⟨b, a, hb, ha, hhead⟩ := sharedStart_spec before after
  obtain ⟨rb, ra, hrb, hra, hlast⟩ := sharedStart_spec b.reverse a.reverse
  have hbeq : b = rb.reverse ++ (sharedStart b.reverse a.reverse).reverse := by
    rw [← List.reverse_append, ← hrb, List.reverse_reverse]
  have haeq : a = ra.reverse ++ (sharedStart b.reverse a.reverse).reverse := by
    rw [← List.reverse_append, ← hra, List.reverse_reverse]
  have htrim : Trim before after (sharedStart before after) rb.reverse ra.reverse
      (sharedStart b.reverse a.reverse).reverse := by
    refine ⟨?_, ?_, ?_, by simpa using hlast⟩
    · rw [List.append_assoc, ← hbeq, ← hb]
    · rw [List.append_assoc, ← haeq, ← ha]
    · rw [← hbeq, ← haeq]
      exact hhead
  refine ⟨_, _, _, _, htrim, ?_⟩
  unfold trimmed?
  simp only [drop_length_of_eq_append hb, drop_length_of_eq_append ha,
    take_length_sub_of_eq_append hbeq, take_length_sub_of_eq_append haeq]
  rw [htrim.before_eq] at hold
  rw [htrim.after_eq] at hnew
  simp only [Text.byteLength_append] at hold hnew
  rw [Text.offset_eq_self (by omega), Text.offset_eq_self (by omega),
    Text.offset_eq_self (by omega)]
  -- where offsets reach, the span is empty exactly if no text goes
  simp only [Bool.and_eq_true, List.isEmpty_iff, Span.isEmpty, decide_eq_true_eq, Nat.left_eq_add,
    Text.byteLength_eq_zero]

end Region

/-! ## From hunks to regions -/

/-- What goes and what comes in are not both empty, and if neither is, they start with different
characters and end with different ones. -/
structure Differing (removed inserted : List Char) : Prop where
  not_empty : ¬(removed = [] ∧ inserted = [])
  first_ne : ∀ c, removed.head? = some c → inserted.head? ≠ some c
  last_ne : ∀ c, removed.getLast? = some c → inserted.getLast? ≠ some c

/-- What trimming leaves differs, if it leaves anything. -/
theorem Region.Trim.differing {before after head removed inserted tail : List Char}
    (h : Trim before after head removed inserted tail) (hsome : ¬(removed = [] ∧ inserted = [])) :
    Differing removed inserted where
  not_empty := hsome
  first_ne c hremoved hinserted := by
    obtain ⟨r, rfl⟩ := List.head?_eq_some_iff.1 hremoved
    obtain ⟨i, rfl⟩ := List.head?_eq_some_iff.1 hinserted
    exact h.head_ne c rfl rfl
  last_ne := h.last_ne

/-- Two texts written side by side, with the regions between them: some text goes into both, or what
differs into each. The flag is set unless a region comes last, so text stands between two regions. -/
inductive Spaced : Bool → List Region → List Char → List Char → Prop
  | start : Spaced true [] [] []
  | keep {apart : Bool} {regions : List Region} {old new : List Char}
      (before : Spaced apart regions old new) (kept : List Char) :
      Spaced (apart || !kept.isEmpty) regions (old ++ kept) (new ++ kept)
  | region {regions : List Region} {old new : List Char} (before : Spaced true regions old new)
      {removed inserted : List Char} (differing : Differing removed inserted) :
      Spaced false
        (regions ++ [⟨⟨Text.byteLength old, Text.byteLength old + Text.byteLength removed⟩,
          Text.byteLength new, String.ofList inserted⟩])
        (old ++ removed) (new ++ inserted)

theorem Spaced.patch {apart : Bool} {regions : List Region} {old new : List Char}
    (h : Spaced apart regions old new) : Patch 0 0 regions old new := by
  induction h with
  | start => exact .rest 0 0 []
  | keep _ kept ih => exact ih.append_kept kept
  | @region _ _ _ _ removed inserted _ ih => simpa using ih.append_region removed inserted

/-- A trimmed hunk behind kept text. -/
theorem Spaced.append_trimmed {regions : List Region} {old new before after : List Char}
    (h : Spaced true regions old new)
    (hold : Text.byteLength (old ++ before) ≤ Text.maxOffset)
    (hnew : Text.byteLength (new ++ after) ≤ Text.maxOffset) :
    ∃ apart, Spaced apart
      (regions ++
        (Region.trimmed? (Text.byteLength old) (Text.byteLength new) before after).toList)
      (old ++ before) (new ++ after) := by
  rw [Text.byteLength_append] at hold hnew
  obtain ⟨head, removed, inserted, tail, htrim, hregion⟩ := Region.exists_trim hold hnew
  rw [hregion, htrim.before_eq, htrim.after_eq]
  have hhead : Spaced true regions (old ++ head) (new ++ head) := h.keep head
  split
  · next hnone =>
    obtain ⟨rfl, rfl⟩ := hnone
    exact ⟨_, by simpa using hhead.keep tail⟩
  · next hsome =>
    have hstep := (hhead.region (htrim.differing hsome)).keep tail
    simp only [Text.byteLength_append] at hstep
    exact ⟨_, by simpa only [List.append_assoc, Option.toList_some] using hstep⟩

theorem flatten_take_of_le (lines : List (List Char)) {i j : Nat} (h : i ≤ j) :
    (lines.take j).flatten = (lines.take i).flatten ++ ((lines.take j).drop i).flatten := by
  rw [← List.flatten_append]
  congr 1
  conv => lhs; rw [← List.take_append_drop i (lines.take j), List.take_take, Nat.min_eq_left h]

theorem byteLength_flatten_take_le (lines : List (List Char)) (i : Nat) :
    Text.byteLength (lines.take i).flatten ≤ Text.byteLength lines.flatten := by
  conv => rhs; rw [← List.take_append_drop i lines, List.flatten_append, Text.byteLength_append]
  exact Nat.le_add_right _ _

/-- Covered lines are texts with regions between them, as long as no line is empty and offsets
reach. -/
theorem Covered.spaced {oldLines newLines : List (List Char)} {apart : Bool} {hunks : List Hunk}
    {i j : Nat} (h : Covered oldLines.toArray newLines.toArray apart hunks i j)
    (hne : ∀ l ∈ oldLines, l ≠ [])
    (hold : Text.byteLength oldLines.flatten ≤ Text.maxOffset)
    (hnew : Text.byteLength newLines.flatten ≤ Text.maxOffset) :
    ∃ apart', (apart = true → apart' = true) ∧
      Spaced apart' (hunks.reverse.filterMap (Region.ofHunk? oldLines newLines))
        (oldLines.take i).flatten (newLines.take j).flatten := by
  induction h with
  | start => exact ⟨true, fun h => h, .start⟩
  | @keep apart hunks i j line _ hi hj ih =>
    obtain ⟨apart', -, hspaced⟩ := ih
    rw [List.getElem?_toArray] at hi hj
    have hline : line ≠ [] := hne line (List.mem_of_getElem? hi)
    refine ⟨apart' || !line.isEmpty, fun _ => by simp [hline], ?_⟩
    rw [List.take_add_one, List.take_add_one, hi, hj]
    simpa using hspaced.keep line
  | @hunk hunks i j i' j' _ hi hj _ _ ih =>
    obtain ⟨apart', hapart, hspaced⟩ := ih
    obtain rfl := hapart rfl
    have ho := flatten_take_of_le oldLines hi
    have hn := flatten_take_of_le newLines hj
    have hob := Nat.le_trans (byteLength_flatten_take_le oldLines i') hold
    have hnb := Nat.le_trans (byteLength_flatten_take_le newLines j') hnew
    rw [ho] at hob ⊢
    rw [hn] at hnb ⊢
    obtain ⟨apart'', hstep⟩ := hspaced.append_trimmed hob hnb
    rw [List.reverse_cons, List.filterMap_append]
    exact ⟨apart'', nofun, hstep⟩

/-- The regions of any script stand between the two texts. -/
theorem LineDiff.Covers.spaced {d : LineDiff} {oldText newText : String}
    (h : d.Covers oldText newText) (hold : oldText.utf8ByteSize ≤ Text.maxOffset)
    (hnew : newText.utf8ByteSize ≤ Text.maxOffset) :
    ∃ apart, Spaced apart d.regions oldText.toList newText.toList := by
  obtain ⟨apart, hcov⟩ := Script.covered_hunks d.oldLines.toArray d.newLines.toArray d.script
  rw [Text.utf8ByteSize_eq_byteLength, ← h.old_flatten] at hold
  rw [Text.utf8ByteSize_eq_byteLength, ← h.new_flatten] at hnew
  obtain ⟨apart', -, hspaced⟩ := hcov.spaced h.old_ne_nil hold hnew
  rw [List.reverse_reverse, List.size_toArray, List.size_toArray, List.take_length,
    List.take_length, h.old_flatten, h.new_flatten] at hspaced
  exact ⟨apart', hspaced⟩

/-- The regions of any script lead from the one text to the other. -/
theorem LineDiff.Covers.patch {d : LineDiff} {oldText newText : String}
    (h : d.Covers oldText newText) (hold : oldText.utf8ByteSize ≤ Text.maxOffset)
    (hnew : newText.utf8ByteSize ≤ Text.maxOffset) :
    Patch 0 0 d.regions oldText.toList newText.toList := by
  obtain ⟨apart, hspaced⟩ := h.spaced hold hnew
  exact hspaced.patch

end HotReload
