import HotReload.Proofs.Change.RoundTrip
import HotReload.Proofs.Text.Weave

/-
  Where regions stand in the two texts. Each one is what stands between two cuts of the old text and
  two cuts of the new one, and the two sides differ at both ends (`Region.Stands`). Between two of them
  text is kept, so they are apart on both sides, and how far the new side is ahead of the old one is
  what the regions in front add to the text (`Spaced.pairwise_lt`, `Spaced.growth?_before`). All this is
  by induction on how the two texts are written side by side; `Tree.geometry_diffBy` has it for two
  trees and every comparison of lines.
-/

namespace HotReload

namespace Region

/-- The region is a slice of either text, its text the one of the new side, and they differ. -/
def Stands (old new : List Char) (r : Region) : Prop :=
  ∃ removed, Text.slice? r.span.start r.span.stop old = some removed ∧
    Text.slice? r.newSpan.start r.newSpan.stop new = some r.newText.toList ∧
    Differing removed r.newText.toList

/-- By how much regions let the text grow. -/
def growth? : List Region → Option Int
  | [] => some 0
  | r :: regions => do
    let delta ← r.delta?
    let rest ← growth? regions
    return delta + rest

variable {old new : List Char} {r : Region}

theorem growth?_snoc {regions : List Region} {growth delta : Int}
    (hregions : growth? regions = some growth) (hr : r.delta? = some delta) :
    growth? (regions ++ [r]) = some (growth + delta) := by
  induction regions generalizing growth with
  | nil =>
    obtain rfl : 0 = growth := Option.some.inj hregions
    simp [growth?, hr]
  | cons a regions ih =>
    simp only [growth?, Option.bind_eq_bind, Option.bind_eq_some_iff, Option.pure_def,
      Option.some.injEq] at hregions
    obtain ⟨first, hfirst, rest, hrest, rfl⟩ := hregions
    rw [List.cons_append, growth?, hfirst, ih hrest, Int.add_assoc]
    rfl

theorem delta?_eq (removed n : Nat) {start : Nat} {inserted : List Char}
    (h : Text.byteLength inserted ≤ Text.maxOffset) :
    delta? ⟨⟨start, start + removed⟩, n, String.ofList inserted⟩ =
      some ((Text.byteLength inserted : Int) - removed) := by
  have hlength : (String.ofList inserted).utf8ByteSize ≤ Text.maxOffset := by
    rwa [Text.utf8ByteSize_eq_byteLength, String.toList_ofList]
  rw [delta?, newLength_eq hlength, String.toList_ofList, Span.length?,
    if_pos (Nat.le_add_right _ _), Nat.add_sub_cancel_left]
  rfl

theorem Stands.append_text (h : r.Stands old new) (x y : List Char) :
    r.Stands (old ++ x) (new ++ y) := by
  obtain ⟨removed, hold, hnew, hdiffering⟩ := h
  exact ⟨removed, Text.slice?_append_text hold x, Text.slice?_append_text hnew y, hdiffering⟩

theorem Stands.stop_le (h : r.Stands old new) :
    r.span.stop ≤ Text.byteLength old ∧ r.newSpan.stop ≤ Text.byteLength new := by
  obtain ⟨removed, hold, hnew, -⟩ := h
  obtain ⟨-, -, hstop⟩ := Text.isCut_of_slice? hold
  obtain ⟨-, -, hnewStop⟩ := Text.isCut_of_slice? hnew
  exact ⟨hstop.le_byteLength, hnewStop.le_byteLength⟩

end Region

namespace Spaced

variable {apart : Bool} {regions : List Region} {old new : List Char}

/-- What differs is a region of the texts that end with it. -/
theorem stands_last (old : List Char) {new removed inserted : List Char}
    (hnew : Text.byteLength (new ++ inserted) ≤ Text.maxOffset)
    (hdiffering : Differing removed inserted) :
    Region.Stands (old ++ removed) (new ++ inserted)
      ⟨⟨Text.byteLength old, Text.byteLength old + Text.byteLength removed⟩,
        Text.byteLength new, String.ofList inserted⟩ := by
  rw [Text.byteLength_append] at hnew
  refine ⟨removed, ?_, ?_, by rw [String.toList_ofList]; exact hdiffering⟩
  · exact Text.slice?_eq_some_iff.2 ⟨old, [], by simp, rfl, rfl⟩
  · rw [Region.newSpan_eq (by rw [String.toList_ofList]; exact hnew), String.toList_ofList]
    exact Text.slice?_eq_some_iff.2 ⟨new, [], by simp, rfl, rfl⟩

theorem stands (h : Spaced apart regions old new)
    (hnew : Text.byteLength new ≤ Text.maxOffset) : ∀ r ∈ regions, r.Stands old new := by
  induction h with
  | start => simp
  | keep _ kept ih =>
    rw [Text.byteLength_append] at hnew
    exact fun r hr => (ih (by omega) r hr).append_text kept kept
  | region _ hdiffering ih =>
    intro r hr
    rcases List.mem_append.1 hr with hr | hr
    · rw [Text.byteLength_append] at hnew
      exact (ih (by omega) r hr).append_text _ _
    · obtain rfl := List.mem_singleton.1 hr
      exact stands_last _ hnew hdiffering

/-- Behind kept text all regions end in front of the ends of both texts. -/
theorem stop_lt (h : Spaced apart regions old new) (hapart : apart = true)
    (hnew : Text.byteLength new ≤ Text.maxOffset) :
    ∀ r ∈ regions, r.span.stop < Text.byteLength old ∧ r.newSpan.stop < Text.byteLength new := by
  induction h with
  | start => simp
  | @keep apart' _ _ _ hbefore kept ih =>
    intro r hr
    rw [Text.byteLength_append] at hnew ⊢
    rw [Text.byteLength_append]
    cases kept with
    | nil =>
      have hlt := ih (by simpa using hapart) (by omega) r hr
      simpa using hlt
    | cons c kept =>
      have hle := (hbefore.stands (by omega) r hr).stop_le
      have hpos := c.utf8Size_pos
      rw [Text.byteLength_cons]
      omega
  | region => exact absurd hapart Bool.false_ne_true

theorem pairwise_lt (h : Spaced apart regions old new)
    (hnew : Text.byteLength new ≤ Text.maxOffset) :
    regions.Pairwise fun a b =>
      a.span.stop < b.span.start ∧ a.newSpan.stop < b.newSpan.start := by
  induction h with
  | start => exact .nil
  | keep _ kept ih =>
    rw [Text.byteLength_append] at hnew
    exact ih (by omega)
  | region hbefore _ ih =>
    rw [Text.byteLength_append] at hnew
    refine List.pairwise_append.2 ⟨ih (by omega), List.pairwise_singleton _ _, fun a ha b hb => ?_⟩
    obtain rfl := List.mem_singleton.1 hb
    exact hbefore.stop_lt rfl (by omega) a ha

/-- The new text is longer than the old one by what the regions add. -/
theorem growth?_eq (h : Spaced apart regions old new)
    (hnew : Text.byteLength new ≤ Text.maxOffset) :
    Region.growth? regions = some ((Text.byteLength new : Int) - Text.byteLength old) := by
  induction h with
  | start => rfl
  | keep _ kept ih =>
    simp only [Text.byteLength_append] at hnew ⊢
    rw [ih (by omega)]
    congr 1
    omega
  | @region regions old new _ removed inserted _ ih =>
    simp only [Text.byteLength_append] at hnew ⊢
    rw [Region.growth?_snoc (ih (by omega)) (Region.delta?_eq _ _ (by omega))]
    congr 1
    omega

/-- A region starts in the new text as far from its old place as the regions in front let the text
grow. -/
theorem growth?_before (h : Spaced apart regions old new)
    (hnew : Text.byteLength new ≤ Text.maxOffset) {before behind : List Region} {r : Region}
    (hsplit : regions = before ++ r :: behind) :
    Region.growth? before = some ((r.newStart : Int) - r.span.start) := by
  induction h generalizing behind with
  | start => simp at hsplit
  | keep _ kept ih =>
    rw [Text.byteLength_append] at hnew
    exact ih (by omega) hsplit
  | region hbefore _ ih =>
    rw [Text.byteLength_append] at hnew
    rcases List.eq_nil_or_concat behind with rfl | ⟨behind, last, rfl⟩
    · obtain ⟨rfl, hr⟩ := List.append_inj' hsplit rfl
      obtain rfl := List.singleton_inj.1 hr
      exact hbefore.growth?_eq (by omega)
    · rw [List.concat_eq_append, ← List.cons_append, ← List.append_assoc] at hsplit
      exact ih (by omega) (List.append_inj' hsplit rfl).1

end Spaced

/-- The regions of a comparison stand between the two texts, also if the texts are not compared at
all. -/
theorem Differ.spaced_between {differ : Differ} {oldText newText : String}
    (h : (differ oldText newText).Covers oldText newText)
    (hold : oldText.utf8ByteSize ≤ Text.maxOffset)
    (hnew : newText.utf8ByteSize ≤ Text.maxOffset) :
    ∃ apart, Spaced apart (differ.between oldText newText) oldText.toList newText.toList := by
  unfold Differ.between
  split
  · next heq =>
    subst heq
    exact ⟨_, by simpa using Spaced.start.keep oldText.toList⟩
  · exact h.spaced hold hnew

namespace Tree

/-- Where the regions of a comparison stand in the two texts, whatever script they come from. A region
lies between cuts of either text, its text is what stands on its new side, and the two sides differ at
both ends, or one of them is empty. Two regions are apart on both sides, and a region starts in the
new text as far from its old place as the deltas of all earlier regions add up to. -/
theorem geometry_diffBy (differ : Differ) (old new : Tree)
    (hcovers : (differ old.text new.text).Covers old.text new.text)
    (holdText : old.text.utf8ByteSize ≤ Text.maxOffset)
    (hnewText : new.text.utf8ByteSize ≤ Text.maxOffset) (hold : 0 < old.size)
    (hnew : 0 < new.size) :
    ∃ regions, old.diffBy differ new = .ok regions ∧
      (∀ r ∈ regions, r.span.start ≤ r.span.stop ∧
        Text.IsCut old.text.toList r.span.start ∧ Text.IsCut old.text.toList r.span.stop ∧
        Text.IsCut new.text.toList r.newSpan.start ∧ Text.IsCut new.text.toList r.newSpan.stop ∧
        new.slice r.newSpan = r.newText ∧
        Differing (old.slice r.span).toList (new.slice r.newSpan).toList) ∧
      (regions.Pairwise fun a b =>
        a.span.stop < b.span.start ∧ a.newSpan.stop < b.newSpan.start) ∧
      ∀ before r behind, regions = before ++ r :: behind →
        Region.growth? before = some ((r.newStart : Int) - r.span.start) := by
  obtain ⟨apart, hspaced⟩ := Differ.spaced_between hcovers holdText hnewText
  rw [Text.utf8ByteSize_eq_byteLength] at hnewText
  refine ⟨_, diffBy_eq differ hold hnew, fun r hr => ?_, hspaced.pairwise_lt hnewText,
    fun before r behind hsplit => hspaced.growth?_before hnewText hsplit⟩
  obtain ⟨removed, hremoved, hinserted, hdiffering⟩ := hspaced.stands hnewText r hr
  obtain ⟨hle, hstart, hstop⟩ := Text.isCut_of_slice? hremoved
  obtain ⟨-, hnewStart, hnewStop⟩ := Text.isCut_of_slice? hinserted
  refine ⟨hle, hstart, hstop, hnewStart, hnewStop, ?_, ?_⟩
  · rw [slice, hinserted, Option.getD_some, String.ofList_toList]
  · rw [slice, slice, hremoved, hinserted, Option.getD_some, Option.getD_some,
      String.toList_ofList, String.toList_ofList]
    exact hdiffering

/-- Two lines edited, one of them between characters of two bytes. -/
theorem geometry_diffBy_overshooting :
    ∃ old new : Tree, Tree.ofPlainText "A" "éaé\nb\nc\n" .empty = .ok old ∧
      Tree.ofPlainText "A" "éxyé\nb\nd\n" .empty = .ok new ∧
      ((Differ.overshooting old.text new.text).Covers old.text new.text ∧
        old.text.utf8ByteSize ≤ Text.maxOffset ∧ new.text.utf8ByteSize ≤ Text.maxOffset ∧
        0 < old.size ∧ 0 < new.size) ∧
      old.diffBy .overshooting new = .ok [⟨⟨2, 3⟩, 2, "xy"⟩, ⟨⟨8, 9⟩, 9, "d"⟩] ∧
      Region.growth? [⟨⟨2, 3⟩, 2, "xy"⟩] = some 1 := by
  have hcovers := Differ.covers_overshooting
  have hregions : ∀ old new : Tree, old.text = "éaé\nb\nc\n" → new.text = "éxyé\nb\nd\n" →
      0 < old.size → 0 < new.size →
      old.diffBy .overshooting new = .ok [⟨⟨2, 3⟩, 2, "xy"⟩, ⟨⟨8, 9⟩, 9, "d"⟩] ∧
        Region.growth? [⟨⟨2, 3⟩, 2, "xy"⟩] = some 1 := by
    intro old new holdText hnewText hold hnew
    obtain ⟨regions, hdiff, -, -, hgrowth⟩ := geometry_diffBy .overshooting old new (hcovers _ _)
      (by rw [holdText]; decide) (by rw [hnewText]; decide) hold hnew
    obtain rfl : [⟨⟨2, 3⟩, 2, "xy"⟩, ⟨⟨8, 9⟩, 9, "d"⟩] = regions := by
      rw [diffBy_eq _ hold hnew, holdText, hnewText] at hdiff
      rw [← Except.ok.inj hdiff]
      decide +kernel
    exact ⟨hdiff, hgrowth [⟨⟨2, 3⟩, 2, "xy"⟩] ⟨⟨8, 9⟩, 9, "d"⟩ [] rfl⟩
  exact ⟨_, _, rfl, rfl, ⟨hcovers _ _, by decide⟩,
    hregions _ _ rfl rfl (by decide) (by decide)⟩

end Tree

end HotReload
