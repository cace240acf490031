import HotReload.Proofs.Change.Replay
import HotReload.Source.Builder
import HotReload.Verdict.Classify

/-
  What the comparison of lines answers does not matter for what the regions do. Of a differ only
  `LineDiff.Covers` is asked: its lines are not empty and make up the texts. Then applying the
  regions to the old text gives the new one, no region means equal texts, and a file counts as
  unchanged exactly if text and symbols are equal (`round_trip`).
-/

namespace HotReload

theorem Tree.root_eq_ok {t : Tree} (h : 0 < t.size) : t.root = .ok ⟨0, h⟩ := dif_pos h

/-- With both roots there, a difference is the difference of the texts. -/
theorem Tree.diffBy_eq {old new : Tree} (differ : Differ) (hold : 0 < old.size)
    (hnew : 0 < new.size) : old.diffBy differ new = .ok (differ.between old.text new.text) := by
  unfold Tree.diffBy
  rw [root_eq_ok hold, root_eq_ok hnew]
  rfl

/-- The regions between two texts replay, also if the texts are not compared at all. -/
theorem Differ.applyAll_between {differ : Differ} {oldText newText : String}
    (h : (differ oldText newText).Covers oldText newText)
    (hold : oldText.utf8ByteSize ≤ Text.maxOffset)
    (hnew : newText.utf8ByteSize ≤ Text.maxOffset) :
    Region.applyAll oldText (differ.between oldText newText) = .ok newText := by
  unfold Differ.between
  split
  · next heq =>
    rw [← heq]
    simpa using (Patch.rest 0 0 oldText.toList).applyAll_eq
  · simpa using (h.patch hold hnew).applyAll_eq

theorem Differ.between_eq_nil_iff {differ : Differ} {oldText newText : String}
    (h : (differ oldText newText).Covers oldText newText)
    (hold : oldText.utf8ByteSize ≤ Text.maxOffset)
    (hnew : newText.utf8ByteSize ≤ Text.maxOffset) :
    differ.between oldText newText = [] ↔ oldText = newText := by
  constructor
  · intro hnil
    have happly := Differ.applyAll_between h hold hnew
    have hself := (Patch.rest 0 0 oldText.toList).applyAll_eq
    rw [String.ofList_toList] at hself
    rw [hnil, hself] at happly
    exact Except.ok.inj happly
  · intro heq
    exact if_pos heq

namespace Verdict

theorem ofClasses_ne_unchanged (classes : List RegionClass) : ofClasses classes ≠ .unchanged := by
  unfold ofClasses
  split <;> simp

/-- A verdict on regions says unchanged only if there are none. -/
theorem ofRegions_eq_unchanged_iff {config : ReloadConfig} {old new : Tree}
    {regions : List Region} (hold : 0 < old.size) (hnew : 0 < new.size) :
    ofRegions config old new regions = .unchanged ↔ old.symbols = new.symbols ∧ regions = [] := by
  have ho : old.nodes.isEmpty = false := by
    simpa [Tree.size, Nat.pos_iff_ne_zero] using hold
  have hn : new.nodes.isEmpty = false := by
    simpa [Tree.size, Nat.pos_iff_ne_zero] using hnew
  unfold ofRegions
  rw [ho, hn]
  by_cases hs : old.symbols = new.symbols
  · by_cases hr : regions = []
    · simp [hs, hr]
    · simp only [hs, hr, ne_eq, not_true_eq_false, if_false, Bool.or_self, Bool.false_eq_true,
        List.isEmpty_iff, and_false, iff_false]
      split
      · simp
      · exact ofClasses_ne_unchanged _
  · simp [hs]

theorem classifyBy_eq_unchanged_iff {differ : Differ} {config : ReloadConfig} {old new : Tree}
    (h : (differ old.text new.text).Covers old.text new.text)
    (holdText : old.text.utf8ByteSize ≤ Text.maxOffset)
    (hnewText : new.text.utf8ByteSize ≤ Text.maxOffset)
    (hold : 0 < old.size) (hnew : 0 < new.size) :
    classifyBy differ config old new = .unchanged ↔
      old.text = new.text ∧ old.symbols = new.symbols := by
  unfold classifyBy
  rw [Tree.diffBy_eq differ hold hnew]
  by_cases hs : old.symbols = new.symbols
  · simp only [hs, ne_eq, not_true_eq_false, if_false]
    rw [ofRegions_eq_unchanged_iff hold hnew, Differ.between_eq_nil_iff h holdText hnewText]
    simp [hs]
  · simp [hs]

end Verdict

/-- Regions lead from the old text to the new one, whatever script they come from. So two versions
of a file have no region between them exactly if their texts are equal, and the file counts as
unchanged exactly if its symbols are equal, too. -/
theorem round_trip (differ : Differ)
    (hcovers : ∀ oldText newText, (differ oldText newText).Covers oldText newText) :
    (∀ oldText newText : String, oldText.utf8ByteSize ≤ Text.maxOffset →
      newText.utf8ByteSize ≤ Text.maxOffset →
      Region.applyAll oldText (differ oldText newText).regions = .ok newText) ∧
    ∀ old new : Tree, old.text.utf8ByteSize ≤ Text.maxOffset →
      new.text.utf8ByteSize ≤ Text.maxOffset → 0 < old.size → 0 < new.size →
      (old.diffBy differ new = .ok [] ↔ old.text = new.text) ∧
      ∀ config, Verdict.classifyBy differ config old new = .unchanged ↔
        old.text = new.text ∧ old.symbols = new.symbols := by
  refine ⟨fun oldText newText hold hnew => ?_, fun old new holdText hnewText hold hnew =>
    ⟨?_, fun config => ?_⟩⟩
  · simpa using ((hcovers oldText newText).patch hold hnew).applyAll_eq
  · rw [Tree.diffBy_eq differ hold hnew, Except.ok.injEq]
    exact Differ.between_eq_nil_iff (hcovers _ _) holdText hnewText
  · exact Verdict.classifyBy_eq_unchanged_iff (hcovers _ _) holdText hnewText hold hnew

/-- A differ whose script fits no text: lengths overshoot and the operations end early. -/
def Differ.overshooting : Differ := fun oldText newText =>
  { Differ.byLines oldText newText with
    script := [⟨.equal, 4, 3, 9, 2⟩, ⟨.insert, 0, 9, 0, 1⟩, ⟨.equal, 7, 1, 7, 5⟩] }

theorem Differ.covers_overshooting (oldText newText : String) :
    (overshooting oldText newText).Covers oldText newText :=
  have h := Differ.covers_byLines oldText newText
  ⟨h.old_flatten, h.new_flatten, h.old_ne_nil, h.new_ne_nil⟩

theorem round_trip_overshooting :
    (∀ oldText newText, (Differ.overshooting oldText newText).Covers oldText newText) ∧
    ∃ old new : Tree, Tree.ofPlainText "A" "a\nb\nc\n" .empty = .ok old ∧
      Tree.ofPlainText "A" "a\nd\nb\n" .empty = .ok new ∧
      (old.text.utf8ByteSize ≤ Text.maxOffset ∧ new.text.utf8ByteSize ≤ Text.maxOffset ∧
        0 < old.size ∧ 0 < new.size) ∧
      Region.applyAll old.text (Differ.overshooting old.text new.text).regions = .ok new.text ∧
      (old.diffBy .overshooting new = .ok [] ↔ old.text = new.text) ∧
      Verdict.classifyBy .overshooting .standard old new ≠ .unchanged := by
  refine ⟨Differ.covers_overshooting, _, _, rfl, rfl, by decide, ?_⟩
  have h := round_trip _ Differ.covers_overshooting
  refine ⟨h.1 _ _ (by decide) (by decide),
    (h.2 _ _ (by decide) (by decide) (by decide) (by decide)).1, fun hunchanged => ?_⟩
  have heq := ((h.2 _ _ (by decide) (by decide) (by decide) (by decide)).2 _).1 hunchanged
  exact absurd heq.1 (by decide)
end HotReload
