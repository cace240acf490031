import HotReload.Change.Cut
import HotReload.Proofs.Change.Replay
import HotReload.Proofs.Worker.Results

/-
  Cutting out regions never fails. Hunks lie within the lines (`Covered.mem_bounds`), the table of
  line starts has an entry for every line and for the end (`Text.lineStart_lineStarts`), and what
  stands between two line starts are the lines between them (`Text.cut_flatten`). So the regions cut
  out of the texts are those of the lines, for every script (`LineDiff.Covers.cutRegions_eq`).
-/

namespace HotReload

namespace Text

variable {lines : List (List Char)} {i j : Nat}

/-- A line starts behind all lines in front of it. -/
theorem getElem?_lineStarts (offset : Nat) (hi : i ≤ lines.length) :
    (lineStarts offset lines)[i]? = some (offset + byteLength (lines.take i).flatten) := by
  induction lines generalizing offset i with
  | nil =>
    obtain rfl : i = 0 := Nat.le_zero.1 hi
    rfl
  | cons line lines ih =>
    cases i with
    | zero => rfl
    | succ i =>
      rw [lineStarts, List.getElem?_cons_succ, ih _ (Nat.le_of_succ_le_succ hi)]
      simp [Nat.add_assoc]

theorem lineStart_lineStarts (hi : i ≤ lines.length) :
    lineStart (lineStarts 0 lines) i = .ok (byteLength (lines.take i).flatten) := by
  unfold lineStart
  rw [getElem?_lineStarts 0 hi, Nat.zero_add]

/-- The lines between two line starts. -/
theorem cut_flatten (hij : i ≤ j) :
    cut lines.flatten (byteLength (lines.take i).flatten) (byteLength (lines.take j).flatten) =
      .ok ((lines.take j).drop i).flatten := by
  have hflatten : lines.flatten =
      (lines.take i).flatten ++ ((lines.take j).drop i).flatten ++ (lines.drop j).flatten := by
    rw [← flatten_take_of_le lines hij, ← List.flatten_append, List.take_append_drop]
  have hstop : byteLength (lines.take j).flatten =
      byteLength (lines.take i).flatten + byteLength ((lines.take j).drop i).flatten := by
    rw [flatten_take_of_le lines hij, byteLength_append]
  unfold cut
  rw [hflatten, hstop, slice?_append]

end Text

/-- Hunks lie within the lines. -/
theorem Covered.mem_bounds {α : Type} {old new : Array α} {apart : Bool} {hunks : List Hunk}
    {i j : Nat} (h : Covered old new apart hunks i j) : ∀ hunk ∈ hunks,
      hunk.oldStart ≤ hunk.oldStop ∧ hunk.oldStop ≤ old.size ∧
        hunk.newStart ≤ hunk.newStop ∧ hunk.newStop ≤ new.size := by
  induction h with
  | start => simp
  | keep _ _ _ ih => exact ih
  | hunk _ hi hj hi' hj' ih =>
    intro hunk hmem
    rcases List.mem_cons.1 hmem with rfl | hmem
    · exact ⟨hi, hi', hj, hj'⟩
    · exact ih hunk hmem

namespace Region

/-- A hunk within the lines is cut out as its lines are. -/
theorem cutHunk_eq {oldLines newLines : List (List Char)} {h : Hunk}
    (hold : h.oldStart ≤ h.oldStop) (holdStop : h.oldStop ≤ oldLines.length)
    (hnew : h.newStart ≤ h.newStop) (hnewStop : h.newStop ≤ newLines.length) :
    cutHunk oldLines.flatten newLines.flatten (Text.lineStarts 0 oldLines)
      (Text.lineStarts 0 newLines) h = .ok (ofHunk? oldLines newLines h) := by
  unfold cutHunk
  rw [Text.lineStart_lineStarts (Nat.le_trans hold holdStop), Text.lineStart_lineStarts holdStop,
    Text.lineStart_lineStarts (Nat.le_trans hnew hnewStop), Text.lineStart_lineStarts hnewStop]
  simp only [bind, Except.bind, Text.cut_flatten hold, Text.cut_flatten hnew]
  rfl

end Region

/-- The regions cut out of two texts are those of their lines. -/
theorem LineDiff.Covers.cutRegions_eq {d : LineDiff} {oldText newText : String}
    (h : d.Covers oldText newText) : d.cutRegions oldText newText = .ok d.regions := by
  obtain ⟨apart, hcov⟩ := Script.covered_hunks d.oldLines.toArray d.newLines.toArray d.script
  have hbounds := hcov.mem_bounds
  simp only [List.mem_reverse, List.size_toArray] at hbounds
  unfold LineDiff.cutRegions
  rw [← h.old_flatten, ← h.new_flatten]
  dsimp only
  rw [mapM_eq_ok_map (g := Region.ofHunk? d.oldLines d.newLines) fun hunk hmem =>
    have ⟨hold, holdStop, hnew, hnewStop⟩ := hbounds hunk hmem
    Region.cutHunk_eq hold holdStop hnew hnewStop]
  simp only [bind, Except.bind, pure, Except.pure, List.filterMap_map, Function.comp_def, id]
  rfl

end HotReload
