import HotReload.Change.Hunk

/-
  The hunks of a script leave out equal lines only. `Covered` says how far some hunks and the kept
  lines between them reach; a cursor keeps it, with the hunk in progress set apart (`Sound`). No
  step looks at what the script claims beyond a tag and two lengths, so `covered_hunks` holds for
  every script: its hunks and equal lines cover both sequences.
-/

namespace HotReload

variable {α : Type}

/-- The hunks, last one first, and equal lines between them reach line `i` of the old and line `j` of
the new sequence. The flag is set unless a hunk comes last, so no hunk follows a hunk. -/
inductive Covered (old new : Array α) : Bool → List Hunk → Nat → Nat → Prop
  | start : Covered old new true [] 0 0
  | keep {apart : Bool} {hunks : List Hunk} {i j : Nat} {line : α}
      (before : Covered old new apart hunks i j)
      (hold : old[i]? = some line) (hnew : new[j]? = some line) :
      Covered old new true hunks (i + 1) (j + 1)
  | hunk {hunks : List Hunk} {i j i' j' : Nat} (before : Covered old new true hunks i j)
      (hi : i ≤ i') (hj : j ≤ j') (hi' : i' ≤ old.size) (hj' : j' ≤ new.size) :
      Covered old new false (⟨i, i', j, j'⟩ :: hunks) i' j'

theorem Covered.le_size {old new : Array α} {apart : Bool} {hunks : List Hunk} {i j : Nat}
    (h : Covered old new apart hunks i j) : i ≤ old.size ∧ j ≤ new.size := by
  cases h with
  | start => exact ⟨Nat.zero_le _, Nat.zero_le _⟩
  | keep _ hold hnew =>
    obtain ⟨hi, -⟩ := Array.getElem?_eq_some_iff.1 hold
    obtain ⟨hj, -⟩ := Array.getElem?_eq_some_iff.1 hnew
    exact ⟨hi, hj⟩
  | hunk _ _ _ hi' hj' => exact ⟨hi', hj'⟩

namespace LineCursor

/-- Everything in front of the cursor is covered, with the hunk in progress as its last part. -/
def Sound (old new : Array α) (c : LineCursor) : Prop :=
  match c.opened with
  | none => Covered old new true c.hunks c.old c.new
  | some (i, j) =>
    Covered old new true c.hunks i j ∧ i ≤ c.old ∧ c.old ≤ old.size ∧ j ≤ c.new ∧ c.new ≤ new.size

variable {old new : Array α} {c : LineCursor}

theorem sound_start : start.Sound old new := Covered.start

theorem Sound.le_size (h : c.Sound old new) : c.old ≤ old.size ∧ c.new ≤ new.size := by
  unfold Sound at h
  split at h
  · exact h.le_size
  · exact ⟨h.2.2.1, h.2.2.2.2⟩

theorem Sound.change (h : c.Sound old new) (m n : Nat) :
    (c.change m n old.size new.size).Sound old new := by
  have ⟨ho, hn⟩ := h.le_size
  obtain ⟨o, w, opened, hunks⟩ := c
  cases opened with
  | none =>
    have hcov : Covered old new true hunks o w := h
    exact ⟨hcov, Nat.le_min.2 ⟨Nat.le_add_right _ _, ho⟩, Nat.min_le_right _ _,
      Nat.le_min.2 ⟨Nat.le_add_right _ _, hn⟩, Nat.min_le_right _ _⟩
  | some at_ =>
    obtain ⟨hcov, hi, -, hj, -⟩ := h
    exact ⟨hcov, Nat.le_min.2 ⟨Nat.le_add_right_of_le hi, Nat.le_trans hi ho⟩,
      Nat.min_le_right _ _, Nat.le_min.2 ⟨Nat.le_add_right_of_le hj, Nat.le_trans hj hn⟩,
      Nat.min_le_right _ _⟩

/-- Ending the hunk in progress moves nothing. -/
theorem close_position : c.close.old = c.old ∧ c.close.new = c.new := by
  unfold close
  split <;> exact ⟨rfl, rfl⟩

theorem Sound.close (h : c.Sound old new) :
    c.close.opened = none ∧ ∃ apart, Covered old new apart c.close.hunks c.old c.new := by
  unfold Sound at h
  cases hopen : c.opened with
  | none =>
    rw [hopen] at h
    have hclose : c.close = c := by
      unfold LineCursor.close
      rw [hopen]
    rw [hclose]
    exact ⟨hopen, true, h⟩
  | some at_ =>
    rw [hopen] at h
    obtain ⟨hcov, hi, hi', hj, hj'⟩ := h
    unfold LineCursor.close
    rw [hopen]
    exact ⟨rfl, false, hcov.hunk hi hj hi' hj'⟩

/-- What no operation reached becomes one more hunk, so the hunks reach both ends. -/
theorem Sound.finish (h : c.Sound old new) :
    ∃ apart, Covered old new apart (c.finish old.size new.size).reverse old.size new.size := by
  unfold LineCursor.finish
  simp only [List.reverse_reverse]
  split
  · obtain ⟨-, apart, hcov⟩ := (h.change old.size new.size).close
    have ho : (c.change old.size new.size old.size new.size).old = old.size :=
      Nat.min_eq_right (Nat.le_add_left _ _)
    have hn : (c.change old.size new.size old.size new.size).new = new.size :=
      Nat.min_eq_right (Nat.le_add_left _ _)
    rw [ho, hn] at hcov
    exact ⟨apart, hcov⟩
  · next hend =>
    have hle := h.le_size
    obtain ⟨-, apart, hcov⟩ := h.close
    have ho : c.old = old.size := by omega
    have hn : c.new = new.size := by omega
    rw [ho, hn] at hcov
    exact ⟨apart, hcov⟩

variable [DecidableEq α]

theorem agreeAt_iff {i j : Nat} :
    Script.agreeAt old new i j = true ↔ ∃ line, old[i]? = some line ∧ new[j]? = some line := by
  unfold Script.agreeAt
  constructor
  · intro h
    split at h
    · next x y hx hy =>
      have : x = y := by simpa using h
      exact ⟨x, hx, this ▸ hy⟩
    · simp at h
  · rintro ⟨line, hold, hnew⟩
    rw [hold, hnew]
    simp

theorem Sound.keep (h : c.Sound old new) (hagree : Script.agreeAt old new c.old c.new = true) :
    c.keep.Sound old new := by
  obtain ⟨line, hold, hnew⟩ := agreeAt_iff.1 hagree
  obtain ⟨hopen, apart, hcov⟩ := h.close
  obtain ⟨ho, hn⟩ := close_position (c := c)
  unfold LineCursor.keep Sound
  simp only [hopen, ho, hn]
  exact hcov.keep hold hnew

theorem Sound.pairs (h : c.Sound old new) (n : Nat) : (c.pairs old new n).Sound old new := by
  induction n generalizing c with
  | zero => exact h
  | succ n ih =>
    unfold LineCursor.pairs
    dsimp only
    apply ih
    split
    · next hagree => exact h.keep hagree
    · exact h.change 1 1

theorem Sound.step (h : c.Sound old new) (op : Op) : (c.step old new op).Sound old new := by
  unfold LineCursor.step
  split
  · exact h.pairs _
  · exact h.change _ _

theorem Sound.run (h : c.Sound old new) (script : Script) :
    (script.foldl (LineCursor.step old new) c).Sound old new := by
  induction script generalizing c with
  | nil => exact h
  | cons op script ih => exact ih (h.step op)

end LineCursor

/-- Whatever the script, its hunks and equal lines between them cover both sequences. -/
theorem Script.covered_hunks [DecidableEq α] (old new : Array α) (script : Script) :
    ∃ apart, Covered old new apart (script.hunks old new).reverse old.size new.size :=
  (LineCursor.sound_start.run script).finish

end HotReload
