import HotReload.Text.Shift

/-
  Offsets and a replacement. Offsets in front of the replaced bytes stay, offsets behind them move with
  the text (`Shift.adjust?_inFront`, `Shift.adjust?_behind`), and offsets inside stay as well
  (`Shift.adjust?_inside`). So what stands at the end of the replaced bytes stays behind the text that
  replaces them if this is shorter by more than one byte: then offsets change their order, and offsets
  inside go elsewhere than into the new text. `Shift.keepsOrder_iff` says that this is the only
  exception.
-/

namespace HotReload.Shift

/-- The shift of a replacement: what replaces the bytes has a length, and offsets reach to where the
bytes end. -/
structure IsReplacement (s : Shift) : Prop where
  length : 0 ≤ s.removed + s.delta
  reach : s.origin + s.removed ≤ Text.maxOffset

/-- The offset is in front of the replaced bytes; the one right at them is if it is to stay. -/
def InFront (s : Shift) (stay : Bool) (p : Nat) : Prop := p < s.origin ∨ p = s.origin ∧ stay = true

/-- The offset is inside of the replaced bytes, or right in front of the first of them. -/
def Inside (s : Shift) (p : Nat) : Prop := s.origin ≤ p ∧ p < s.origin + s.removed

/-- The offset is behind the replaced bytes. -/
def Behind (s : Shift) (stay : Bool) (p : Nat) : Prop :=
  s.origin + s.removed ≤ p ∧ ¬s.InFront stay p

/-- The offset can be stored, and where it moves to if it moves. -/
def Fits (s : Shift) (stay : Bool) (p : Nat) : Prop :=
  p ≤ Text.maxOffset ∧ (s.Behind stay p → p + s.delta ≤ Text.maxOffset)

/-- Offsets keep their order. -/
def KeepsOrder (s : Shift) (stay : Bool) : Prop :=
  ∀ p q p' q', p ≤ q → s.Fits stay p → s.Fits stay q →
    s.adjust? p stay = some p' → s.adjust? q stay = some q' → p' ≤ q'

/-- Offsets inside of the replaced bytes go into the text that replaces them. -/
def Clamps (s : Shift) (stay : Bool) : Prop :=
  ∀ p p', s.Inside p → s.adjust? p stay = some p' →
    s.origin ≤ p' ∧ (p' : Int) ≤ s.origin + s.removed + s.delta

variable {s : Shift} {stay : Bool} {p q p' q' : Nat}

/-! ## Where offsets go -/

theorem keeps_eq_true_iff (h : s.IsReplacement) :
    s.keeps p stay = true ↔ s.InFront stay p ∨ s.Inside p := by
  have hstop : s.stop = s.origin + s.removed := Nat.min_eq_left h.reach
  have hkeeps : s.keeps p stay = true ↔ s.InFront stay p ∨ p < s.origin + s.removed := by
    unfold keeps InFront
    rw [hstop]
    simp only [Bool.or_eq_true, Bool.and_eq_true, decide_eq_true_eq, beq_iff_eq]
  rw [hkeeps]
  constructor
  · rintro (hfront | hlt)
    · exact .inl hfront
    · rcases Nat.lt_or_ge p s.origin with hfront | hge
      · exact .inl (.inl hfront)
      · exact .inr ⟨hge, hlt⟩
  · exact Or.imp_right And.right

/-- An offset that is neither in front nor inside is behind. -/
theorem behind_iff (h : s.IsReplacement) : s.Behind stay p ↔ s.keeps p stay = false := by
  rw [← Bool.not_eq_true, keeps_eq_true_iff h, not_or]
  constructor
  · rintro ⟨hle, hfront⟩
    exact ⟨hfront, fun hinside => Nat.not_lt_of_le hle hinside.2⟩
  · rintro ⟨hfront, hinside⟩
    have hle : s.origin ≤ p := Nat.not_lt.1 fun hlt => hfront (.inl hlt)
    exact ⟨Nat.not_lt.1 fun hlt => hinside ⟨hle, hlt⟩, hfront⟩

theorem adjust?_of_keeps (h : s.keeps p stay = true) : s.adjust? p stay = some p := by
  rw [adjust?, h, adjust, if_pos h]
  rfl

theorem adjust?_inFront (h : s.IsReplacement) (hp : s.InFront stay p) :
    s.adjust? p stay = some p :=
  adjust?_of_keeps ((keeps_eq_true_iff h).2 (.inl hp))

theorem adjust?_inside (h : s.IsReplacement) (hp : s.Inside p) : s.adjust? p stay = some p :=
  adjust?_of_keeps ((keeps_eq_true_iff h).2 (.inr hp))

theorem adjust?_behind (h : s.IsReplacement) (hp : s.Behind stay p) (hfits : s.Fits stay p) :
    ∃ p' : Nat, s.adjust? p stay = some p' ∧ (p' : Int) = p + s.delta := by
  have hmoves := (behind_iff h).1 hp
  have hreach := hfits.2 hp
  have hlength := h.length
  have hstop := hp.1
  have hsum : p + s.delta ≤ maxSum := Int.le_trans hreach (by decide)
  refine ⟨(p + s.delta).toNat, ?_, Int.toNat_of_nonneg (by omega)⟩
  have hadjust : s.adjust p stay = (p + s.delta).toNat := by
    rw [adjust, if_neg (by simp [hmoves]), Nat.mod_eq_of_lt (by omega)]
  rw [adjust?, if_pos (by simp [hsum]), hadjust]

/-- An offset stays, or it is behind and moves. -/
theorem eq_of_adjust? (h : s.IsReplacement) (hp : s.Fits stay p)
    (hp' : s.adjust? p stay = some p') :
    ¬s.Behind stay p ∧ p' = p ∨ s.Behind stay p ∧ (p' : Int) = p + s.delta := by
  by_cases hbehind : s.Behind stay p
  · obtain ⟨moved, hmoved, heq⟩ := adjust?_behind h hbehind hp
    obtain rfl := Option.some.inj (hmoved.symm.trans hp')
    exact .inr ⟨hbehind, heq⟩
  · have hkeeps := adjust?_of_keeps (Bool.of_not_eq_false (mt (behind_iff h).2 hbehind))
    exact .inl ⟨hbehind, Option.some.inj (hp'.symm.trans hkeeps)⟩

/-! ## Their order -/

theorem Behind.of_le (hp : s.Behind stay p) (hle : p ≤ q) : s.Behind stay q := by
  obtain ⟨hstop, hfront⟩ := hp
  refine ⟨Nat.le_trans hstop hle, ?_⟩
  rintro (hlt | ⟨heq, hstay⟩)
  · omega
  · exact hfront (.inr ⟨by omega, hstay⟩)

/-- Two offsets change their order if the first is inside, the second behind, and the text gets so much
shorter that the second comes to stand in front of the first. -/
theorem adjust?_lt_iff (h : s.IsReplacement) (hle : p ≤ q) (hp : s.Fits stay p)
    (hq : s.Fits stay q) (hp' : s.adjust? p stay = some p') (hq' : s.adjust? q stay = some q') :
    q' < p' ↔ s.Inside p ∧ s.Behind stay q ∧ q + s.delta < p := by
  have hlength := h.length
  rcases eq_of_adjust? h hp hp' with ⟨hbeforeP, rfl⟩ | ⟨hbehindP, hmovedP⟩
  · rcases eq_of_adjust? h hq hq' with ⟨hbeforeQ, rfl⟩ | ⟨hbehindQ, hmovedQ⟩
    · constructor
      · exact fun hlt => absurd hle (Nat.not_le_of_lt hlt)
      · exact fun ⟨_, hbehind, _⟩ => absurd hbehind hbeforeQ
    · have hstop := hbehindQ.1
      constructor
      · -- what moves stays behind the origin, so the first offset is not in front
        intro hlt
        refine ⟨⟨by omega, Nat.not_le.1 fun hge => hbeforeP ⟨hge, ?_⟩⟩, hbehindQ, by omega⟩
        rintro (hfront | ⟨hfront, -⟩) <;> omega
      · rintro ⟨-, -, hlt⟩
        omega
  · have hbehindQ := hbehindP.of_le hle
    rcases eq_of_adjust? h hq hq' with ⟨hbeforeQ, -⟩ | ⟨-, hmovedQ⟩
    · exact absurd hbehindQ hbeforeQ
    · have hstop := hbehindP.1
      constructor
      · intro hlt
        omega
      · rintro ⟨hinside, -, -⟩
        have hstart := hinside.2
        omega

/-- Text that gets shorter has a last byte that is replaced. -/
theorem inside_last (h : s.IsReplacement) (hdelta : s.delta < 0) :
    s.Inside (s.origin + s.removed - 1) := by
  have hlength := h.length
  exact ⟨by omega, by omega⟩

theorem keepsOrder_iff (h : s.IsReplacement) : s.KeepsOrder stay ↔ -1 ≤ s.delta := by
  have hlength := h.length
  have hreach := h.reach
  constructor
  · intro horder
    refine Int.not_lt.1 fun hdelta => ?_
    -- the last replaced byte and the offset right behind it
    have hinside := inside_last h (by omega)
    have hbehind : s.Behind stay (s.origin + s.removed) :=
      ⟨Nat.le_refl _, fun hfront => by rcases hfront with h | h <;> omega⟩
    have hfitsP : s.Fits stay (s.origin + s.removed - 1) :=
      ⟨by omega, fun hp => absurd hp.1 (by omega)⟩
    have hfitsQ : s.Fits stay (s.origin + s.removed) := ⟨hreach, fun _ => by omega⟩
    obtain ⟨q', hq, hq'⟩ := adjust?_behind h hbehind hfitsQ
    have hle := horder _ _ _ _ (Nat.sub_le _ 1) hfitsP hfitsQ (adjust?_inside h hinside) hq
    omega
  · intro hdelta p q p' q' hle hp hq hp' hq'
    rw [← Nat.not_lt, adjust?_lt_iff h hle hp hq hp' hq']
    rintro ⟨hinside, hbehind, hlt⟩
    have hstart := hinside.2
    have hstop := hbehind.1
    omega

theorem clamps_iff (h : s.IsReplacement) : s.Clamps stay ↔ -1 ≤ s.delta := by
  have hlength := h.length
  constructor
  · intro hclamps
    refine Int.not_lt.1 fun hdelta => ?_
    have hinside := inside_last h (by omega)
    have hrange := hclamps _ _ hinside (adjust?_inside h hinside)
    omega
  · intro hdelta p p' hinside hp'
    obtain rfl := Option.some.inj ((adjust?_inside h hinside).symm.trans hp')
    have hstop := hinside.2
    exact ⟨hinside.1, by omega⟩

/-- What a replacement makes of offsets. In front of the replaced bytes they stay, behind them they move
by the change in length. Inside they stay too, so offsets keep their order, and those inside go into
the new text, exactly if the text gets shorter by one byte at most. -/
theorem ordered_and_clamped_iff (h : s.IsReplacement) (stay : Bool) :
    (∀ p, s.InFront stay p → s.adjust? p stay = some p) ∧
    (∀ p, s.Inside p → s.adjust? p stay = some p) ∧
    (∀ p, s.Behind stay p → s.Fits stay p →
      ∃ p' : Nat, s.adjust? p stay = some p' ∧ (p' : Int) = p + s.delta) ∧
    (s.KeepsOrder stay ↔ -1 ≤ s.delta) ∧ (s.Clamps stay ↔ -1 ≤ s.delta) :=
  ⟨fun _ => adjust?_inFront h, fun _ => adjust?_inside h, fun _ => adjust?_behind h,
    keepsOrder_iff h, clamps_iff h⟩

/-- One of five bytes goes. -/
def shorterByOne : Shift := ⟨10, 5, -1⟩

theorem ordered_and_clamped_iff_shorterByOne :
    shorterByOne.IsReplacement ∧ shorterByOne.KeepsOrder false ∧ shorterByOne.Clamps false ∧
      shorterByOne.adjust? 14 false = some 14 ∧ shorterByOne.adjust? 15 false = some 14 := by
  have h : shorterByOne.IsReplacement := ⟨by decide, by decide⟩
  obtain ⟨-, -, -, horder, hclamps⟩ := ordered_and_clamped_iff h false
  exact ⟨h, horder.2 (by decide), hclamps.2 (by decide), by decide, by decide⟩

/-- Five bytes go. -/
def deletion : Shift := ⟨10, 5, -5⟩

/-- An offset inside of deleted bytes stays behind them, and behind offsets that were behind it. -/
theorem deletion_not_clamped :
    deletion.IsReplacement ∧ deletion.adjust? 12 false = some 12 ∧
      deletion.adjust? 15 false = some 10 ∧ ¬deletion.Clamps false ∧ ¬deletion.KeepsOrder false := by
  have hinside : deletion.Inside 12 := ⟨by decide, by decide⟩
  have hp : deletion.Fits false 12 := ⟨by decide, fun _ => by decide⟩
  have hq : deletion.Fits false 15 := ⟨by decide, fun _ => by decide⟩
  have hp' : deletion.adjust? 12 false = some 12 := by decide
  have hq' : deletion.adjust? 15 false = some 10 := by decide
  refine ⟨⟨by decide, by decide⟩, hp', hq', fun hclamps => ?_, fun horder => ?_⟩
  · exact absurd (hclamps 12 12 hinside hp').2 (by decide)
  · exact absurd (horder 12 15 12 10 (by decide) hp hq hp' hq') (by decide)

end HotReload.Shift
