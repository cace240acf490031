import HotReload.Text.Bytes

/-
  Texts in which every character is marked as code or as trivia. Positions are byte offsets, so a
  part of a text is known by where it stands (`Marked.At`), and two parts that stand at one offset
  are prefixes of one another (`At.prefix_or_prefix`).
-/

namespace HotReload

/-- A text; a mark says whether a character is code. -/
abbrev Marked : Type := List (Char × Bool)

namespace Marked

/-- The characters. -/
def text (m : Marked) : List Char := m.map Prod.fst

/-- Characters of code. -/
def code (cs : List Char) : Marked := cs.map fun c => (c, true)

/-- Characters of trivia. -/
def trivia (cs : List Char) : Marked := cs.map fun c => (c, false)

/-- The number of bytes. -/
def width (m : Marked) : Nat := Text.byteLength (text m)

/-- Whether a byte is code. -/
def codeAt : Marked → Nat → Bool
  | [], _ => false
  | (c, mark) :: rest, i => if i < c.utf8Size then mark else codeAt rest (i - c.utf8Size)

/-! ## Widths -/

@[simp] theorem width_nil : width [] = 0 := rfl

@[simp] theorem width_cons (x : Char × Bool) (m : Marked) :
    width (x :: m) = x.1.utf8Size + width m := rfl

@[simp] theorem width_append (a b : Marked) : width (a ++ b) = width a + width b := by
  unfold width text
  rw [List.map_append, Text.byteLength_append]

@[simp] theorem text_append (a b : Marked) : text (a ++ b) = text a ++ text b := List.map_append

@[simp] theorem text_code (cs : List Char) : text (code cs) = cs := by
  simp [text, code, Function.comp_def]

@[simp] theorem text_trivia (cs : List Char) : text (trivia cs) = cs := by
  simp [text, trivia, Function.comp_def]

@[simp] theorem width_code (cs : List Char) : width (code cs) = Text.byteLength cs := by
  rw [width, text_code]

@[simp] theorem width_trivia (cs : List Char) : width (trivia cs) = Text.byteLength cs := by
  rw [width, text_trivia]

theorem width_eq_zero {m : Marked} : width m = 0 ↔ m = [] := by
  rw [width, Text.byteLength_eq_zero, text, List.map_eq_nil_iff]

theorem width_pos {m : Marked} (h : m ≠ []) : 0 < width m :=
  Nat.pos_of_ne_zero fun hzero => h (width_eq_zero.1 hzero)

theorem width_pos_of_cons (x : Char × Bool) (m : Marked) : 0 < width (x :: m) :=
  width_pos (List.cons_ne_nil x m)

/-- Two cuts of one text after so many bytes are the same. -/
theorem append_inj_of_width {a b x y : Marked} (h : a ++ x = b ++ y) (hwidth : width a = width b) :
    a = b ∧ x = y := by
  induction a generalizing b with
  | nil =>
    obtain rfl := width_eq_zero.1 hwidth.symm
    exact ⟨rfl, h⟩
  | cons c a ih =>
    cases b with
    | nil => exact absurd hwidth (Nat.ne_of_gt (width_pos_of_cons c a))
    | cons d b =>
      simp only [List.cons_append, List.cons.injEq] at h
      obtain ⟨rfl, h⟩ := h
      rw [width_cons, width_cons] at hwidth
      obtain ⟨rfl, rfl⟩ := ih h (by omega)
      exact ⟨rfl, rfl⟩

/-- Of two cuts of one text, the later one goes on from the earlier one. -/
theorem exists_append_of_width_le {a b x y : Marked} (h : a ++ x = b ++ y)
    (hwidth : width a ≤ width b) : ∃ z, b = a ++ z ∧ x = z ++ y := by
  rcases List.append_eq_append_iff.1 h with ⟨z, rfl, rfl⟩ | ⟨z, rfl, rfl⟩
  · exact ⟨z, rfl, rfl⟩
  · rw [width_append] at hwidth
    obtain rfl := width_eq_zero.1 (show width z = 0 by omega)
    exact ⟨[], by simp, by simp⟩

/-! ## Marks -/

theorem codeAt_append (a b : Marked) (i : Nat) :
    codeAt (a ++ b) i = if i < width a then codeAt a i else codeAt b (i - width a) := by
  induction a generalizing i with
  | nil => rfl
  | cons x a ih =>
    obtain ⟨c, mark⟩ := x
    have hwidth : width ((c, mark) :: a) = c.utf8Size + width a := rfl
    simp only [List.cons_append, codeAt, ih]
    by_cases hc : i < c.utf8Size
    · rw [if_pos hc, if_pos (by omega), if_pos hc]
    · rw [if_neg hc]
      by_cases ha : i - c.utf8Size < width a
      · rw [if_pos ha, if_pos (by omega), if_neg hc]
      · rw [if_neg ha, if_neg (by omega), Nat.sub_sub, hwidth]

theorem codeAt_trivia (cs : List Char) (i : Nat) : codeAt (trivia cs) i = false := by
  induction cs generalizing i with
  | nil => rfl
  | cons c cs ih =>
    simp only [trivia, List.map_cons, codeAt]
    split
    · rfl
    · exact ih _

theorem prefix_of_code {a b : List Char} (h : code a <+: code b) : a <+: b := by
  have htext := h.map Prod.fst
  change text (code a) <+: text (code b) at htext
  rwa [text_code, text_code] at htext

theorem codeAt_code {cs : List Char} {i : Nat} (hi : i < Text.byteLength cs) :
    codeAt (code cs) i = true := by
  induction cs generalizing i with
  | nil => exact absurd hi (Nat.not_lt_zero i)
  | cons c cs ih =>
    rw [Text.byteLength_cons] at hi
    simp only [code, List.map_cons, codeAt]
    split
    · rfl
    · exact ih (by omega)

/-- Texts with the same characters and the same marks are equal. -/
theorem eq_of_codeAt {a b : Marked} (htext : text a = text b)
    (hcode : ∀ i < width a, codeAt a i = codeAt b i) : a = b := by
  induction a generalizing b with
  | nil => exact (List.map_eq_nil_iff.1 htext.symm).symm
  | cons x a ih =>
    obtain ⟨c, mark⟩ := x
    cases b with
    | nil => simp [text] at htext
    | cons y b =>
      obtain ⟨d, mark'⟩ := y
      simp only [text, List.map_cons, List.cons.injEq] at htext
      obtain ⟨rfl, htext⟩ := htext
      have hfirst := hcode 0 (width_pos_of_cons _ _)
      simp only [codeAt, Char.utf8Size_pos, if_true] at hfirst
      have hrest : a = b := by
        refine ih htext fun i hi => ?_
        have h := hcode (c.utf8Size + i) (Nat.add_lt_add_left hi _)
        simp only [codeAt] at h
        rw [if_neg (by omega), if_neg (by omega), Nat.add_sub_cancel_left] at h
        exact h
      rw [hfirst, hrest]

/-! ## Parts -/

/-- The part stands at an offset of the text. -/
def At (all : Marked) (i : Nat) (part : Marked) : Prop :=
  ∃ before behind, all = before ++ part ++ behind ∧ width before = i

namespace At

variable {all x y : Marked} {i : Nat}

theorem left (h : At all i (x ++ y)) : At all i x := by
  obtain ⟨before, behind, rfl, hwidth⟩ := h
  exact ⟨before, y ++ behind, by simp, hwidth⟩

theorem right (h : At all i (x ++ y)) : At all (i + width x) y := by
  obtain ⟨before, behind, rfl, hwidth⟩ := h
  exact ⟨before ++ x, behind, by simp, by rw [width_append, hwidth]⟩

theorem append (hx : At all i x) (hy : At all (i + width x) y) : At all i (x ++ y) := by
  obtain ⟨before, behind, rfl, hwidth⟩ := hx
  obtain ⟨before', behind', h, hwidth'⟩ := hy
  rw [List.append_assoc before'] at h
  obtain ⟨rfl, rfl⟩ := append_inj_of_width h (by rw [width_append, hwidth, hwidth'])
  exact ⟨before, behind', by simp, hwidth⟩

theorem codeAt_eq (h : At all i x) {k : Nat} (hk : k < width x) :
    codeAt all (i + k) = codeAt x k := by
  obtain ⟨before, behind, rfl, rfl⟩ := h
  rw [List.append_assoc, codeAt_append, if_neg (by omega), Nat.add_sub_cancel_left, codeAt_append,
    if_pos hk]

/-- Of two parts at one offset, one is a prefix of the other. -/
theorem prefix_or_prefix (hx : At all i x) (hy : At all i y) : x <+: y ∨ y <+: x := by
  obtain ⟨before, behind, rfl, hwidth⟩ := hx
  obtain ⟨before', behind', h, hwidth'⟩ := hy
  rw [List.append_assoc, List.append_assoc] at h
  obtain ⟨-, hrest⟩ := append_inj_of_width h (by rw [hwidth, hwidth'])
  exact List.prefix_or_prefix_of_prefix ⟨behind, rfl⟩ ⟨behind', hrest.symm⟩

/-- One character stands at an offset. -/
theorem eq_of_cons {a b : Char × Bool} (hx : At all i (a :: x)) (hy : At all i (b :: y)) :
    a = b := by
  rcases prefix_or_prefix hx hy with hprefix | hprefix
  · exact (List.cons_prefix_cons.1 hprefix).1
  · exact (List.cons_prefix_cons.1 hprefix).1.symm

end At

/-- A line starts at an offset. -/
def LineStart (all : Marked) (i : Nat) : Prop :=
  i = 0 ∨ ∃ j, i = j + 1 ∧ At all j [('\n', false)]

end Marked
end HotReload
