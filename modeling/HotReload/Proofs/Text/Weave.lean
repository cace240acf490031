import HotReload.Text.Bytes

/-
  Text put in between the characters of a text. `Text.weave` reads the text from front to back and
  puts the marks of every offset in front of the character there. Text that no mark stands in is
  kept (`weave_append`), and two texts one after the other can be read one by one, each with the marks
  of its own (`weave_split`).

  An offset is a cut of a text if characters end there (`IsCut`). Cuts and slices of a text move
  along when text is put in at a cut: what ends there or in front of it stays, and what starts there
  or behind it moves by the length of the new text.
-/

namespace HotReload.Text

/-- The text with marks put in: in front of every character, and at the end, stand the marks of that
offset. -/
def weave (marks : Nat → List Char) : Nat → List Char → List Char
  | offset, [] => marks offset
  | offset, c :: cs => marks offset ++ c :: weave marks (offset + c.utf8Size) cs

variable {marks marks' : Nat → List Char} {offset : Nat}

theorem weave_congr {cs : List Char}
    (h : ∀ p, offset ≤ p → p ≤ offset + byteLength cs → marks p = marks' p) :
    weave marks offset cs = weave marks' offset cs := by
  induction cs generalizing offset with
  | nil => exact h _ (Nat.le_refl _) (Nat.le_refl _)
  | cons c cs ih =>
    simp only [byteLength_cons] at h
    unfold weave
    rw [h _ (Nat.le_refl _) (Nat.le_add_right _ _), ih]
    intro p hp hp'
    exact h p (by omega) (by omega)

/-- Text in front of all marks is kept. -/
theorem weave_append {a : List Char} (b : List Char)
    (h : ∀ p, offset ≤ p → p < offset + byteLength a → marks p = []) :
    weave marks offset (a ++ b) = a ++ weave marks (offset + byteLength a) b := by
  induction a generalizing offset with
  | nil => rfl
  | cons c a ih =>
    have hpos := c.utf8Size_pos
    simp only [byteLength_cons] at h ⊢
    rw [List.cons_append, weave, h _ (Nat.le_refl _) (by omega), ih]
    · simp only [List.nil_append, List.cons_append, Nat.add_assoc]
    · intro p hp hp'
      exact h p (by omega) (by omega)

/-- Without marks the text is kept. -/
theorem weave_of_none {cs : List Char}
    (h : ∀ p, offset ≤ p → p ≤ offset + byteLength cs → marks p = []) :
    weave marks offset cs = cs := by
  have hfront : ∀ p, offset ≤ p → p < offset + byteLength cs → marks p = [] :=
    fun p hp hp' => h p hp (Nat.le_of_lt hp')
  have happend := weave_append [] hfront
  rw [List.append_nil] at happend
  rw [happend, weave, h _ (Nat.le_add_right _ _) (Nat.le_refl _), List.append_nil]

/-- A mark at the very front. -/
theorem weave_front {x cs : List Char} (h : marks' offset = x ++ marks offset)
    (hbehind : ∀ p, offset < p → marks' p = marks p) :
    weave marks' offset cs = x ++ weave marks offset cs := by
  cases cs with
  | nil => exact h
  | cons c cs =>
    have hpos := c.utf8Size_pos
    rw [weave, weave, h, List.append_assoc]
    congr 3
    apply weave_congr
    intro p hp _
    exact hbehind p (by omega)

/-- Marks at the end of a text stand behind it. -/
theorem weave_back {x cs : List Char}
    (h : marks' (offset + byteLength cs) = marks (offset + byteLength cs) ++ x)
    (hbefore : ∀ p, p < offset + byteLength cs → marks' p = marks p) :
    weave marks' offset cs = weave marks offset cs ++ x := by
  induction cs generalizing offset with
  | nil => exact h
  | cons c cs ih =>
    have hpos := c.utf8Size_pos
    simp only [byteLength_cons, ← Nat.add_assoc] at h hbefore
    rw [weave, weave, hbefore offset (by omega), ih h hbefore]
    simp

/-- Two texts, each with the marks of its own; those of the first stand in front where they meet. -/
theorem weave_split {front back : Nat → List Char} {a : List Char} (b : List Char)
    (hbefore : ∀ p, p < offset + byteLength a → marks p = front p)
    (h : marks (offset + byteLength a) =
      front (offset + byteLength a) ++ back (offset + byteLength a))
    (hbehind : ∀ p, offset + byteLength a < p → marks p = back p) :
    weave marks offset (a ++ b) =
      weave front offset a ++ weave back (offset + byteLength a) b := by
  induction a generalizing offset with
  | nil => exact weave_front h hbehind
  | cons c a ih =>
    have hpos := c.utf8Size_pos
    simp only [byteLength_cons, ← Nat.add_assoc] at hbefore h hbehind ⊢
    rw [List.cons_append, weave, weave, hbefore offset (by omega), ih hbefore h hbehind]
    simp

/-- More marks make the text no shorter. -/
theorem byteLength_weave_le {cs : List Char}
    (h : ∀ p, byteLength (marks p) ≤ byteLength (marks' p)) :
    byteLength (weave marks offset cs) ≤ byteLength (weave marks' offset cs) := by
  induction cs generalizing offset with
  | nil => exact h offset
  | cons c cs ih =>
    have hoffset := h offset
    have htail : byteLength (weave marks (offset + c.utf8Size) cs) ≤
        byteLength (weave marks' (offset + c.utf8Size) cs) := ih
    simp only [weave, byteLength_append, byteLength_cons]
    omega

/-- With fewer parts a text is no longer. -/
theorem byteLength_flatMap_le {α : Type} {f g : α → List Char} (h : ∀ a, f a = g a ∨ f a = [])
    (l : List α) : byteLength (l.flatMap f) ≤ byteLength (l.flatMap g) := by
  induction l with
  | nil => exact Nat.le_refl _
  | cons a l ih =>
    rw [List.flatMap_cons, List.flatMap_cons, byteLength_append, byteLength_append]
    rcases h a with heq | hnil
    · rw [heq]
      exact Nat.add_le_add_left ih _
    · rw [hnil, byteLength_nil]
      omega

/-! ## Cuts -/

/-- A text is cut in one way at an offset. -/
theorem append_inj_of_byteLength {a b a' b' : List Char} (h : a ++ b = a' ++ b')
    (hlength : byteLength a = byteLength a') : a = a' ∧ b = b' := by
  have hsplit := splitAt?_byteLength_append a' b'
  rw [← h, ← hlength, splitAt?_byteLength_append] at hsplit
  exact Prod.mk.inj (Option.some.inj hsplit)

/-- Some characters of the text end at the offset. -/
def IsCut (cs : List Char) (p : Nat) : Prop := ∃ a b, cs = a ++ b ∧ byteLength a = p

namespace IsCut

variable {cs a b x : List Char} {p : Nat}

theorem zero (cs : List Char) : IsCut cs 0 := ⟨[], cs, rfl, rfl⟩

theorem length (cs : List Char) : IsCut cs (byteLength cs) := ⟨cs, [], by simp, rfl⟩

theorem append (a b : List Char) : IsCut (a ++ b) (byteLength a) := ⟨a, b, rfl, rfl⟩

/-- Cuts stay when text is added. -/
theorem append_text (h : IsCut cs p) (x : List Char) : IsCut (cs ++ x) p := by
  obtain ⟨a, b, rfl, rfl⟩ := h
  exact ⟨a, b ++ x, List.append_assoc _ _ _, rfl⟩

theorem le_byteLength (h : IsCut cs p) : p ≤ byteLength cs := by
  obtain ⟨a, b, rfl, rfl⟩ := h
  rw [byteLength_append]
  exact Nat.le_add_right _ _

/-- Two cuts of a text, the front one first. -/
theorem exists_append (h : IsCut (a ++ b) p) (hp : byteLength a ≤ p) :
    ∃ m q, b = m ++ q ∧ byteLength a + byteLength m = p := by
  obtain ⟨a', b', heq, rfl⟩ := h
  rcases List.append_eq_append_iff.1 heq with ⟨m, rfl, rfl⟩ | ⟨m, rfl, rfl⟩
  · exact ⟨m, b', rfl, (byteLength_append a m).symm⟩
  · rw [byteLength_append] at hp
    obtain rfl : m = [] := byteLength_eq_zero.1 (by omega)
    exact ⟨[], b, rfl, by simp⟩

theorem exists_append_left (h : IsCut (a ++ b) p) (hp : p ≤ byteLength a) :
    ∃ q m, a = q ++ m ∧ byteLength q = p := by
  obtain ⟨a', b', heq, rfl⟩ := h
  obtain ⟨m, q, hb', hm⟩ := exists_append (heq ▸ IsCut.append a b) hp
  rw [hb', ← List.append_assoc] at heq
  obtain ⟨rfl, -⟩ := append_inj_of_byteLength heq (by rw [byteLength_append, hm])
  exact ⟨a', m, rfl, rfl⟩

/-- Cuts at or in front of inserted text stay. -/
theorem insert_of_le (h : IsCut (a ++ b) p) (hp : p ≤ byteLength a) : IsCut (a ++ x ++ b) p := by
  obtain ⟨q, m, rfl, rfl⟩ := h.exists_append_left hp
  exact ⟨q, m ++ x ++ b, by simp, rfl⟩

/-- Cuts at or behind inserted text move. -/
theorem insert_of_ge (h : IsCut (a ++ b) p) (hp : byteLength a ≤ p) :
    IsCut (a ++ x ++ b) (p + byteLength x) := by
  obtain ⟨m, q, rfl, rfl⟩ := h.exists_append hp
  refine ⟨a ++ x ++ m, q, by simp, ?_⟩
  simp only [byteLength_append]
  omega

end IsCut

/-! ## Slices -/

variable {start stop : Nat} {cs a b x m : List Char}

/-- A slice is what stands between two cuts. -/
theorem slice?_eq_some_iff :
    slice? start stop cs = some m ↔
      ∃ a b, cs = a ++ m ++ b ∧ byteLength a = start ∧ start + byteLength m = stop := by
  constructor
  · intro h
    unfold slice? drop? take? at h
    split at h
    · next hle =>
      simp only [bind, Option.bind] at h
      split at h
      · simp at h
      · next rest hrest =>
        obtain ⟨⟨a, rest'⟩, hdrop, rfl⟩ := Option.map_eq_some_iff.1 hrest
        obtain ⟨⟨m', b⟩, htake, rfl⟩ := Option.map_eq_some_iff.1 h
        obtain ⟨rfl, ha⟩ := splitAt?_eq_some_iff.1 hdrop
        obtain ⟨hrest', hm⟩ := splitAt?_eq_some_iff.1 htake
        dsimp only at hrest' hm ⊢
        exact ⟨a, b, by rw [hrest', List.append_assoc], ha, by omega⟩
    · simp at h
  · rintro ⟨a, b, rfl, rfl, rfl⟩
    exact slice?_append a m b

/-- Every two cuts have a slice between them. -/
theorem exists_slice? (hstart : IsCut cs start) (hstop : IsCut cs stop) (hle : start ≤ stop) :
    ∃ m, slice? start stop cs = some m := by
  obtain ⟨a, b, rfl, rfl⟩ := hstart
  obtain ⟨m, q, rfl, rfl⟩ := hstop.exists_append hle
  exact ⟨m, slice?_eq_some_iff.2 ⟨a, q, by simp, rfl, rfl⟩⟩

/-- A slice starts and stops at cuts. -/
theorem isCut_of_slice? (h : slice? start stop cs = some m) :
    start ≤ stop ∧ IsCut cs start ∧ IsCut cs stop := by
  obtain ⟨a, b, rfl, rfl, rfl⟩ := slice?_eq_some_iff.1 h
  exact ⟨Nat.le_add_right _ _, (IsCut.append a m).append_text b,
    byteLength_append a m ▸ IsCut.append (a ++ m) b⟩

/-- A cut within a slice cuts the slice. -/
theorem exists_append_of_slice? {p : Nat} (h : slice? start stop cs = some m) (hcut : IsCut cs p)
    (hstart : start ≤ p) (hstop : p ≤ stop) : ∃ m₁ m₂, m = m₁ ++ m₂ ∧ start + byteLength m₁ = p := by
  obtain ⟨a, b, rfl, rfl, rfl⟩ := slice?_eq_some_iff.1 h
  rw [← byteLength_append] at hstop
  obtain ⟨q, r, heq, rfl⟩ := hcut.exists_append_left hstop
  obtain ⟨m₁, m₂, rfl, hm₁⟩ := (heq ▸ IsCut.append q r : IsCut (a ++ m) _).exists_append hstart
  exact ⟨m₁, m₂, rfl, hm₁⟩

/-- A slice stays when text is added. -/
theorem slice?_append_text (h : slice? start stop cs = some m) (x : List Char) :
    slice? start stop (cs ++ x) = some m := by
  obtain ⟨a, b, rfl, ha, hm⟩ := slice?_eq_some_iff.1 h
  exact slice?_eq_some_iff.2 ⟨a, b ++ x, List.append_assoc _ _ _, ha, hm⟩

/-- A slice up to the end grows with the text. -/
theorem slice?_append_right (h : slice? start (byteLength cs) cs = some m) (x : List Char) :
    slice? start (byteLength (cs ++ x)) (cs ++ x) = some (m ++ x) := by
  obtain ⟨a, b, rfl, rfl, hstop⟩ := slice?_eq_some_iff.1 h
  simp only [byteLength_append] at hstop ⊢
  obtain rfl : b = [] := byteLength_eq_zero.1 (by omega)
  refine slice?_eq_some_iff.2 ⟨a, [], by simp, rfl, ?_⟩
  simp only [byteLength_append, byteLength_nil]
  omega

/-- A slice in front of inserted text stays. -/
theorem slice?_insert_of_stop_le (h : slice? start stop (a ++ b) = some m)
    (hstop : stop ≤ byteLength a) : slice? start stop (a ++ x ++ b) = some m := by
  obtain ⟨p, q, heq, rfl, rfl⟩ := slice?_eq_some_iff.1 h
  have hcut : IsCut (p ++ m ++ q) (byteLength a) := heq ▸ IsCut.append a b
  rw [← byteLength_append] at hstop
  obtain ⟨r, s, rfl, hr⟩ := hcut.exists_append hstop
  rw [← List.append_assoc] at heq
  obtain ⟨rfl, -⟩ := append_inj_of_byteLength heq (by rw [byteLength_append, hr])
  exact slice?_eq_some_iff.2 ⟨p, r ++ x ++ b, by simp, rfl, rfl⟩

/-- A slice behind inserted text moves. -/
theorem slice?_insert_of_le_start (h : slice? start stop (a ++ b) = some m)
    (hstart : byteLength a ≤ start) :
    slice? (start + byteLength x) (stop + byteLength x) (a ++ x ++ b) = some m := by
  obtain ⟨p, q, heq, rfl, rfl⟩ := slice?_eq_some_iff.1 h
  have hcut : IsCut (a ++ b) (byteLength p) := ⟨p, m ++ q, by rw [heq, List.append_assoc], rfl⟩
  obtain ⟨r, s, rfl, hr⟩ := hcut.exists_append hstart
  rw [← List.append_assoc, List.append_assoc p] at heq
  obtain ⟨-, rfl⟩ := append_inj_of_byteLength heq (by rw [byteLength_append, hr])
  refine slice?_eq_some_iff.2 ⟨a ++ x ++ r, q, by simp, ?_, by omega⟩
  simp only [byteLength_append]
  omega

/-- A slice around inserted text has it inside. -/
theorem slice?_insert {m₁ m₂ : List Char} (h : slice? start stop (a ++ b) = some (m₁ ++ m₂))
    (hcut : start + byteLength m₁ = byteLength a) :
    slice? start (stop + byteLength x) (a ++ x ++ b) = some (m₁ ++ x ++ m₂) := by
  obtain ⟨p, q, heq, rfl, rfl⟩ := slice?_eq_some_iff.1 h
  rw [← List.append_assoc p, List.append_assoc (p ++ m₁)] at heq
  obtain ⟨rfl, rfl⟩ := append_inj_of_byteLength heq (by rw [byteLength_append, hcut])
  refine slice?_eq_some_iff.2 ⟨p, q, by simp, rfl, ?_⟩
  simp only [byteLength_append]
  omega

end HotReload.Text
