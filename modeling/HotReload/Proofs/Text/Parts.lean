import HotReload.Proofs.Text.Weave
import HotReload.Text.Edit

/-
  Texts made of parts, where every part says where it comes from. Putting new parts in keeps both the
  old and the new ones in order (`Interleaved`), so the parts of one origin are what they were if the
  new parts are all of others (`Interleaved.filter`).

  An edit that removes nothing puts new text in at a cut of the text. If every part is one character,
  it is put in between two parts (`exists_interleaved_of_splice`). Longer parts are kept in one piece
  by what is put in at seams only: where a part ends and the next one starts (`Seam`).
-/

namespace HotReload

/-- The third list has the first two in it, each of them in order. -/
inductive Interleaved {α : Type} : List α → List α → List α → Prop
  | nil : Interleaved [] [] []
  | left (a : α) {as bs cs : List α} (rest : Interleaved as bs cs) :
      Interleaved (a :: as) bs (a :: cs)
  | right (b : α) {as bs cs : List α} (rest : Interleaved as bs cs) :
      Interleaved as (b :: bs) (b :: cs)

namespace Interleaved

variable {α : Type} {as bs cs as' bs' cs' : List α}

theorem left_only (as : List α) : Interleaved as [] as := by
  induction as with
  | nil => exact .nil
  | cons a as ih => exact ih.left a

theorem right_only (bs : List α) : Interleaved [] bs bs := by
  induction bs with
  | nil => exact .nil
  | cons b bs ih => exact ih.right b

theorem append (h : Interleaved as bs cs) (h' : Interleaved as' bs' cs') :
    Interleaved (as ++ as') (bs ++ bs') (cs ++ cs') := by
  induction h with
  | nil => exact h'
  | left a _ ih => exact ih.left a
  | right b _ ih => exact ih.right b

theorem filter (h : Interleaved as bs cs) (f : α → Bool) :
    Interleaved (as.filter f) (bs.filter f) (cs.filter f) := by
  induction h with
  | nil => exact .nil
  | left a _ ih =>
    rw [List.filter_cons, List.filter_cons]
    split
    · exact ih.left a
    · exact ih
  | right b _ ih =>
    rw [List.filter_cons, List.filter_cons]
    split
    · exact ih.right b
    · exact ih

theorem eq_left (h : Interleaved as [] cs) : cs = as := by
  generalize hbs : ([] : List α) = bs at h
  induction h with
  | nil => rfl
  | left a _ ih => rw [ih hbs]
  | right b _ _ => simp at hbs

theorem eq_right (h : Interleaved [] bs cs) : cs = bs := by
  generalize has : ([] : List α) = as at h
  induction h with
  | nil => rfl
  | left a _ _ => simp at has
  | right b _ ih => rw [ih has]

theorem mem_iff (h : Interleaved as bs cs) {a : α} : a ∈ cs ↔ a ∈ as ∨ a ∈ bs := by
  induction h with
  | nil => simp
  | left b _ ih => simp only [List.mem_cons, ih, or_assoc]
  | right b _ ih => simp only [List.mem_cons, ih, or_left_comm]

end Interleaved

namespace Text

/-- A part of a text, and where it comes from. -/
structure Part (ω : Type) where
  origin : ω
  text : List Char
  deriving DecidableEq

variable {ω : Type} {parts as bs ms : List (Part ω)} {p : Nat}

/-- The text that parts make. -/
def spell (parts : List (Part ω)) : List Char := parts.flatMap Part.text

@[simp] theorem spell_nil : spell ([] : List (Part ω)) = [] := rfl

@[simp] theorem spell_cons (part : Part ω) (parts : List (Part ω)) :
    spell (part :: parts) = part.text ++ spell parts := rfl

@[simp] theorem spell_append (as bs : List (Part ω)) : spell (as ++ bs) = spell as ++ spell bs :=
  List.flatMap_append

theorem eq_nil_of_spell (hsolid : ∀ part ∈ parts, part.text ≠ []) (h : spell parts = []) :
    parts = [] := by
  cases parts with
  | nil => rfl
  | cons part parts =>
    exact absurd (List.append_eq_nil_iff.1 h).1 (hsolid part List.mem_cons_self)

/-- What is put in makes a text longer. -/
theorem byteLength_interleaved {cs : List (Part ω)} (h : Interleaved as bs cs) :
    byteLength (spell cs) = byteLength (spell as) + byteLength (spell bs) := by
  induction h with
  | nil => rfl
  | left a _ ih => simp only [spell_cons, byteLength_append, ih, Nat.add_assoc]
  | right b _ ih => simp only [spell_cons, byteLength_append, ih, Nat.add_left_comm]

/-! ## One character each -/

/-- A part of one origin for every character. -/
def singles (origin : ω) (cs : List Char) : List (Part ω) := cs.map fun c => ⟨origin, [c]⟩

@[simp] theorem spell_singles (origin : ω) (cs : List Char) : spell (singles origin cs) = cs := by
  induction cs with
  | nil => rfl
  | cons c cs ih => exact congrArg (List.cons c) ih

theorem mem_singles {origin : ω} {cs : List Char} {part : Part ω} :
    part ∈ singles origin cs ↔ ∃ c ∈ cs, part = ⟨origin, [c]⟩ := by
  simp [singles, eq_comm]

/-- A part for every character. -/
def letters (parts : List (Part ω)) : List (Part ω) :=
  parts.flatMap fun part => singles part.origin part.text

theorem letters_cons (part : Part ω) (parts : List (Part ω)) :
    letters (part :: parts) = singles part.origin part.text ++ letters parts :=
  List.flatMap_cons

@[simp] theorem spell_letters (parts : List (Part ω)) : spell (letters parts) = spell parts := by
  induction parts with
  | nil => rfl
  | cons part parts ih =>
    rw [letters_cons, spell_append, spell_singles, ih, spell_cons]

theorem filter_letters (f : ω → Bool) (parts : List (Part ω)) :
    (letters parts).filter (fun part => f part.origin) =
      letters (parts.filter fun part => f part.origin) := by
  induction parts with
  | nil => rfl
  | cons part parts ih =>
    have horigin : ∀ single ∈ singles part.origin part.text, single.origin = part.origin := by
      intro single hsingle
      obtain ⟨c, -, rfl⟩ := mem_singles.1 hsingle
      rfl
    rw [letters_cons, List.filter_append, ih]
    by_cases h : f part.origin = true
    · rw [List.filter_eq_self.2 fun single hsingle => (congrArg f (horigin single hsingle)).trans h,
        List.filter_cons_of_pos (by exact h), letters_cons]
    · rw [List.filter_eq_nil_iff.2 fun single hsingle => horigin single hsingle ▸ h,
        List.filter_cons_of_neg (by exact h), List.nil_append]

theorem mem_letters {part : Part ω} :
    part ∈ letters parts ↔ ∃ whole ∈ parts, ∃ c ∈ whole.text, part = ⟨whole.origin, [c]⟩ := by
  simp only [letters, List.mem_flatMap, mem_singles]

/-- Where a text of single characters is cut, its parts are. -/
theorem exists_split (hletters : ∀ part ∈ parts, ∃ c, part.text = [c]) {a b : List Char}
    (h : spell parts = a ++ b) : ∃ as bs, parts = as ++ bs ∧ spell as = a ∧ spell bs = b := by
  induction parts generalizing a with
  | nil =>
    obtain ⟨rfl, rfl⟩ := List.append_eq_nil_iff.1 h.symm
    exact ⟨[], [], rfl, rfl, rfl⟩
  | cons part parts ih =>
    obtain ⟨c, hc⟩ := hletters part List.mem_cons_self
    rw [spell_cons, hc, List.singleton_append] at h
    cases a with
    | nil => exact ⟨[], part :: parts, rfl, rfl, by rw [spell_cons, hc]; exact h⟩
    | cons d a =>
      obtain ⟨rfl, hrest⟩ := List.cons.inj h
      obtain ⟨as, bs, rfl, rfl, rfl⟩ := ih (fun q hq => hletters q (List.mem_cons_of_mem _ hq)) hrest
      exact ⟨part :: as, bs, rfl, by rw [spell_cons, hc]; rfl, rfl⟩

/-- Edits that remove nothing put their parts in between those of the text. -/
theorem exists_interleaved_of_splice {α : Type} {edit : α → Edit} {new : α → List (Part ω)}
    {l : List α} (hpoint : ∀ a ∈ l, (edit a).span.start = (edit a).span.stop)
    (hnew : ∀ a ∈ l, spell (new a) = (edit a).newText.toList)
    (hletters : ∀ part ∈ parts, ∃ c, part.text = [c]) {copied : Nat} {out : List Char}
    (h : Edit.splice copied (spell parts) (l.map edit) = .ok out) :
    ∃ parts', spell parts' = out ∧ Interleaved parts (l.flatMap new) parts' := by
  induction l generalizing parts copied out with
  | nil =>
    rw [List.map_nil, Edit.splice] at h
    exact ⟨parts, Except.ok.inj h, Interleaved.left_only parts⟩
  | cons a l ih =>
    rw [List.map_cons, Edit.splice] at h
    split at h
    · simp at h
    next before behind hsplit =>
    split at h
    · simp at h
    next remaining hdrop =>
    split at h
    · simp at h
    next tail htail =>
    obtain ⟨hparts, -⟩ := splitAt?_eq_some_iff.1 hsplit
    obtain ⟨⟨removed, rest⟩, hremoved, rfl⟩ := Option.map_eq_some_iff.1 hdrop
    obtain ⟨rfl, hlength⟩ := splitAt?_eq_some_iff.1 hremoved
    -- an edit of an insertion point skips nothing
    have hnone : removed = [] := by
      rw [← byteLength_eq_zero, hlength, ← hpoint a List.mem_cons_self]
      omega
    rw [hnone, List.nil_append] at hparts
    obtain ⟨as, bs, rfl, rfl, rfl⟩ := exists_split hletters hparts
    obtain ⟨parts', rfl, hinterleaved⟩ := ih (fun b hb => hpoint b (List.mem_cons_of_mem _ hb))
      (fun b hb => hnew b (List.mem_cons_of_mem _ hb))
      (fun part hpart => hletters part (List.mem_append_right _ hpart)) htail
    refine ⟨as ++ (new a ++ parts'), ?_, ?_⟩
    · rw [spell_append, spell_append, hnew a List.mem_cons_self, ← List.append_assoc]
      exact Except.ok.inj h
    · exact (Interleaved.left_only as).append ((Interleaved.right_only (new a)).append hinterleaved)

/-! ## Seams -/

/-- A part ends at the offset, or the text starts there. -/
def Seam (parts : List (Part ω)) (p : Nat) : Prop :=
  ∃ as bs, parts = as ++ bs ∧ byteLength (spell as) = p

namespace Seam

theorem stop (parts : List (Part ω)) : Seam parts (byteLength (spell parts)) :=
  ⟨parts, [], (List.append_nil parts).symm, rfl⟩

theorem isCut (h : Seam parts p) : IsCut (spell parts) p := by
  obtain ⟨as, bs, rfl, rfl⟩ := h
  exact ⟨spell as, spell bs, spell_append as bs, rfl⟩

/-- In a text of single characters, every cut is a seam. -/
theorem of_isCut (hletters : ∀ part ∈ parts, ∃ c, part.text = [c]) (h : IsCut (spell parts) p) :
    Seam parts p := by
  obtain ⟨a, b, hab, rfl⟩ := h
  obtain ⟨as, bs, hparts, rfl, -⟩ := exists_split hletters hab
  exact ⟨as, bs, hparts, rfl⟩

/-- Seams at or in front of new parts stay. -/
theorem insert_of_le (h : Seam (as ++ bs) p) (hp : p ≤ byteLength (spell as)) :
    Seam (as ++ ms ++ bs) p := by
  obtain ⟨as', bs', heq, rfl⟩ := h
  rcases List.append_eq_append_iff.1 heq with ⟨xs, rfl, rfl⟩ | ⟨xs, rfl, rfl⟩
  · rw [spell_append, byteLength_append] at hp ⊢
    exact ⟨as, ms ++ (xs ++ bs'), by simp, by omega⟩
  · exact ⟨as', xs ++ ms ++ bs, by simp, rfl⟩

/-- Seams at or behind new parts move. -/
theorem insert_of_ge (h : Seam (as ++ bs) p) (hp : byteLength (spell as) ≤ p) :
    Seam (as ++ ms ++ bs) (p + byteLength (spell ms)) := by
  obtain ⟨as', bs', heq, rfl⟩ := h
  rcases List.append_eq_append_iff.1 heq with ⟨xs, rfl, rfl⟩ | ⟨xs, rfl, rfl⟩
  · refine ⟨as ++ ms ++ xs, bs', by simp, ?_⟩
    simp only [spell_append, byteLength_append]
    omega
  · rw [spell_append, byteLength_append] at hp
    refine ⟨as' ++ xs ++ ms, bs, by simp, ?_⟩
    simp only [spell_append, byteLength_append]
    omega

end Seam

end Text

end HotReload
