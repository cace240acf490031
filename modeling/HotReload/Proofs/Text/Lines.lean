import HotReload.Text.Line
import Mathlib.Data.List.Infix

/-
  Full lines and where texts are put together. Behind a line feed a new line starts, so the lines of a
  text that ends there stay what they are with more text behind them (`fullLines_append`). Text without
  a break in it is in one line, wherever it stands (`exists_mem_fullLines`).
-/

namespace HotReload.Text

/-- No line ends in the text. -/
def Unbroken (cs : List Char) : Prop := ∀ c ∈ cs, c ≠ '\n' ∧ c ≠ '\r'

instance (cs : List Char) : Decidable (Unbroken cs) :=
  List.decidableBAll (fun c => c ≠ '\n' ∧ c ≠ '\r') cs

/-- What stands behind the text starts a line. -/
def AtLineStart (cs : List Char) : Prop := cs = [] ∨ cs.getLast? = some '\n'

instance (cs : List Char) : Decidable (AtLineStart cs) := inferInstanceAs (Decidable (_ ∨ _))

/-- The text with its last line ended. -/
def endLine (cs : List Char) : List Char := if AtLineStart cs then cs else cs ++ ['\n']

variable {c : Char} {cs ds xs : List Char} {ls : List (List Char)}

theorem atLineStart_endLine (cs : List Char) : AtLineStart (endLine cs) := by
  unfold endLine
  split
  · assumption
  · exact .inr List.getLast?_concat

theorem AtLineStart.tail (h : AtLineStart (c :: cs)) (hne : cs ≠ []) : AtLineStart cs := by
  obtain ⟨d, ds, rfl⟩ := List.exists_cons_of_ne_nil hne
  rcases h with h | h
  · exact absurd h (List.cons_ne_nil _ _)
  · rw [List.getLast?_cons_cons] at h
    exact .inr h

/-! ## Lines behind lines -/

theorem fullLines_ne_nil (h : cs ≠ []) : fullLines cs ≠ [] := by
  intro hnil
  have hflatten := flatten_fullLines cs
  rw [hnil] at hflatten
  exact h hflatten.symm

theorem consLine_append (h : ls ≠ []) (c : Char) (ms : List (List Char)) :
    consLine c (ls ++ ms) = consLine c ls ++ ms := by
  obtain ⟨l, ls, rfl⟩ := List.exists_cons_of_ne_nil h
  rfl

/-- A character that ends no line belongs to the first line of the text behind it. -/
theorem fullLines_cons (h : c ≠ '\n' ∧ c ≠ '\r') (cs : List Char) :
    fullLines (c :: cs) = consLine c (fullLines cs) := by
  rw [fullLines, if_neg (by tauto)]
  rintro ds rfl
  exact absurd rfl h.2

/-- A line feed ends a line, and so does a carriage return with anything else behind it. -/
theorem fullLines_cons_break (h : c = '\r' ∨ c = '\n') (hpair : c = '\r' → cs.head? ≠ some '\n') :
    fullLines (c :: cs) = [c] :: fullLines cs := by
  rw [fullLines, if_pos h]
  rintro ds rfl rfl
  exact hpair rfl rfl

/-- The lines of a text stay what they are if a line starts behind it. -/
theorem fullLines_append (h : AtLineStart cs) (ds : List Char) :
    fullLines (cs ++ ds) = fullLines cs ++ fullLines ds := by
  fun_induction fullLines cs with
  | case1 => rfl
  | case2 cs ih =>
    rw [List.cons_append, List.cons_append, fullLines, List.cons_append]
    by_cases hcs : cs = []
    · rw [hcs]
      rfl
    · rw [ih ((h.tail (List.cons_ne_nil _ _)).tail hcs)]
  | case3 c cs hpair hbreak ih =>
    rw [List.cons_append, List.cons_append]
    by_cases hcs : cs = []
    · -- the text ends with this break, so it is a line feed
      subst hcs
      obtain rfl : c = '\n' := by simpa [AtLineStart] using h
      rfl
    · obtain ⟨d, es, rfl⟩ := List.exists_cons_of_ne_nil hcs
      rw [fullLines_cons_break hbreak, ih (h.tail hcs)]
      rintro rfl hd
      obtain rfl : d = '\n' := by simpa using hd
      exact hpair es rfl rfl
  | case4 c cs hpair hplain ih =>
    have hchar : c ≠ '\n' ∧ c ≠ '\r' := by tauto
    have hcs : cs ≠ [] := by
      rintro rfl
      simp [AtLineStart, hchar] at h
    rw [List.cons_append, fullLines_cons hchar, ih (h.tail hcs), consLine_append (fullLines_ne_nil hcs)]

/-- Text without a break and a line feed behind it are one line. -/
theorem fullLines_line (h : Unbroken cs) : fullLines (cs ++ ['\n']) = [cs ++ ['\n']] := by
  induction cs with
  | nil => rfl
  | cons c cs ih =>
    obtain ⟨hc, hcs⟩ := List.forall_mem_cons.1 h
    rw [List.cons_append, fullLines_cons hc, ih hcs]
    rfl

/-! ## Text in a line -/

/-- Text without a break at the front of a text is at the front of its first line. -/
theorem exists_first_line (h : Unbroken xs) (hne : xs ≠ []) (hxs : xs <+: cs) :
    ∃ l ls, fullLines cs = l :: ls ∧ xs <+: l := by
  induction xs generalizing cs with
  | nil => exact absurd rfl hne
  | cons x xs ih =>
    obtain ⟨hx, hrest⟩ := List.forall_mem_cons.1 h
    obtain ⟨ys, rfl⟩ := hxs
    rw [List.cons_append, fullLines_cons hx]
    by_cases hnil : xs = []
    · subst hnil
      cases fullLines ([] ++ ys) with
      | nil => exact ⟨_, _, rfl, List.prefix_rfl⟩
      | cons l ls => exact ⟨_, _, rfl, (List.prefix_cons_inj x).2 List.nil_prefix⟩
    · obtain ⟨l, ls, hlines, hl⟩ := ih hrest hnil (List.prefix_append xs ys)
      rw [hlines]
      exact ⟨_, _, rfl, (List.prefix_cons_inj x).2 hl⟩

/-- With one more character in front, a line is still there or goes on in front. -/
theorem exists_longer_line {l : List Char} (hl : l ∈ fullLines cs) (c : Char) :
    ∃ m ∈ fullLines (c :: cs), l <:+: m := by
  by_cases hc : c ≠ '\n' ∧ c ≠ '\r'
  · rw [fullLines_cons hc]
    obtain ⟨first, ls, hlines⟩ := List.exists_cons_of_ne_nil (List.ne_nil_of_mem hl)
    rw [hlines] at hl ⊢
    rcases List.mem_cons.1 hl with rfl | hl
    · exact ⟨_, List.mem_cons_self, (List.suffix_cons c l).isInfix⟩
    · exact ⟨l, List.mem_cons_of_mem _ hl, List.infix_rfl⟩
  have hbreak : c = '\r' ∨ c = '\n' := by tauto
  by_cases hpair : c = '\r' → cs.head? ≠ some '\n'
  · rw [fullLines_cons_break hbreak hpair]
    exact ⟨l, List.mem_cons_of_mem _ hl, List.infix_rfl⟩
  · -- the line feed in front of the other lines joins the carriage return
    obtain ⟨rfl, hhead⟩ := Classical.not_imp.1 hpair
    obtain ⟨ds, rfl⟩ := List.head?_eq_some_iff.1 (not_not.1 hhead)
    rw [fullLines_cons_break (.inr rfl) fun hcr => absurd hcr (by decide)] at hl
    rw [fullLines]
    rcases List.mem_cons.1 hl with rfl | hl
    · exact ⟨_, List.mem_cons_self, (List.suffix_cons '\r' ['\n']).isInfix⟩
    · exact ⟨l, List.mem_cons_of_mem _ hl, List.infix_rfl⟩

/-- Wherever text without a break stands, it stands in a line. -/
theorem exists_mem_fullLines (h : Unbroken xs) (hne : xs ≠ []) (hxs : xs <:+: cs) :
    ∃ l ∈ fullLines cs, xs <:+: l := by
  obtain ⟨front, back, rfl⟩ := hxs
  rw [List.append_assoc]
  induction front with
  | nil =>
    obtain ⟨l, ls, hlines, hl⟩ := exists_first_line h hne (List.prefix_append xs back)
    rw [List.nil_append, hlines]
    exact ⟨l, List.mem_cons_self, hl.isInfix⟩
  | cons c front ih =>
    obtain ⟨l, hl, hxl⟩ := ih
    obtain ⟨m, hm, hlm⟩ := exists_longer_line hl c
    exact ⟨m, hm, hxl.trans hlm⟩

end HotReload.Text
