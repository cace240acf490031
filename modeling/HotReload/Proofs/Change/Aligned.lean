import HotReload.Proofs.Change.Replay
import HotReload.Proofs.Source.Within

/-
  Two texts side by side. `Aligned` says how some changes lead from one text to another, marks
  included: what stands between the changes is shared. Changes are pairs of spans, so the relation
  has no direction (`Aligned.symm`). A part of one text that no change overlaps stands in a run of
  shared text, which reaches to a change or to the end of both texts on either side
  (`Aligned.exists_run`).

  The regions between two versions align them if the text they keep stays code or stays trivia
  (`Patch.aligned`).
-/

namespace HotReload

open Marked

namespace Region

/-- What the region replaces and what it puts in. -/
def spans (r : Region) : Span × Span := (r.span, r.newSpan)

/-- Where a byte stands on the other side, unless a change takes it out. So far the changes have
reached `o` on this side and `n` on the other. -/
def carry? (o n : Nat) : List (Span × Span) → Nat → Option Nat
  | [], i => some (n + (i - o))
  | (s, s') :: rest, i =>
    if i < s.start then some (n + (i - o))
    else if i < s.stop then none
    else carry? s.stop s'.stop rest i

/-- The text that the regions keep is code on both sides or trivia on both. -/
def KeepsCode (regions : List Region) (oldEvents newEvents : List Event) : Prop :=
  ∀ i < Event.bytes oldEvents, ∀ i' ∈ carry? 0 0 (regions.map spans) i,
    codeAt (Event.marks oldEvents) i = codeAt (Event.marks newEvents) i'

end Region

open Region (carry?)

/-- The changes lead from one text to another; the first offset is where one text starts and the
second where the other one does. -/
inductive Aligned : Nat → Nat → List (Span × Span) → Marked → Marked → Prop
  | rest (o n : Nat) (kept : Marked) : Aligned o n [] kept kept
  | change {o n : Nat} {changes : List (Span × Span)} {old new : Marked}
      (kept removed inserted : Marked)
      (behind : Aligned (o + width kept + width removed) (n + width kept + width inserted) changes
        old new) :
      Aligned o n
        ((⟨o + width kept, o + width kept + width removed⟩,
          ⟨n + width kept, n + width kept + width inserted⟩) :: changes)
        (kept ++ removed ++ old) (kept ++ inserted ++ new)

namespace Aligned

variable {o n i j i' j' : Nat} {changes : List (Span × Span)} {old new : Marked}

theorem symm (h : Aligned o n changes old new) :
    Aligned n o (changes.map Prod.swap) new old := by
  induction h with
  | rest o n kept => exact .rest n o kept
  | change kept removed inserted _ ih => exact .change kept inserted removed ih

/-! ## Bytes -/

theorem le_carry? (h : Aligned o n changes old new) (hi : carry? o n changes i = some i') :
    n ≤ i' := by
  induction h generalizing i with
  | rest o n kept =>
    obtain rfl := Option.some.inj hi
    exact Nat.le_add_right _ _
  | change kept removed inserted _ ih =>
    simp only [carry?] at hi
    split at hi
    · obtain rfl := Option.some.inj hi
      exact Nat.le_add_right _ _
    split at hi
    · simp at hi
    · have := ih hi
      omega

/-- Bytes stay in order. -/
theorem carry?_lt (h : Aligned o n changes old new) (ho : o ≤ i) (hij : i < j)
    (hi : carry? o n changes i = some i') (hj : carry? o n changes j = some j') : i' < j' := by
  induction h generalizing i j with
  | rest o n kept =>
    obtain rfl := Option.some.inj hi
    obtain rfl := Option.some.inj hj
    omega
  | change kept removed inserted behind ih =>
    simp only [carry?] at hi hj
    split at hi
    · obtain rfl := Option.some.inj hi
      split at hj
      · obtain rfl := Option.some.inj hj
        omega
      split at hj
      · simp at hj
      · have := behind.le_carry? hj
        omega
    split at hi
    · simp at hi
    · rw [if_neg (by omega), if_neg (by omega)] at hj
      exact ih (by omega) hij hi hj

/-- From the other side, a byte comes back to where it was. -/
theorem carry?_swap (h : Aligned o n changes old new) (ho : o ≤ i)
    (hi : carry? o n changes i = some i') :
    carry? n o (changes.map Prod.swap) i' = some i := by
  induction h generalizing i with
  | rest o n kept =>
    obtain rfl := Option.some.inj hi
    simp only [List.map_nil, carry?, Nat.add_sub_cancel_left]
    rw [Nat.add_sub_cancel' ho]
  | change kept removed inserted behind ih =>
    simp only [List.map_cons, Prod.swap_prod_mk, carry?] at hi ⊢
    split at hi
    · next hlt =>
      obtain rfl := Option.some.inj hi
      rw [if_pos (by omega), Nat.add_sub_cancel_left, Nat.add_sub_cancel' ho]
    split at hi
    · simp at hi
    · have := behind.le_carry? hi
      rw [if_neg (by omega), if_neg (by omega)]
      exact ih (by omega) hi

/-- Bytes are in one order on both sides. -/
theorem carry?_lt_iff (h : Aligned o n changes old new) (hoi : o ≤ i) (hoj : o ≤ j)
    (hi : carry? o n changes i = some i') (hj : carry? o n changes j = some j') :
    i < j ↔ i' < j' := by
  rcases Nat.lt_trichotomy i j with hlt | rfl | hlt
  · exact iff_of_true hlt (h.carry?_lt hoi hlt hi hj)
  · obtain rfl := Option.some.inj (hi.symm.trans hj)
    exact iff_of_false (Nat.lt_irrefl _) (Nat.lt_irrefl _)
  · exact iff_of_false (Nat.lt_asymm hlt) (Nat.lt_asymm (h.carry?_lt hoj hlt hj hi))

/-! ## Runs -/

/-- A run of shared text with what is in front of it and behind it on either side. It reaches to a
change, or to the end of both texts. -/
structure Run (o n : Nat) (changes : List (Span × Span)) (old new : Marked)
    (before run behind before' behind' : Marked) : Prop where
  old_eq : old = before ++ run ++ behind
  new_eq : new = before' ++ run ++ behind'
  left : before = [] ∧ before' = [] ∨
    ∃ c ∈ changes, c.1.stop = o + width before ∧ c.2.stop = n + width before'
  right : behind = [] ∧ behind' = [] ∨
    ∃ c ∈ changes, c.1.start = o + width before + width run ∧
      c.2.start = n + width before' + width run
  carry : ∀ k < width run, carry? o n changes (o + width before + k) = some (n + width before' + k)

/-- Nothing of a part overlaps a change, so the part is in front of the change or behind it. -/
theorem apart_of_not_overlaps {a b s t : Nat} (hab : a < b)
    (h : (⟨a, b⟩ : Span).overlaps ⟨s, t⟩ = false) : b ≤ s ∨ t ≤ a := by
  unfold Span.overlaps Span.isEmpty at h
  have hne : (a = b) = False := eq_false (Nat.ne_of_lt hab)
  by_cases hempty : s = t <;>
    simp only [hempty, hne, decide_true, decide_false, if_true, if_false, Bool.and_eq_false_iff,
      decide_eq_false_iff_not, Bool.false_eq_true] at h <;> omega

/-- A part that no change overlaps stands in a run of shared text. -/
theorem exists_run (h : Aligned o n changes old new) {pre x post : Marked}
    (hold : old = pre ++ x ++ post) (hx : x ≠ [])
    (hfree : ∀ c ∈ changes,
      (⟨o + width pre, o + width pre + width x⟩ : Span).overlaps c.1 = false) :
    ∃ before left right behind before' behind', pre = before ++ left ∧ post = right ++ behind ∧
      Run o n changes old new before (left ++ x ++ right) behind before' behind' := by
  have hpos := width_pos hx
  induction h generalizing pre with
  | rest o n kept =>
    refine ⟨[], pre, post, [], [], [], rfl, by simp, by simp [hold], by simp [hold],
      Or.inl ⟨rfl, rfl⟩, Or.inl ⟨rfl, rfl⟩, fun k _ => ?_⟩
    simp only [carry?, width_nil, Nat.add_zero, Nat.add_sub_cancel_left]
  | @change o n changes old new kept removed inserted behind ih =>
    rw [List.append_assoc kept] at hold
    have hapart : o + width pre + width x ≤ o + width kept ∨
        o + width kept + width removed ≤ o + width pre :=
      apart_of_not_overlaps (by omega) (hfree _ List.mem_cons_self)
    rcases hapart with hfront | hback
    · -- the part stands in what is kept in front of the first change
      obtain ⟨right, hkept, hpost⟩ := exists_append_of_width_le hold.symm
        (by rw [width_append]; omega)
      refine ⟨[], pre, right, removed ++ old, [], inserted ++ new, rfl, hpost, by simp [hkept],
        by simp [hkept], Or.inl ⟨rfl, rfl⟩, Or.inr ⟨_, List.mem_cons_self, ?_, ?_⟩, fun k hk => ?_⟩
      · rw [hkept, width_nil, Nat.add_zero]
      · rw [hkept, width_nil, Nat.add_zero]
      · rw [← hkept] at hk
        have hlt : o + width ([] : Marked) + k < o + width kept := by
          rw [width_nil]
          omega
        rw [carry?, if_pos hlt]
        congr 1
        rw [width_nil]
        omega
    · rw [← List.append_assoc kept, List.append_assoc pre] at hold
      obtain ⟨pre', rfl, hold'⟩ := exists_append_of_width_le hold (by rw [width_append]; omega)
      rw [← List.append_assoc] at hold'
      have hoffset : o + width (kept ++ removed ++ pre') =
          o + width kept + width removed + width pre' := by
        simp only [width_append]
        omega
      rw [hoffset] at hfree
      obtain ⟨before, left, right, behind, before', behind', rfl, hpost, hrun⟩ :=
        ih hold' fun c hc => hfree c (List.mem_cons_of_mem _ hc)
      refine ⟨kept ++ removed ++ before, left, right, behind, kept ++ inserted ++ before', behind',
        by simp, hpost, by rw [hrun.old_eq]; simp, by rw [hrun.new_eq]; simp, ?_, ?_,
        fun k hk => ?_⟩
      · refine Or.inr ?_
        rcases hrun.left with ⟨rfl, rfl⟩ | ⟨c, hc, h1, h2⟩
        · refine ⟨_, List.mem_cons_self, ?_, ?_⟩ <;> simp [Nat.add_assoc]
        · refine ⟨c, List.mem_cons_of_mem _ hc, ?_, ?_⟩
          · rw [h1]; simp only [width_append]; omega
          · rw [h2]; simp only [width_append]; omega
      · refine hrun.right.imp_right fun ⟨c, hc, h1, h2⟩ =>
          ⟨c, List.mem_cons_of_mem _ hc, ?_, ?_⟩
        · rw [h1]; simp only [width_append]; omega
        · rw [h2]; simp only [width_append]; omega
      · rw [carry?, if_neg (by simp only [width_append]; omega),
          if_neg (by simp only [width_append]; omega)]
        simp only [width_append]
        rw [show o + (width kept + width removed + width before) + k =
          o + width kept + width removed + width before + k by omega, hrun.carry k hk]
        congr 1
        omega

/-- What stands somewhere on the one side stands on the other side, too, with the same text around it
up to a change on either side. -/
structure Kept (changes : List (Span × Span)) (old new x : Marked) (start start' : Nat) : Prop where
  there : At new start' x
  carry : ∀ k < width x, carry? 0 0 changes (start + k) = some (start' + k)
  first : start = 0 → start' = 0 ∨ ∃ c ∈ changes, c.1.stop = start ∧ c.2.stop = start'
  preceded : ∀ m j, At old j m → j + width m = start →
    (∃ j', At new j' m ∧ j' + width m = start') ∨
      ∃ c ∈ changes, ∃ k < width m, c.1.stop + k = start ∧ c.2.stop + k = start'
  followed : ∀ y, At old (start + width x) [y] → At new (start' + width x) [y] ∨
    ∃ c ∈ changes, c.1.start = start + width x ∧ c.2.start = start' + width x

namespace Run

variable {before left x right behind before' behind' : Marked}
  (hrun : Run 0 0 changes old new before (left ++ x ++ right) behind before' behind')

include hrun

theorem old_split : old = before ++ left ++ x ++ (right ++ behind) := by
  rw [hrun.old_eq]
  simp

theorem new_split : new = before' ++ left ++ x ++ (right ++ behind') := by
  rw [hrun.new_eq]
  simp

/-- In front of a part of a run stands the same on both sides, unless a change reaches into it. -/
theorem preceded {m : Marked} {j : Nat} (hm : At old j m)
    (hj : j + width m = width (before ++ left)) :
    (∃ j', At new j' m ∧ j' + width m = width (before' ++ left)) ∨
      ∃ c ∈ changes, ∃ k < width m, c.1.stop + k = width (before ++ left) ∧
        c.2.stop + k = width (before' ++ left) := by
  obtain ⟨u, v, hall, rfl⟩ := hm
  rw [hrun.old_split, List.append_assoc] at hall
  obtain ⟨hpre, -⟩ := append_inj_of_width hall (by rw [width_append u, hj])
  rcases Nat.lt_or_ge (width u) (width before) with hlt | hge
  · obtain ⟨z, rfl, rfl⟩ := exists_append_of_width_le hpre.symm (Nat.le_of_lt hlt)
    refine Or.inr ?_
    rcases hrun.left with ⟨hnil, -⟩ | ⟨c, hc, hstop, hstop'⟩
    · rw [hnil, width_nil] at hlt
      exact absurd hlt (Nat.not_lt_zero _)
    · rw [width_append] at hlt
      refine ⟨c, hc, width left, ?_, ?_, ?_⟩
      · rw [width_append]
        omega
      · rw [hstop, Nat.zero_add, width_append (u ++ z)]
      · rw [hstop', Nat.zero_add, width_append before']
  · obtain ⟨z, rfl, rfl⟩ := exists_append_of_width_le hpre hge
    refine Or.inl ⟨width before' + width z, ⟨before' ++ z, x ++ (right ++ behind'), ?_,
      width_append _ _⟩, ?_⟩
    · rw [hrun.new_split]
      simp
    · rw [width_append, width_append, Nat.add_assoc]

/-- Behind a part of a run stands the same on both sides, unless a change starts there. -/
theorem followed {y : Char × Bool} (hy : At old (width (before ++ left) + width x) [y]) :
    At new (width (before' ++ left) + width x) [y] ∨
      ∃ c ∈ changes, c.1.start = width (before ++ left) + width x ∧
        c.2.start = width (before' ++ left) + width x := by
  obtain ⟨u, v, hall, hu⟩ := hy
  rw [hrun.old_split, List.append_assoc u] at hall
  obtain ⟨-, hpost⟩ := append_inj_of_width hall (by rw [width_append _ x, hu])
  cases right with
  | nil =>
    refine Or.inr ?_
    rcases hrun.right with ⟨hnil, -⟩ | ⟨c, hc, hstart, hstart'⟩
    · rw [hnil] at hpost
      simp at hpost
    · refine ⟨c, hc, ?_, ?_⟩
      · rw [hstart]
        simp only [width_append, width_nil]
        omega
      · rw [hstart']
        simp only [width_append, width_nil]
        omega
  | cons r right =>
    simp only [List.cons_append, List.cons.injEq] at hpost
    obtain ⟨rfl, -⟩ := hpost
    refine Or.inl ⟨before' ++ left ++ x, right ++ behind', ?_, width_append _ _⟩
    rw [hrun.new_split]
    simp

end Run

/-- A part of a text that no change overlaps is kept. -/
theorem exists_kept (h : Aligned 0 0 changes old new) {x : Marked} {start : Nat}
    (hat : At old start x) (hx : x ≠ [])
    (hfree : ∀ c ∈ changes, (⟨start, start + width x⟩ : Span).overlaps c.1 = false) :
    ∃ start', Kept changes old new x start start' := by
  obtain ⟨pre, post, hold, rfl⟩ := hat
  obtain ⟨before, left, right, behind, before', behind', rfl, rfl, hrun⟩ :=
    h.exists_run hold hx (by simpa using hfree)
  refine ⟨width (before' ++ left), ⟨before' ++ left, right ++ behind', hrun.new_split, rfl⟩,
    fun k hk => ?_, fun hzero => ?_, fun m j => hrun.preceded, fun y => hrun.followed⟩
  · have hcarry := hrun.carry (width left + k) (by simp only [width_append]; omega)
    rwa [Nat.zero_add, Nat.zero_add, ← Nat.add_assoc, ← Nat.add_assoc, ← width_append,
      ← width_append] at hcarry
  · rw [width_append] at hzero ⊢
    rw [width_append]
    refine hrun.left.imp (fun ⟨_, hbefore'⟩ => ?_) fun ⟨c, hc, hstop, hstop'⟩ => ⟨c, hc, ?_, ?_⟩
    · rw [hbefore', width_nil]
      omega
    · omega
    · omega

/-- Changes have their ends in order. -/
theorem ordered (h : Aligned o n changes old new) :
    ∀ c ∈ changes, c.1.start ≤ c.1.stop ∧ c.2.start ≤ c.2.stop := by
  induction h with
  | rest o n kept => simp
  | change kept removed inserted _ ih =>
    refine List.forall_mem_cons.2 ⟨⟨Nat.le_add_right _ _, Nat.le_add_right _ _⟩, ih⟩

end Aligned

/-! ## Regions -/

theorem Region.spans_eq {span : Span} {start : Nat} {inserted : List Char}
    (h : start + Text.byteLength inserted ≤ Text.maxOffset) :
    (⟨span, start, String.ofList inserted⟩ : Region).spans =
      (span, ⟨start, start + Text.byteLength inserted⟩) := by
  rw [spans, newSpan_eq (by rwa [String.toList_ofList]), String.toList_ofList]

namespace Patch

variable {o n i i' : Nat} {regions : List Region} {oldText newText : List Char}

theorem le_carry? (h : Patch o n regions oldText newText)
    (hsize : n + Text.byteLength newText ≤ Text.maxOffset)
    (hi : carry? o n (regions.map Region.spans) i = some i') : n ≤ i' := by
  induction h generalizing i with
  | rest o n kept =>
    obtain rfl := Option.some.inj hi
    exact Nat.le_add_right _ _
  | region kept removed inserted _ ih =>
    simp only [Text.byteLength_append] at hsize
    rw [List.map_cons, Region.spans_eq (by omega), carry?] at hi
    split at hi
    · obtain rfl := Option.some.inj hi
      exact Nat.le_add_right _ _
    split at hi
    · simp at hi
    · have := ih (by omega) hi
      omega

/-- Regions that lead from one text to another and keep code and trivia align the texts. -/
theorem aligned (h : Patch o n regions oldText newText) {old new : Marked}
    (hold : text old = oldText) (hnew : text new = newText)
    (hsize : n + width new ≤ Text.maxOffset)
    (hkeeps : ∀ i, o ≤ i → i < o + width old →
      ∀ i' ∈ carry? o n (regions.map Region.spans) i,
        codeAt old (i - o) = codeAt new (i' - n)) :
    Aligned o n (regions.map Region.spans) old new := by
  induction h generalizing old new with
  | rest o n kept =>
    have heq : old = new := by
      refine eq_of_codeAt (hold.trans hnew.symm) fun i hi => ?_
      have hcode := hkeeps (o + i) (Nat.le_add_right _ _) (Nat.add_lt_add_left hi _) (n + i)
        (by simp [carry?])
      rwa [Nat.add_sub_cancel_left, Nat.add_sub_cancel_left] at hcode
    rw [heq]
    exact .rest o n new
  | @region o n regions oldText newText kept removed inserted behind ih =>
    obtain ⟨front, oldRest, rfl, hfront, rfl⟩ := List.map_eq_append_iff.1 hold
    obtain ⟨keptOld, removedOld, rfl, rfl, rfl⟩ := List.map_eq_append_iff.1 hfront
    obtain ⟨front', newRest, rfl, hfront', rfl⟩ := List.map_eq_append_iff.1 hnew
    obtain ⟨keptNew, insertedNew, rfl, hkeptNew, rfl⟩ := List.map_eq_append_iff.1 hfront'
    have hwidth : width keptNew = width keptOld := congrArg Text.byteLength hkeptNew
    simp only [width_append] at hsize hkeeps
    rw [List.map_cons, Region.spans_eq (by change _ + width _ + width _ ≤ _; omega)] at hkeeps ⊢
    have heq : keptOld = keptNew := by
      refine eq_of_codeAt hkeptNew.symm fun i hi => ?_
      have hlt : o + i < o + Text.byteLength (keptOld.map Prod.fst) := Nat.add_lt_add_left hi o
      have hcode := hkeeps (o + i) (Nat.le_add_right _ _) (by omega) (n + i) (by
        rw [carry?, if_pos hlt, Nat.add_sub_cancel_left]
        rfl)
      rwa [Nat.add_sub_cancel_left, Nat.add_sub_cancel_left, List.append_assoc, List.append_assoc,
        codeAt_append keptOld, codeAt_append keptNew, if_pos hi, if_pos (by omega)] at hcode
    subst heq
    refine .change keptOld removedOld insertedNew (ih rfl rfl ?_ fun i ho hi i' hi' => ?_)
    · change n + width keptOld + width insertedNew + width newRest ≤ _
      omega
    have hle : n + width keptOld + width insertedNew ≤ i' :=
      behind.le_carry? (by change n + width keptOld + width insertedNew + width newRest ≤ _; omega) hi'
    change o + width keptOld + width removedOld ≤ i at ho
    change i < o + width keptOld + width removedOld + width oldRest at hi
    have hcode := hkeeps i (by omega) (by omega) i' (by
      rw [carry?, if_neg (by change ¬i < o + width keptOld; omega),
        if_neg (by change ¬i < o + width keptOld + width removedOld; omega)]
      exact hi')
    rw [codeAt_append (keptOld ++ removedOld), codeAt_append (keptOld ++ insertedNew),
      if_neg (by rw [width_append]; omega), if_neg (by rw [width_append]; omega), width_append,
      width_append, Nat.sub_sub, Nat.sub_sub, ← Nat.add_assoc, ← Nat.add_assoc] at hcode
    exact hcode

end Patch
end HotReload
