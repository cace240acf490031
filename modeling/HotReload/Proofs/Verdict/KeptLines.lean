import HotReload.Proofs.Outline.Words
import HotReload.Proofs.Verdict.Revision

/-
  Lines across a revision. The line of a declaration or a statement that no change overlaps stands in
  the other version, too, and opens the same there (`Revision.exists_opening`): a change at one of its
  ends is quiet, so it cannot make the line a part of a longer one, and the line is no part of
  something else by the way lines are spelled.
-/

namespace HotReload

open Marked Outline
open Region (carry?)

namespace Outline.Opens

variable {t : Tree} {all : Marked} {ps : List Piece} {depth : Nat} {text : String} {list : Bool}
  {i : t.Id}

/-- In front of a line stands trivia, unless the text starts there. -/
theorem before (h : Opens t all ps depth text list i) :
    (t.node i).span.start = 0 ∨ ∃ j c, j + 1 = (t.node i).span.start ∧ c.utf8Size = 1 ∧
      At all j [(c, false)] := by
  obtain ⟨l, -, hline, hmargin, hspan⟩ := h.line
  cases depth with
  | zero =>
    rw [← hspan]
    exact hline.imp id fun ⟨j, hj, hbreak⟩ => ⟨j, '\n', hj.symm, rfl, hbreak⟩
  | succ depth =>
    exact Or.inr ⟨l + (4 * depth + 3), ' ', by omega, rfl, at_margin hmargin (by omega)⟩

theorem width_text : width (code text.toList) = text.utf8ByteSize := by
  rw [width_code, Text.utf8ByteSize_eq_byteLength]

/-- Code goes on behind a line with a parenthesis only. -/
theorem eq_of_goesOn {y : Char} {rest : List Char} {start : Nat} {m : Marked} {c : Char}
    (hcode : At m start (code (text.toList ++ y :: rest)))
    (hnext : At m (start + text.utf8ByteSize) [(c, list)]) (hc : list = true → c = '(') :
    y = '(' := by
  unfold code at hcode
  rw [List.map_append, List.map_cons] at hcode
  have hright := hcode.right
  rw [show width (text.toList.map fun c => (c, true)) = text.utf8ByteSize from width_text] at hright
  obtain ⟨rfl, rfl⟩ := Prod.mk.inj (hright.eq_of_cons hnext)
  exact hc rfl

end Outline.Opens

namespace Revision

variable {t u : Tree} {marked : String → Prop} {items items' : Items}
  {changes : List (Span × Span)} (h : Revision items items' t u marked changes)
  {depth : Nat} {text : String} {list : Bool} {i : t.Id}
  (hi : Opening t items.marks items.pieces depth text list i)

include h in
/-- Lines are in one order on both sides. -/
theorem lt_iff_of_carry (hi : Opening t items.marks items.pieces depth text list i)
    {depth' : Nat} {text' : String} {list' : Bool} {j : t.Id}
    (hj : Opening t items.marks items.pieces depth' text' list' j)
    {depth₁ depth₂ : Nat} {text₁ text₂ : String} {list₁ list₂ : Bool} {i' j' : u.Id}
    (hi' : Opening u items'.marks items'.pieces depth₁ text₁ list₁ i')
    (hj' : Opening u items'.marks items'.pieces depth₂ text₂ list₂ j')
    (hcarry : carry? 0 0 changes (t.node i).span.start = some (u.node i').span.start)
    (hcarry' : carry? 0 0 changes (t.node j).span.start = some (u.node j').span.start) :
    i < j ↔ i' < j' := by
  rw [hi.lt_iff h.old hj, hi'.lt_iff h.new hj']
  exact h.aligned.carry?_lt_iff (Nat.zero_le _) (Nat.zero_le _) hcarry hcarry'

include h hi

/-- A kept line starts a significant piece, if the changes at its start are quiet. -/
theorem exists_piece_of_kept {start' : Nat}
    (hkept : Aligned.Kept changes items.marks items'.marks (code text.toList)
      (t.node i).span.start start')
    (hstart : QuietAt t u changes (t.node i).span.start) :
    ∃ p ∈ items'.pieces, p.significant = true ∧ p.span.start = start' ∧ start' < p.span.stop := by
  have hopens := hi.opens
  have hpos := hopens.pos
  obtain ⟨path, symbols, hbuilt⟩ := h.new.built
  have hcode : codeAt items'.marks (start' + 0) = true := by
    have hzero : 0 < width (code text.toList) := by rwa [Opens.width_text]
    rw [hkept.there.codeAt_eq hzero]
    rw [width_code] at hzero
    exact codeAt_code hzero
  obtain ⟨p, hp, hsignificant, hle, hlt⟩ := Items.exists_piece hcode
  rw [Nat.add_zero] at hle hlt
  refine ⟨p, hp, hsignificant, Nat.le_antisymm hle (Nat.le_of_not_lt fun hinside => ?_), hlt⟩
  -- otherwise the byte in front is code, but trivia stands there, or a quiet change ends there
  have hchange : ¬∃ c ∈ changes, c.1.stop = (t.node i).span.start ∧ c.2.stop = start' := by
    rintro ⟨c, hc, hstop, hstop'⟩
    obtain ⟨hordered, hordered'⟩ := h.aligned.ordered c hc
    obtain ⟨o, n, hquiet⟩ := hstart c hc (hstop ▸ hordered) (Nat.le_of_eq hstop.symm)
    have hoverlaps := Span.overlaps_of_touches hinside hlt (hstop' ▸ hordered')
      (Nat.le_of_eq hstop'.symm)
    rw [show p.span.overlaps c.2 = false from
      hquiet.symm.not_overlaps hbuilt hp hsignificant] at hoverlaps
    exact Bool.false_ne_true hoverlaps
  rcases hopens.before with hzero | ⟨j, c, hj, hsize, htrivia⟩
  · rcases hkept.first hzero with hzero' | hexists
    · omega
    · exact hchange hexists
  rcases hkept.preceded _ j htrivia (by simpa [hsize] using hj) with ⟨j', hat, hj'⟩ | hexists
  · obtain ⟨text', hat', hstop, -⟩ := (h.new.pieceRole hp hsignificant).exists_text
    simp only [width_cons, hsize, width_nil] at hj'
    have hcode' := hat'.codeAt_eq (k := j' - p.span.start) (by
      rw [width_code, ← Text.utf8ByteSize_eq_byteLength]
      omega)
    rw [codeAt_code (by rw [← Text.utf8ByteSize_eq_byteLength]; omega),
      Nat.add_sub_cancel' (by omega)] at hcode'
    have hfalse := hat.codeAt_eq (k := 0) (by simp [hsize])
    rw [Nat.add_zero, hcode', codeAt, if_pos (by omega)] at hfalse
    exact absurd hfalse.symm Bool.false_ne_true
  · obtain ⟨c', hc', k, hk, hstop, hstop'⟩ := hexists
    simp only [width_cons, hsize, width_nil] at hk
    exact hchange ⟨c', hc', by omega, by omega⟩

/-- A kept line does not go on in the other version, if the changes at its end are quiet. -/
theorem not_longer
    (hstop : list = false → QuietAt t u changes ((t.node i).span.start + text.utf8ByteSize))
    {depth' : Nat} {text' : String} {list' : Bool} {i' : u.Id}
    (hi' : Opening u items'.marks items'.pieces depth' text' list' i')
    (hkept : Aligned.Kept changes items.marks items'.marks (code text.toList)
      (t.node i).span.start (u.node i').span.start)
    {y : Char} {rest : List Char} (hlonger : text'.toList = text.toList ++ y :: rest) : False := by
  obtain ⟨path, symbols, hbuilt⟩ := h.new.built
  have hpos := hi.opens.pos
  have hpiece := hi'.opens.piece
  obtain ⟨c, hnext, hc⟩ := hi.opens.next
  rw [← Opens.width_text] at hnext
  rcases hkept.followed _ hnext with hat | ⟨c, hc, hstart, hstart'⟩
  · have hwritten := hi'.opens.written
    rw [hlonger] at hwritten
    rw [Opens.width_text] at hat
    obtain rfl := Opens.eq_of_goesOn hwritten hat hc
    exact absurd (hlonger ▸ List.mem_append_right _ List.mem_cons_self) hi'.notMem_text
  · -- a change at the end stands inside of the longer line
    obtain ⟨hordered, hordered'⟩ := h.aligned.ordered c hc
    rw [Opens.width_text] at hstart hstart'
    have hsize : text.utf8ByteSize < text'.utf8ByteSize := by
      rw [Text.utf8ByteSize_eq_byteLength text', hlonger, Text.byteLength_append,
        Text.byteLength_cons, Text.utf8ByteSize_eq_byteLength text]
      have := y.utf8Size_pos
      omega
    have hoverlaps : (⟨(u.node i').span.start, (u.node i').span.start + text'.utf8ByteSize⟩ :
        Span).overlaps c.2 = true :=
      Span.overlaps_of_touches (q := (u.node i').span.start + text.utf8ByteSize) (by dsimp only; omega)
        (by dsimp only; omega) (Nat.le_of_eq hstart') (hstart' ▸ hordered')
    have hquiet : ¬∃ o n, Quiet t u c o n := by
      rintro ⟨o, n, hquiet⟩
      rw [show Span.overlaps _ c.2 = false from
        hquiet.symm.not_overlaps hbuilt hpiece rfl] at hoverlaps
      exact Bool.false_ne_true hoverlaps
    cases hi' with
    | declared scope head hd htext _ =>
      have hfree := h.symm.head_free hd (List.mem_map_of_mem hc)
      rw [htext, show c.swap.1 = c.2 from rfl, hoverlaps] at hfree
      exact absurd hfree.symm Bool.false_ne_true
    | stated hs _ =>
      cases hi with
      | declared scope head hd htext hlist =>
        cases hparameters : list with
        | false =>
          exact hquiet (hstop hparameters c hc (Nat.le_of_eq hstart) (hstart ▸ hordered))
        | true =>
          refine Head.not_prefix hd.plain (hlist.trans hparameters) hs.plain ⟨y :: rest, ?_⟩
          rw [htext, hlonger]
      | stated _ hparameters =>
        exact hquiet (hstop hparameters c hc (Nat.le_of_eq hstart) (hstart ▸ hordered))

/-- A line that no change overlaps opens the same in the other version, if the changes at its ends
are quiet. -/
theorem exists_opening
    (hfree : ∀ c ∈ changes, (⟨(t.node i).span.start,
      (t.node i).span.start + text.utf8ByteSize⟩ : Span).overlaps c.1 = false)
    (hstart : QuietAt t u changes (t.node i).span.start)
    (hstop : list = false → QuietAt t u changes ((t.node i).span.start + text.utf8ByteSize)) :
    ∃ depth' list' i', Opening u items'.marks items'.pieces depth' text list' i' ∧
      Aligned.Kept changes items.marks items'.marks (code text.toList) (t.node i).span.start
        (u.node i').span.start := by
  have hopens := hi.opens
  have hne : code text.toList ≠ [] := by
    obtain ⟨first, rest, hfirst, -⟩ := hi.exists_first
    rw [hfirst]
    exact List.cons_ne_nil _ _
  obtain ⟨start', hkept⟩ := h.aligned.exists_kept hopens.written hne (by
    rw [Opens.width_text]
    exact hfree)
  obtain ⟨p, hp, hsignificant, rfl, hlt⟩ := h.exists_piece_of_kept hi hkept hstart
  obtain ⟨text', hat', hpstop, hrole⟩ := (h.new.pieceRole hp hsignificant).exists_text
  have hprefix : text.toList <+: text'.toList ∨ text'.toList <+: text.toList :=
    (hkept.there.prefix_or_prefix hat').imp prefix_of_code prefix_of_code
  obtain ⟨depth', list', i', hi', hspan⟩ :=
    hrole.resolve_right (hi.not_isPunctuation (by omega) hprefix)
  have hopens' := hi'.opens
  rw [← hspan] at hkept hat'
  refine ⟨depth', list', i', ?_, hkept⟩
  suffices htext : text = text' from htext ▸ hi'
  refine String.toList_inj.1 ?_
  rcases hprefix with ⟨rest', hrest⟩ | ⟨rest', hrest⟩
  · cases rest' with
    | nil => rwa [List.append_nil] at hrest
    | cons y rest' => exact (h.not_longer hi hstop hi' hkept hrest.symm).elim
  · cases rest' with
    | nil => exact (hrest.symm.trans (List.append_nil _))
    | cons y rest' =>
      obtain ⟨c, hnext, hc⟩ := hopens'.next
      have hthere := hkept.there
      rw [← hrest] at hthere
      obtain rfl := Opens.eq_of_goesOn hthere hnext hc
      exact absurd (hrest ▸ List.mem_append_right _ List.mem_cons_self) hi.notMem_text

end Revision
end HotReload
