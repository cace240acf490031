import HotReload.Proofs.Outline.Builds
import HotReload.Proofs.Source.Enclosing
import HotReload.Proofs.Source.Significant

/-
  Lines of a plain file and the nodes around them. No node is empty, so a node that touches an offset
  inside of what is written straight into a declaration or a statement is that or stands above it
  (`Opens.below_of_touches`). Significant text of a node above reaches beyond the declaration
  (`Declared.span_start_lt`), and declarations in a row stand equally deep
  (`Declared.depth_eq_of_row`).
-/

namespace HotReload

/-- A span with some bytes around an offset overlaps every span that touches the offset. -/
theorem Span.overlaps_of_touches {s r : Span} {q : Nat} (hstart : s.start < q) (hstop : q < s.stop)
    (hr : r.start ≤ q) (hq : q ≤ r.stop) : s.overlaps r = true := by
  unfold overlaps isEmpty
  have hs : (s.start = s.stop) = False := eq_false (by omega)
  by_cases hempty : r.start = r.stop <;>
    simp only [hempty, hs, decide_true, decide_false, if_true, if_false, Bool.and_eq_true,
      decide_eq_true_eq, Bool.false_eq_true] <;> omega

/-- The node reaches to an offset from one side or the other; the root always does. -/
def Tree.Touches (t : Tree) (o : t.Id) (q : Nat) : Prop :=
  o.1 = 0 ∨ ((t.node o).fullSpan.start ≤ q ∧ q ≤ (t.node o).fullSpan.stop)

/-- The node around a span touches what the span touches. -/
theorem Tree.touches_of_enclosing {t : Tree} {span : Span} {o : t.Id}
    (ho : t.enclosing span = .ok o) {q : Nat} (hstart : span.start ≤ q) (hstop : q ≤ span.stop) :
    t.Touches o q := by
  refine (Tree.contains_of_enclosing ho).imp_right fun hcontains => ?_
  obtain ⟨hle, hle'⟩ := Span.contains_iff.1 hcontains
  exact ⟨Nat.le_trans hle hstart, Nat.le_trans hstop hle'⟩

/-- What touches an offset, so does everything above it. -/
theorem Tree.Touches.above {t : Tree} {path : String} {symbols : Symbols} {events : List Event}
    {a o : t.Id} {q : Nat} (h : t.Touches o q) (hbuilt : Tree.ofEvents path symbols events = .ok t)
    (hle : a.1 ≤ o.1) (hlt : o.1 < (t.node a).subtreeEnd) : t.Touches a q := by
  obtain ⟨hstart, hstop⟩ := Tree.fullSpan_of_below hbuilt hle hlt
  rcases h with hroot | ⟨hleft, hright⟩
  · exact Or.inl (by omega)
  · exact Or.inr ⟨Nat.le_trans hstart hleft, Nat.le_trans hright hstop⟩

namespace Outline

open Marked

variable {items : Items} {t : Tree} {scope scope' : Scope} {depth depth' : Nat} {h h' : Head}
  {d d' o : t.Id} {q : Nat}

namespace Items.Builds

/-- A node that touches an offset with text of one owner on both sides is the owner or stands above
it. -/
theorem below_of_touches (hb : items.Builds t) (ho : t.Touches o q) {owner a b : Nat}
    (hfill : Piece.Fill items.pieces owner a b) (ha : a < q) (hq : q < b) :
    o.1 ≤ owner ∧ owner < (t.node o).subtreeEnd := by
  obtain ⟨path, symbols, hbuilt⟩ := hb.built
  obtain ⟨p, hp, hpOwner, hpStart, hpStop⟩ := hfill (q - 1) (by omega) (by omega)
  obtain ⟨p', hp', hpOwner', hpStart', hpStop'⟩ := hfill q (by omega) hq
  rcases ho with hroot | ⟨hstart, hstop⟩
  · have := (Tree.root_contains hbuilt hp hroot).2
    omega
  by_cases hroot : o.1 = 0
  · have := (Tree.root_contains hbuilt hp hroot).2
    omega
  have hpos := hb.full_pos hroot
  rcases Tree.apart_or_below hbuilt hp o with h | h | ⟨-, h⟩
  · rcases Tree.apart_or_below hbuilt hp' o with h' | h' | ⟨-, h'⟩
    · omega
    · omega
    · rwa [hpOwner'] at h'
  · omega
  · rwa [hpOwner] at h

end Items.Builds

namespace Opens

variable {text text' : String} {list list' : Bool} {i j : t.Id} (hb : items.Builds t)
  (hi : Opens t items.marks items.pieces depth text list i)
  (hj : Opens t items.marks items.pieces depth' text' list' j)

include hb hi in
/-- A node that touches the line of another one up to its text is that node or stands above it. -/
theorem below_of_touches (ho : t.Touches o q) (hstart : (t.node i).fullSpan.start < q)
    (hstop : q ≤ (t.node i).span.start) : o.1 ≤ i.1 ∧ i.1 < (t.node o).subtreeEnd := by
  have := hi.pos
  exact hb.below_of_touches ho hi.fill hstart (by omega)

include hb hi in
/-- A node that touches the end of the text, too, unless parameters follow. -/
theorem below_of_touches_stop (hlist : list = false)
    (ho : t.Touches o ((t.node i).span.start + text.utf8ByteSize)) :
    o.1 ≤ i.1 ∧ i.1 < (t.node o).subtreeEnd := by
  have := hi.pos
  have := hi.full_start_le
  exact hb.below_of_touches ho (hi.fill.trans (hi.behind hlist)) (by omega) (by omega)

include hi hj in
/-- Lines are in order of their nodes. -/
theorem stop_le_start (hb : items.Builds t) (hroot : i.1 ≠ 0) (hlt : i.1 < j.1) :
    (t.node i).span.start + text.utf8ByteSize ≤ (t.node j).span.start := by
  obtain ⟨path, symbols, hbuilt⟩ := hb.built
  have hfull := Tree.start_le hbuilt hroot hlt
  have hfull' := hj.full_start_le
  refine Nat.le_of_not_lt fun hle => ?_
  obtain ⟨p, hp, howner, hstart, hstop⟩ := hi.fill (t.node j).span.start (by omega) hle
  have := hj.full
  rcases Tree.apart_or_below hbuilt hp j with h | h | ⟨-, h, -⟩ <;> omega

end Opens

namespace Declared

variable (hb : items.Builds t) (hd : Declared t items.marks items.pieces scope depth h d)
  (hd' : Declared t items.marks items.pieces scope' depth' h' d')

include hb hd in
theorem ne_root : d.1 ≠ 0 := by
  intro hroot
  have hkind := hd.kind
  rw [(hb.root hroot).1] at hkind
  cases h <;> simp [Head.kind] at hkind

include hb hd in
/-- Only at the top of a file can a declaration come first. -/
theorem depth_eq_zero (hfirst : (t.node d).fullSpan.start = 0) : depth = 0 := by
  obtain ⟨p, hp, hinside⟩ := hd.inside
  rcases hinside.before with hroot | ⟨a, b, -, hab, hb'⟩
  · rw [← hinside.length, (hb.root hroot).2.2]
    rfl
  · omega

include hb hd in
/-- The significant text of a node above reaches over the name. -/
theorem span_contains (hle : o.1 ≤ d.1) (hlt : d.1 < (t.node o).subtreeEnd) :
    (t.node o).span.start ≤ (t.node d).span.start ∧
      (t.node d).span.start + h.text.utf8ByteSize < (t.node o).span.stop := by
  obtain ⟨path, symbols, hbuilt⟩ := hb.built
  obtain ⟨w, a, b, hdw, hwd, hlater, ha, hab⟩ := hd.later
  have hw := (Tree.lt_subtreeEnd hbuilt d).2
  obtain ⟨how, hwo⟩ := Tree.below_trans hbuilt (c := ⟨w, Nat.lt_of_lt_of_le hwd hw⟩) hle hlt hdw hwd
  have hpiece := Tree.contains_of_below hbuilt hd.piece rfl hle hlt
  have hpiece' := Tree.contains_of_below hbuilt hlater rfl how hwo
  rw [Span.contains_iff] at hpiece hpiece'
  dsimp only at hpiece hpiece'
  omega

include hb hd in
/-- Above a declaration that is not at the top of the file, significant text starts earlier. -/
theorem span_start_lt (hle : o.1 ≤ d.1) (hlt : d.1 < (t.node o).subtreeEnd) (hne : o ≠ d)
    (hdepth : depth ≠ 0) : (t.node o).span.start < (t.node d).fullSpan.start := by
  obtain ⟨path, symbols, hbuilt⟩ := hb.built
  have hne' := Fin.val_ne_of_ne hne
  obtain ⟨p, hp, hinside⟩ := hd.inside
  obtain ⟨p', hp', hop, hpd⟩ := Tree.exists_parent? hbuilt (show o.1 < d.1 by omega) hlt
  obtain rfl := Option.some.inj (hp.symm.trans hp')
  rcases hinside.before with hroot | ⟨a, b, hpiece, hab, hb'⟩
  · have hlength := hinside.length
    rw [(hb.root hroot).2.2] at hlength
    exact absurd hlength.symm hdepth
  · have hcontains := Tree.contains_of_below hbuilt hpiece rfl hop (Nat.lt_trans hpd hlt)
    rw [Span.contains_iff] at hcontains
    dsimp only at hcontains
    omega

include hb hd in
/-- A node with text of its own in front of a declaration and behind it stands above the
declaration. -/
theorem below_of_inside {p : t.Id} (hinside : Inside t items.pieces scope' depth' p
    (t.node d).fullSpan.start (t.node d).fullSpan.stop) :
    p.1 < d.1 ∧ d.1 < (t.node p).subtreeEnd := by
  obtain ⟨path, symbols, hbuilt⟩ := hb.built
  have hroot := hd.ne_root hb
  have hfull := hd.full_start_le
  have hpos := utf8ByteSize_text_pos h
  have hstop := hd.full
  by_cases hp : p.1 = 0
  · have := (Tree.root_contains hbuilt hd.piece hp).2
    dsimp only at this
    omega
  obtain ⟨a, b, hbefore, hab, hb'⟩ := hinside.before.resolve_left hp
  obtain ⟨a', b', hbehind, hab', ha'⟩ := hinside.behind.resolve_left hp
  have hend := (Tree.lt_subtreeEnd hbuilt p).1
  have hcontains := Tree.full_contains_of_below hbuilt hbefore hp (Nat.le_refl _) hend
  have hcontains' := Tree.full_contains_of_below hbuilt hbehind hp (Nat.le_refl _) hend
  rw [Span.contains_iff] at hcontains hcontains'
  dsimp only at hcontains hcontains'
  have hne : p.1 ≠ d.1 := by
    intro heq
    rw [Fin.ext heq] at hcontains
    omega
  rcases Tree.apart_or_below hbuilt hd.piece p with h | h | ⟨-, hle, hlt⟩
  · dsimp only at h
    omega
  · dsimp only at h
    omega
  · dsimp only at hle hlt
    omega

include hb hd hd' in
/-- Declarations in a row stand equally deep. -/
theorem depth_eq_of_row (hnext : (t.node d).fullSpan.stop = (t.node d').fullSpan.start) :
    depth = depth' := by
  obtain ⟨path, symbols, hbuilt⟩ := hb.built
  obtain ⟨p, hp, hinside⟩ := hd.inside
  obtain ⟨p', hp', hinside'⟩ := hd'.inside
  have hroot := hd.ne_root hb
  have hroot' := hd'.ne_root hb
  have hfull := hd.full_start_le
  have hfull' := hd'.full_start_le
  have hpos' := utf8ByteSize_text_pos h'
  have hstop := hd.full
  have hstop' := hd'.full
  have hpd := Tree.below_of_parent? hbuilt hp (Nat.le_refl _) (Tree.lt_subtreeEnd hbuilt p).1
  have hpd' := Tree.below_of_parent? hbuilt hp' (Nat.le_refl _) (Tree.lt_subtreeEnd hbuilt p').1
  -- what ends the items around the first declaration stands behind the second one, too
  have hbehind : p.1 = 0 ∨ ∃ a b, ⟨p.1, true, a, b⟩ ∈ items.pieces ∧ a < b ∧
      (t.node d').fullSpan.stop ≤ a := by
    refine hinside.behind.imp_right fun ⟨a, b, hpiece, hab, ha⟩ => ⟨a, b, hpiece, hab, ?_⟩
    rcases Tree.apart_or_below hbuilt hpiece d' with h | h | ⟨-, hle, hlt⟩
    · dsimp only at h
      omega
    · exact h
    · obtain ⟨hle, hlt⟩ := Tree.below_trans hbuilt hle hlt (Nat.le_of_lt hpd.1) hpd.2
      have := Tree.full_contains_of_below hbuilt hd.piece hroot' hle hlt
      rw [Span.contains_iff] at this
      dsimp only at this
      omega
  have hbefore' : p'.1 = 0 ∨ ∃ a b, ⟨p'.1, true, a, b⟩ ∈ items.pieces ∧ a < b ∧
      b ≤ (t.node d).fullSpan.start := by
    refine hinside'.before.imp_right fun ⟨a, b, hpiece, hab, hb'⟩ => ⟨a, b, hpiece, hab, ?_⟩
    rcases Tree.apart_or_below hbuilt hpiece d with h | h | ⟨-, hle, hlt⟩
    · exact h
    · dsimp only at h
      omega
    · obtain ⟨hle, hlt⟩ := Tree.below_trans hbuilt hle hlt (Nat.le_of_lt hpd'.1) hpd'.2
      have := Tree.full_contains_of_below hbuilt hd'.piece hroot hle hlt
      rw [Span.contains_iff] at this
      dsimp only at this
      omega
  have hrow : Inside t items.pieces scope depth p (t.node d').fullSpan.start
      (t.node d).fullSpan.stop := hinside.mono (by omega) (Nat.le_refl _)
  have hrow' : Inside t items.pieces scope' depth' p' (t.node d').fullSpan.start
      (t.node d).fullSpan.stop := hinside'.mono (Nat.le_refl _) (by omega)
  obtain ⟨hlt, hend⟩ := hd'.below_of_inside hb ⟨hrow.holds, hrow.length, hrow.before, hbehind⟩
  obtain ⟨hlt', hend'⟩ := hd.below_of_inside hb ⟨hrow'.holds, hrow'.length, hbefore', hrow'.behind⟩
  obtain ⟨q, hq, hpq, -⟩ := Tree.exists_parent? hbuilt hlt hend
  obtain rfl := Option.some.inj (hp'.symm.trans hq)
  obtain ⟨q', hq', hpq', -⟩ := Tree.exists_parent? hbuilt hlt' hend'
  obtain rfl := Option.some.inj (hp.symm.trans hq')
  obtain rfl : p = p' := Fin.ext (Nat.le_antisymm hpq hpq')
  rw [← hinside.length, hinside'.length]

end Declared

end Outline
end HotReload
