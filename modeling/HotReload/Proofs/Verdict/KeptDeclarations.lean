import HotReload.Proofs.Order.Forall
import HotReload.Proofs.Verdict.Declarations
import HotReload.Proofs.Verdict.KeptLines

/-
  Declarations across a revision. A declaration has its line in the other version, with the same kind
  and the same name (`Revision.exists_head`), and it is not deeper there (`Revision.not_deeper`). The
  paths follow from that (`Tree.forall₂_lineage`), so both versions declare the same
  (`Revision.declarations_eq`). Where declarations come or go, the file is declined
  (`Verdict.changed_declarations_declined`), as long as the text that the regions keep stays code or
  stays trivia. The condition is the one that `Verdict.commented_overload_passes` breaks.
-/

namespace HotReload

open Marked Outline
open Region (carry?)

namespace Revision

variable {t u : Tree} {marked : String → Prop} {items items' : Items}
  {changes : List (Span × Span)} (h : Revision items items' t u marked changes)
  {scope scope' : Scope} {depth depth' : Nat} {head head' : Head} {d : t.Id} {d' : u.Id}

include h

/-- Parameters follow a name in both versions, or in neither. A change that touches both ends of the
name stands in front of parameters on both sides. -/
theorem hasList_eq (hd : Declared t items.marks items.pieces scope depth head d)
    (hd' : Declared u items'.marks items'.pieces scope' depth' head' d')
    (htext : head'.text = head.text)
    (hkept : Aligned.Kept changes items.marks items'.marks (code head.text.toList)
      (t.node d).span.start (u.node d').span.start) : head.hasList = head'.hasList := by
  obtain ⟨y, hnext, -⟩ := hd.next
  obtain ⟨y', hnext', -⟩ := hd'.next
  rw [← Opens.width_text] at hnext
  rcases hkept.followed _ hnext with hat | ⟨c, hc, hstart, hstart'⟩
  · rw [Opens.width_text, ← htext] at hat
    exact (Prod.mk.inj (hat.eq_of_cons hnext')).2
  · obtain ⟨hordered, hordered'⟩ := h.aligned.ordered c hc
    rw [Opens.width_text] at hstart hstart'
    have htrue : head.hasList = true := by
      refine Bool.not_eq_false _ ▸ fun hlist => ?_
      have := h.not_touches_stop hd hc hlist (Nat.le_of_eq hstart)
      omega
    have htrue' : head'.hasList = true := by
      refine Bool.not_eq_false _ ▸ fun hlist => ?_
      have := h.symm.not_touches_stop hd' (List.mem_map_of_mem hc) hlist
        (by rw [htext]; exact Nat.le_of_eq hstart')
      rw [htext, show c.swap.1 = c.2 from rfl] at this
      omega
    rw [htrue, htrue']

/-- A declaration has its line in the other version. -/
theorem exists_head (hd : Declared t items.marks items.pieces scope depth head d) :
    ∃ scope' depth' head' d', Declared u items'.marks items'.pieces scope' depth' head' d' ∧
      head.kind = head'.kind ∧ head.segment = head'.segment ∧
      Aligned.Kept changes items.marks items'.marks (code head.text.toList) (t.node d).span.start
        (u.node d').span.start := by
  obtain ⟨depth', list', d', hd', hkept⟩ := h.exists_opening (.declared scope head hd rfl rfl)
    (fun c hc => h.head_free hd hc) (h.quietAt_start hd)
    fun hlist c hc hstart hstop =>
      absurd hstop (Nat.not_le_of_lt (h.not_touches_stop hd hc hlist hstart))
  cases hd' with
  | stated hs _ => exact absurd rfl (Head.text_ne hd.plain hs.plain)
  | declared scope' head' hd' htext _ =>
    obtain ⟨hkind, hsegment⟩ := Head.eq_of_text_eq hd.plain hd'.plain htext.symm
      (h.hasList_eq hd hd' htext hkept)
    exact ⟨scope', depth', head', d', hd', hkind, hsegment, hkept⟩

/-- In front of a declaration that is deeper in the other version a change ends, within the
indentation on both sides. -/
theorem exists_change_of_deeper (hd : Declared t items.marks items.pieces scope depth head d)
    (hd' : Declared u items'.marks items'.pieces scope' depth' head' d') {x : Marked}
    (hkept : Aligned.Kept changes items.marks items'.marks x (t.node d).span.start
      (u.node d').span.start) (hlt : depth < depth') :
    ∃ c ∈ changes, ∃ k ≤ 4 * depth,
      c.1.stop + k = (t.node d).span.start ∧ c.2.stop + k = (u.node d').span.start := by
  obtain ⟨l, hl, hline, hmargin, hspan⟩ := hd.line
  obtain ⟨l', hl', -, hmargin', hspan'⟩ := hd'.line
  rcases hline with hzero | ⟨j, hj, hbreak⟩
  · have hdepth := hd.depth_eq_zero h.old (by omega)
    rcases hkept.first (by omega) with hfirst | ⟨c, hc, hstop, hstop'⟩
    · omega
    · exact ⟨c, hc, 0, Nat.zero_le _, hstop, hstop'⟩
  · have hall : At items.marks j ([('\n', false)] ++ margin depth) :=
      hbreak.append (by rwa [hj] at hmargin)
    have hwidth : width ([('\n', false)] ++ margin depth) = 1 + 4 * depth := by
      rw [width_append, width_margin]
      rfl
    rcases hkept.preceded _ j hall (by omega) with ⟨j', hat, hj'⟩ | ⟨c, hc, k, hk, hstop, hstop'⟩
    · -- the break in front of the line would stand in the deeper indentation
      have hblank := at_margin hmargin' (k := j' - l') (by omega)
      rw [Nat.add_sub_cancel' (by omega)] at hblank
      exact absurd (Prod.mk.inj (hat.left.eq_of_cons hblank)).1 (by decide)
    · exact ⟨c, hc, k, by omega, hstop, hstop'⟩

/-- A declaration is not deeper in the other version. A change in its indentation would have to stand
right in it there, and in the same declaration here. -/
theorem not_deeper (hd : Declared t items.marks items.pieces scope depth head d)
    (hd' : Declared u items'.marks items'.pieces scope' depth' head' d') {x : Marked}
    (hkept : Aligned.Kept changes items.marks items'.marks x (t.node d).span.start
      (u.node d').span.start) : ¬depth < depth' := by
  intro hlt
  obtain ⟨c, hc, k, hk, hstop, hstop'⟩ := h.exists_change_of_deeper hd hd' hkept hlt
  obtain ⟨l, hl, -, -, hspan⟩ := hd.line
  obtain ⟨l', hl', -, -, hspan'⟩ := hd'.line
  obtain ⟨o, hquiet⟩ := h.symm.quiet_of_lead hd' (List.mem_map_of_mem hc) (by omega)
    (show (u.node d').fullSpan.start < c.2.stop by omega)
    (show c.2.stop ≤ (u.node d').span.start by omega)
  obtain ⟨scope'', depth'', head'', ho⟩ := h.old.declared (hquiet.kind ▸ hd'.isDeclaration)
  have hsegments := Items.Builds.segments_eq_of_path_eq h.new h.old
    (List.ne_nil_of_length_eq_add_one hd'.length) (List.ne_nil_of_length_eq_add_one ho.length)
    hquiet.path
  have hdepth : depth' + 1 = depth'' + 1 := by
    rw [← hd'.length, ← ho.length, hsegments]
  have htouches := Tree.touches_of_enclosing (show t.enclosing c.1 = .ok o from hquiet.new_enclosing)
    (h.aligned.ordered c hc).1 (Nat.le_refl _)
  have := hd.depth_le_of_touches h.old ho htouches (by omega) (by omega)
  omega

end Revision

/-- One declaration in two versions: its line stands where it stood, and its kind, its name and its
depth are the same. -/
structure Same (changes : List (Span × Span)) (t u : Tree) (d : t.Id) (e : u.Id) : Prop where
  carry : carry? 0 0 changes (t.node d).span.start = some (u.node e).span.start
  kind : t.kind d = u.kind e
  label : (t.node d).label? = (u.node e).label?
  length : (t.segments d).length = (u.segments e).length

namespace Revision

variable {t u : Tree} {marked : String → Prop} {items items' : Items}
  {changes : List (Span × Span)} (h : Revision items items' t u marked changes)

include h

theorem same_of_swap {d : t.Id} {e : u.Id} (hsame : Same (changes.map Prod.swap) u t e d) :
    Same changes t u d e where
  carry := by
    have hcarry := h.symm.aligned.carry?_swap (Nat.zero_le _) hsame.carry
    rwa [List.map_map, Prod.swap_swap_eq, List.map_id] at hcarry
  kind := hsame.kind.symm
  label := hsame.label.symm
  length := hsame.length.symm

/-- Every declaration stands in the other version. -/
theorem exists_same {d : t.Id} (hdeclaration : (t.kind d).isDeclaration = true) :
    ∃ e, (u.kind e).isDeclaration = true ∧ Same changes t u d e := by
  obtain ⟨scope, depth, head, hd⟩ := h.old.declared hdeclaration
  obtain ⟨scope', depth', head', e, he, hkind, hsegment, hkept⟩ := h.exists_head hd
  obtain ⟨scope'', depth'', head'', d', hd', -, -, hkept'⟩ := h.symm.exists_head he
  have hcarry := hkept.carry 0 (by rw [Opens.width_text]; exact hd.pos)
  have hcarry' := hkept'.carry 0 (by rw [Opens.width_text]; exact he.pos)
  rw [Nat.add_zero, Nat.add_zero] at hcarry hcarry'
  have hdepth : depth = depth' := by
    have hback := h.aligned.carry?_swap (Nat.zero_le _) hcarry
    obtain rfl : d = d' := Opening.eq_of_start h.old (.declared scope head hd rfl rfl)
      (.declared scope'' head'' hd' rfl rfl) (Option.some.inj (hback.symm.trans hcarry'))
    have hlength := hd.length
    rw [hd'.length] at hlength
    have := h.not_deeper hd he hkept
    have := h.symm.not_deeper he hd' hkept'
    omega
  refine ⟨e, he.isDeclaration, hcarry, by rw [hd.kind, he.kind, hkind], ?_, ?_⟩
  · rw [hd.label?_eq, he.label?_eq, hkind, hsegment]
  · rw [hd.length, he.length, hdepth]

/-- Declarations are in one order on both sides. -/
theorem lt_iff_of_same {d d' : t.Id} {e e' : u.Id} (hd : (t.kind d).isDeclaration = true)
    (hd' : (t.kind d').isDeclaration = true) (hsame : Same changes t u d e)
    (hsame' : Same changes t u d' e') : d < d' ↔ e < e' := by
  obtain ⟨_, _, _, he⟩ := h.new.declared (hsame.kind ▸ hd)
  obtain ⟨_, _, _, he'⟩ := h.new.declared (hsame'.kind ▸ hd')
  obtain ⟨_, _, _, hd⟩ := h.old.declared hd
  obtain ⟨_, _, _, hd'⟩ := h.old.declared hd'
  exact h.lt_iff_of_carry (.declared _ _ hd rfl rfl) (.declared _ _ hd' rfl rfl)
    (.declared _ _ he rfl rfl) (.declared _ _ he' rfl rfl) hsame.carry hsame'.carry

/-- The declarations of both versions are the same, in the same order and at the same places. -/
theorem forall₂_declarations :
    List.Forall₂ (fun d e => Same changes t u d e ∧ t.lineage d = u.lineage e) t.declarationIds
      u.declarationIds := by
  refine Tree.forall₂_lineage (fun d e hsame => ⟨hsame.label, hsame.length⟩) h.old.chained
    h.new.chained (forall₂_of_lt_iff t.pairwise_declarationIds u.pairwise_declarationIds
      (fun d hd => ?_) (fun e he => ?_) fun d hd d' hd' _ _ _ _ => h.lt_iff_of_same
        (Tree.mem_declarationIds.1 hd) (Tree.mem_declarationIds.1 hd'))
  · obtain ⟨e, he, hsame⟩ := h.exists_same (Tree.mem_declarationIds.1 hd)
    exact ⟨e, Tree.mem_declarationIds.2 he, hsame⟩
  · obtain ⟨d, hd, hsame⟩ := h.symm.exists_same (Tree.mem_declarationIds.1 he)
    exact ⟨d, Tree.mem_declarationIds.2 hd, h.same_of_swap hsame⟩

/-- Both versions declare the same. -/
theorem declarations_eq : t.declarations = u.declarations := by
  refine map_eq_of_forall₂ h.forall₂_declarations fun d e ⟨hsame, hlineage⟩ => ?_
  rw [hsame.kind, Tree.declarationPath_eq, Tree.declarationPath_eq, Tree.segments_eq_map,
    Tree.segments_eq_map, hlineage]

end Revision

namespace Verdict

open Outline

/-- Where the declarations of two plain versions differ, the file is declined, unless kept text
turns from trivia into code or back. -/
theorem changed_declarations_declined {f g : File} (hf : f.isPlain = true) (hg : g.isPlain = true)
    {old new : Tree} (hold : f.tree = .ok old) (hnew : g.tree = .ok new) (differ : Differ)
    (hcovers : (differ old.text new.text).Covers old.text new.text) (config : ReloadConfig)
    (hkeeps : Region.KeepsCode (differ.between old.text new.text) f.events g.events)
    (hdeclarations : old.declarations ≠ new.declarations) :
    (classifyBy differ config old new).isDeclined = true := by
  by_contra hsafe
  rw [Bool.not_eq_true] at hsafe
  exact hdeclarations (Revision.of_classifyBy hf hg hold hnew hcovers hkeeps hsafe).declarations_eq

/-- An overload comes in front of another one. -/
theorem inserted_overload_declined :
    ∃ old new : Tree, (singleType [overload "2"]).tree = .ok old ∧
      (singleType [overload "1", overload "2"]).tree = .ok new ∧
      old.declarations ≠ new.declarations ∧
      (classifyBy .byLines .standard old new).isDeclined = true := by
  refine ⟨_, _, rfl, rfl, ?changed, changed_declarations_declined
    (show (singleType [overload "2"]).isPlain = true by decide +kernel)
    (show (singleType [overload "1", overload "2"]).isPlain = true by decide +kernel)
    rfl rfl .byLines (Differ.covers_byLines _ _) .standard ?keeps ?changed⟩
  case changed => decide +kernel
  case keeps =>
    unfold Region.KeepsCode
    decide +kernel

end Verdict
end HotReload
