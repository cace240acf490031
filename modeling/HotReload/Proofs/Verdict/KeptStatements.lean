import HotReload.Proofs.Verdict.ChangedBodies
import HotReload.Proofs.Verdict.KeptDeclarations

/-
  Bodies of members across a revision. Near the statements of a body that is not marked all changes
  are quiet (`Revision.quiet_of_above_statement`), so each of these statements has its line in the
  other version. It stands in the body of the same member there: of the declarations outside of bodies
  the owner is the last one in front of the statement, and declarations keep their order and their
  paths (`Revision.declarationPath_eq`). So the statements are the same (`Revision.statementsIn_eq`),
  and a body that changes is marked (`Verdict.changed_bodies_marked`), as long as the text that the
  regions keep stays code or stays trivia. The condition is the one that
  `Verdict.uncommented_statement_unrecorded` breaks.
-/

namespace HotReload

open Marked Outline
open Region (carry?)

/-- The bodies of members with one path that no other member has, and the path is not marked. -/
structure Unmarked (t u : Tree) (marked : String → Prop) (b : t.Id) (b' : u.Id) : Prop where
  old_body : t.isMemberBody b = true
  new_body : u.isMemberBody b' = true
  path : t.declarationPath b = u.declarationPath b'
  old_only : t.isOnlyBody b
  new_only : u.isOnlyBody b'
  unmarked : ¬marked (t.declarationPath b)

/-- A statement in both versions: its line stands where it stood. -/
structure SameStatement (changes : List (Span × Span)) (t u : Tree) (s : t.Id) (s' : u.Id) :
    Prop where
  carry : carry? 0 0 changes (t.node s).span.start = some (u.node s').span.start
  text : t.nodeText s = u.nodeText s'

variable {t u : Tree} {marked : String → Prop} {b : t.Id} {b' : u.Id}
  {changes : List (Span × Span)}

theorem Unmarked.symm (h : Unmarked t u marked b b') : Unmarked u t marked b' b where
  old_body := h.new_body
  new_body := h.old_body
  path := h.path.symm
  old_only := h.new_only
  new_only := h.old_only
  unmarked := h.path ▸ h.unmarked

namespace Revision

variable {items items' : Items} (h : Revision items items' t u marked changes)

include h

/-- A declaration has its place and its path in the other version. -/
theorem exists_same_lineage {d : t.Id} (hd : (t.kind d).isDeclaration = true) :
    ∃ e, Same changes t u d e ∧ t.lineage d = u.lineage e := by
  obtain ⟨e, -, hsame⟩ := exists_of_forall₂ h.forall₂_declarations (Tree.mem_declarationIds.2 hd)
  exact ⟨e, hsame⟩

/-! ## The owner of a line -/

section

variable {m : t.Id} {m' : u.Id} {depth depth' : Nat} {text text' : String} {list list' : Bool}
  {i : t.Id} {i' : u.Id} (hbody : t.isMemberBody b = true)
  (hib : b.1 ≤ i.1 ∧ i.1 < (t.node b).subtreeEnd)
  (hi : Opening t items.marks items.pieces depth text list i)
  (hbody' : u.isMemberBody b' = true) (hib' : b'.1 ≤ i'.1 ∧ i'.1 < (u.node b').subtreeEnd)
  (hi' : Opening u items'.marks items'.pieces depth' text' list' i')
  (hcarry : carry? 0 0 changes (t.node i).span.start = some (u.node i').span.start)

include hbody hib hi hbody' hib' hi' hcarry

/-- What owns the body around a line is not behind what owns the body around the line in the other
version. -/
theorem exists_owner_le (hm : t.parent? b = some m) (hm' : u.parent? b' = some m') :
    ∃ e, Same changes t u m e ∧ t.lineage m = u.lineage e ∧ e ≤ m' := by
  obtain ⟨m₀, scope, depth, head, hm₀, hd, hscope, -, -⟩ := h.old.exists_callable hbody
  obtain rfl := Option.some.inj (hm.symm.trans hm₀)
  obtain ⟨e, hsame, hlineage⟩ := h.exists_same_lineage hd.isDeclaration
  obtain ⟨scope', depth', head', he⟩ := h.new.declared (hsame.kind ▸ hd.isDeclaration)
  have hscope' : scope' ≠ .body := by
    rwa [Ne, he.scope_eq_body_iff h.new, ← hlineage, ← hd.scope_eq_body_iff h.old]
  have hmi : m < i := Nat.lt_of_lt_of_le (t.lt_of_parent? hm) hib.1
  have hei := (h.lt_iff_of_carry (.declared scope head hd rfl rfl) hi
    (.declared scope' head' he rfl rfl) hi' hsame.carry hcarry).1 hmi
  exact ⟨e, hsame, hlineage, h.new.le_of_inBody hbody' hm' hib' he hscope' (Nat.le_of_lt hei)⟩

/-- A line stands in bodies with one path. -/
theorem declarationPath_eq : t.declarationPath b = u.declarationPath b' := by
  obtain ⟨m, _, _, _, hm, hd, -, -, -⟩ := h.old.exists_callable hbody
  obtain ⟨m', _, _, _, hm', hd', -, -, -⟩ := h.new.exists_callable hbody'
  obtain ⟨e, hsame, hlineage, hle⟩ :=
    h.exists_owner_le hbody hib hi hbody' hib' hi' hcarry hm hm'
  obtain ⟨e', hsame', -, hle'⟩ := h.symm.exists_owner_le hbody' hib' hi' hbody hib hi
    (h.aligned.carry?_swap (Nat.zero_le _) hcarry) hm' hm
  have hsame' := h.same_of_swap hsame'
  have heq : e = m' := by
    refine le_antisymm hle (not_lt.1 fun hlt => ?_)
    have he' : (t.kind e').isDeclaration = true := hsame'.kind ▸ hd'.isDeclaration
    exact absurd ((h.lt_iff_of_same hd.isDeclaration he' hsame hsame').2 hlt) (not_lt.2 hle')
  rw [Tree.declarationPath_eq, Tree.declarationPath_eq, Tree.segments_eq_map, Tree.segments_eq_map,
    h.old.lineage_of_isBody (Tree.kind_of_isMemberBody hbody) hm,
    h.new.lineage_of_isBody (Tree.kind_of_isMemberBody hbody') hm', hlineage, heq]

end

/-! ## Statements -/

section

variable {depth : Nat} {text : String} {s : t.Id} {c : Span × Span} {o : t.Id}
  (hb : Unmarked t u marked b b') (hs : Stated t items.marks items.pieces depth text s)
  (hbs : b.1 ≤ s.1 ∧ s.1 < (t.node b).subtreeEnd)

include hb hbs

/-- A change around a statement of a body that is not marked is quiet. -/
theorem quiet_of_above_statement (hc : c ∈ changes) (ho : t.enclosing c.1 = .ok o)
    (hle : o.1 ≤ s.1) (hlt : s.1 < (t.node o).subtreeEnd) : ∃ n, Quiet t u c o n := by
  cases h.accepted c hc with
  | quiet o' n hquiet =>
    obtain rfl := Except.ok.inj (ho.symm.trans hquiet.old_enclosing)
    exact ⟨n, hquiet⟩
  | body o' n b₀ b₀' hbody =>
    obtain ⟨path, symbols, hbuilt⟩ := h.old.built
    obtain rfl := Except.ok.inj (ho.symm.trans hbody.old_enclosing)
    have hbelow := Tree.below_trans hbuilt hbody.old_below.1 hbody.old_below.2 hle hlt
    obtain rfl := h.old.memberBody_unique hb.old_body hbody.old_body hbs hbelow
    exact absurd hbody.marked hb.unmarked

include hs

/-- A statement of a body that is not marked has its line in the other version. -/
theorem exists_stated : ∃ depth' s', Stated u items'.marks items'.pieces depth' text s' ∧
    carry? 0 0 changes (t.node s).span.start = some (u.node s').span.start := by
  obtain ⟨path, symbols, hbuilt⟩ := h.old.built
  have habove : ∀ {c o}, c ∈ changes → t.enclosing c.1 = .ok o →
      o.1 ≤ s.1 ∧ s.1 < (t.node o).subtreeEnd → ∃ o n, Quiet t u c o n :=
    fun hc ho hbelow => ⟨_, h.quiet_of_above_statement hb hbs hc ho hbelow.1 hbelow.2⟩
  have hfree : ∀ c ∈ changes, (⟨(t.node s).span.start,
      (t.node s).span.start + text.utf8ByteSize⟩ : Span).overlaps c.1 = false := by
    intro c hc
    refine Bool.eq_false_iff.2 fun hoverlaps => ?_
    obtain ⟨o, ho⟩ := (h.accepted c hc).exists_enclosing
    obtain ⟨hle, hlt, -⟩ := Tree.below_of_overlaps hbuilt hs.piece ho hoverlaps
    obtain ⟨o, n, hquiet⟩ := habove hc ho ⟨hle, hlt⟩
    rw [hquiet.not_overlaps hbuilt hs.piece rfl] at hoverlaps
    exact Bool.false_ne_true hoverlaps
  have hstart : QuietAt t u changes (t.node s).span.start := by
    intro c hc hle hlt
    obtain ⟨o, ho⟩ := (h.accepted c hc).exists_enclosing
    exact habove hc ho (hs.below_of_touches h.old (Tree.touches_of_enclosing ho hle hlt)
      (hs.full_start_lt h.old) (Nat.le_refl _))
  have hstop : QuietAt t u changes ((t.node s).span.start + text.utf8ByteSize) := by
    intro c hc hle hlt
    obtain ⟨o, ho⟩ := (h.accepted c hc).exists_enclosing
    exact habove hc ho (hs.below_of_touches_stop h.old rfl (Tree.touches_of_enclosing ho hle hlt))
  obtain ⟨depth', list', s', hs', hkept⟩ :=
    h.exists_opening (.stated hs rfl) hfree hstart fun _ => hstop
  have hcarry := hkept.carry 0 (by rw [Opens.width_text]; exact hs.pos)
  rw [Nat.add_zero, Nat.add_zero] at hcarry
  cases hs' with
  | declared scope head hd htext _ => exact absurd htext (Head.text_ne hd.plain hs.plain)
  | stated hs' _ => exact ⟨depth', s', hs', hcarry⟩

end

/-- A statement of a body that is not marked stands in the body of the same member. -/
theorem exists_sameStatement (hb : Unmarked t u marked b b') {s : t.Id} (hs : s ∈ t.descendants b)
    (hkind : t.kind s = .statement) :
    ∃ s' ∈ u.descendants b', u.kind s' = .statement ∧ SameStatement changes t u s s' := by
  have hbs := Tree.isAncestor_iff.1 (Tree.mem_descendants_iff.1 hs)
  obtain ⟨depth, text, hs⟩ := h.old.stated hkind
  obtain ⟨depth', s', hs', hcarry⟩ := h.exists_stated hb hs hbs
  obtain ⟨b₁, hbody₁, hbs'⟩ := hs'.exists_memberBody h.new
  have hpath := h.declarationPath_eq hb.old_body hbs (.stated hs rfl) hbody₁ hbs' (.stated hs' rfl)
    hcarry
  obtain rfl := hb.new_only b₁ hbody₁ (hpath.symm.trans hb.path)
  refine ⟨s', Tree.mem_descendants_iff.2 (Tree.isAncestor_iff.2 hbs'), hs'.kind, hcarry, ?_⟩
  rw [hs.nodeText_eq h.old, hs'.nodeText_eq h.new]

/-- A body that is not marked has the same statements in both versions. -/
theorem statementsIn_eq (hb : Unmarked t u marked b b') :
    t.statementsIn b = u.statementsIn b' := by
  have hsorted : ∀ (t : Tree) (b : t.Id),
      ((t.descendants b).filter fun id => t.kind id = .statement).Pairwise (· < ·) :=
    fun t b => ((List.pairwise_lt_finRange _).filter _).filter _
  refine map_eq_of_forall₂ (R := SameStatement changes t u) (forall₂_of_lt_iff (hsorted t b)
    (hsorted u b') (fun s hs => ?_) (fun s' hs' => ?_) fun s hs r hr s' hs' r' hr' hss hrr => ?_)
    fun s s' hsame => hsame.text
  · simp only [List.mem_filter, decide_eq_true_eq] at hs
    obtain ⟨s', hmem, hkind, hsame⟩ := h.exists_sameStatement hb hs.1 hs.2
    exact ⟨s', by simp [hmem, hkind], hsame⟩
  · simp only [List.mem_filter, decide_eq_true_eq] at hs'
    obtain ⟨s, hmem, hkind, hsame⟩ := h.symm.exists_sameStatement hb.symm hs'.1 hs'.2
    refine ⟨s, by simp [hmem, hkind], ?_, hsame.text.symm⟩
    have hcarry := h.symm.aligned.carry?_swap (Nat.zero_le _) hsame.carry
    rwa [List.map_map, Prod.swap_swap_eq, List.map_id] at hcarry
  · simp only [List.mem_filter, decide_eq_true_eq] at hs hr hs' hr'
    obtain ⟨_, _, hs⟩ := h.old.stated hs.2
    obtain ⟨_, _, hr⟩ := h.old.stated hr.2
    obtain ⟨_, _, hs'⟩ := h.new.stated hs'.2
    obtain ⟨_, _, hr'⟩ := h.new.stated hr'.2
    exact h.lt_iff_of_carry (.stated hs rfl) (.stated hr rfl) (.stated hs' rfl) (.stated hr' rfl)
      hss.carry hrr.carry

end Revision

namespace Verdict

/-- Where the body of a member changes between two plain versions, the member is recorded or the
file is declined, unless kept text turns from trivia into code or back. -/
theorem changed_bodies_marked {f g : File} (hf : f.isPlain = true) (hg : g.isPlain = true)
    {old new : Tree} (hold : f.tree = .ok old) (hnew : g.tree = .ok new) (differ : Differ)
    (hcovers : (differ old.text new.text).Covers old.text new.text) (config : ReloadConfig)
    (hkeeps : Region.KeepsCode (differ.between old.text new.text) f.events g.events)
    (hsafe : (classifyBy differ config old new).isDeclined = false) :
    MarksChangedBodies old new (classifyBy differ config old new) := by
  intro body body' owner target hbody hkind howner hpath honly honly' hchanged
  by_contra hrecorded
  have hmember : ∀ {b : new.Id} {o : new.Id × Target}, (new.kind b).isBody = true →
      new.ownerOfBody? b = some o → new.isMemberBody b = true := by
    intro b o hb ho
    rw [Tree.isMemberBody, hb, ho]
    rfl
  refine hchanged ((Revision.of_classifyBy hf hg hold hnew hcovers hkeeps hsafe).statementsIn_eq
    ⟨hbody, hmember hkind howner, hpath, honly, honly', ?_⟩)
  rintro ⟨b, o, part, hb, ho, hsame, hintent⟩
  obtain rfl := honly' b (hmember hb ho) (hsame.trans hpath)
  obtain ⟨rfl, rfl⟩ := Prod.mk.inj (Option.some.inj (howner.symm.trans ho))
  exact hrecorded hintent

/-- A statement comes in behind a comment. -/
theorem inserted_statement_marked :
    ∃ old new : Tree, (singleType [methodOf ["// a", "y = 2;"]]).tree = .ok old ∧
      (singleType [methodOf ["// a", "x = 1;", "y = 2;"]]).tree = .ok new ∧
      (classifyBy .byLines .standard old new).isDeclined = false ∧
      MarksChangedBodies old new (classifyBy .byLines .standard old new) := by
  refine ⟨_, _, rfl, rfl, ?safe, changed_bodies_marked
    (show (singleType [methodOf ["// a", "y = 2;"]]).isPlain = true by decide +kernel)
    (show (singleType [methodOf ["// a", "x = 1;", "y = 2;"]]).isPlain = true by decide +kernel)
    rfl rfl .byLines (Differ.covers_byLines _ _) .standard ?keeps ?safe⟩
  case safe => decide +kernel
  case keeps =>
    unfold Region.KeepsCode
    decide +kernel

end Verdict
end HotReload
