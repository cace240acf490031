import HotReload.Proofs.Outline.Nested
import HotReload.Proofs.Outline.Paths
import HotReload.Proofs.Source.Encodings
import HotReload.Proofs.Verdict.SignificantEdits
import Mathlib.Order.Fin.Basic

/-
  Members of types and what stands inside of their bodies. Only methods are declared in bodies, so a
  declaration that does not stand in a body has only types and properties around it
  (`Declared.eq_of_below`), and whether it stands in one can be read off the kinds on its path
  (`Declared.scope_eq_body_iff`). A node stands in the body of one member at most
  (`Items.Builds.memberBody_unique`), and of the declarations in front of the node that do not stand in
  a body, the owner of that body is the last one (`Items.Builds.le_of_inBody`).
-/

namespace HotReload

namespace NodeKind

/-- Kinds that members and types can stand right in. -/
def holdsMembers : NodeKind → Bool
  | compilationUnit | typeDecl | property => true
  | _ => false

/-- Kinds that have a body of statements. -/
def isCallable : NodeKind → Bool
  | method | accessor _ => true
  | _ => false

theorem isDeclaration_of_isBody {k : NodeKind} (h : k.isBody = true) :
    k.isDeclaration = false := by
  cases k <;> first | rfl | simp [isBody] at h

theorem isDeclaration_of_isCallable {k : NodeKind} (h : k.isCallable = true) :
    k.isDeclaration = true := by
  cases k <;> first | rfl | simp [isCallable] at h

theorem holdsMembers_of_isBody {k : NodeKind} (h : k.isBody = true) : k.holdsMembers = false := by
  cases k <;> first | rfl | simp [isBody] at h

theorem holdsMembers_of_isCallable {k : NodeKind} (h : k.isCallable = true) :
    k.holdsMembers = false := by
  cases k <;> first | rfl | simp [isCallable] at h

end NodeKind

namespace Tree

variable {path : String} {symbols : Symbols} {events : List Event} {t : Tree}

theorem below_of_mem_ancestors (hbuilt : Tree.ofEvents path symbols events = .ok t) {a b : t.Id}
    (h : a ∈ t.ancestors b) : a.1 ≤ b.1 ∧ b.1 < (t.node a).subtreeEnd :=
  isAncestor_iff.1 (isAncestor_of_reachable hbuilt (reachable_of_mem_ancestors hbuilt h))

theorem kind_of_isMemberBody {b : t.Id} (h : t.isMemberBody b = true) :
    (t.kind b).isBody = true := by
  unfold isMemberBody at h
  exact (Bool.and_eq_true _ _ ▸ h).1

end Tree

/-- What the path of a body has below the one of its member. -/
def Target.segments : Target → List String
  | .method => []
  | .accessor a => [a.name]

namespace Outline

variable {items : Items} {t : Tree} {scope : Scope} {depth : Nat} {h : Head} {d : t.Id}

namespace Declared

variable (hb : items.Builds t) (hd : Declared t items.marks items.pieces scope depth h d)

include hd in
theorem isDeclaration : (t.kind d).isDeclaration = true := by
  rw [hd.kind]
  cases h <;> rfl

include hd in
theorem label?_eq : (t.node d).label? = some (h.kind, h.segment) := by
  unfold Node.label?
  rw [Head.pathSegment?_eq hd.kind hd.name, Option.map_some,
    show (t.node d).kind = h.kind from hd.kind]

include hb hd in
/-- What stands around a declaration is not deeper. -/
theorem length_le {o : t.Id} (hle : o.1 ≤ d.1) (hlt : d.1 < (t.node o).subtreeEnd) :
    (t.segments o).length ≤ depth + 1 := by
  obtain ⟨path, symbols, hbuilt⟩ := hb.built
  rw [← hd.length, Tree.length_segments, Tree.length_segments]
  exact (Tree.lineage_prefix hbuilt hle hlt).length_le

include hb hd in
/-- A declaration that touches what leads another one is not deeper. -/
theorem depth_le_of_touches {scope' : Scope} {depth' : Nat} {h' : Head} {o : t.Id} {q : Nat}
    (ho : Declared t items.marks items.pieces scope' depth' h' o) (htouches : t.Touches o q)
    (hstart : (t.node d).fullSpan.start ≤ q) (hstop : q ≤ (t.node d).span.start) :
    depth' ≤ depth := by
  have habove : o.1 ≤ d.1 → d.1 < (t.node o).subtreeEnd → depth' ≤ depth := by
    intro hle hlt
    have hlength := hd.length_le hb hle hlt
    rw [ho.length] at hlength
    exact Nat.le_of_succ_le_succ hlength
  rcases Nat.lt_or_eq_of_le hstart with hinside | rfl
  · obtain ⟨hle, hlt⟩ := hd.below_of_touches hb htouches hinside hstop
    exact habove hle hlt
  · -- what ends where the declaration starts stands in a row with it
    obtain ⟨path, symbols, hbuilt⟩ := hb.built
    have hpos := hd.pos
    obtain ⟨p, hp, howner, hpstart, hpstop⟩ := hd.fill _ (Nat.le_refl _) (by omega)
    obtain ⟨hleft, hright⟩ := htouches.resolve_left (ho.ne_root hb)
    rcases Tree.apart_or_below hbuilt hp o with hbehind | hfront | ⟨-, hle, hlt⟩
    · omega
    · exact Nat.le_of_eq (ho.depth_eq_of_row hb hd (by omega))
    · rw [howner] at hle hlt
      exact habove hle hlt

end Declared

/-- Around a declaration that stands in no body there are only types and properties. -/
theorem Declared.eq_of_below {scope : Scope} {depth : Nat} {h : Head} {d : t.Id}
    (hb : items.Builds t) (hd : Declared t items.marks items.pieces scope depth h d)
    (hscope : scope ≠ .body) {w : t.Id} (hw : (t.kind w).holdsMembers = false)
    (hle : w.1 ≤ d.1) (hlt : d.1 < (t.node w).subtreeEnd) : w = d := by
  by_contra hne
  obtain ⟨path, symbols, hbuilt⟩ := hb.built
  have hwd : w.1 < d.1 := Nat.lt_of_le_of_ne hle (Fin.val_ne_of_ne hne)
  obtain ⟨p, hp, hinside⟩ := hd.inside
  obtain ⟨q, hq, hwp, hpd⟩ := Tree.exists_parent? hbuilt hwd hlt
  obtain rfl := Option.some.inj (hp.symm.trans hq)
  have hholds := hinside.holds
  have hkind : p.1 = 0 ∨ t.kind p = .typeDecl ∨ t.kind p = .property := by
    cases scope with
    | file => exact Or.inl hholds
    | type => exact Or.inr (Or.inl hholds)
    | property => exact Or.inr (Or.inr hholds.1)
    | body => exact absurd rfl hscope
  have hwp' : w ≠ p := by
    rintro rfl
    rcases hkind with hroot | hkind | hkind
    · rw [(hb.root hroot).1] at hw
      exact absurd hw (by decide)
    · rw [hkind] at hw
      exact absurd hw (by decide)
    · rw [hkind] at hw
      exact absurd hw (by decide)
  have hkind := hkind.resolve_left fun hroot => hwp' (Fin.ext (by omega))
  have hdeclaration : (t.kind p).isDeclaration = true := by
    rcases hkind with hkind | hkind <;> (rw [hkind]; rfl)
  obtain ⟨scope', depth', h', hp'⟩ := hb.declared hdeclaration
  have hscope' : scope' ≠ .body := by
    rintro rfl
    have hadmits := hp'.admits
    have hkind' := hp'.kind
    cases h' with
    | method _ _ _ _ =>
      rcases hkind with hkind | hkind <;>
        (rw [hkind] at hkind'; exact absurd hkind' (by simp [Head.kind]))
    | type _ _ | property _ _ _ | getter | setter => exact absurd hadmits Bool.false_ne_true
  exact hwp' (Declared.eq_of_below hb hp' hscope' hw hwp (Nat.lt_trans hpd hlt))
termination_by d.1

namespace Opening

variable {text text' : String} {list list' : Bool} {depth' : Nat} {i j : t.Id}

theorem ne_root (hb : items.Builds t)
    (hi : Opening t items.marks items.pieces depth text list i) : i.1 ≠ 0 := by
  cases hi with
  | declared scope h hd _ _ => exact hd.ne_root hb
  | stated hs _ =>
    intro hroot
    have hkind := hs.kind
    rw [(hb.root hroot).1] at hkind
    exact absurd hkind (by decide)

/-- Lines are in order of their nodes. -/
theorem lt_iff (hb : items.Builds t)
    (hi : Opening t items.marks items.pieces depth text list i)
    (hj : Opening t items.marks items.pieces depth' text' list' j) :
    i < j ↔ (t.node i).span.start < (t.node j).span.start := by
  have hpos := hi.opens.pos
  have hpos' := hj.opens.pos
  rcases lt_trichotomy i j with hlt | rfl | hlt
  · have := hi.opens.stop_le_start hj.opens hb (hi.ne_root hb) hlt
    exact iff_of_true hlt (by omega)
  · exact iff_of_false (lt_irrefl _) (lt_irrefl _)
  · have := hj.opens.stop_le_start hi.opens hb (hj.ne_root hb) hlt
    exact iff_of_false (lt_asymm hlt) (by omega)

theorem eq_of_start (hb : items.Builds t)
    (hi : Opening t items.marks items.pieces depth text list i)
    (hj : Opening t items.marks items.pieces depth' text' list' j)
    (hstart : (t.node i).span.start = (t.node j).span.start) : i = j := by
  rcases lt_trichotomy i j with hlt | heq | hlt
  · exact absurd hstart (Nat.ne_of_lt ((hi.lt_iff hb hj).1 hlt))
  · exact heq
  · exact absurd hstart.symm (Nat.ne_of_lt ((hj.lt_iff hb hi).1 hlt))

end Opening

namespace Items.Builds

variable (hb : items.Builds t)

include hb in
/-- The body of a member stands in a method or an accessor, which stands in no body. -/
theorem exists_callable {b : t.Id} (hbody : t.isMemberBody b = true) :
    ∃ m scope depth h, t.parent? b = some m ∧
      Declared t items.marks items.pieces scope depth h m ∧ scope ≠ .body ∧ depth ≠ 0 ∧
      (t.kind m).isCallable = true := by
  unfold Tree.isMemberBody at hbody
  rw [Bool.and_eq_true, Option.isSome_iff_exists] at hbody
  obtain ⟨-, ⟨owner, target⟩, howner⟩ := hbody
  obtain ⟨hmember, howns⟩ := Tree.owns_of_ownerOfBody? howner
  obtain ⟨m, p, hm, hp, hcallable, hkind⟩ : ∃ m p, t.parent? b = some m ∧ t.parent? m = some p ∧
      (t.kind m).isCallable = true ∧ (t.kind p = .typeDecl ∨ t.kind p = .property) := by
    cases target with
    | method =>
      obtain ⟨hm, hkind⟩ := howns
      unfold Tree.isMember at hmember
      obtain ⟨p, hp, hmember⟩ := (Option.any_eq_true _ _).1 hmember
      exact ⟨owner, p, hm, hp, by rw [hkind]; rfl, Or.inl (of_decide_eq_true hmember)⟩
    | accessor a =>
      obtain ⟨-, hproperty, m, hm, hkind, hp⟩ := howns
      exact ⟨m, owner, hm, hp, by rw [hkind]; rfl, Or.inr hproperty⟩
  obtain ⟨scope, depth, h, hd⟩ := hb.declared (NodeKind.isDeclaration_of_isCallable hcallable)
  obtain ⟨q, hq, hinside⟩ := hd.inside
  obtain rfl := Option.some.inj (hp.symm.trans hq)
  have hdeclaration' : (t.kind p).isDeclaration = true := by
    rcases hkind with hkind | hkind <;> (rw [hkind]; rfl)
  obtain ⟨scope', depth', h', hp'⟩ := hb.declared hdeclaration'
  refine ⟨m, scope, depth, h, hm, hd, ?_, ?_, hcallable⟩
  · rintro rfl
    have hblock := hinside.holds.1
    rcases hkind with hkind | hkind <;> (rw [hkind] at hblock; exact absurd hblock (by decide))
  · rw [← hinside.length, hp'.length]
    exact Nat.succ_ne_zero _

include hb in
/-- The path of a body follows from its member and the part of it. -/
theorem segments_of_owns {b owner : t.Id} {target : Target} (hbody : (t.kind b).isBody = true)
    (h : t.Owns owner b target) : t.segments b = t.segments owner ++ target.segments := by
  have hnone := hb.pathSegment?_eq_none (NodeKind.isDeclaration_of_isBody hbody)
  cases target with
  | method =>
    rw [Tree.segments_of_parent? h.1, hnone]
    rfl
  | accessor a =>
    obtain ⟨-, -, m, hm, hkind, hp⟩ := h
    obtain ⟨scope, depth, head, hd⟩ := hb.declared (d := m) (by rw [hkind]; rfl)
    have hsegment : head.segment = a.name := by
      rw [hd.kind] at hkind
      cases head <;> simp only [Head.kind, NodeKind.accessor.injEq, reduceCtorEq] at hkind <;>
        (rw [← hkind]; rfl)
    rw [Tree.segments_of_parent? hm, hnone, Tree.segments_of_parent? hp,
      Head.pathSegment?_eq hd.kind hd.name, hsegment, List.append_assoc]
    rfl

include hb in
theorem lineage_of_isBody {b m : t.Id} (hbody : (t.kind b).isBody = true)
    (hm : t.parent? b = some m) : t.lineage b = t.lineage m := by
  rw [Tree.lineage_of_parent? hm, Node.label?,
    hb.pathSegment?_eq_none (NodeKind.isDeclaration_of_isBody hbody)]
  exact List.append_nil _

include hb in
/-- A node stands in the body of one member at most. -/
theorem memberBody_unique {b b' x : t.Id} (hbody : t.isMemberBody b = true)
    (hbody' : t.isMemberBody b' = true) (hx : b.1 ≤ x.1 ∧ x.1 < (t.node b).subtreeEnd)
    (hx' : b'.1 ≤ x.1 ∧ x.1 < (t.node b').subtreeEnd) : b = b' := by
  have houter : ∀ {b b' : t.Id}, t.isMemberBody b = true → t.isMemberBody b' = true →
      b.1 ≤ b'.1 → b'.1 < (t.node b).subtreeEnd → b = b' := by
    intro b b' hbody hbody' hle hlt
    by_contra hne
    obtain ⟨path, symbols, hbuilt⟩ := hb.built
    have hlt' : b.1 < b'.1 := Nat.lt_of_le_of_ne hle (Fin.val_ne_of_ne hne)
    obtain ⟨m, scope, depth, h, hm, hd, hscope, -, -⟩ := hb.exists_callable hbody'
    obtain ⟨q, hq, hbm, hmb⟩ := Tree.exists_parent? hbuilt hlt' hlt
    obtain rfl := Option.some.inj (hm.symm.trans hq)
    have hkind := Tree.kind_of_isMemberBody hbody
    have heq := hd.eq_of_below hb hscope (NodeKind.holdsMembers_of_isBody hkind) hbm
      (Nat.lt_trans hmb hlt)
    have hdeclaration := hd.isDeclaration
    rw [← heq, NodeKind.isDeclaration_of_isBody hkind] at hdeclaration
    exact Bool.false_ne_true hdeclaration
  rcases Nat.le_total b.1 b'.1 with hle | hle
  · exact houter hbody hbody' hle (Nat.lt_of_le_of_lt hx'.1 hx.2)
  · exact (houter hbody' hbody hle (Nat.lt_of_le_of_lt hx.1 hx'.2)).symm

include hb in
/-- In front of what stands in the body of a member, no declaration behind the owner of the body is
outside of bodies. -/
theorem le_of_inBody {b m x : t.Id} (hbody : t.isMemberBody b = true) (hm : t.parent? b = some m)
    (hx : b.1 ≤ x.1 ∧ x.1 < (t.node b).subtreeEnd)
    (hd : Declared t items.marks items.pieces scope depth h d) (hscope : scope ≠ .body)
    (hdx : d.1 ≤ x.1) : d.1 ≤ m.1 := by
  obtain ⟨path, symbols, hbuilt⟩ := hb.built
  obtain ⟨m', _, _, _, hm', _, _, -, hcallable⟩ := hb.exists_callable hbody
  obtain rfl := Option.some.inj (hm.symm.trans hm')
  refine Nat.le_of_not_lt fun hlt => ?_
  obtain ⟨hmb, hbm⟩ := Tree.below_of_parent? hbuilt hm (Nat.le_refl _)
    (Tree.lt_subtreeEnd hbuilt m).1
  obtain ⟨-, hxm⟩ := Tree.below_trans hbuilt (Nat.le_of_lt hmb) hbm hx.1 hx.2
  have heq := hd.eq_of_below hb hscope (NodeKind.holdsMembers_of_isCallable hcallable)
    (Nat.le_of_lt hlt) (Nat.lt_of_le_of_lt hdx hxm)
  rw [heq] at hlt
  exact absurd hlt (Nat.lt_irrefl _)

end Items.Builds

namespace Stated

variable {text : String} {s : t.Id} (hb : items.Builds t)
  (hs : Stated t items.marks items.pieces depth text s)

include hb hs in
theorem nodeText_eq : t.nodeText s = text := by
  obtain ⟨path, symbols, hbuilt⟩ := hb.built
  obtain ⟨before, behind, hall, hbefore⟩ := hs.written
  have htext : t.text.toList = Marked.text before ++ text.toList ++ Marked.text behind := by
    rw [(Tree.ofEvents_eq_ok hbuilt).1, ← Event.text_marks]
    change Marked.text items.marks = _
    rw [hall, Marked.text_append, Marked.text_append, Marked.text_code]
  have hslice : Text.slice? (t.node s).span.start (t.node s).span.stop t.text.toList =
      some text.toList :=
    Text.slice?_eq_some_iff.2 ⟨_, _, htext, hbefore, by
      rw [hs.stop, Text.utf8ByteSize_eq_byteLength]⟩
  rw [Tree.nodeText, Tree.slice, hslice, Option.getD_some, String.ofList_toList]

include hb hs in
/-- A statement stands in the body of a member. -/
theorem exists_memberBody : ∃ b, t.isMemberBody b = true ∧ b.1 ≤ s.1 ∧
    s.1 < (t.node b).subtreeEnd := by
  obtain ⟨path, symbols, hbuilt⟩ := hb.built
  obtain ⟨p, hp, ⟨-, b, hbody, hle, hlt⟩, -⟩ := hs.inside
  obtain ⟨hbs, hsb⟩ := Tree.below_of_parent? hbuilt hp hle hlt
  exact ⟨b, hbody, Nat.le_of_lt hbs, hsb⟩

include hb hs in
/-- A statement is indented. -/
theorem full_start_lt : (t.node s).fullSpan.start < (t.node s).span.start := by
  obtain ⟨path, symbols, hbuilt⟩ := hb.built
  obtain ⟨l, hl, -, -, hspan⟩ := hs.line
  obtain ⟨p, -, ⟨-, b, hbody, hle, hlt⟩, hdepth⟩ := hs.inside
  obtain ⟨m, _, _, _, hm, hd, -, -, -⟩ := hb.exists_callable hbody
  obtain ⟨hmb, hbm⟩ := Tree.below_of_parent? hbuilt hm (Nat.le_refl _)
    (Tree.lt_subtreeEnd hbuilt m).1
  obtain ⟨hmp, hpm⟩ := Tree.below_trans hbuilt (Nat.le_of_lt hmb) hbm hle hlt
  have hlength := (Tree.lineage_prefix hbuilt hmp hpm).length_le
  rw [← Tree.length_segments, ← Tree.length_segments, hd.length, hdepth] at hlength
  omega

end Stated

/-- A declaration stands in a body if its path goes through a method or an accessor. -/
theorem Declared.scope_eq_body_iff (hb : items.Builds t)
    (hd : Declared t items.marks items.pieces scope depth h d) :
    scope = .body ↔ ∃ l ∈ (t.lineage d).dropLast, l.1.isCallable = true := by
  obtain ⟨path, symbols, hbuilt⟩ := hb.built
  obtain ⟨p, hp, hinside⟩ := hd.inside
  have hlineage := Tree.lineage_of_parent? hp
  rw [hd.label?_eq, Option.toList_some] at hlineage
  rw [hlineage, List.dropLast_concat]
  constructor
  · rintro rfl
    obtain ⟨-, b, hbody, hle, hlt⟩ := hinside.holds
    obtain ⟨m, _, _, h', hm, hm', -, -, hcallable⟩ := hb.exists_callable hbody
    obtain ⟨q, hq, -⟩ := hm'.inside
    have hlabel := Tree.lineage_of_parent? hq
    rw [hm'.label?_eq, Option.toList_some] at hlabel
    obtain ⟨hmb, hbm⟩ := Tree.below_of_parent? hbuilt hm (Nat.le_refl _)
      (Tree.lt_subtreeEnd hbuilt m).1
    obtain ⟨hmp, hpm⟩ := Tree.below_trans hbuilt (Nat.le_of_lt hmb) hbm hle hlt
    rw [hm'.kind] at hcallable
    refine ⟨(h'.kind, h'.segment), (Tree.lineage_prefix hbuilt hmp hpm).subset ?_, hcallable⟩
    rw [hlabel]
    exact List.mem_append_right _ List.mem_cons_self
  · rintro ⟨l, hl, hcallable⟩
    by_contra hscope
    unfold Tree.lineage at hl
    rw [List.mem_reverse, List.mem_filterMap] at hl
    obtain ⟨a, ha, hlabel⟩ := hl
    have hkind : t.kind a = l.1 := by
      unfold Node.label? at hlabel
      obtain ⟨segment, -, rfl⟩ := Option.map_eq_some_iff.1 hlabel
      rfl
    obtain ⟨hap, hpa⟩ := Tree.below_of_mem_ancestors hbuilt ha
    obtain ⟨had, hda⟩ := Tree.below_of_parent? hbuilt hp hap hpa
    have heq := hd.eq_of_below hb hscope
      (NodeKind.holdsMembers_of_isCallable (hkind ▸ hcallable)) (Nat.le_of_lt had) hda
    rw [heq] at had
    exact absurd had (Nat.lt_irrefl _)

end Outline
end HotReload
