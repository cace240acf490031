import HotReload.Proofs.Outline.Builds
import HotReload.Proofs.Outline.Words
import Mathlib.Data.List.Forall2

/-
  The paths of the declarations of a plain file, with the kinds of the declarations on them. What
  stands around a declaration is on the path of the declaration in front of it
  (`Items.Builds.chained`). So the paths follow from the depths, the kinds and the names, one after the
  other (`Tree.forall₂_lineage`).
-/

namespace HotReload

/-- The kind and the path segment of a declaration. -/
def Node.label? (n : Node) : Option (NodeKind × String) := n.pathSegment?.map (n.kind, ·)

namespace Tree

variable {path : String} {symbols : Symbols} {events : List Event} {t : Tree}

/-- The declarations in pre-order. -/
def declarationIds (t : Tree) : List t.Id :=
  (List.finRange t.nodes.size).filter fun id => (t.kind id).isDeclaration

theorem mem_declarationIds {d : t.Id} :
    d ∈ t.declarationIds ↔ (t.kind d).isDeclaration = true := by
  unfold declarationIds
  simp [List.mem_finRange]

theorem pairwise_declarationIds (t : Tree) : t.declarationIds.Pairwise (· < ·) :=
  (List.pairwise_lt_finRange _).filter _

/-- The declarations around a node, outermost first, the node included. -/
def lineage (t : Tree) (id : t.Id) : List (NodeKind × String) :=
  ((t.ancestors id).filterMap fun a => (t.node a).label?).reverse

theorem segments_eq_map (id : t.Id) : t.segments id = (t.lineage id).map Prod.snd := by
  unfold segments lineage
  rw [List.map_reverse, List.map_filterMap]
  congr 2
  funext a
  unfold Node.label?
  cases (t.node a).pathSegment? <;> rfl

theorem length_segments (id : t.Id) : (t.segments id).length = (t.lineage id).length := by
  rw [segments_eq_map, List.length_map]

theorem lineage_of_parent? {id p : t.Id} (h : t.parent? id = some p) :
    t.lineage id = t.lineage p ++ (t.node id).label?.toList := by
  unfold lineage
  rw [ancestors_of_parent? h, List.filterMap_cons]
  cases (t.node id).label? <;> simp

/-- Paths grow downwards. -/
theorem lineage_prefix (hbuilt : Tree.ofEvents path symbols events = .ok t) {a b : t.Id}
    (hab : a.1 ≤ b.1) (hb : b.1 < (t.node a).subtreeEnd) : t.lineage a <+: t.lineage b := by
  obtain ⟨between, hancestors, -⟩ := exists_ancestors_eq hbuilt hab hb
  unfold lineage
  rw [hancestors, List.filterMap_append, List.reverse_append]
  exact List.prefix_append _ _

/-- Each declaration stands in something whose path starts the path in front of it. -/
def Chained (t : Tree) (before : List (NodeKind × String)) : List t.Id → Prop
  | [] => True
  | d :: rest =>
    (∃ p, t.parent? d = some p ∧ t.lineage p <+: before) ∧ t.Chained (t.lineage d) rest

/-- Labels and depths tell the paths of declarations. -/
theorem forall₂_lineage {u : Tree} {ds : List t.Id} {es : List u.Id}
    {before : List (NodeKind × String)} {R : t.Id → u.Id → Prop}
    (hR : ∀ d e, R d e → (t.node d).label? = (u.node e).label? ∧
      (t.segments d).length = (u.segments e).length)
    (hds : t.Chained before ds) (hes : u.Chained before es) (h : List.Forall₂ R ds es) :
    List.Forall₂ (fun d e => R d e ∧ t.lineage d = u.lineage e) ds es := by
  induction h generalizing before with
  | nil => exact .nil
  | @cons d e ds es hde _ ih =>
    obtain ⟨⟨p, hp, hbefore⟩, hds⟩ := hds
    obtain ⟨⟨q, hq, hbefore'⟩, hes⟩ := hes
    obtain ⟨hlabel, hlength⟩ := hR d e hde
    have hd := lineage_of_parent? hp
    have he := lineage_of_parent? hq
    have hpq : t.lineage p = u.lineage q := by
      rw [length_segments, length_segments, hd, he, hlabel, List.length_append,
        List.length_append] at hlength
      rw [List.prefix_iff_eq_take.1 hbefore, List.prefix_iff_eq_take.1 hbefore']
      congr 1
      omega
    have heq : t.lineage d = u.lineage e := by
      rw [hd, he, hpq, hlabel]
    exact .cons ⟨hde, heq⟩ (ih hds (heq ▸ hes))

end Tree

namespace Outline.Items.Builds

variable {items : Items} {t : Tree}

/-- The path of a node is the one of the nearest declaration. -/
theorem exists_declaration_above (h : items.Builds t) (p : t.Id) :
    t.lineage p = [] ∨ ∃ a, (t.kind a).isDeclaration = true ∧ a.1 ≤ p.1 ∧
      p.1 < (t.node a).subtreeEnd ∧ t.lineage a = t.lineage p := by
  obtain ⟨path, symbols, hbuilt⟩ := h.built
  by_cases hp : p.1 = 0
  · have hnil := (h.root hp).2.2
    rw [Tree.segments_eq_map, List.map_eq_nil_iff] at hnil
    exact Or.inl hnil
  by_cases hkind : (t.kind p).isDeclaration = true
  · exact Or.inr ⟨p, hkind, Nat.le_refl _, (Tree.lt_subtreeEnd hbuilt p).1, rfl⟩
  obtain ⟨r, hr, hpr⟩ := h.exists_root p
  obtain ⟨q, hq, -, hqp⟩ := Tree.exists_parent? hbuilt (show r.1 < p.1 by omega) hpr
  have hnone : (t.node p).label? = none := by
    unfold Node.label?
    rw [h.pathSegment?_eq_none (Bool.not_eq_true _ ▸ hkind)]
    rfl
  have heq : t.lineage p = t.lineage q := by
    rw [Tree.lineage_of_parent? hq, hnone]
    exact List.append_nil _
  obtain ⟨hlt, hend'⟩ := Tree.below_of_parent? hbuilt hq (Nat.le_refl _)
    (Tree.lt_subtreeEnd hbuilt q).1
  rw [heq]
  refine (exists_declaration_above h q).imp_right fun ⟨a, ha, haq, hqa, hlineage⟩ => ?_
  obtain ⟨hap, hpa⟩ := Tree.below_of_parent? hbuilt hq haq hqa
  exact ⟨a, ha, Nat.le_of_lt hap, hpa, hlineage⟩
termination_by p.1

theorem chained_of_sorted (h : items.Builds t) {ds : List t.Id} {last : Option t.Id}
    (hds : ds.Pairwise (· < ·)) (hkinds : ∀ d ∈ ds, (t.kind d).isDeclaration = true)
    (hlast : ∀ e ∈ last, ∀ d ∈ ds, e < d)
    (hall : ∀ a, (t.kind a).isDeclaration = true → a ∈ ds ∨ ∃ e ∈ last, a ≤ e) :
    t.Chained ((last.map t.lineage).getD []) ds := by
  induction ds generalizing last with
  | nil => trivial
  | cons d ds ih =>
    obtain ⟨path, symbols, hbuilt⟩ := h.built
    refine ⟨?_, ?_⟩
    · obtain ⟨scope, depth, head, hd⟩ := h.declared (hkinds d List.mem_cons_self)
      obtain ⟨p, hp, -⟩ := hd.inside
      refine ⟨p, hp, ?_⟩
      rcases h.exists_declaration_above p with hnil | ⟨a, ha, hap, hpa, hlineage⟩
      · rw [hnil]
        exact List.nil_prefix
      -- the declaration above is one of those in front, so the last of these stands below it
      obtain ⟨had, hda⟩ := Tree.below_of_parent? hbuilt hp hap hpa
      rcases hall a ha with hmem | ⟨e, he, hae⟩
      · have hle : d ≤ a := by
          rcases List.mem_cons.1 hmem with rfl | hmem
          · exact Fin.le_refl _
          · exact Fin.le_of_lt (List.rel_of_pairwise_cons hds hmem)
        exact absurd had (Nat.not_lt_of_le hle)
      · have hed := hlast e he d List.mem_cons_self
        rw [he, Option.map_some, Option.getD_some, ← hlineage]
        exact Tree.lineage_prefix hbuilt hae (Nat.lt_trans hed hda)
    · change t.Chained (((some d).map t.lineage).getD []) ds
      refine ih (List.Pairwise.of_cons hds) (fun e he => hkinds e (List.mem_cons_of_mem _ he))
        (fun e he x hx => ?_) fun a ha => ?_
      · obtain rfl := Option.some.inj he
        exact List.rel_of_pairwise_cons hds hx
      · rcases hall a ha with hmem | ⟨e, he, hae⟩
        · rcases List.mem_cons.1 hmem with rfl | hmem
          · exact Or.inr ⟨_, rfl, Fin.le_refl _⟩
          · exact Or.inl hmem
        · exact Or.inr ⟨d, rfl, Fin.le_of_lt (Fin.lt_of_le_of_lt hae
            (hlast e he d List.mem_cons_self))⟩

/-- The paths of declarations follow one another. -/
theorem chained (h : items.Builds t) : t.Chained [] t.declarationIds := by
  change t.Chained (((none : Option t.Id).map t.lineage).getD []) t.declarationIds
  exact h.chained_of_sorted t.pairwise_declarationIds
    (fun _ hd => Tree.mem_declarationIds.1 hd) (fun _ he => absurd he (by simp))
    fun _ ha => Or.inl (Tree.mem_declarationIds.2 ha)

theorem notMem_segment (h : items.Builds t) {i : t.Id} {s : String} (hs : s ∈ t.segments i) :
    '.' ∉ s.toList := by
  unfold Tree.segments at hs
  rw [List.mem_reverse, List.mem_filterMap] at hs
  obtain ⟨a, -, hsegment⟩ := hs
  have hdeclaration : (t.kind a).isDeclaration = true := by
    refine Bool.not_eq_false _ ▸ fun hkind => ?_
    rw [h.pathSegment?_eq_none hkind] at hsegment
    simp at hsegment
  obtain ⟨scope, depth, head, hd⟩ := h.declared hdeclaration
  rw [Head.pathSegment?_eq hd.kind hd.name] at hsegment
  obtain rfl := Option.some.inj hsegment
  have hplain := hd.plain
  cases head with
  | type _ _ => exact notMem_of_isName hplain.2 (by decide)
  | method _ _ _ _ => exact notMem_of_isName hplain.2.2.1 (by decide)
  | property _ _ _ => exact notMem_of_isName hplain.2.2 (by decide)
  | getter => decide
  | setter => decide

/-- No name has a dot, so a path tells its segments. -/
theorem segments_eq_of_path_eq {items' : Items} {u : Tree} {i : t.Id} {j : u.Id}
    (ht : items.Builds t) (hu : items'.Builds u) (hi : t.segments i ≠ []) (hj : u.segments j ≠ [])
    (hpath : t.declarationPath i = u.declarationPath j) : t.segments i = u.segments j := by
  have hsplit : ∀ {l : List String}, l ≠ [] → (∀ s ∈ l, '.' ∉ s.toList) →
      List.splitOn '.' (".".intercalate l).toList = l.map String.toList := by
    intro l hne hall
    rw [String.toList_intercalate]
    refine List.splitOn_intercalate '.' (fun cs hcs => ?_) (by simpa using hne)
    obtain ⟨s, hs, rfl⟩ := List.mem_map.1 hcs
    exact hall s hs
  rw [Tree.declarationPath_eq, Tree.declarationPath_eq] at hpath
  have heq := congrArg (fun s => List.splitOn '.' s.toList) hpath
  rw [hsplit hi fun s hs => ht.notMem_segment hs, hsplit hj fun s hs => hu.notMem_segment hs] at heq
  exact List.map_injective_iff.2 (fun _ _ => String.toList_inj.1) heq

end Outline.Items.Builds

end HotReload
