import HotReload.Proofs.Source.Enclosing
import HotReload.Proofs.Verdict.Declarations

/-
  Edits that stay in bodies. A region is `Confined` if its two sides stand in bodies of one part of
  one member, with no declaration inside of them. A file whose regions are all confined is not
  declined, and the verdict records the members of those regions that touch significant text, and
  no others (`Verdict.confined_edits_recorded`).

  A body around a span has the node around that span in its subtree, as long as the span ends before
  the body does (`Tree.InFreeBody.enclosing`): the search ends at the body or behind it, and what
  stands behind the body starts behind the span. Without a declaration in between, the nearest body
  of a member above that node is this one.
-/

namespace HotReload

/-- A span that ends before the largest offset is not inverted. -/
theorem Region.newSpan_ordered {r : Region} (h : r.newSpan.stop < Text.maxOffset) :
    r.newSpan.start ≤ r.newSpan.stop := by
  simp only [newSpan, Text.offset] at h ⊢
  omega

namespace Tree

variable {path : String} {symbols : Symbols} {events : List Event} {t : Tree}

/-- The span starts in a body and ends before its end. The body belongs to this part of a member, and
no declaration stands in it. -/
structure InFreeBody (t : Tree) (span : Span) (owner body : t.Id) (target : Target) : Prop where
  isBody : (t.kind body).isBody = true
  isMember : t.isMember owner = true
  owns : t.Owns owner body target
  start_le : (t.node body).fullSpan.start ≤ span.start
  stop_lt : span.stop < (t.node body).fullSpan.stop
  free : ∀ d ∈ t.descendants body, (t.kind d).isDeclaration = false

theorem ownerOfBody?_of_owns {owner body : t.Id} {target : Target}
    (hmember : t.isMember owner = true) (howns : t.Owns owner body target) :
    t.ownerOfBody? body = some (owner, target) := by
  cases target with
  | method =>
    obtain ⟨hparent, hkind⟩ := howns
    simp [ownerOfBody?, hparent, hkind, hmember]
  | accessor a =>
    obtain ⟨hgetOrSet, hproperty, accessor, hparent, hkind, hparent'⟩ := howns
    simp [ownerOfBody?, hparent, hkind, hgetOrSet, hparent', hproperty, hmember]

/-- A body of a member is its own nearest one. -/
theorem bodyTarget?_of_owns {owner body : t.Id} {target : Target}
    (hbody : (t.kind body).isBody = true) (hmember : t.isMember owner = true)
    (howns : t.Owns owner body target) : t.bodyTarget? body = some (owner, target) := by
  have hself : ∃ above, t.ancestors body = body :: above := by
    rw [ancestors]
    split
    · exact ⟨[], rfl⟩
    · exact ⟨_, rfl⟩
  obtain ⟨above, habove⟩ := hself
  rw [bodyTarget?, habove, List.filter_cons_of_pos (by simpa using hbody), List.findSome?_cons,
    ownerOfBody?_of_owns hmember howns]

namespace InFreeBody

variable {span : Span} {owner body : t.Id} {target : Target}

theorem containsDeclaration_eq (h : t.InFreeBody span owner body target) :
    t.containsDeclaration body = false :=
  List.any_eq_false.2 fun d hd => by rw [h.free d hd]; exact Bool.false_ne_true

/-- The node around the span stands in the body, and the body is the nearest one of a member. -/
theorem enclosing (hbuilt : Tree.ofEvents path symbols events = .ok t)
    (h : t.InFreeBody span owner body target) (hspan : span.start ≤ span.stop) :
    ∃ id, t.enclosing span = .ok id ∧ t.bodyTarget? id = some (owner, target) ∧
      t.containsDeclaration id = false := by
  have hstart := h.start_le
  have hstop := h.stop_lt
  obtain ⟨id, hid, hle⟩ := exists_enclosing hbuilt (Nat.zero_lt_of_lt body.2) hspan
  have hbelow : body.1 ≤ id.1 := hle body (Span.contains_iff.2 ⟨hstart, Nat.le_of_lt hstop⟩)
  have hend : id.1 < (t.node body).subtreeEnd := by
    by_contra hbehind
    have hapart := (Tree.laid hbuilt).apart (t.getElem?_node body) (t.getElem?_node id)
      (Nat.le_of_not_lt hbehind)
    have hbody := (lt_subtreeEnd hbuilt body).1
    rcases contains_of_enclosing hid with hroot | hcontains
    · omega
    · have := (Span.contains_iff.1 hcontains).1
      omega
  refine ⟨id, hid, ?_, List.any_eq_false.2 fun d hd => ?_⟩
  · rw [bodyTarget?_eq hbuilt h.containsDeclaration_eq hbelow hend,
      bodyTarget?_of_owns h.isBody h.isMember h.owns]
  · obtain ⟨hidd, hdid⟩ := isAncestor_iff.1 (mem_descendants_iff.1 hd)
    obtain ⟨hbodyd, hdbody⟩ := below_trans hbuilt hbelow hend hidd hdid
    rw [h.free d (mem_descendants_iff.2 (isAncestor_iff.2 ⟨hbodyd, hdbody⟩))]
    exact Bool.false_ne_true

end InFreeBody

end Tree

namespace Verdict

/-- Both sides of the region stand in bodies of one part of one member, and the intent is that part
in the new version. -/
def Confined (old new : Tree) (r : Region) (intent : Intent) : Prop :=
  ∃ oldOwner oldBody newOwner newBody target, old.InFreeBody r.span oldOwner oldBody target ∧
    new.InFreeBody r.newSpan newOwner newBody target ∧
    old.declarationPath oldOwner = new.declarationPath newOwner ∧
    intent = ⟨newOwner.1, target⟩

/-- The region covers a byte of significant text, on one side or the other. -/
def TouchesToken (oldEvents newEvents : List Event) (r : Region) : Prop :=
  ¬Event.NoTokenIn oldEvents r.span ∨ ¬Event.NoTokenIn newEvents r.newSpan

variable {oldPath newPath : String} {oldSymbols newSymbols : Symbols}
  {oldEvents newEvents : List Event} {old new : Tree} {config : ReloadConfig} {r : Region}
  {intent : Intent}

/-- The intent of a confined region has its part in the new version: accessors are recorded at their
property. -/
theorem Confined.property (h : Confined old new r intent) {a : Accessor}
    (haccessor : intent.target = .accessor a) :
    ∃ owner : new.Id, owner.1 = intent.declaration ∧ new.kind owner = .property := by
  obtain ⟨-, -, newOwner, newBody, target, -, hbody, -, rfl⟩ := h
  obtain rfl : target = .accessor a := haccessor
  exact ⟨newOwner, rfl, hbody.owns.2.1⟩

/-- What is recorded is the intent of some region. -/
theorem mem_classes_of_mem_intents {classes : List RegionClass}
    (h : intent ∈ (ofClasses classes).intents) : .body intent ∈ classes := by
  unfold ofClasses at h
  split at h
  · exact absurd h (SortedSet.not_mem_empty _)
  · obtain ⟨c, hc, hintent⟩ := List.mem_filterMap.1 (SortedSet.mem_ofList.1 h)
    cases c with
    | ignorable => cases hintent
    | body i =>
      obtain rfl := Option.some.inj hintent
      exact hc

theorem isDeclined_ofClasses (classes : List RegionClass) :
    (ofClasses classes).isDeclined = false := by
  unfold ofClasses
  split <;> rfl

/-- If every region has a class, the verdict is that of the classes. -/
theorem ofRegions_eq_ofClasses {regions : List Region} {classes : List RegionClass}
    (hsymbols : old.symbols = new.symbols) (hold : old.nodes ≠ #[]) (hnew : new.nodes ≠ #[])
    (hregions : regions ≠ [])
    (hclasses : regions.mapM (classifyRegion config old new) = .ok classes) :
    ofRegions config old new regions = ofClasses classes := by
  rw [ofRegions, if_neg (by simpa using hsymbols), if_neg (by simp [hold, hnew]),
    if_neg (by simpa using hregions), hclasses]

section Built

variable (hold : Tree.ofEvents oldPath oldSymbols oldEvents = .ok old)
  (hnew : Tree.ofEvents newPath newSymbols newEvents = .ok new)

include hold hnew

/-- A confined region is an edit of its member, or it is trivia and touches no significant text. -/
theorem classifyRegion_of_confined (holdInside : Builder.empty.tokensInside oldEvents = true)
    (hnewInside : Builder.empty.tokensInside newEvents = true) (hspan : r.span.start ≤ r.span.stop)
    (h : Confined old new r intent) :
    classifyRegion config old new r = .ok (.body intent) ∨
      (classifyRegion config old new r = .ok .ignorable ∧ ¬TouchesToken oldEvents newEvents r) := by
  obtain ⟨oldOwner, oldBody, newOwner, newBody, target, holdBody, hnewBody, hpath, rfl⟩ := h
  have hfits : r.newSpan.stop < Text.maxOffset := by
    have hcut := ((Tree.laid hnew).cuts (new.getElem?_node newBody)).2.2.2.le_byteLength
    obtain ⟨htext, hbytes, -⟩ := Tree.ofEvents_eq_ok hnew
    rw [htext, ← Text.utf8ByteSize_eq_byteLength, Event.utf8ByteSize_written] at hcut
    exact Nat.lt_of_lt_of_le hnewBody.stop_lt (Nat.le_trans hcut hbytes)
  obtain ⟨o, ho, holdTarget, holdFree⟩ := holdBody.enclosing hold hspan
  obtain ⟨n, hn, hnewTarget, hnewFree⟩ := hnewBody.enclosing hnew (Region.newSpan_ordered hfits)
  have hregion : classifyRegion config old new r = classifyAt config old new r o n := by
    rw [classifyRegion, ho, hn]
  rw [hregion]
  cases htrivia : isTrivia old new r o n with
  | true =>
    obtain ⟨holdApart, hnewApart, -⟩ := isTrivia_iff.1 htrivia
    refine Or.inr ⟨by rw [classifyAt, if_pos htrivia], ?_⟩
    rintro (htouches | htouches)
    · exact htouches (Tree.noTokenIn_of_not_overlaps hold holdInside ho holdApart)
    · exact htouches (Tree.noTokenIn_of_not_overlaps hnew hnewInside hn hnewApart)
  | false =>
    refine Or.inl ?_
    simp [classifyAt, htrivia, holdTarget, hnewTarget, holdFree, hnewFree, hpath]

/-- Edits that are confined to bodies are not declined. What is recorded are the parts of members that
they stand in, all of those that an edit touches significant text of, and no others: accessors at
their property, and nothing but getters if only getters are edited. -/
theorem confined_edits_recorded (holdInside : Builder.empty.tokensInside oldEvents = true)
    (hnewInside : Builder.empty.tokensInside newEvents = true)
    (hsymbols : old.symbols = new.symbols) (config : ReloadConfig) (regions : List Region)
    (hregions : regions ≠ []) (hspans : ∀ r ∈ regions, r.span.start ≤ r.span.stop)
    (hconfined : ∀ r ∈ regions, ∃ intent, Confined old new r intent) :
    (ofRegions config old new regions).isDeclined = false ∧
    (∀ intent ∈ (ofRegions config old new regions).intents,
      ∃ r ∈ regions, Confined old new r intent) ∧
    (∀ r ∈ regions, ∀ intent, Confined old new r intent → TouchesToken oldEvents newEvents r →
      intent ∈ (ofRegions config old new regions).intents) ∧
    (∀ intent ∈ (ofRegions config old new regions).intents, ∀ a, intent.target = .accessor a →
      ∃ owner : new.Id, owner.1 = intent.declaration ∧ new.kind owner = .property) ∧
    ∀ target, (∀ r ∈ regions, ∀ intent, Confined old new r intent → intent.target = target) →
      ∀ intent ∈ (ofRegions config old new regions).intents, intent.target = target := by
  have hclass : ∀ r ∈ regions, ∀ intent, Confined old new r intent →
      classifyRegion config old new r = .ok (.body intent) ∨
        (classifyRegion config old new r = .ok .ignorable ∧ ¬TouchesToken oldEvents newEvents r) :=
    fun r hr _ h => classifyRegion_of_confined hold hnew holdInside hnewInside (hspans r hr) h
  obtain ⟨classes, hclasses⟩ : ∃ classes, regions.mapM (classifyRegion config old new) =
      .ok classes := by
    refine exists_mapM fun r hr => ?_
    obtain ⟨intent, hintent⟩ := hconfined r hr
    rcases hclass r hr intent hintent with h | ⟨h, -⟩
    · exact ⟨_, h⟩
    · exact ⟨_, h⟩
  have hnodes : old.nodes ≠ #[] ∧ new.nodes ≠ #[] := by
    obtain ⟨r, hr⟩ := List.exists_mem_of_ne_nil regions hregions
    obtain ⟨-, oldOwner, -, newOwner, -⟩ := hconfined r hr
    exact ⟨Array.ne_empty_of_size_pos (Nat.zero_lt_of_lt oldOwner.2),
      Array.ne_empty_of_size_pos (Nat.zero_lt_of_lt newOwner.2)⟩
  have hverdict := ofRegions_eq_ofClasses hsymbols hnodes.1 hnodes.2 hregions hclasses
  have hrecorded : ∀ intent ∈ (ofRegions config old new regions).intents,
      ∃ r ∈ regions, Confined old new r intent := by
    intro intent hintent
    rw [hverdict] at hintent
    obtain ⟨r, hr, hbody⟩ := (mem_of_mapM hclasses).1 (mem_classes_of_mem_intents hintent)
    obtain ⟨confined, h⟩ := hconfined r hr
    rcases hclass r hr confined h with hsame | ⟨hignorable, -⟩
    · obtain rfl : confined = intent := by simpa using hsame.symm.trans hbody
      exact ⟨r, hr, h⟩
    · exact absurd (hignorable.symm.trans hbody) nofun
  refine ⟨?_, hrecorded, fun r hr intent h htouches => ?_, fun intent hintent a ha => ?_,
    fun target htarget intent hintent => ?_⟩
  · rw [hverdict]
    exact isDeclined_ofClasses classes
  · rw [hverdict]
    rcases hclass r hr intent h with hbody | ⟨-, huntouched⟩
    · exact mem_intents_ofClasses ((mem_of_mapM hclasses).2 ⟨r, hr, hbody⟩)
    · exact absurd htouches huntouched
  · obtain ⟨r, -, h⟩ := hrecorded intent hintent
    exact h.property ha
  · obtain ⟨r, hr, h⟩ := hrecorded intent hintent
    exact htarget r hr intent h

end Built

open Outline in
/-- A type with a property and a method. -/
def propertyAndMethod (getter method : String) : File :=
  singleType
    [.property ⟨"P", "int", some [.statement getter], some [.statement "x = value;"], none⟩,
    .method ⟨"M", "void", "", []⟩ (.block [.statement method])]

/-- Its tree. -/
def propertyAndMethodTree (getter method : String) : Tree :=
  .ofBuilder "A.cs" .empty (Builder.empty.run (propertyAndMethod getter method).events)

/-- The two versions of the type. -/
abbrev readsX : Tree := propertyAndMethodTree "return x;" "x = 1;"

abbrev readsY : Tree := propertyAndMethodTree "return y;" "x = 2;"

/-- A region in the getter of the property and one in the method. -/
def bodyRegions : List Region := [⟨⟨67, 68⟩, 67, "y"⟩, ⟨⟨172, 173⟩, 172, "2"⟩]

theorem confined_edits_recorded_property :
    Tree.ofEvents "A.cs" .empty (propertyAndMethod "return x;" "x = 1;").events = .ok readsX ∧
      Tree.ofEvents "A.cs" .empty (propertyAndMethod "return y;" "x = 2;").events = .ok readsY ∧
      Builder.empty.tokensInside (propertyAndMethod "return x;" "x = 1;").events = true ∧
      Builder.empty.tokensInside (propertyAndMethod "return y;" "x = 2;").events = true ∧
      (∀ r ∈ bodyRegions, ∃ intent, Confined readsX readsY r intent) ∧
      (ofRegions .standard readsX readsY bodyRegions).isDeclined = false ∧
      (ofRegions .standard readsX readsY bodyRegions).intents.toList =
        [⟨2, .accessor .get⟩, ⟨9, .method⟩] := by
  have hold : Tree.ofEvents "A.cs" .empty (propertyAndMethod "return x;" "x = 1;").events =
    .ok readsX := by decide +kernel
  have hnew : Tree.ofEvents "A.cs" .empty (propertyAndMethod "return y;" "x = 2;").events =
    .ok readsY := by decide +kernel
  have holdInside : Builder.empty.tokensInside
    (propertyAndMethod "return x;" "x = 1;").events = true := by decide +kernel
  have hnewInside : Builder.empty.tokensInside
    (propertyAndMethod "return y;" "x = 2;").events = true := by decide +kernel
  have hconfined : ∀ r ∈ bodyRegions, ∃ intent, Confined readsX readsY r intent := by
    intro r hr
    simp only [bodyRegions, List.mem_cons, List.not_mem_nil, or_false] at hr
    rcases hr with rfl | rfl
    · refine ⟨_, ⟨2, by decide +kernel⟩, ⟨4, by decide +kernel⟩, ⟨2, by decide +kernel⟩,
        ⟨4, by decide +kernel⟩, .accessor .get,
        ⟨?_, ?_, ⟨?_, ?_, ⟨3, by decide +kernel⟩, ?_, ?_, ?_⟩, ?_, ?_, ?_⟩,
        ⟨?_, ?_, ⟨?_, ?_, ⟨3, by decide +kernel⟩, ?_, ?_, ?_⟩, ?_, ?_, ?_⟩, ?_, rfl⟩ <;>
        decide +kernel
    · refine ⟨_, ⟨9, by decide +kernel⟩, ⟨11, by decide +kernel⟩, ⟨9, by decide +kernel⟩,
        ⟨11, by decide +kernel⟩, .method, ⟨?_, ?_, ⟨?_, ?_⟩, ?_, ?_, ?_⟩,
        ⟨?_, ?_, ⟨?_, ?_⟩, ?_, ?_, ?_⟩, ?_, rfl⟩ <;> decide +kernel
  have hsymbols : readsX.symbols = readsY.symbols := by decide +kernel
  have hregions : bodyRegions ≠ [] := by decide
  have hspans : ∀ r ∈ bodyRegions, r.span.start ≤ r.span.stop := by decide
  obtain ⟨hsafe, -⟩ := confined_edits_recorded hold hnew holdInside hnewInside hsymbols .standard
    bodyRegions hregions hspans hconfined
  exact ⟨hold, hnew, holdInside, hnewInside, hconfined, hsafe, by decide +kernel⟩

end Verdict
end HotReload
