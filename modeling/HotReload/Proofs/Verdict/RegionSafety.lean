import HotReload.Proofs.Source.Significant
import HotReload.Proofs.Worker.Results
import HotReload.Source.Outline
import HotReload.Verdict.Classify

/-
  What a verdict other than a decline says about every region (`Verdict.region_safety`). The region
  covers no significant text on either side, between nodes of one kind in one declaration; or it
  stands in the arguments of a listed attribute of one name on both sides; or it stands in the body
  of a member on both sides, the members have one path, no declaration stands where it stands, and
  the verdict records the member. These are the exits of `classifyAt` that do not decline
  (`classifyAt_eq_ok`); the first one speaks of spans, and `Tree.noTokenIn_of_not_overlaps` turns
  it into a statement on the bytes of the text.
-/

namespace HotReload

namespace Tree

variable (t : Tree)

/-- The node stands in the arguments of an attribute with a listed name. -/
def InLocation (config : ReloadConfig) (id : t.Id) (name : String) : Prop :=
  ∃ arguments ∈ t.ancestors id, t.kind arguments = .attributeArguments ∧
    ∃ owner, t.parent? arguments = some owner ∧ t.kind owner = .attributeUse ∧
      (t.node owner).name = some name ∧ config.isSourceLocationAttribute name = true

/-- The owner of a body is this part of a declaration. -/
def Owns (owner body : t.Id) : Target → Prop
  | .method => t.parent? body = some owner ∧ t.kind owner = .method
  | .accessor a => a.isGetOrSet = true ∧ t.kind owner = .property ∧
    ∃ accessor, t.parent? body = some accessor ∧ t.kind accessor = .accessor a ∧
      t.parent? accessor = some owner

/-- The node stands in a body of this part of a member. -/
def InBody (id owner : t.Id) (target : Target) : Prop :=
  t.isMember owner = true ∧
  ∃ body ∈ t.ancestors id, (t.kind body).isBody = true ∧ t.Owns owner body target

variable {t}

theorem owns_of_ownerOfBody? {body owner : t.Id} {target : Target}
    (h : t.ownerOfBody? body = some (owner, target)) :
    t.isMember owner = true ∧ t.Owns owner body target := by
  simp only [ownerOfBody?, Option.bind_eq_bind, Option.bind_eq_some_iff] at h
  obtain ⟨above, habove, h⟩ := h
  split at h
  · next hkind =>
    split at h
    · next hmember =>
      obtain ⟨rfl, rfl⟩ := Prod.mk.inj (Option.some.inj h)
      exact ⟨hmember, habove, hkind⟩
    · simp at h
  · next a hkind =>
    split at h
    · next hgetOrSet =>
      obtain ⟨property, hproperty, h⟩ := Option.bind_eq_some_iff.1 h
      split at h
      · next hmember =>
        obtain ⟨rfl, rfl⟩ := Prod.mk.inj (Option.some.inj h)
        rw [Bool.and_eq_true, decide_eq_true_eq] at hmember
        exact ⟨hmember.2, hgetOrSet, hmember.1, above, habove, hkind, hproperty⟩
      · simp at h
    · simp at h
  · simp at h

theorem inBody_of_bodyTarget? {id owner : t.Id} {target : Target}
    (h : t.bodyTarget? id = some (owner, target)) : t.InBody id owner target := by
  obtain ⟨body, hbody, howner⟩ := List.exists_of_findSome?_eq_some h
  obtain ⟨hancestor, hkind⟩ := List.mem_filter.1 hbody
  obtain ⟨hmember, howns⟩ := owns_of_ownerOfBody? howner
  exact ⟨hmember, body, hancestor, hkind, howns⟩

theorem inLocation_of_sourceLocation? {config : ReloadConfig} {id : t.Id} {name : String}
    (h : t.sourceLocation? config id = some name) : t.InLocation config id name := by
  simp only [sourceLocation?, Option.bind_eq_bind, Option.bind_eq_some_iff] at h
  obtain ⟨arguments, harguments, owner, howner, name', hname, h⟩ := h
  split at h
  · next hlisted =>
    obtain rfl := Option.some.inj h
    rw [Bool.and_eq_true, decide_eq_true_eq] at hlisted
    exact ⟨arguments, List.mem_of_find?_eq_some harguments,
      by simpa using List.find?_some harguments, owner, howner, hlisted.1, hname, hlisted.2⟩
  · simp at h

theorem not_isDeclaration_of_mem_descendants {id d : t.Id} (h : t.containsDeclaration id = false)
    (hd : d ∈ t.descendants id) : (t.kind d).isDeclaration = false := by
  simpa using List.any_eq_false.1 h d hd

end Tree

namespace Verdict

variable {config : ReloadConfig} {old new : Tree} {r : Region} {o : old.Id} {n : new.Id}

/-- Nodes of one kind in one declaration, and no overlap with the significant text of either. -/
theorem isTrivia_iff :
    isTrivia old new r o n = true ↔
      (old.node o).span.overlaps r.span = false ∧ (new.node n).span.overlaps r.newSpan = false ∧
      old.kind o = new.kind n ∧ old.declarationPath o = new.declarationPath n := by
  simp [isTrivia, and_assoc]

theorem exists_of_inSourceLocation (h : inSourceLocation config old new o n = true) :
    ∃ name, old.InLocation config o name ∧ new.InLocation config n name := by
  unfold inSourceLocation at h
  split at h
  · next hold hnew =>
    obtain rfl := of_decide_eq_true h
    exact ⟨_, Tree.inLocation_of_sourceLocation? hold, Tree.inLocation_of_sourceLocation? hnew⟩
  · simp at h

/-- The exits that do not decline. -/
theorem classifyAt_eq_ok {c : RegionClass} (h : classifyAt config old new r o n = .ok c) :
    isTrivia old new r o n = true ∨ inSourceLocation config old new o n = true ∨
    ∃ oldOwner newOwner target, old.bodyTarget? o = some (oldOwner, target) ∧
      new.bodyTarget? n = some (newOwner, target) ∧
      old.containsDeclaration o = false ∧ new.containsDeclaration n = false ∧
      old.declarationPath oldOwner = new.declarationPath newOwner ∧
      c = .body ⟨newOwner, target⟩ := by
  unfold classifyAt at h
  split at h
  · next htrivia => exact Or.inl htrivia
  split at h
  · next oldOwner oldTarget newOwner newTarget hold hnew =>
    split at h
    · simp at h
    next hdeclaration =>
    split at h
    · simp at h
    next hsame =>
    simp only [Bool.or_eq_true, not_or, Bool.not_eq_true] at hdeclaration
    simp only [ne_eq, not_or, Decidable.not_not] at hsame
    obtain ⟨rfl, hpath⟩ := hsame
    exact Or.inr (Or.inr ⟨oldOwner, newOwner, oldTarget, hold, hnew, hdeclaration.1,
      hdeclaration.2, hpath, (Except.ok.inj h).symm⟩)
  · split at h
    · next hlocation => exact Or.inr (Or.inl hlocation)
    · simp at h

theorem exists_of_classifyRegion {c : RegionClass}
    (h : classifyRegion config old new r = .ok c) :
    ∃ o n, old.enclosing r.span = .ok o ∧ new.enclosing r.newSpan = .ok n ∧
      classifyAt config old new r o n = .ok c := by
  unfold classifyRegion at h
  split at h
  · next o n ho hn => exact ⟨o, n, ho, hn, h⟩
  · simp at h

/-- If nothing declines the file, every region has a class. -/
theorem exists_classes {regions : List Region}
    (h : (ofRegions config old new regions).isDeclined = false) (hregions : regions ≠ []) :
    ∃ classes, regions.mapM (classifyRegion config old new) = .ok classes ∧
      ofRegions config old new regions = ofClasses classes := by
  unfold ofRegions at h ⊢
  split at h
  · simp [isDeclined] at h
  next hsymbols =>
  split at h
  · simp [isDeclined] at h
  next hroots =>
  rw [if_neg hsymbols, if_neg hroots, if_neg (by simpa using hregions)]
  rw [if_neg (by simpa using hregions)] at h
  split at h
  · simp [isDeclined] at h
  next classes hclasses => exact ⟨classes, hclasses, rfl⟩

theorem mem_intents_ofClasses {classes : List RegionClass} {intent : Intent}
    (h : .body intent ∈ classes) : intent ∈ (ofClasses classes).intents := by
  unfold ofClasses
  split
  · next hall => simpa using List.all_eq_true.1 hall _ h
  · exact SortedSet.mem_ofList.2 (List.mem_filterMap.2 ⟨_, h, rfl⟩)

/-- What one region comes to, between two nodes, in a verdict that does not decline. -/
inductive Harmless (config : ReloadConfig) (oldEvents newEvents : List Event) (old new : Tree)
    (intents : SortedSet Intent) (r : Region) (o : old.Id) (n : new.Id) : Prop where
  /-- It touches no significant text, between nodes of one kind in one declaration. -/
  | trivia (hold : Event.NoTokenIn oldEvents r.span) (hnew : Event.NoTokenIn newEvents r.newSpan)
      (hkind : old.kind o = new.kind n) (hpath : old.declarationPath o = new.declarationPath n)
  /-- It stands in the arguments of a listed attribute of one name. -/
  | location (name : String) (hold : old.InLocation config o name)
      (hnew : new.InLocation config n name)
  /-- It stands in bodies of one member, around no declaration, and the member is recorded. -/
  | body (oldOwner : old.Id) (newOwner : new.Id) (target : Target)
      (hold : old.InBody o oldOwner target) (hnew : new.InBody n newOwner target)
      (hpath : old.declarationPath oldOwner = new.declarationPath newOwner)
      (holdFree : ∀ d ∈ old.descendants o, (old.kind d).isDeclaration = false)
      (hnewFree : ∀ d ∈ new.descendants n, (new.kind d).isDeclaration = false)
      (hrecorded : ⟨newOwner, target⟩ ∈ intents)

/-- A verdict that does not decline is right about every region. The two versions are built from
events that write significant text only inside of the root; the regions are any regions, also out
of the range of the texts. -/
theorem region_safety {oldPath newPath : String} {oldSymbols newSymbols : Symbols}
    {oldEvents newEvents : List Event} {old new : Tree}
    (hold : Tree.ofEvents oldPath oldSymbols oldEvents = .ok old)
    (hnew : Tree.ofEvents newPath newSymbols newEvents = .ok new)
    (holdInside : Builder.empty.tokensInside oldEvents = true)
    (hnewInside : Builder.empty.tokensInside newEvents = true)
    (config : ReloadConfig) (regions : List Region)
    (h : (ofRegions config old new regions).isDeclined = false) :
    ∀ r ∈ regions, ∃ o n, old.enclosing r.span = .ok o ∧ new.enclosing r.newSpan = .ok n ∧
      Harmless config oldEvents newEvents old new (ofRegions config old new regions).intents r o n
    := by
  intro r hr
  obtain ⟨classes, hclasses, hverdict⟩ := exists_classes h (List.ne_nil_of_mem hr)
  obtain ⟨c, hc, hclass⟩ := exists_of_mapM hclasses hr
  obtain ⟨o, n, ho, hn, hat⟩ := exists_of_classifyRegion hclass
  refine ⟨o, n, ho, hn, ?_⟩
  rcases classifyAt_eq_ok hat with htrivia | hlocation | hbody
  · obtain ⟨holdApart, hnewApart, hkind, hpath⟩ := isTrivia_iff.1 htrivia
    exact .trivia (Tree.noTokenIn_of_not_overlaps hold holdInside ho holdApart)
      (Tree.noTokenIn_of_not_overlaps hnew hnewInside hn hnewApart) hkind hpath
  · obtain ⟨name, holdName, hnewName⟩ := exists_of_inSourceLocation hlocation
    exact .location name holdName hnewName
  · obtain ⟨oldOwner, newOwner, target, holdBody, hnewBody, holdFree, hnewFree, hpath, rfl⟩ := hbody
    refine .body oldOwner newOwner target (Tree.inBody_of_bodyTarget? holdBody)
      (Tree.inBody_of_bodyTarget? hnewBody) hpath
      (fun d hd => Tree.not_isDeclaration_of_mem_descendants holdFree hd)
      (fun d hd => Tree.not_isDeclaration_of_mem_descendants hnewFree hd) ?_
    rw [hverdict]
    exact mem_intents_ofClasses hc

open Outline in
/-- A type with one method, which has a comment, a listed attribute and a statement. -/
def sample (comment argument digit : String) : List Event :=
  within .compilationUnit none <| typeEvents 0 "" "A" [] <|
    methodEvents 1 (commentLine 1 comment) ⟨"M", "void", "", [⟨"SourceLocation", some argument⟩]⟩
      (bodyEvents 1 (.block [.statement ("x = " ++ digit ++ ";")]))

/-- A region for the comment, one for the argument and one for the statement. -/
def sampleRegions : List Region := [⟨⟨17, 18⟩, 17, "b"⟩, ⟨⟨39, 40⟩, 39, "2"⟩, ⟨⟨74, 75⟩, 74, "2"⟩]

theorem region_safety_sample :
    ∃ old new : Tree, Tree.ofEvents "A.cs" .empty (sample "// a" "1" "1") = .ok old ∧
      Tree.ofEvents "A.cs" .empty (sample "// b" "2" "2") = .ok new ∧
      Builder.empty.tokensInside (sample "// a" "1" "1") = true ∧
      Builder.empty.tokensInside (sample "// b" "2" "2") = true ∧
      (ofRegions .standard old new sampleRegions).isDeclined = false ∧
      ∀ r ∈ sampleRegions, ∃ o n, old.enclosing r.span = .ok o ∧ new.enclosing r.newSpan = .ok n ∧
        Harmless .standard (sample "// a" "1" "1") (sample "// b" "2" "2") old new
          (ofRegions .standard old new sampleRegions).intents r o n := by
  refine ⟨_, _, rfl, rfl, by decide, by decide, ?safe,
    region_safety rfl rfl (by decide) (by decide) _ _ ?safe⟩
  decide +kernel

end Verdict
end HotReload
