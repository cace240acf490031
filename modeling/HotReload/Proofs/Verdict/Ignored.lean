import HotReload.Proofs.Change.Replay
import HotReload.Proofs.Verdict.BodyEdits

/-
  Where the two sides of an ignored region stand. There are two ways to ignore a region
  (`classifyAt_eq_ignorable_iff`): as trivia, and then both sides are in one declaration, or as
  arguments of a listed attribute, which asks for one name of the two attributes and not for one
  declaration. So the regions of a file that counts as trivia only keep their declarations, whatever
  they are, exactly if the two versions have no two such attributes in different declarations
  (`ignored_kept_iff`). `argument_moves_ignored` has such attributes on two methods.
-/

namespace HotReload

/-- The span lies in the text. -/
def Tree.InRange (t : Tree) (span : Span) : Prop :=
  span.start ≤ span.stop ∧ span.stop ≤ t.text.utf8ByteSize

namespace Verdict

/-- The two sides of the region stand in one declaration. -/
def KeepsDeclaration (old new : Tree) (r : Region) : Prop :=
  ∃ o n, old.enclosing r.span = .ok o ∧ new.enclosing r.newSpan = .ok n ∧
    old.declarationPath o = new.declarationPath n

/-- Two nodes in arguments that are ignored, in different declarations. In bodies that can be patched
on both sides arguments are not ignored. -/
structure Strays (config : ReloadConfig) (old new : Tree) (o : old.Id) (n : new.Id) : Prop where
  location : inSourceLocation config old new o n = true
  bodiless : old.bodyTarget? o = none ∨ new.bodyTarget? n = none
  path : old.declarationPath o ≠ new.declarationPath n

variable {config : ReloadConfig} {old new : Tree} {r : Region} {regions : List Region}

/-- The two ways to ignore a region. -/
theorem classifyAt_eq_ignorable_iff {o : old.Id} {n : new.Id} :
    classifyAt config old new r o n = .ok .ignorable ↔
      isTrivia old new r o n = true ∨
        inSourceLocation config old new o n = true ∧
          (old.bodyTarget? o = none ∨ new.bodyTarget? n = none) := by
  unfold classifyAt
  by_cases htrivia : isTrivia old new r o n = true
  · simp [htrivia]
  cases hold : old.bodyTarget? o with
  | none => simp [htrivia]
  | some oldTarget =>
    cases hnew : new.bodyTarget? n with
    | none => simp [htrivia]
    | some newTarget =>
      -- two bodies give an edit of a body, or a reason against the file
      simp only [htrivia, Bool.false_eq_true, if_false, reduceCtorEq, or_self, and_false, iff_false]
      split <;> [simp; split <;> simp]

theorem ofClasses_eq_triviaOnly_iff {classes : List RegionClass} :
    ofClasses classes = .triviaOnly ↔ ∀ c ∈ classes, c = .ignorable := by
  unfold ofClasses
  split
  · next hall => simpa using hall
  · next hall => simpa using hall

/-- A file counts as trivia only if there are regions and all of them are ignored. -/
theorem ofRegions_eq_triviaOnly_iff :
    ofRegions config old new regions = .triviaOnly ↔
      old.symbols = new.symbols ∧ old.nodes ≠ #[] ∧ new.nodes ≠ #[] ∧ regions ≠ [] ∧
        ∀ r ∈ regions, classifyRegion config old new r = .ok .ignorable := by
  constructor
  · intro h
    have hsafe : (ofRegions config old new regions).isDeclined = false := by rw [h]; rfl
    obtain ⟨hsymbols, hold, hnew, hregions⟩ : old.symbols = new.symbols ∧ old.nodes ≠ #[] ∧
        new.nodes ≠ #[] ∧ regions ≠ [] := by
      unfold ofRegions at h
      split at h
      · simp at h
      next hsymbols =>
      split at h
      · simp at h
      next hnodes =>
      split at h
      · simp at h
      next hregions =>
      simp only [Bool.or_eq_true, not_or, Array.isEmpty_iff] at hnodes
      exact ⟨Decidable.not_not.1 hsymbols, hnodes.1, hnodes.2, by simpa using hregions⟩
    refine ⟨hsymbols, hold, hnew, hregions, fun r hr => ?_⟩
    obtain ⟨classes, hclasses, hverdict⟩ := exists_classes hsafe hregions
    obtain ⟨c, hc, hclass⟩ := exists_of_mapM hclasses hr
    rw [hclass, ofClasses_eq_triviaOnly_iff.1 (hverdict.symm.trans h) c hc]
  · rintro ⟨hsymbols, hold, hnew, hregions, hall⟩
    rw [ofRegions_eq_ofClasses hsymbols hold hnew hregions (mapM_eq_ok_map hall),
      ofClasses_eq_triviaOnly_iff]
    intro c hc
    obtain ⟨r, -, rfl⟩ := List.mem_map.1 hc
    rfl

/-- An ignored region keeps its declaration, or its sides stray. -/
theorem keepsDeclaration_of_ignorable (h : classifyRegion config old new r = .ok .ignorable)
    (hstays : ∀ o n, old.enclosing r.span = .ok o → new.enclosing r.newSpan = .ok n →
      ¬Strays config old new o n) : KeepsDeclaration old new r := by
  obtain ⟨o, n, ho, hn, hat⟩ := exists_of_classifyRegion h
  refine ⟨o, n, ho, hn, ?_⟩
  rcases classifyAt_eq_ignorable_iff.1 hat with htrivia | ⟨hlocation, hbodiless⟩
  · exact (isTrivia_iff.1 htrivia).2.2.2
  · by_contra hpath
    exact hstays o n ho hn ⟨hlocation, hbodiless, hpath⟩

/-- Every span of a text is the new side of some region. -/
theorem exists_region (span : Span) {newSpan : Span} (horder : newSpan.start ≤ newSpan.stop)
    (hstop : newSpan.stop ≤ Text.maxOffset) :
    ∃ r : Region, r.span = span ∧ r.newSpan = newSpan := by
  refine ⟨⟨span, newSpan.start,
    String.ofList (List.replicate (newSpan.stop - newSpan.start) 'x')⟩, rfl, ?_⟩
  have hbytes : ∀ k, Text.byteLength (List.replicate k 'x') = k := by
    intro k
    induction k with
    | zero => rfl
    | succ k ih =>
      rw [List.replicate_succ, Text.byteLength_cons, ih, Nat.add_comm]
      rfl
  unfold Region.newSpan Region.newLength
  dsimp only
  have hlength : Text.offset (newSpan.stop - newSpan.start) = newSpan.stop - newSpan.start :=
    Text.offset_eq_self (by omega)
  rw [Text.utf8ByteSize_eq_byteLength, String.toList_ofList, hbytes, hlength,
    Nat.add_sub_cancel' horder, Text.offset_eq_self hstop]

/-- The regions of files that count as trivia only keep their declarations, whatever regions are
given in the range of the texts, exactly if no two places stray where regions can stand. The new
version is built from events, the old one is any tree. -/
theorem ignored_kept_iff {path : String} {symbols : Symbols} {events : List Event}
    (hnew : Tree.ofEvents path symbols events = .ok new) (old : Tree) (config : ReloadConfig) :
    (∀ regions : List Region, (∀ r ∈ regions, old.InRange r.span ∧ new.InRange r.newSpan) →
        ofRegions config old new regions = .triviaOnly →
        ∀ r ∈ regions, KeepsDeclaration old new r) ↔
      (old.symbols = new.symbols → ∀ span newSpan o n, old.InRange span → new.InRange newSpan →
        old.enclosing span = .ok o → new.enclosing newSpan = .ok n →
        ¬Strays config old new o n) := by
  constructor
  · intro hkeeps hsymbols span newSpan o n hspan hnewSpan ho hn hstrays
    obtain ⟨htext, hsize, -⟩ := Tree.ofEvents_eq_ok hnew
    have hstop : newSpan.stop ≤ Text.maxOffset := by
      have := hnewSpan.2
      rw [htext, Event.utf8ByteSize_written] at this
      omega
    obtain ⟨r, rfl, rfl⟩ := exists_region span hnewSpan.1 hstop
    have hignorable : classifyRegion config old new r = .ok .ignorable := by
      unfold classifyRegion
      rw [ho, hn]
      exact classifyAt_eq_ignorable_iff.2 (Or.inr ⟨hstrays.location, hstrays.bodiless⟩)
    have htrivia : ofRegions config old new [r] = .triviaOnly := by
      refine ofRegions_eq_triviaOnly_iff.2 ⟨hsymbols, ?_, ?_, by simp, by simpa using hignorable⟩
      · exact Array.ne_empty_of_size_pos (Nat.zero_lt_of_lt o.2)
      · exact Array.ne_empty_of_size_pos (Nat.zero_lt_of_lt n.2)
    obtain ⟨o', n', ho', hn', hpath⟩ :=
      hkeeps [r] (by simpa using ⟨hspan, hnewSpan⟩) htrivia r List.mem_cons_self
    obtain rfl := Except.ok.inj (ho.symm.trans ho')
    obtain rfl := Except.ok.inj (hn.symm.trans hn')
    exact hstrays.path hpath
  · intro hstays regions hrange htrivia r hr
    obtain ⟨hsymbols, -, -, -, hall⟩ := ofRegions_eq_triviaOnly_iff.1 htrivia
    obtain ⟨hspan, hnewSpan⟩ := hrange r hr
    exact keepsDeclaration_of_ignorable (hall r hr) fun o n ho hn =>
      hstays hsymbols r.span r.newSpan o n hspan hnewSpan ho hn

open Outline in
/-- A method with a listed attribute. -/
def locatedMethod (name argument : String) : Member :=
  .method ⟨name, "void", "", [⟨"SourceLocation", some argument⟩]⟩ (.block [])

/-- The tree of a type with such a method. -/
def locatedTree (argument : String) : Tree :=
  .ofBuilder "A.cs" .empty (Builder.empty.run (singleType [locatedMethod "M" argument]).events)

/-- All listed attributes are on one method. -/
theorem ignored_kept_iff_locatedTree :
    (singleType [locatedMethod "M" "2"]).tree = .ok (locatedTree "2") ∧
      ∀ regions : List Region, (∀ r ∈ regions,
          (locatedTree "1").InRange r.span ∧ (locatedTree "2").InRange r.newSpan) →
        ofRegions .standard (locatedTree "1") (locatedTree "2") regions = .triviaOnly →
        ∀ r ∈ regions, KeepsDeclaration (locatedTree "1") (locatedTree "2") r := by
  have hbuilt : (singleType [locatedMethod "M" "2"]).tree = .ok (locatedTree "2") := rfl
  refine ⟨hbuilt, (ignored_kept_iff hbuilt (locatedTree "1") .standard).2 ?_⟩
  intro _ span newSpan o n _ _ _ _ hstrays
  have hsame : ∀ o n, inSourceLocation .standard (locatedTree "1") (locatedTree "2") o n = true →
      (locatedTree "1").declarationPath o = (locatedTree "2").declarationPath n := by
    decide +kernel
  exact hstrays.path (hsame o n hstrays.location)

/-- A region from the argument of one method to that of another one is ignored. -/
theorem argument_moves_ignored :
    ∃ t : Tree, (singleType [locatedMethod "M" "1", locatedMethod "N" "2"]).tree = .ok t ∧
      t.InRange ⟨30, 31⟩ ∧ t.InRange ⟨79, 80⟩ ∧
      ofRegions .standard t t [⟨⟨30, 31⟩, 79, "2"⟩] = .triviaOnly ∧
      ∃ o n, t.enclosing ⟨30, 31⟩ = .ok o ∧ t.enclosing ⟨79, 80⟩ = .ok n ∧
        t.declarationPath o = "A.M" ∧ t.declarationPath n = "A.N" := by
  refine ⟨_, rfl, ?_, ?_, ?_, ?_⟩
  · unfold Tree.InRange
    decide +kernel
  · unfold Tree.InRange
    decide +kernel
  · decide +kernel
  · exact ⟨⟨5, by decide +kernel⟩, ⟨11, by decide +kernel⟩, by decide +kernel⟩

end Verdict
end HotReload
