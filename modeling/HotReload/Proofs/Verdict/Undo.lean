import HotReload.Proofs.Change.Replay
import HotReload.Proofs.Text.Weave
import HotReload.Proofs.Verdict.BodyEdits

/-
  Taking a change back. `Region.undo` is the region from the new text to the old one, and a region
  and the one that undoes it stand between the same two nodes (`newSpan_undo`). Every test that a
  region has to pass treats both sides alike: the trivia test, the search for bodies, the scan for
  declarations, the listed attributes and the comparison of targets (`classifyAt_undo`). So what the
  regions of a file come to is mirrored one by one (`mapM_undo`), and so is the verdict
  (`undo_mirrored`).
-/

namespace HotReload

/-- The region that takes the change back. -/
def Region.undo (old : Tree) (r : Region) : Region := ⟨r.newSpan, r.span.start, old.slice r.span⟩

/-- Some intent names this part of a member with this path. -/
def Tree.Names (t : Tree) (intents : SortedSet Intent) (path : String) (target : Target) : Prop :=
  ∃ id : t.Id, ⟨id, target⟩ ∈ intents ∧ t.declarationPath id = path

variable {config : ReloadConfig} {old new : Tree} {r : Region} {regions : List Region}

@[simp] theorem Region.span_undo : (r.undo old).span = r.newSpan := rfl

/-- The new side of the region that takes a change back is the old side of the change. -/
theorem Region.newSpan_undo
    (hslice : (Text.slice? r.span.start r.span.stop old.text.toList).isSome)
    (hsize : old.text.utf8ByteSize ≤ Text.maxOffset) : (r.undo old).newSpan = r.span := by
  obtain ⟨m, hm⟩ := Option.isSome_iff_exists.1 hslice
  obtain ⟨a, b, htext, hstart, hstop⟩ := Text.slice?_eq_some_iff.1 hm
  have hlength : (old.slice r.span).utf8ByteSize = Text.byteLength m := by
    rw [Text.utf8ByteSize_eq_byteLength, Tree.slice, hm, Option.getD_some, String.toList_ofList]
  rw [Text.utf8ByteSize_eq_byteLength, htext] at hsize
  simp only [Text.byteLength_append] at hsize
  have hfits : Text.byteLength m ≤ Text.maxOffset := by omega
  unfold Region.undo Region.newSpan Region.newLength
  dsimp only
  rw [hlength, Text.offset_eq_self hfits, hstop, Text.offset_eq_self (by omega)]

namespace Verdict

/-- What two regions come to is the same, read in opposite directions. -/
inductive ClassMirrored (old new : Tree) :
    Except DeclineReason RegionClass → Except DeclineReason RegionClass → Prop
  | ignorable : ClassMirrored old new (.ok .ignorable) (.ok .ignorable)
  | body (oldOwner : old.Id) (newOwner : new.Id) (target : Target)
      (path : old.declarationPath oldOwner = new.declarationPath newOwner) :
      ClassMirrored old new (.ok (.body ⟨newOwner, target⟩)) (.ok (.body ⟨oldOwner, target⟩))
  | declined (forth back : DeclineReason) : ClassMirrored old new (.error forth) (.error back)

/-- Two verdicts are the same, read in opposite directions. -/
inductive Mirrored (old new : Tree) : Verdict → Verdict → Prop
  | unchanged : Mirrored old new .unchanged .unchanged
  | triviaOnly : Mirrored old new .triviaOnly .triviaOnly
  | bodyEdits {forth back : SortedSet Intent}
      (names : ∀ path target, new.Names forth path target ↔ old.Names back path target) :
      Mirrored old new (.bodyEdits forth) (.bodyEdits back)
  | declined (forth back : DeclineReason) : Mirrored old new (.declined forth) (.declined back)

/-! ## One region -/

theorem isTrivia_undo {o : old.Id} {n : new.Id} (hspan : (r.undo old).newSpan = r.span) :
    isTrivia new old (r.undo old) n o = isTrivia old new r o n := by
  rw [Bool.eq_iff_iff, isTrivia_iff, isTrivia_iff, hspan, Region.span_undo]
  constructor
  · rintro ⟨hnew, hold, hkind, hpath⟩
    exact ⟨hold, hnew, hkind.symm, hpath.symm⟩
  · rintro ⟨hold, hnew, hkind, hpath⟩
    exact ⟨hnew, hold, hkind.symm, hpath.symm⟩

theorem inSourceLocation_symm (o : old.Id) (n : new.Id) :
    inSourceLocation config new old n o = inSourceLocation config old new o n := by
  unfold inSourceLocation
  cases old.sourceLocation? config o with
  | none => cases new.sourceLocation? config n <;> rfl
  | some oldName =>
    cases new.sourceLocation? config n with
    | none => rfl
    | some newName => exact decide_eq_decide.2 eq_comm

/-- Every test of a region treats its sides alike. -/
theorem classifyAt_undo {o : old.Id} {n : new.Id} (hspan : (r.undo old).newSpan = r.span) :
    ClassMirrored old new (classifyAt config old new r o n)
      (classifyAt config new old (r.undo old) n o) := by
  have houtside : ∀ forth back : DeclineReason, ClassMirrored old new
      (if inSourceLocation config old new o n then .ok .ignorable else .error forth)
      (if inSourceLocation config new old n o then .ok .ignorable else .error back) := by
    intro forth back
    rw [inSourceLocation_symm]
    split
    · exact .ignorable
    · exact .declined forth back
  unfold classifyAt
  rw [isTrivia_undo hspan]
  split
  · exact .ignorable
  cases hold : old.bodyTarget? o with
  | none => cases hnew : new.bodyTarget? n <;> exact houtside _ _
  | some oldTarget =>
    cases hnew : new.bodyTarget? n with
    | none => exact houtside _ _
    | some newTarget =>
      obtain ⟨oldOwner, oldPart⟩ := oldTarget
      obtain ⟨newOwner, newPart⟩ := newTarget
      dsimp only
      rw [Bool.or_comm]
      split
      · exact .declined _ _
      by_cases hsame : oldPart = newPart ∧
          old.declarationPath oldOwner = new.declarationPath newOwner
      · obtain ⟨rfl, hpath⟩ := hsame
        rw [if_neg (by simp [hpath]), if_neg (by simp [hpath])]
        exact .body oldOwner newOwner oldPart hpath
      · have hforth : oldPart ≠ newPart ∨
            old.declarationPath oldOwner ≠ new.declarationPath newOwner :=
          Decidable.not_and_iff_or_not.1 hsame
        rw [if_pos hforth, if_pos (hforth.imp Ne.symm Ne.symm)]
        exact .declined _ _

theorem classifyRegion_undo (hspan : (r.undo old).newSpan = r.span) :
    ClassMirrored old new (classifyRegion config old new r)
      (classifyRegion config new old (r.undo old)) := by
  unfold classifyRegion
  rw [hspan, Region.span_undo]
  cases old.enclosing r.span with
  | error e => cases new.enclosing r.newSpan <;> exact .declined _ _
  | ok o =>
    cases new.enclosing r.newSpan with
    | error e => exact .declined _ _
    | ok n => exact classifyAt_undo hspan

/-! ## All regions -/

/-- Either all regions have mirrored classes, or both directions have a region that declines. -/
theorem mapM_undo (config : ReloadConfig) (new : Tree)
    (hspans : ∀ r ∈ regions, (r.undo old).newSpan = r.span) :
    (∃ forth back, regions.mapM (classifyRegion config old new) = .ok forth ∧
        (regions.map (Region.undo old)).mapM (classifyRegion config new old) = .ok back ∧
        List.Forall₂ (fun c d => ClassMirrored old new (.ok c) (.ok d)) forth back) ∨
      ∃ forth back, regions.mapM (classifyRegion config old new) = .error forth ∧
        (regions.map (Region.undo old)).mapM (classifyRegion config new old) = .error back := by
  induction regions with
  | nil => exact Or.inl ⟨[], [], rfl, rfl, .nil⟩
  | cons r regions ih =>
    have hregion : ClassMirrored old new (classifyRegion config old new r)
        (classifyRegion config new old (r.undo old)) :=
      classifyRegion_undo (hspans r List.mem_cons_self)
    have hrest := ih fun r' hr' => hspans r' (List.mem_cons_of_mem _ hr')
    rw [List.map_cons, List.mapM_cons, List.mapM_cons]
    cases hforth : classifyRegion config old new r with
    | error reason =>
      rw [hforth] at hregion
      cases hback : classifyRegion config new old (r.undo old) with
      | error reason' => exact Or.inr ⟨reason, reason', rfl, rfl⟩
      | ok d => rw [hback] at hregion; cases hregion
    | ok c =>
      rw [hforth] at hregion
      cases hback : classifyRegion config new old (r.undo old) with
      | error reason => rw [hback] at hregion; cases hregion
      | ok d =>
        rw [hback] at hregion
        rcases hrest with ⟨forth, back, hforth', hback', hmirrored⟩ | ⟨forth, back, hforth', hback'⟩
        · rw [hforth', hback']
          exact Or.inl ⟨c :: forth, d :: back, rfl, rfl, .cons hregion hmirrored⟩
        · rw [hforth', hback']
          exact Or.inr ⟨forth, back, rfl, rfl⟩

variable {forth back : List RegionClass}

theorem all_ignorable_mirrored
    (h : List.Forall₂ (fun c d => ClassMirrored old new (.ok c) (.ok d)) forth back) :
    forth.all (· = .ignorable) = back.all (· = .ignorable) := by
  induction h with
  | nil => rfl
  | cons hclass _ ih => cases hclass <;> simp [ih]

/-- Mirrored classes name the same parts of the same members. -/
theorem names_mirrored
    (h : List.Forall₂ (fun c d => ClassMirrored old new (.ok c) (.ok d)) forth back)
    (path : String) (target : Target) :
    (∃ id : new.Id, .body ⟨id, target⟩ ∈ forth ∧ new.declarationPath id = path) ↔
      ∃ id : old.Id, .body ⟨id, target⟩ ∈ back ∧ old.declarationPath id = path := by
  induction h with
  | nil => simp
  | cons hclass _ ih =>
    cases hclass with
    | ignorable => simpa using ih
    | body oldOwner newOwner target' hpath =>
      simp only [List.mem_cons, RegionClass.body.injEq, Intent.mk.injEq, or_and_right, exists_or, ih]
      refine or_congr ⟨?_, ?_⟩ Iff.rfl
      · rintro ⟨id, ⟨hid, rfl⟩, rfl⟩
        exact ⟨oldOwner, ⟨rfl, rfl⟩, hpath.trans (congrArg _ (Fin.ext hid).symm)⟩
      · rintro ⟨id, ⟨hid, rfl⟩, rfl⟩
        exact ⟨newOwner, ⟨rfl, rfl⟩, hpath.symm.trans (congrArg _ (Fin.ext hid).symm)⟩

theorem ofClasses_mirrored
    (h : List.Forall₂ (fun c d => ClassMirrored old new (.ok c) (.ok d)) forth back) :
    Mirrored old new (ofClasses forth) (ofClasses back) := by
  have hmem : ∀ {classes : List RegionClass} {intent : Intent},
      intent ∈ (ofClasses classes).intents ↔ .body intent ∈ classes :=
    ⟨mem_classes_of_mem_intents, mem_intents_ofClasses⟩
  have hnames : ∀ path target, new.Names (ofClasses forth).intents path target ↔
      old.Names (ofClasses back).intents path target := by
    unfold Tree.Names
    simp only [hmem]
    exact names_mirrored h
  unfold ofClasses at hnames ⊢
  rw [all_ignorable_mirrored h] at hnames ⊢
  by_cases hall : back.all (· = .ignorable) = true
  · rw [if_pos hall, if_pos hall]
    exact .triviaOnly
  · rw [if_neg hall, if_neg hall] at hnames ⊢
    exact .bodyEdits hnames

/-- The verdict about taking some changes back mirrors the verdict about the changes: a full reload
for a full reload, trivia for trivia, and the same parts of the same members for edits of bodies.
The old version is built from events, and the old sides of the regions are in its text and do not
cut characters; nothing is asked of the new version and the new sides. -/
theorem undo_mirrored {path : String} {symbols : Symbols} {events : List Event}
    (hold : Tree.ofEvents path symbols events = .ok old) (new : Tree) (config : ReloadConfig)
    (regions : List Region)
    (hrange : ∀ r ∈ regions, (Text.slice? r.span.start r.span.stop old.text.toList).isSome) :
    Mirrored old new (ofRegions config old new regions)
      (ofRegions config new old (regions.map (Region.undo old))) := by
  obtain ⟨htext, hsize, -⟩ := Tree.ofEvents_eq_ok hold
  have hspans : ∀ r ∈ regions, (r.undo old).newSpan = r.span := by
    intro r hr
    apply Region.newSpan_undo (hrange r hr)
    rw [htext, Event.utf8ByteSize_written]
    exact hsize
  unfold ofRegions
  by_cases hsymbols : old.symbols = new.symbols
  · have hforth : ¬old.symbols ≠ new.symbols := not_not_intro hsymbols
    have hback : ¬new.symbols ≠ old.symbols := not_not_intro hsymbols.symm
    rw [if_neg hforth, if_neg hback, Bool.or_comm, List.isEmpty_map]
    by_cases hnodes : (new.nodes.isEmpty || old.nodes.isEmpty) = true
    · rw [if_pos hnodes, if_pos hnodes]
      exact .declined _ _
    by_cases hempty : regions.isEmpty = true
    · rw [if_neg hnodes, if_neg hnodes, if_pos hempty, if_pos hempty]
      exact .unchanged
    rw [if_neg hnodes, if_neg hnodes, if_neg hempty, if_neg hempty]
    rcases mapM_undo config new hspans with
      ⟨forth, back, hforth, hback, hmirrored⟩ | ⟨forth, back, hforth, hback⟩
    · rw [hforth, hback]
      exact ofClasses_mirrored hmirrored
    · rw [hforth, hback]
      exact .declined _ _
  · rw [if_pos hsymbols, if_pos (Ne.symm hsymbols)]
    exact .declined _ _

/-- A comment, an argument and a statement are changed, and changed back. -/
theorem undo_mirrored_sample :
    ∃ old new : Tree, Tree.ofEvents "A.cs" .empty (sample "// a" "1" "1") = .ok old ∧
      Tree.ofEvents "A.cs" .empty (sample "// b" "2" "2") = .ok new ∧
      (∀ r ∈ sampleRegions, (Text.slice? r.span.start r.span.stop old.text.toList).isSome) ∧
      (ofRegions .standard old new sampleRegions).isDeclined = false ∧
      Mirrored old new (ofRegions .standard old new sampleRegions)
        (ofRegions .standard new old (sampleRegions.map (Region.undo old))) := by
  refine ⟨_, _, rfl, rfl, ?range, ?safe, undo_mirrored
    (show Tree.ofEvents "A.cs" .empty (sample "// a" "1" "1") = .ok _ from rfl) _ _ _ ?range⟩
  case range => decide +kernel
  case safe => decide +kernel

end Verdict
end HotReload
