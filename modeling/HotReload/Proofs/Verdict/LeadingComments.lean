import HotReload.Proofs.Change.RoundTrip
import HotReload.Proofs.Outline.Notes
import HotReload.Proofs.Verdict.BodyEdits

/-
  Comments in front of members and statements (`noted_passes_iff`). Where text follows a comment, the
  search finds the node that the comment leads in both versions, with the new trivia outside of its
  significant text: that is trivia (`classifyRegion_of_led`).

  Where attributes follow, the old side of the region is an insertion point at which both the
  declaration and its attribute list start. The search goes down to the list there, while the new side
  ends in the declaration. The two are of different kinds, so this is not trivia, and no edit of a
  body either (`not_ok_of_led`): a comment in front of a method with an attribute declines the file
  (`noted_attribute_declined`).
-/

namespace HotReload

/-- A span does not reach over anything in front of it. -/
theorem Span.overlaps_eq_false {s t : Span} (h : t.stop ≤ s.start) : s.overlaps t = false := by
  refine Bool.eq_false_iff.2 fun hoverlaps => ?_
  have hself : t.contains t = true := contains_iff.2 ⟨Nat.le_refl _, Nat.le_refl _⟩
  have := (not_apart hself hoverlaps).2
  omega

namespace Tree

variable {path : String} {symbols : Symbols} {events : List Event} {t : Tree} {id : t.Id}

/-- A node stands in the arguments of an attribute only if it is these arguments. -/
theorem not_inLocation (hbuilt : Tree.ofEvents path symbols events = .ok t)
    (hclosed : Event.ArgumentsClosed events) (hkind : t.kind id ≠ .attributeArguments)
    (config : ReloadConfig) (name : String) : ¬t.InLocation config id name := by
  rintro ⟨arguments, hancestor, harguments, -⟩
  have hbelow := isAncestor_of_reachable hbuilt (reachable_of_mem_ancestors hbuilt hancestor)
  obtain ⟨hle, hlt⟩ := isAncestor_iff.1 hbelow
  rw [subtreeEnd_arguments hbuilt hclosed harguments] at hlt
  have heq : arguments = id := Fin.ext (by omega)
  exact hkind (heq ▸ harguments)

end Tree

namespace Verdict

variable {oldPath newPath : String} {oldSymbols newSymbols : Symbols}
  {oldEvents newEvents : List Event} {old new : Tree} {config : ReloadConfig} {r : Region}
  {kind : NodeKind} {name : Option String} {a s : String} {front rest : List Event}

/-- In the new version the search finds the node that the new trivia leads. -/
theorem enclosing_new_of_led (hnew : Tree.ofEvents newPath newSymbols newEvents = .ok new)
    (hevents : newEvents = front ++ .start kind name :: .trivia (a ++ s) :: rest) (hs : s ≠ "")
    (hstart : r.newStart = Event.bytes front + a.utf8ByteSize) (htext : r.newText = s) :
    ∃ n : new.Id, n.1 = Event.starts front ∧ new.kind n = kind ∧
      new.enclosing r.newSpan = .ok n ∧ (new.node n).span.overlaps r.newSpan = false := by
  obtain ⟨n, hn, hopens⟩ := Tree.exists_opens hnew [.trivia (a ++ s)] rest hevents
    (by simp [Event.isWriting])
  have hbytes : Event.bytes [.trivia (a ++ s)] = a.utf8ByteSize + s.utf8ByteSize := by
    simp [Event.text, String.utf8ByteSize_append]
  have hpos : s.utf8ByteSize ≠ 0 := mt String.utf8ByteSize_eq_zero_iff.1 hs
  have hsize : Event.bytes newEvents ≤ Text.maxOffset := (Tree.ofEvents_eq_ok hnew).2.1
  have hfits := Nat.le_trans hopens.le_bytes hsize
  rw [hbytes] at hfits
  have hspan : r.newSpan = ⟨Event.bytes front + a.utf8ByteSize,
      Event.bytes front + a.utf8ByteSize + s.utf8ByteSize⟩ := by
    rw [Region.newSpan, Region.newLength, hstart, htext]
    simp only [Text.offset]
    congr 1
    omega
  refine ⟨n, hn, hopens.kind_eq hnew, ?_, ?_⟩
  · rw [hspan]
    apply hopens.enclosing hnew <;> dsimp only <;> omega
  · rw [hspan]
    have hbehind := hopens.le_span_start hnew fun _ => rfl
    refine Span.overlaps_eq_false ?_
    dsimp only
    omega

/-- In the old version, where text follows, the search finds the same node. -/
theorem enclosing_old_of_text (hold : Tree.ofEvents oldPath oldSymbols oldEvents = .ok old)
    {gap : List Event}
    (hevents : oldEvents = front ++ .start kind name :: .trivia a :: (gap ++ rest))
    (hgap : ∀ e ∈ gap, e.isWriting) (hpos : 0 < Event.bytes gap)
    (hspan : r.span = .point (Event.bytes front + a.utf8ByteSize)) :
    ∃ o : old.Id, o.1 = Event.starts front ∧ old.kind o = kind ∧
      old.enclosing r.span = .ok o ∧ (old.node o).span.overlaps r.span = false := by
  obtain ⟨o, ho, hopens⟩ := Tree.exists_opens hold (.trivia a :: gap) rest hevents (by
    intro e he
    rcases List.mem_cons.1 he with rfl | he
    · rfl
    · exact hgap e he)
  obtain ⟨o', ho', htrivia⟩ := Tree.exists_opens hold [.trivia a] (gap ++ rest) hevents (by
    simp [Event.isWriting])
  obtain rfl : o' = o := Fin.ext (ho'.trans ho.symm)
  have hbytes : Event.bytes (.trivia a :: gap) = a.utf8ByteSize + Event.bytes gap := rfl
  rw [hspan]
  refine ⟨o', ho, hopens.kind_eq hold, ?_, ?_⟩
  · apply hopens.enclosing hold <;> dsimp only [Span.point] <;> omega
  · have hbehind := htrivia.le_span_start hold fun _ => rfl
    have hlead : Event.bytes [.trivia a] = a.utf8ByteSize := rfl
    refine Span.overlaps_eq_false ?_
    dsimp only [Span.point]
    omega

/-- Where attributes follow, it finds the first of them. -/
theorem enclosing_old_of_attributes (hold : Tree.ofEvents oldPath oldSymbols oldEvents = .ok old)
    {gap : List Event} (hevents : oldEvents =
      front ++ .start kind name :: .trivia a :: .start .attributeList none :: (gap ++ rest))
    (hgap : ∀ e ∈ gap, e.isWriting) (hpos : 0 < Event.bytes gap)
    (hspan : r.span = .point (Event.bytes front + a.utf8ByteSize)) :
    ∃ o : old.Id, old.kind o = .attributeList ∧ old.enclosing r.span = .ok o := by
  have hattributes : oldEvents = (front ++ [.start kind name, .trivia a]) ++
      .start .attributeList none :: (gap ++ rest) := by
    rw [hevents, List.append_assoc]
    rfl
  obtain ⟨o, -, hopens⟩ := Tree.exists_opens hold gap rest hattributes hgap
  have hbytes : Event.bytes (front ++ [.start kind name, .trivia a]) =
      Event.bytes front + a.utf8ByteSize := by
    simp [Event.text]
  rw [hspan]
  refine ⟨o, hopens.kind_eq hold, ?_⟩
  apply hopens.enclosing hold <;> dsimp only [Span.point] <;> omega

section Built

variable (hold : Tree.ofEvents oldPath oldSymbols oldEvents = .ok old)
  (hnew : Tree.ofEvents newPath newSymbols newEvents = .ok new)

include hold hnew

/-- New trivia in front of text is trivia. -/
theorem classifyRegion_of_led (halike : old.Alike new)
    (hled : Event.Led oldEvents newEvents 0 0 r false) :
    classifyRegion config old new r = .ok .ignorable := by
  obtain ⟨front, front', holdEvents, hnewEvents, hstarts, hs, hfollows, hr⟩ := hled
  obtain ⟨gap, rest, hgap, hpos⟩ := hfollows
  rw [Nat.zero_add, Nat.zero_add] at hr
  obtain ⟨o, ho, hokind, hoat, hoapart⟩ :=
    enclosing_old_of_text hold holdEvents hgap hpos (congrArg Region.span hr)
  obtain ⟨n, hn, hnkind, hnat, hnapart⟩ := enclosing_new_of_led hnew hnewEvents hs
    (congrArg Region.newStart hr) (congrArg Region.newText hr)
  rw [classifyRegion, hoat, hnat]
  have hpath := Tree.declarationPath_eq_of_alike halike (ho.trans (hstarts.trans hn.symm))
  exact if_pos (isTrivia_iff.2 ⟨hoapart, hnapart, hokind.trans hnkind.symm, hpath⟩)

/-- New trivia in front of attributes has no class. -/
theorem not_ok_of_led (hclosed : Event.ArgumentsClosed oldEvents)
    (hled : Event.Led oldEvents newEvents 0 0 r true) (c : RegionClass) :
    classifyRegion config old new r ≠ .ok c := by
  obtain ⟨front, front', holdEvents, hnewEvents, hstarts, hs, hfollows, hr⟩ := hled
  obtain _ | ⟨gap, rest, hgap, hpos, hdeclaration⟩ := hfollows
  rw [Nat.zero_add, Nat.zero_add] at hr
  obtain ⟨o, hokind, hoat⟩ :=
    enclosing_old_of_attributes hold holdEvents hgap hpos (congrArg Region.span hr)
  obtain ⟨n, -, hnkind, hnat, -⟩ := enclosing_new_of_led hnew hnewEvents hs
    (congrArg Region.newStart hr) (congrArg Region.newText hr)
  rw [classifyRegion, hoat, hnat]
  intro hok
  rw [← hnkind] at hdeclaration
  -- the old node is an attribute list, and the new one is a declaration
  rcases classifyAt_eq_ok hok with htrivia | hlocation | ⟨-, -, -, -, -, -, hfree, -⟩
  · have hsame := (isTrivia_iff.1 htrivia).2.2.1
    rw [← hsame, hokind] at hdeclaration
    exact absurd hdeclaration (by decide)
  · obtain ⟨name, hin, -⟩ := exists_of_inSourceLocation hlocation
    exact Tree.not_inLocation hold hclosed (by rw [hokind]; decide) config name hin
  · have hself := Tree.isDeclaration_eq_false hfree (Nat.le_refl _) (Tree.lt_subtreeEnd hnew n).1
    rw [hself] at hdeclaration
    exact absurd hdeclaration (by decide)

/-- If no new trivia is in front of attributes, all of it is trivia. -/
theorem passes_of_noted (hsymbols : old.symbols = new.symbols) (hnodes : 0 < old.size)
    (hnoted : Event.Noted false oldEvents newEvents) (config : ReloadConfig) :
    ofRegions config old new (Event.additions 0 0 oldEvents newEvents) = .unchanged ∨
      ofRegions config old new (Event.additions 0 0 oldEvents newEvents) = .triviaOnly := by
  have halike := Tree.alike_of_events hnoted.alike hold hnew
  have hnewPos : 0 < new.size := by rwa [← halike.size_eq]
  have holdNodes : old.nodes ≠ #[] := Array.ne_empty_of_size_pos hnodes
  have hnewNodes : new.nodes ≠ #[] := Array.ne_empty_of_size_pos hnewPos
  have hclasses : (Event.additions 0 0 oldEvents newEvents).mapM (classifyRegion config old new) =
      .ok ((Event.additions 0 0 oldEvents newEvents).map fun _ => .ignorable) := by
    refine mapM_eq_ok_map fun r hr => ?_
    obtain ⟨here, hled, hhere⟩ := hnoted.led_of_mem hr
    obtain rfl : here = false := Bool.eq_false_iff.2 fun h => absurd (hhere h) nofun
    exact classifyRegion_of_led hold hnew halike hled
  by_cases hregions : Event.additions 0 0 oldEvents newEvents = []
  · exact .inl ((ofRegions_eq_unchanged_iff hnodes hnewPos).2 ⟨hsymbols, hregions⟩)
  · right
    rw [ofRegions_eq_ofClasses hsymbols holdNodes hnewNodes hregions hclasses, ofClasses,
      if_pos (by simp)]

/-- New trivia in front of attributes declines the file. -/
theorem isDeclined_of_noted (hnoted : Event.Noted true oldEvents newEvents) (config : ReloadConfig) :
    (ofRegions config old new (Event.additions 0 0 oldEvents newEvents)).isDeclined = true := by
  by_contra hpasses
  rw [Bool.not_eq_true] at hpasses
  obtain ⟨r, hr, hled⟩ := hnoted.exists_led rfl 0 0
  obtain ⟨classes, hclasses, -⟩ := exists_classes hpasses (List.ne_nil_of_mem hr)
  obtain ⟨c, -, hc⟩ := exists_of_mapM hclasses hr
  exact not_ok_of_led hold hnew hnoted.argumentsClosed hled c hc

end Built

end Verdict

namespace Outline

variable {f : File} {t : Tree}

theorem symbols_of_tree (h : f.tree = .ok t) : t.symbols = f.symbols := by
  rw [Tree.eq_ofBuilder h]
  rfl

theorem size_pos_of_tree (h : f.tree = .ok t) : 0 < t.size := by
  rw [← Tree.starts_eq_size h]
  exact Nat.succ_pos _

end Outline

namespace Verdict

open Outline in
/-- Comments that are put in front of members and statements pass, unless one of them stands in front
of attributes: that declines the file. -/
theorem noted_passes_iff {f : File} {notes : Notes} (hold : f.tree = .ok old)
    (hnew : (f.noted notes).tree = .ok new) (differ : Differ)
    (hdiff : differ.between old.text new.text =
      Event.additions 0 0 f.events (f.noted notes).events) (config : ReloadConfig) :
    ((classifyBy differ config old new = .unchanged ∨
        classifyBy differ config old new = .triviaOnly) ↔ f.noteAttributes notes = false) ∧
      ((classifyBy differ config old new).isDeclined = true ↔ f.noteAttributes notes = true) := by
  have hsymbols : old.symbols = new.symbols :=
    (symbols_of_tree hold).trans (symbols_of_tree hnew).symm
  have hverdict : classifyBy differ config old new =
      ofRegions config old new (Event.additions 0 0 f.events (f.noted notes).events) := by
    rw [classifyBy, if_neg (by simpa using hsymbols),
      Tree.diffBy_eq differ (size_pos_of_tree hold) (size_pos_of_tree hnew), hdiff]
  have hnoted := f.noted_events notes
  rw [hverdict]
  cases hattributes : f.noteAttributes notes with
  | false =>
    rw [hattributes] at hnoted
    have hpasses := passes_of_noted hold hnew hsymbols (size_pos_of_tree hold) hnoted config
    refine ⟨iff_of_true hpasses rfl, iff_of_false ?_ nofun⟩
    rcases hpasses with h | h <;> rw [h] <;> exact nofun
  | true =>
    rw [hattributes] at hnoted
    have hdeclined := isDeclined_of_noted hold hnew hnoted config
    refine ⟨iff_of_false ?_ nofun, iff_of_true hdeclined rfl⟩
    rintro (h | h) <;> rw [h] at hdeclined <;> exact absurd hdeclined nofun

/-- A type with a field and a method that has an attribute. -/
def fieldAndMethod : Outline.File :=
  singleType [.field "n" "int n;",
    .method ⟨"M", "void", "", [⟨"X", none⟩]⟩ (.block [.statement "n = 1;"])]

/-- A comment in front of what has one of these paths. -/
def noteAt (paths : List (List Nat)) : Outline.Notes := fun path =>
  if path ∈ paths then ["// c"] else []

/-- The tree of the type with comments in front of what has these paths. -/
def notedTree (paths : List (List Nat)) : Tree :=
  .ofBuilder "A.cs" .empty (Builder.empty.run (fieldAndMethod.noted (noteAt paths)).events)

/-- In front of the field and in front of the statement. -/
def inFrontOfText : List (List Nat) := [[0, 0], [0, 1, 0]]

/-- Comments in front of a field and of a statement. -/
theorem noted_passes_iff_field :
    fieldAndMethod.tree = .ok (notedTree []) ∧
      (fieldAndMethod.noted (noteAt inFrontOfText)).tree = .ok (notedTree inFrontOfText) ∧
      Differ.byLines.between (notedTree []).text (notedTree inFrontOfText).text =
        Event.additions 0 0 fieldAndMethod.events
          (fieldAndMethod.noted (noteAt inFrontOfText)).events ∧
      (classify .standard (notedTree []) (notedTree inFrontOfText) = .unchanged ∨
        classify .standard (notedTree []) (notedTree inFrontOfText) = .triviaOnly) := by
  have hold : fieldAndMethod.tree = .ok (notedTree []) := by decide +kernel
  have hnew : (fieldAndMethod.noted (noteAt inFrontOfText)).tree =
    .ok (notedTree inFrontOfText) := by decide +kernel
  have hdiff : Differ.byLines.between (notedTree []).text (notedTree inFrontOfText).text =
      Event.additions 0 0 fieldAndMethod.events
        (fieldAndMethod.noted (noteAt inFrontOfText)).events := by
    decide +kernel
  have hattributes : fieldAndMethod.noteAttributes (noteAt inFrontOfText) = false := by
    decide +kernel
  exact ⟨hold, hnew, hdiff,
    (noted_passes_iff hold hnew .byLines hdiff .standard).1.2 hattributes⟩

/-- A comment in front of a method with an attribute declines the file. -/
theorem noted_attribute_declined :
    ∃ old new : Tree, fieldAndMethod.tree = .ok old ∧
      (fieldAndMethod.noted (noteAt [[0, 1]])).tree = .ok new ∧
      Differ.byLines.between old.text new.text =
        Event.additions 0 0 fieldAndMethod.events (fieldAndMethod.noted (noteAt [[0, 1]])).events ∧
      classify .standard old new = .declined (.outsideBody "A.M" ⟨21, 30⟩) := by
  refine ⟨notedTree [], notedTree [[0, 1]], ?_, ?_, ?_, ?_⟩ <;> decide +kernel

end Verdict
end HotReload
