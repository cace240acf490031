import HotReload.Proofs.Verdict.SignificantEdits

/-
  Declarations across an edit that does not decline. No region of it touches the text that is
  written straight into a declaration (`Verdict.declaration_text_kept`), on either side. Text that
  stays can turn from a comment into code or back, and a declaration comes or goes with it:
  `Verdict.commented_overload_passes` adds a method by taking two slashes away, and the verdict sees
  trivia.
-/

namespace HotReload

/-- The declarations of a tree in pre-order, each with its kind and its path. -/
def Tree.declarations (t : Tree) : List (NodeKind × String) :=
  ((List.finRange t.nodes.size).filter fun id => (t.kind id).isDeclaration).map fun id =>
    (t.kind id, t.declarationPath id)

namespace Verdict

/-- The text that is written straight into declarations stays as it is, on both sides. -/
theorem declaration_text_kept {oldPath newPath : String} {oldSymbols newSymbols : Symbols}
    {oldEvents newEvents : List Event} {old new : Tree}
    (hold : Tree.ofEvents oldPath oldSymbols oldEvents = .ok old)
    (hnew : Tree.ofEvents newPath newSymbols newEvents = .ok new)
    (hattributes : ∀ id, old.kind id ≠ .attributeArguments) (config : ReloadConfig)
    (regions : List Region) (hsafe : (ofRegions config old new regions).isDeclined = false) :
    ∀ r ∈ regions,
      (∀ p ∈ Event.pieces 0 [] 0 oldEvents, p.significant = true → ∀ d : old.Id, d.1 = p.owner →
        (old.kind d).isDeclaration = true → p.span.overlaps r.span = false) ∧
      (∀ p ∈ Event.pieces 0 [] 0 newEvents, p.significant = true → ∀ d : new.Id, d.1 = p.owner →
        (new.kind d).isDeclaration = true → p.span.overlaps r.newSpan = false) := by
  intro r hr
  obtain ⟨o, n, ho, hn, hpasses⟩ := exists_passes hattributes hsafe hr
  refine ⟨fun p hp hsignificant d hd hkind => Bool.eq_false_iff.2 fun hoverlaps => ?_,
    fun p hp hsignificant d hd hkind => Bool.eq_false_iff.2 fun hoverlaps => ?_⟩
  · rw [(hpasses.old_overlap hold ho hp hsignificant hoverlaps hd).1] at hkind
    exact absurd hkind (by decide)
  · rw [(hpasses.new_overlap hnew hn hp hsignificant hoverlaps hd).1] at hkind
    exact absurd hkind (by decide)

open Outline in
/-- A file with one type. -/
def singleType (members : List Member) : File :=
  ⟨"A.cs", .empty, none, none, [⟨"A", [], members⟩]⟩

open Outline in
/-- A method on one line. -/
def overload (digit : String) : Member := .method ⟨"F", "void", "", []⟩ (.arrow digit)

/-- A method that was commented out comes back in front of an overload, and only the two slashes
make a region. -/
theorem commented_overload_passes :
    ∃ old new : Tree,
      (singleType [.comment "// void F() => 1;", overload "2"]).tree = .ok old ∧
      (singleType [overload "1", overload "2"]).tree = .ok new ∧
      old.declarations ≠ new.declarations ∧
      (classify .standard old new).isDeclined = false := by
  refine ⟨_, _, rfl, rfl, ?_, ?_⟩
  · decide +kernel
  · decide +kernel

end Verdict
end HotReload
