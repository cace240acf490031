import HotReload.Proofs.Outline.Roles
import HotReload.Proofs.Verdict.Declarations

/-
  Bodies of members across an edit that does not decline. Significant text that a region overlaps in
  the body of a member has the member recorded (`Verdict.overlapped_body_recorded`), on either side.
  Text that no region overlaps has not: the statements of an unrecorded member can change when their
  text turns from a comment into code or back in place, as in
  `Verdict.uncommented_statement_unrecorded`.
-/

namespace HotReload

namespace Tree

variable (t : Tree)

/-- No other member has a body with this path. -/
def isOnlyBody (body : t.Id) : Prop :=
  ∀ other, t.isMemberBody other = true → t.declarationPath other = t.declarationPath body →
    other = body

/-- The statements in a body, those of methods inside of it included. -/
def statementsIn (body : t.Id) : List String :=
  ((t.descendants body).filter fun id => t.kind id = .statement).map t.nodeText

end Tree

namespace Verdict

/-- Every member with other statements than before is recorded, if its path tells it from the other
members. -/
def MarksChangedBodies (old new : Tree) (v : Verdict) : Prop :=
  ∀ oldBody newBody owner target, old.isMemberBody oldBody = true →
    (new.kind newBody).isBody = true → new.ownerOfBody? newBody = some (owner, target) →
    old.declarationPath oldBody = new.declarationPath newBody →
    old.isOnlyBody oldBody → new.isOnlyBody newBody →
    old.statementsIn oldBody ≠ new.statementsIn newBody → ⟨owner.1, target⟩ ∈ v.intents

/-- A member is recorded if a region overlaps significant text in its body, on either side. -/
theorem overlapped_body_recorded {oldPath newPath : String} {oldSymbols newSymbols : Symbols}
    {oldEvents newEvents : List Event} {old new : Tree}
    (hold : Tree.ofEvents oldPath oldSymbols oldEvents = .ok old)
    (hnew : Tree.ofEvents newPath newSymbols newEvents = .ok new)
    (hattributes : ∀ id, old.kind id ≠ .attributeArguments) (config : ReloadConfig)
    (regions : List Region) (hsafe : (ofRegions config old new regions).isDeclined = false) :
    ∀ r ∈ regions,
      (∀ p ∈ Event.pieces 0 [] 0 oldEvents, p.significant = true →
        p.span.overlaps r.span = true → ∀ w : old.Id, w.1 = p.owner →
        ∃ oldOwner newOwner target, old.bodyTarget? w = some (oldOwner, target) ∧
          old.declarationPath oldOwner = new.declarationPath newOwner ∧
          ⟨newOwner.1, target⟩ ∈ (ofRegions config old new regions).intents) ∧
      (∀ p ∈ Event.pieces 0 [] 0 newEvents, p.significant = true →
        p.span.overlaps r.newSpan = true → ∀ w : new.Id, w.1 = p.owner →
        ∃ newOwner target, new.bodyTarget? w = some (newOwner, target) ∧
          ⟨newOwner.1, target⟩ ∈ (ofRegions config old new regions).intents) := by
  intro r hr
  obtain ⟨o, n, ho, hn, hpasses⟩ := exists_passes hattributes hsafe hr
  exact ⟨fun p hp hsignificant hoverlaps w hw =>
      (hpasses.old_overlap hold ho hp hsignificant hoverlaps hw).2,
    fun p hp hsignificant hoverlaps w hw =>
      (hpasses.new_overlap hnew hn hp hsignificant hoverlaps hw).2⟩

open Outline in
/-- A method with some lines in its body. -/
def methodOf (lines : List String) : Member :=
  .method ⟨"M", "void", "", []⟩ (.block (lines.map BodyItem.ofLine))

/-- A statement that was commented out comes back, and its method is not recorded. -/
theorem uncommented_statement_unrecorded :
    ∃ old new : Tree,
      (singleType [methodOf ["// x = 1;", "y = 2;"]]).tree = .ok old ∧
      (singleType [methodOf ["x = 1;", "y = 2;"]]).tree = .ok new ∧
      (classify .standard old new).isDeclined = false ∧
      ¬MarksChangedBodies old new (classify .standard old new) := by
  refine ⟨_, _, rfl, rfl, ?_, fun h => ?_⟩
  · decide +kernel
  · have hintent := h ⟨4, by decide⟩ ⟨4, by decide⟩ ⟨2, by decide⟩ .method
      (by decide +kernel) (by decide +kernel) (by decide +kernel) (by decide +kernel)
      (by unfold Tree.isOnlyBody; decide +kernel) (by unfold Tree.isOnlyBody; decide +kernel)
      (by decide +kernel)
    revert hintent
    decide +kernel

end Verdict
end HotReload
