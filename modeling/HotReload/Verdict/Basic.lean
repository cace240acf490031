import HotReload.Order.SortedSet
import HotReload.Source.Kind
import HotReload.Source.Marker
import HotReload.Text.Span
import HotReload.Worker.Pool

/-!
Verdicts about a pair of file versions: either nothing that matters changed, or only the bodies of
some members did, or the edit needs a full reload for a stated reason.
-/

namespace HotReload

/-- What of a declaration changed. -/
inductive Target where
  | method
  /-- An accessor of a property. -/
  | accessor (which : Accessor)
  deriving DecidableEq, Repr

namespace Target

/-- The position of a target in the order of targets: methods first, then accessors. -/
def rank : Target → Nat
  | method => 0
  | accessor a => a.rank + 1

theorem rank_injective {a b : Target} (h : a.rank = b.rank) : a = b := by
  cases a <;> cases b <;> simp_all [rank]
  exact Accessor.rank_injective h

/-- The marker that announces the change. -/
def marker : Target → Marker
  | method => .methodBody
  | accessor a => .accessorBody a

end Target

/-- A body that changed, by the position of its declaration in the new tree: the method, or the
property of the accessor. -/
structure Intent where
  declaration : Nat
  target : Target
  deriving DecidableEq, Repr

namespace Intent

/-- By declaration, then by target. -/
instance : Ord Intent :=
  ⟨compareLex (compareOn Intent.declaration) (compareOn fun i => i.target.rank)⟩

instance : Std.TransOrd Intent :=
  inferInstanceAs
    (Std.TransCmp (compareLex (compareOn Intent.declaration) (compareOn fun i => i.target.rank)))

instance : Std.LawfulEqOrd Intent where
  eq_of_compare {a b} h := by
    obtain ⟨h₁, h₂⟩ := compareLex_eq_eq.1 h
    obtain ⟨_, _⟩ := a
    obtain ⟨_, _⟩ := b
    simp only [compareOn, Nat.compare_eq_eq] at h₁ h₂
    rw [h₁, Target.rank_injective h₂]

end Intent

/-- Why an edit needs a full reload. Spans are in the new tree. -/
inductive DeclineReason where
  | unresolvedRoot
  | symbolsChanged
  /-- A change outside every body. -/
  | outsideBody (path : String) (span : Span)
  /-- A change around a declaration. -/
  | nestedDeclaration (path : String) (span : Span)
  /-- A change whose two sides stand in different members. -/
  | targetMismatch (old new : String) (span : Span)
  deriving DecidableEq, Repr

namespace DeclineReason

/-- The changed bytes, where the reason is about some. -/
def span? : DeclineReason → Option Span
  | unresolvedRoot | symbolsChanged => none
  | outsideBody _ span | nestedDeclaration _ span | targetMismatch _ _ span => some span

/-- The text of the reason. -/
def message : DeclineReason → String
  | unresolvedRoot => "root node could not be resolved"
  | symbolsChanged => "conditional compilation symbols changed"
  | outsideBody path _ => "change outside a method or accessor body in `" ++ path ++ "`"
  | nestedDeclaration path _ => "change adds or removes a declaration in `" ++ path ++ "`"
  | targetMismatch old new _ => "change moves between `" ++ old ++ "` and `" ++ new ++ "`"

end DeclineReason

/-- What a pair of file versions comes to. -/
inductive Verdict where
  | unchanged
  | triviaOnly
  /-- Only these bodies changed. -/
  | bodyEdits (intents : SortedSet Intent)
  | declined (reason : DeclineReason)
  deriving DecidableEq

namespace Verdict

/-- The edit needs a full reload. -/
def isDeclined : Verdict → Bool
  | declined _ => true
  | _ => false

/-- The reason for a full reload. -/
def reason? : Verdict → Option DeclineReason
  | declined reason => some reason
  | _ => none

/-- The bodies that changed. -/
def intents : Verdict → SortedSet Intent
  | bodyEdits intents => intents
  | _ => .empty

end Verdict

/-- The unit that carries the marker of the whole program. -/
def extraUnitPath : String := "__hotpatch_extra.cs"

/-- Settings of the decision. -/
structure ReloadConfig where
  pool : Pool
  /-- Attributes whose arguments only say where something stands. -/
  sourceLocationAttributes : List String
  /-- The unit that carries the marker of the whole program; it takes no part in comparisons. -/
  extraUnitPath : String
  deriving DecidableEq, Repr

namespace ReloadConfig

/-- The settings unless the host chooses others. -/
def standard : ReloadConfig := ⟨.standard, ["SourceLocation"], HotReload.extraUnitPath⟩

/-- The last segment of a dotted name. -/
def simpleName (name : String) : String :=
  String.ofList (name.toList.reverse.takeWhile (· ≠ '.')).reverse

/-- The last segment of the name is in the list, as it is or with `Attribute` at the end. -/
def isSourceLocationAttribute (config : ReloadConfig) (name : String) : Bool :=
  config.sourceLocationAttributes.any fun allowed =>
    simpleName name = allowed || simpleName name = allowed ++ "Attribute"

end ReloadConfig

end HotReload
