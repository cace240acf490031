import HotReload.Source.Builder
import HotReload.Source.Marking
import HotReload.Verdict.Basic

/-!
Marking what changed. A changed method is marked itself, a changed accessor is marked on its property,
and the extra unit of the program carries the version that the build patches.
-/

namespace HotReload

/-- Why a tree could not be annotated. -/
inductive AnnotateError where
  | mark (error : MarkError)
  | build (error : BuildError)
  | root (error : UnresolvedRoot)
  deriving DecidableEq, Repr

/-- The text of the error. -/
def AnnotateError.message : AnnotateError → String
  | mark error => error.message
  | build error => error.message
  | root error => error.message

namespace Intent

/-- The marker that an intent puts on its declaration. -/
def request (i : Intent) : Marking.Request := (i.declaration, i.target.marker)

end Intent

namespace Tree

/-- The tree with a marker for every intent; the intents speak about nodes of this tree. -/
def annotate (t : Tree) (intents : SortedSet Intent) : Except AnnotateError Tree :=
  (t.addMarkers (intents.toList.map Intent.request)).mapError .mark

/-- A file without text. -/
def blank (path : String) : Except BuildError Tree :=
  Tree.ofEvents path .empty [.start .compilationUnit none, .finish]

/-- The tree with the marker of the whole program on its root. -/
def markProgram (t : Tree) (version : String) : Except AnnotateError Tree := do
  let root ← t.root.mapError .root
  (t.addMarkers [(root.1, .patches version)]).mapError .mark

/-- The extra unit with the marker of the whole program; an absent unit starts out blank. -/
def patching (extra : Option Tree) (path version : String) : Except AnnotateError Tree :=
  match extra with
  | some unit => unit.markProgram version
  | none => (blank path).mapError .build >>= fun unit => unit.markProgram version

end Tree

end HotReload
