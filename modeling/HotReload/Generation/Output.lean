import HotReload.Diagnostic.Basic
import HotReload.Generation.Tags
import HotReload.Source.Tree
import HotReload.Worker.Failure

/-!
Generators and what they ask for. A generator runs once per file. It sees the file, the handle of the
host and the output paths, claims tags that all workers of the pass share, and answers with trees,
diagnostics and loose code, or fails. Tags stay claimed when it fails.
-/

namespace HotReload

/-- Where generated trees of a file go. -/
structure OutputPaths where
  /-- Source and output paths, newest first. -/
  entries : List (String × String)
  deriving DecidableEq, Repr

namespace OutputPaths

/-- Every file goes to its own path. -/
def empty : OutputPaths := ⟨[]⟩

/-- Send a file to a path. -/
def insert (p : OutputPaths) (source output : String) : OutputPaths :=
  ⟨(source, output) :: p.entries⟩

/-- Send each file to a path; later entries count. -/
def ofList (entries : List (String × String)) : OutputPaths :=
  entries.foldl (fun p (source, output) => p.insert source output) empty

/-- Where a file goes; a file without an entry goes to its own path. -/
def resolve (p : OutputPaths) (source : String) : String := (p.entries.lookup source).getD source

end OutputPaths

/-- What a worker may look at. -/
structure GenerationContext (H : Type) where
  /-- How the host resolves symbols; nothing here looks into it. -/
  handle : H
  paths : OutputPaths

/-- What a worker asks for. -/
structure GenerationOutput where
  /-- A tree in place of the file. -/
  replacement : Option Tree
  added : List Tree
  diagnostics : List Diagnostic
  /-- Text that goes into one tree with the loose code of all other workers. -/
  looseCode : Option String
  deriving DecidableEq

/-- A worker that asks for nothing. -/
def GenerationOutput.nothing : GenerationOutput := ⟨none, [], [], none⟩

/-- A step of a worker: it may claim tags and may fail. -/
abbrev Worker (α : Type) : Type := ExceptT Failure (StateM TagSet) α

namespace Worker

/-- Claim a tag; the answer is whether it was free. -/
def claim (tag : String) : Worker Bool := ExceptT.mk fun tags =>
  let (free, tags) := tags.claim tag
  (.ok free, tags)

end Worker

/-- A source generator. -/
abbrev Generator (H : Type) : Type := GenerationContext H → Tree → Worker GenerationOutput

/-- A parser of the host, for generated code. -/
abbrev Parser : Type := (path text : String) → Symbols → Except Failure Tree

end HotReload
