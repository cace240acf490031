import HotReload.Source.Tree

/-!
What the gate works on: the last good build, and the trees of the compile in progress. Paths may
repeat; look-up and replacement both take the first tree of a path.
-/

namespace HotReload

/-- The build that is running. -/
structure Snapshot where
  version : String
  /-- The trees as they went into that build, before generation and annotation. -/
  beforeProcessing : Option (List Tree)
  deriving DecidableEq

/-- No version and no trees. -/
def Snapshot.none : Snapshot := ⟨"", .none⟩

/-- The trees of the compile in progress. -/
structure Compilation where
  trees : List Tree
  /-- The compile may be applied to the running build as a patch of bodies. -/
  reloadSupported : Bool
  deriving DecidableEq

namespace Compilation

/-- The compile of some trees, before any decision. -/
def ofTrees (trees : List Tree) : Compilation := ⟨trees, false⟩

@[simp] theorem trees_ofTrees (trees : List Tree) : (ofTrees trees).trees = trees := rfl

/-- The first tree with a path. -/
def get? (c : Compilation) (path : String) : Option Tree := c.trees.find? fun t => t.path = path

/-- Put a tree in place of the first one with its path, if there is one. -/
def replaceFirst? (tree : Tree) : List Tree → Option (List Tree)
  | [] => none
  | t :: rest =>
    if t.path = tree.path then some (tree :: rest) else (replaceFirst? tree rest).map (t :: ·)

/-- Put a tree in place of the first one with its path, if there is one. -/
def replace? (c : Compilation) (tree : Tree) : Option Compilation :=
  (replaceFirst? tree c.trees).map fun trees => { c with trees }

/-- Put a tree in place of the first one with its path, or leave everything as it is. -/
def replace (c : Compilation) (tree : Tree) : Compilation := (c.replace? tree).getD c

/-- Add a tree at the end. -/
def push (c : Compilation) (tree : Tree) : Compilation := { c with trees := c.trees ++ [tree] }

end Compilation

end HotReload
