import HotReload.Change.Hunk
import HotReload.Change.Region
import HotReload.Change.Slide
import HotReload.Change.Snake
import HotReload.Source.Tree
import HotReload.Text.Line

/-!
The change regions between two versions of a file. Lines are compared first; each hunk of changed
lines becomes a region, cut down to the characters that really differ. Applying the regions to the
old text gives the new one, whatever script of lines they came from.
-/

namespace HotReload

namespace Region

variable {α : Type} [DecidableEq α]

/-- The entries that two lists share at their start. -/
def sharedStart : List α → List α → List α
  | a :: as, b :: bs => if a = b then a :: sharedStart as bs else []
  | _, _ => []

/-- The change from `before`, at an old offset, to `after`, at a new one, without what both share at
the start and then at the end. There is none if the span that is left is empty and nothing comes in. -/
def trimmed? (oldStart newStart : Nat) (before after : List Char) : Option Region :=
  let head := sharedStart before after
  let before := before.drop head.length
  let after := after.drop head.length
  let tail := sharedStart before.reverse after.reverse
  let removed := before.take (before.length - tail.length)
  let inserted := after.take (after.length - tail.length)
  let start := oldStart + Text.byteLength head
  let span : Span := ⟨Text.offset start, Text.offset (start + Text.byteLength removed)⟩
  if span.isEmpty && inserted.isEmpty then none
  else some
    { span := span
      newStart := Text.offset (newStart + Text.byteLength head)
      newText := String.ofList inserted }

/-- The region of a hunk. -/
def ofHunk? (oldLines newLines : List (List Char)) (h : Hunk) : Option Region :=
  let bytesBefore (lines : List (List Char)) (n : Nat) := Text.byteLength (lines.take n).flatten
  let between (lines : List (List Char)) (i j : Nat) := ((lines.take j).drop i).flatten
  trimmed? (bytesBefore oldLines h.oldStart) (bytesBefore newLines h.newStart)
    (between oldLines h.oldStart h.oldStop) (between newLines h.newStart h.newStop)

/-- The regions of a script between two sequences of lines. -/
def ofScript (oldLines newLines : List (List Char)) (script : Script) : List Region :=
  (script.hunks oldLines.toArray newLines.toArray).filterMap (ofHunk? oldLines newLines)

end Region

/-- The script from one sequence to another. -/
def Script.between {α : Type} [DecidableEq α] (old new : Array α) : Script :=
  compact old new (conquer old new ⟨0, old.size, 0, new.size⟩)

/-- What a comparison of two texts by lines comes to: both texts as lines, and a script between the
lines. -/
structure LineDiff where
  oldLines : List (List Char)
  newLines : List (List Char)
  script : Script
  deriving DecidableEq, Repr

namespace LineDiff

/-- The regions of the script. -/
def regions (d : LineDiff) : List Region := Region.ofScript d.oldLines d.newLines d.script

/-- The lines are the ones of two texts: none is empty and none is lost. Of the script nothing is
asked. -/
structure Covers (d : LineDiff) (oldText newText : String) : Prop where
  old_flatten : d.oldLines.flatten = oldText.toList
  new_flatten : d.newLines.flatten = newText.toList
  old_ne_nil : ∀ l ∈ d.oldLines, l ≠ []
  new_ne_nil : ∀ l ∈ d.newLines, l ≠ []

end LineDiff

/-- A way to compare two texts by lines. -/
abbrev Differ := String → String → LineDiff

namespace Differ

/-- Whatever texts are compared, the lines are those of the texts. -/
def Covers (differ : Differ) : Prop :=
  ∀ oldText newText, (differ oldText newText).Covers oldText newText

/-- The comparison of the command: full lines, and the compacted script between them. -/
def byLines : Differ := fun oldText newText =>
  let oldLines := Text.fullLines oldText.toList
  let newLines := Text.fullLines newText.toList
  ⟨oldLines, newLines, Script.between oldLines.toArray newLines.toArray⟩

theorem covers_byLines (oldText newText : String) :
    (byLines oldText newText).Covers oldText newText where
  old_flatten := Text.flatten_fullLines _
  new_flatten := Text.flatten_fullLines _
  old_ne_nil _ := Text.ne_nil_of_mem_fullLines
  new_ne_nil _ := Text.ne_nil_of_mem_fullLines

/-- The regions between two texts; equal texts are not compared. -/
def between (differ : Differ) (oldText newText : String) : List Region :=
  if oldText = newText then [] else (differ oldText newText).regions

end Differ

/-- The regions that turn a version of a file into another, by any comparison of lines; both need a
root. -/
def Tree.diffBy (differ : Differ) (old new : Tree) : Except UnresolvedRoot (List Region) := do
  let _ ← old.root
  let _ ← new.root
  return differ.between old.text new.text

/-- The regions that turn a version of a file into another, by the comparison of the command. -/
def Tree.diff (old new : Tree) : Except UnresolvedRoot (List Region) := old.diffBy .byLines new

end HotReload
