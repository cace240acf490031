import HotReload.Change.Region
import HotReload.Source.Tree
import HotReload.Text.Line

/-!
A listing of change regions for people: per region a line with the file and the declaration around
it, then the lines before and after the change. Decisions never look at it.
-/

namespace HotReload.Listing

/-- A region with more lines than this on both sides together is only counted. -/
def maxLines : Nat := 5

/-- The full lines that a span touches, without the last break; an insertion point touches none. -/
def lineContext (text : List Char) (span : Span) : List Char :=
  if span.isEmpty then []
  else
    let endsInBreak := (Text.take? span.stop text).any fun cs => cs.getLast? = some '\n'
    let stop := if span.start < span.stop && endsInBreak then span.stop - 1 else span.stop
    let lineStart := match Text.take? span.start text with
      | none => 0
      | some before => Text.byteLength (before.reverse.dropWhile (· ≠ '\n'))
    let lineStop := match Text.drop? stop text with
      | none => Text.byteLength text
      | some behind => stop + Text.byteLength (behind.takeWhile (· ≠ '\n'))
    (Text.slice? lineStart lineStop text).getD []

/-- The path of the declaration around a span; empty in a tree without nodes. -/
def pathAt (t : Tree) (span : Span) : String :=
  match t.enclosing span with
  | .ok id => t.declarationPath id
  | .error _ => ""

/-- The path of the declaration around a region, in the new version if it has one there. -/
def regionPath (old new : Tree) (r : Region) : String :=
  let inNew := pathAt new r.newSpan
  if inNew.isEmpty then pathAt old r.span else inNew

/-- Lines with a mark in front. -/
def marked (mark : String) (lines : List (List Char)) : String :=
  String.join (lines.map fun l => mark ++ String.ofList l ++ "\n")

/-- The listing of one region. -/
def entry (old new : Tree) (r : Region) : String :=
  let path := regionPath old new r
  let before := Text.bareLines (lineContext old.text.toList r.span)
  let after := Text.bareLines (lineContext new.text.toList r.newSpan)
  new.path ++ " @ " ++ (if path.isEmpty then "<file>" else path) ++ "\n" ++
  if before.length + after.length ≤ maxLines then marked "- " before ++ marked "+ " after
  else s!"~ {before.length} lines -> {after.length} lines\n"

/-- The listing of all regions. -/
def render (old new : Tree) (regions : List Region) : String :=
  String.join (regions.map (entry old new))

end HotReload.Listing
