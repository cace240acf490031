import HotReload.Change.Diff

/-!
The regions of a comparison, cut out of the two texts. The lines of a hunk are looked up in a table of
line starts, and the texts are cut at the offsets found there. A look-up behind the end of a table and
a cut that a text does not have are faults; inside of a hunk only shared characters are left out, which
always works.
-/

namespace HotReload

/-- The byte offset of every line, and of the end; the first line starts at an offset. -/
def Text.lineStarts (offset : Nat) : List (List Char) → List Nat
  | [] => [offset]
  | line :: lines => offset :: lineStarts (offset + byteLength line) lines

/-- Why regions could not be cut out. -/
inductive CutFault where
  /-- A line index behind the end of a table. -/
  | line (index count : Nat)
  /-- A range that a text does not have. -/
  | range (start stop length : Nat)
  deriving DecidableEq, Repr

namespace CutFault

/-- The text of the fault. -/
def message : CutFault → String
  | line index count => s!"index out of bounds: the len is {count} but the index is {index}"
  | range start stop length => s!"no characters end at {start} and {stop} of {length} bytes"

end CutFault

/-- The start of a line. -/
def Text.lineStart (starts : List Nat) (i : Nat) : Except CutFault Nat :=
  match starts[i]? with
  | some start => .ok start
  | none => .error (.line i starts.length)

/-- The characters of a range of bytes. -/
def Text.cut (text : List Char) (start stop : Nat) : Except CutFault (List Char) :=
  match slice? start stop text with
  | some part => .ok part
  | none => .error (.range start stop (byteLength text))

/-- The region of a hunk, cut out of both texts. -/
def Region.cutHunk (oldText newText : List Char) (oldStarts newStarts : List Nat) (h : Hunk) :
    Except CutFault (Option Region) := do
  let oldStart ← Text.lineStart oldStarts h.oldStart
  let oldStop ← Text.lineStart oldStarts h.oldStop
  let newStart ← Text.lineStart newStarts h.newStart
  let newStop ← Text.lineStart newStarts h.newStop
  let before ← Text.cut oldText oldStart oldStop
  let after ← Text.cut newText newStart newStop
  return trimmed? oldStart newStart before after

/-- The regions of a comparison, cut out of both texts. -/
def LineDiff.cutRegions (d : LineDiff) (oldText newText : String) :
    Except CutFault (List Region) := do
  let oldStarts := Text.lineStarts 0 d.oldLines
  let newStarts := Text.lineStarts 0 d.newLines
  let hunks := d.script.hunks d.oldLines.toArray d.newLines.toArray
  let regions ← hunks.mapM (Region.cutHunk oldText.toList newText.toList oldStarts newStarts)
  return regions.filterMap id

end HotReload
