import HotReload.Change.Script

/-!
Runs of changed lines. A script is only a hint here: of an operation nothing but its tag and its two
lengths are read, lengths that overshoot are cut off, and two lines in an equal operation are kept
only if they are equal. So copying all lines between the hunks of any script gives the new lines.
-/

namespace HotReload

/-- A run of changed lines, by line index on both sides. -/
structure Hunk where
  oldStart : Nat
  oldStop : Nat
  newStart : Nat
  newStop : Nat
  deriving DecidableEq, Repr

/-- A position in both sequences of lines, with the hunks so far. -/
structure LineCursor where
  old : Nat
  new : Nat
  /-- Where the hunk in progress started. -/
  opened : Option (Nat × Nat)
  /-- The finished hunks, last one first. -/
  hunks : List Hunk
  deriving DecidableEq, Repr

namespace LineCursor

/-- In front of all lines. -/
def start : LineCursor := ⟨0, 0, none, []⟩

/-- Go over changed lines, at most to the ends of both sides. -/
def change (c : LineCursor) (oldLength newLength oldTotal newTotal : Nat) : LineCursor :=
  { c with
    opened := c.opened <|> some (c.old, c.new)
    old := min (c.old + oldLength) oldTotal
    new := min (c.new + newLength) newTotal }

/-- End the hunk in progress, if there is one. -/
def close (c : LineCursor) : LineCursor :=
  match c.opened with
  | none => c
  | some (old, new) => { c with opened := none, hunks := ⟨old, c.old, new, c.new⟩ :: c.hunks }

/-- Go over one line that both sides share. -/
def keep (c : LineCursor) : LineCursor :=
  let c := c.close
  { c with old := c.old + 1, new := c.new + 1 }

/-- All hunks; what no operation reached has changed. -/
def finish (c : LineCursor) (oldTotal newTotal : Nat) : List Hunk :=
  let c := if c.old < oldTotal ∨ c.new < newTotal then
      c.change oldTotal newTotal oldTotal newTotal
    else c
  c.close.hunks.reverse

variable {α : Type} [DecidableEq α]

/-- Go over so many pairs of lines that are said to be equal. -/
def pairs (oldLines newLines : Array α) (c : LineCursor) : Nat → LineCursor
  | 0 => c
  | n + 1 =>
    let next := if Script.agreeAt oldLines newLines c.old c.new then c.keep
      else c.change 1 1 oldLines.size newLines.size
    pairs oldLines newLines next n

/-- Go over the lines of one operation. -/
def step (oldLines newLines : Array α) (c : LineCursor) (op : Op) : LineCursor :=
  if op.tag = .equal then pairs oldLines newLines c (min op.oldLength op.newLength)
  else c.change op.oldLength op.newLength oldLines.size newLines.size

end LineCursor

/-- The hunks that a script makes out of two sequences of lines. -/
def Script.hunks {α : Type} [DecidableEq α] (oldLines newLines : Array α) (script : Script) :
    List Hunk :=
  (script.foldl (LineCursor.step oldLines newLines) .start).finish oldLines.size newLines.size

end HotReload
