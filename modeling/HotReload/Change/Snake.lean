import HotReload.Change.Script

/-!
A short edit script by divide and conquer. Two sequences are cut at the middle of a shortest path
between them, and both halves are solved alike. A path is searched from both ends at once, one more
difference at a time; a diagonal `k` holds the positions with `x - y = k`.

After `d` differences the diagonals `-d, -d + 2, …, d` can be reached. A frontier lists how far each
of them got, so diagonal `k` stands at index `(k + d) / 2`.
-/

namespace HotReload.Script

variable {α : Type} [DecidableEq α]

/-- A part of the old and a part of the new sequence. -/
structure Box where
  oldStart : Nat
  oldStop : Nat
  newStart : Nat
  newStop : Nat
  deriving DecidableEq, Repr

namespace Box

/-- The number of old entries. -/
def oldLength (b : Box) : Nat := b.oldStop - b.oldStart

/-- The number of new entries. -/
def newLength (b : Box) : Nat := b.newStop - b.newStart

end Box

/-- How far each diagonal got. -/
abbrev Frontier := Array Nat

/-- How far a diagonal was at the last step; a diagonal outside the frontier was nowhere. -/
def Frontier.reached (f : Frontier) (d : Nat) (k : Int) : Option Nat :=
  if -(d : Int) ≤ k ∧ k ≤ d then f[((k + d) / 2).toNat]? else none

/-- Where the diagonal at index `j` starts with one difference more: from the neighbour that got
further, the upper one if they are even. -/
def Frontier.enter (f : Frontier) (d j : Nat) : Nat :=
  let lower := (f[j - 1]?).getD 0
  let upper := (f[j]?).getD 0
  if d = 0 then 0
  else if j = 0 then upper
  else if j ≠ d ∧ lower < upper then upper
  else lower + 1

/-- A position inside a box, as far as it is inside. -/
def inside (n m : Nat) (x : Nat) (y : Int) : Bool := x < n && 0 ≤ y && y < m

/-- How far a diagonal gets forward from `x`, along equal entries. -/
def advance (old new : Array α) (b : Box) (x : Nat) (y : Int) : Nat :=
  if inside b.oldLength b.newLength x y then
    x + agreeing old new (b.oldStart + x) (b.newStart + y.toNat)
      (min (b.oldLength - x) (b.newLength - y.toNat))
  else x

/-- How far a diagonal gets backward from `x`, both counted from the ends. -/
def retreat (old new : Array α) (b : Box) (x : Nat) (y : Int) : Nat :=
  if inside b.oldLength b.newLength x y then
    x + agreeingBack old new (b.oldStop - x) (b.newStop - y.toNat)
      (min (b.oldLength - x) (b.newLength - y.toNat))
  else x

/-- The diagonal at index `j` after `d` differences. -/
def diagonal (d j : Nat) : Int := 2 * (j : Int) - d

/-- One step of the search from both ends: the frontiers, and the cut if they met. The forward
search meets on an odd difference in length, at the start of its last run of equal entries; the
backward search meets on an even one, at the end of its run. Higher diagonals are looked at
first. -/
def widen (old new : Array α) (b : Box) (d : Nat) (forward backward : Frontier) :
    Frontier × Frontier × Option (Nat × Nat) :=
  let n := b.oldLength
  let m := b.newLength
  let delta : Int := n - m
  let odd := delta % 2 ≠ 0
  let indices := List.range (d + 1)
  let forward' : Frontier := (indices.map fun j =>
    let x := forward.enter d j
    advance old new b x (x - diagonal d j)).toArray
  let backward' : Frontier := (indices.map fun j =>
    let x := backward.enter d j
    retreat old new b x (x - diagonal d j)).toArray
  let meets (mine other : Frontier) (otherStep : Option Nat) (j : Nat) : Bool :=
    match mine[j]?, otherStep.bind fun e => other.reached e (delta - diagonal d j) with
    | some x, some x' => n ≤ x + x'
    | _, _ => false
  let earlier := if d = 0 then none else some (d - 1)
  let cut :=
    if odd then
      (indices.reverse.find? (meets forward' backward earlier)).map fun j =>
        let x := forward.enter d j
        (b.oldStart + x, ((b.newStart : Int) + (x - diagonal d j)).toNat)
    else
      (indices.reverse.find? (meets backward' forward' (some d))).map fun j =>
        let x := (backward'[j]?).getD 0
        (b.oldStart + n - x, ((b.newStart : Int) + m - (x - diagonal d j)).toNat)
  (forward', backward', cut)

/-- Search with `d` differences, then with more, for at most `steps` steps. -/
def searchFrom (old new : Array α) (b : Box) (d : Nat) (forward backward : Frontier) :
    Nat → Option (Nat × Nat)
  | 0 => none
  | steps + 1 =>
    match widen old new b d forward backward with
    | (_, _, some cut) => some cut
    | (forward', backward', none) => searchFrom old new b (d + 1) forward' backward' steps

/-- Where to cut a box. -/
def middle? (old new : Array α) (b : Box) : Option (Nat × Nat) :=
  searchFrom old new b 0 #[] #[] ((b.oldLength + b.newLength + 1) / 2 + 1)

/-- An operation on equal entries, unless there are none. -/
def equalOp (oldStart newStart length : Nat) : Script :=
  if length = 0 then [] else [⟨.equal, oldStart, length, newStart, length⟩]

/-- The old entries of a box go and the new ones come in. -/
def replaceOps (b : Box) : Script :=
  (if b.oldLength = 0 then [] else [⟨.delete, b.oldStart, b.oldLength, b.newStart, 0⟩]) ++
  (if b.newLength = 0 then [] else [⟨.insert, b.oldStart, 0, b.newStart, b.newLength⟩])

/-- The script of a box: equal entries at both ends, and the rest cut in two. -/
def conquer (old new : Array α) (b : Box) : Script :=
  let head := agreeing old new b.oldStart b.newStart (min b.oldLength b.newLength)
  let tail := agreeingBack old new b.oldStop b.newStop
    (min (b.oldLength - head) (b.newLength - head))
  let core : Box := ⟨b.oldStart + head, b.oldStop - tail, b.newStart + head, b.newStop - tail⟩
  let inner :=
    if core.oldLength = 0 ∨ core.newLength = 0 then replaceOps core
    else
      match middle? old new core with
      | none => replaceOps core
      | some (x, y) =>
        if core.oldStart ≤ x ∧ x ≤ core.oldStop ∧ core.newStart ≤ y ∧ y ≤ core.newStop ∧
            core.oldStart + core.newStart < x + y ∧ x + y < core.oldStop + core.newStop then
          conquer old new ⟨core.oldStart, x, core.newStart, y⟩ ++
          conquer old new ⟨x, core.oldStop, y, core.newStop⟩
        else replaceOps core
  equalOp b.oldStart b.newStart head ++ inner ++ equalOp core.oldStop core.newStop tail
termination_by (b.oldStop - b.oldStart) + (b.newStop - b.newStart)
decreasing_by all_goals simp_all only [core]; omega

end HotReload.Script
