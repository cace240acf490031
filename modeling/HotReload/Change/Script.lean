/-!
Edit scripts between two sequences. An operation covers a range on either side; a script is read
from front to back. The common runs of two sequences are counted here, with the bound that the
searches on scripts need to come to an end.
-/

namespace HotReload

/-- What an operation does with its ranges. -/
inductive Tag where
  | equal
  | delete
  | insert
  | replace
  deriving DecidableEq, Repr

/-- One operation: a range of the old and a range of the new sequence. -/
structure Op where
  tag : Tag
  oldStart : Nat
  oldLength : Nat
  newStart : Nat
  newLength : Nat
  deriving DecidableEq, Repr

namespace Op

/-- Where the old range ends. -/
def oldStop (o : Op) : Nat := o.oldStart + o.oldLength

/-- Where the new range ends. -/
def newStop (o : Op) : Nat := o.newStart + o.newLength

/-- Both ranges are empty. -/
def isEmpty (o : Op) : Bool := o.oldLength = 0 && o.newLength = 0

end Op

/-- A sequence of operations. -/
abbrev Script := List Op

namespace Script

variable {α : Type} [DecidableEq α]

/-- Both sequences have an entry there, and it is the same. -/
def agreeAt (a b : Array α) (i j : Nat) : Bool :=
  match a[i]?, b[j]? with
  | some x, some y => x = y
  | _, _ => false

/-- How many entries agree from `i` in `a` and `j` in `b` on, at most `limit`. -/
def agreeing (a b : Array α) (i j : Nat) : Nat → Nat
  | 0 => 0
  | limit + 1 => if agreeAt a b i j then agreeing a b (i + 1) (j + 1) limit + 1 else 0

/-- How many entries agree up to, and without, `i` in `a` and `j` in `b`, at most `limit`. -/
def agreeingBack (a b : Array α) (i j : Nat) : Nat → Nat
  | 0 => 0
  | limit + 1 =>
    if 0 < i ∧ 0 < j ∧ agreeAt a b (i - 1) (j - 1) then
      agreeingBack a b (i - 1) (j - 1) limit + 1
    else 0

theorem agreeing_le (a b : Array α) (i j limit : Nat) : agreeing a b i j limit ≤ limit := by
  induction limit generalizing i j with
  | zero => exact Nat.le_refl _
  | succ limit ih =>
    have := ih (i + 1) (j + 1)
    simp only [agreeing]
    split <;> omega

theorem agreeingBack_le (a b : Array α) (i j limit : Nat) :
    agreeingBack a b i j limit ≤ limit := by
  induction limit generalizing i j with
  | zero => exact Nat.le_refl _
  | succ limit ih =>
    have := ih (i - 1) (j - 1)
    simp only [agreeingBack]
    split <;> omega

end Script

end HotReload
