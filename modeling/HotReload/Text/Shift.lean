import HotReload.Text.Bytes

/-!
How a single replacement moves the offsets of a text. Offsets before the replaced bytes stay,
offsets behind them move by the change in length. `Shift.adjust` keeps offsets inside the replaced
bytes where they are.
-/

namespace HotReload

/-- The `removed` bytes at `origin` were replaced by text that is `delta` bytes longer. -/
structure Shift where
  origin : Nat
  removed : Nat
  delta : Int
  deriving DecidableEq, Repr

namespace Shift

/-- The shift of inserting `length` bytes. -/
def insertion (origin length : Nat) : Shift := ⟨origin, 0, length⟩

/-- Where the replaced bytes end. -/
def stop (s : Shift) : Nat := min (s.origin + s.removed) Text.maxOffset

/-- The offset is in front of, or inside, the replaced bytes; an offset equal to `origin` counts as
in front when `stay` is set. -/
def keeps (s : Shift) (p : Nat) (stay : Bool) : Bool :=
  p < s.origin || (p == s.origin && stay) || p < s.stop

/-- The offset after the replacement. A moved offset stops at zero and keeps its low 32 bits. -/
def adjust (s : Shift) (p : Nat) (stay : Bool) : Nat :=
  if s.keeps p stay then p else (p + s.delta).toNat % (Text.maxOffset + 1)

/-- The largest sum of an offset and a change in length. -/
def maxSum : Int := 9223372036854775807

/-- The offset after the replacement; `none` when the moved offset leaves the range of sums. -/
def adjust? (s : Shift) (p : Nat) (stay : Bool) : Option Nat :=
  if s.keeps p stay || p + s.delta ≤ maxSum then some (s.adjust p stay) else none

end Shift

end HotReload
