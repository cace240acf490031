import HotReload.Text.Bytes

/-!
Half-open byte ranges of a text. Containment is inclusive at both ends, so an insertion right after
a node still belongs to it; overlap asks for a shared byte, and an insertion point overlaps a span
only when it lies strictly inside.
-/

namespace HotReload

/-- The bytes from `start` up to, and without, `stop`. -/
structure Span where
  start : Nat
  stop : Nat
  deriving DecidableEq, Inhabited, Repr

namespace Span

/-- The insertion point at an offset. -/
def point (at_ : Nat) : Span := ⟨at_, at_⟩

/-- The number of bytes; an inverted span has none. -/
def length? (s : Span) : Option Nat := if s.start ≤ s.stop then some (s.stop - s.start) else none

/-- The span is an insertion point. -/
def isEmpty (s : Span) : Bool := s.start = s.stop

/-- `inner` lies within `s`, touching ends included. -/
def contains (s inner : Span) : Bool := s.start ≤ inner.start && inner.stop ≤ s.stop

theorem contains_iff {s inner : Span} :
    s.contains inner = true ↔ s.start ≤ inner.start ∧ inner.stop ≤ s.stop := by
  simp [contains]

/-- The spans share a byte, or one is an insertion point strictly inside the other. -/
def overlaps (s t : Span) : Bool :=
  if t.isEmpty then s.start < t.start && t.start < s.stop
  else if s.isEmpty then t.start < s.start && s.start < t.stop
  else s.start < t.stop && t.start < s.stop

/-- The smallest span that covers both. -/
def merge (s t : Span) : Span := ⟨min s.start t.start, max s.stop t.stop⟩

/-- The text of a span: its two offsets with two dots between. -/
def render (s : Span) : String := s!"{s.start}..{s.stop}"

/-- Spans are ordered by start, then by end. -/
instance : Ord Span := ⟨fun s t => (compare s.start t.start).then (compare s.stop t.stop)⟩

/-- The order of spans as a test, for sorting. -/
def le (s t : Span) : Bool := (compare s t).isLE

end Span

end HotReload
