import HotReload.Text.Edit

/-!
Change regions: a span of the old text and the text that stands there in the new version. The
regions of one pair of files are disjoint and in order of old position.
-/

namespace HotReload

/-- One contiguous change. -/
structure Region where
  /-- The replaced bytes of the old text. -/
  span : Span
  /-- Where the replacement starts in the new text. -/
  newStart : Nat
  newText : String
  deriving DecidableEq, Repr

namespace Region

/-- The length of the replacement. -/
def newLength (r : Region) : Nat := Text.offset r.newText.utf8ByteSize

/-- The bytes of the replacement in the new text. -/
def newSpan (r : Region) : Span := ⟨r.newStart, Text.offset (r.newStart + r.newLength)⟩

/-- By how much the text grows; an inverted span has no answer. -/
def delta? (r : Region) : Option Int :=
  r.span.length?.map fun removed => (r.newLength : Int) - removed

/-- Text came in and none went. -/
def isInsertion (r : Region) : Bool := r.span.isEmpty && !r.newText.isEmpty

/-- Text went and none came in. -/
def isDeletion (r : Region) : Bool := r.newText.isEmpty && !r.span.isEmpty

/-- The region as an edit of the old text. -/
def edit (r : Region) : Edit := ⟨r.span, r.newText⟩

/-- The new text, from the old one and the regions between them. -/
def applyAll (oldText : String) (regions : List Region) : Except EditError String :=
  Edit.applyAll oldText (regions.map edit)

end Region

end HotReload
