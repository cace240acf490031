/-!
Tags that the workers of a generation pass share. A tag belongs to the first worker that claims it.
-/

namespace HotReload

/-- The tags claimed so far. -/
structure TagSet where
  claimed : List String
  deriving DecidableEq, Repr

namespace TagSet

/-- No tag is claimed. -/
def empty : TagSet := ⟨[]⟩

/-- Claim a tag; the answer is whether it was free. -/
def claim (tag : String) (tags : TagSet) : Bool × TagSet :=
  if tags.claimed.contains tag then (false, tags) else (true, ⟨tag :: tags.claimed⟩)

/-- Claim several tags, one after the other. -/
def claimAll (tags : TagSet) (wanted : List String) : TagSet :=
  wanted.foldl (fun tags tag => (tags.claim tag).2) tags

end TagSet

end HotReload
