import HotReload.Change.Script

/-!
Compacting an edit script. An insertion next to equal entries often has several places where it may
stand. Every deletion, then every insertion, slides as far up and then as far down as equal entries
let it, and joins operations of its kind on the way.

An operation slides between the operations in front of it, last one first, and those behind it.
-/

namespace HotReload.Script

variable {α : Type} [DecidableEq α]

/-- An operation with the script in front of it, last operation first, and behind it. -/
structure Place where
  before : Script
  current : Op
  behind : Script
  deriving DecidableEq, Repr

/-- How far a walk over some operations can go. -/
def room : Script → Nat
  | [] => 0
  | o :: script => o.oldLength + 1 + room script

@[simp] theorem room_cons (o : Op) (script : Script) :
    room (o :: script) = o.oldLength + 1 + room script := rfl

/-- Add `count` equal entries in front of the operations behind. -/
def growBehind (oldStart newStart count : Nat) : Script → Script
  | e :: rest =>
    if e.tag = .equal then
      ⟨.equal, e.oldStart - count, e.oldLength + count, e.newStart - count, e.newLength + count⟩ ::
        rest
    else ⟨.equal, oldStart, count, newStart, count⟩ :: e :: rest
  | [] => [⟨.equal, oldStart, count, newStart, count⟩]

/-- Add `count` equal entries behind the operations in front. -/
def growBefore (oldStart newStart count : Nat) : Script → Script
  | e :: rest =>
    if e.tag = .equal then { e with oldLength := e.oldLength + count,
                                    newLength := e.newLength + count } :: rest
    else ⟨.equal, oldStart, count, newStart, count⟩ :: e :: rest
  | [] => [⟨.equal, oldStart, count, newStart, count⟩]

/-- How many equal entries in front repeat at the end of an operation's new range. -/
def slackUp (old new : Array α) (q t : Op) : Nat :=
  agreeingBack old new q.oldStop t.newStop (min q.oldLength t.newLength)

/-- How many equal entries behind repeat the start of an operation's new range. -/
def slackDown (old new : Array α) (t q : Op) : Nat :=
  agreeing old new q.oldStart t.newStart (min q.oldLength t.newLength)

theorem slackUp_le (old new : Array α) (q t : Op) : slackUp old new q t ≤ q.oldLength :=
  Nat.le_trans (agreeingBack_le ..) (Nat.min_le_left ..)

theorem slackDown_le (old new : Array α) (t q : Op) : slackDown old new t q ≤ q.oldLength :=
  Nat.le_trans (agreeing_le ..) (Nat.min_le_left ..)

/-- Slide an operation towards the start. -/
def slideUp (old new : Array α) (before : Script) (t : Op) (behind : Script) : Place :=
  match before with
  | [] => ⟨[], t, behind⟩
  | q :: rest =>
    if q.tag = .equal then
      let s := slackUp old new q t
      if 0 < s then
        let q' : Op := { q with oldLength := q.oldLength - s, newLength := q.newLength - s }
        let t' : Op := { t with oldStart := t.oldStart - s, newStart := t.newStart - s }
        let behind' := growBehind (q.oldStop - s) (t.newStop - s) s behind
        if q'.isEmpty then slideUp old new rest t' behind'
        else slideUp old new (q' :: rest) t' behind'
      else if q.isEmpty then slideUp old new rest t behind
      else ⟨before, t, behind⟩
    else if q.tag = t.tag then
      slideUp old new rest { q with oldLength := q.oldLength + t.oldLength,
                                    newLength := q.newLength + t.newLength } behind
    else slideUp old new rest t (q :: behind)
termination_by room before
decreasing_by
  · simp only [room_cons]; omega
  · have := slackUp_le old new q t
    simp only [room_cons]; omega
  all_goals simp only [room_cons]; omega

/-- Slide an operation towards the end. -/
def slideDown (old new : Array α) (before : Script) (t : Op) (behind : Script) : Place :=
  match behind with
  | [] => ⟨before, t, []⟩
  | q :: rest =>
    if q.tag = .equal then
      let s := slackDown old new t q
      if 0 < s then
        let q' : Op := { q with oldStart := q.oldStart + s, oldLength := q.oldLength - s,
                                newStart := q.newStart + s, newLength := q.newLength - s }
        let t' : Op := { t with oldStart := t.oldStart + s, newStart := t.newStart + s }
        let before' := growBefore q.oldStart t.newStart s before
        if q'.isEmpty then slideDown old new before' t' rest
        else slideDown old new before' t' (q' :: rest)
      else if q.isEmpty then slideDown old new before t rest
      else ⟨before, t, behind⟩
    else if q.tag = t.tag then
      slideDown old new before { t with oldLength := t.oldLength + q.oldLength,
                                        newLength := t.newLength + q.newLength } rest
    else slideDown old new (q :: before) t rest
termination_by room behind
decreasing_by
  · simp only [room_cons]; omega
  · have := slackDown_le old new t q
    simp only [room_cons]; omega
  all_goals simp only [room_cons]; omega

/-- Slide every operation of a kind, from the front of the script to its end, for at most so many
operations. -/
def sweepFrom (old new : Array α) (tag : Tag) (before : Script) : Script → Nat → Script
  | [], _ => before.reverse
  | behind, 0 => before.reverse ++ behind
  | t :: behind, steps + 1 =>
    if t.tag = tag then
      let up := slideUp old new before t behind
      let down := slideDown old new up.before up.current up.behind
      sweepFrom old new tag (down.current :: down.before) down.behind steps
    else sweepFrom old new tag (t :: before) behind steps

/-- Slide every operation of a kind. The number of steps leaves room for the operations that sliding
adds. -/
def sweep (old new : Array α) (tag : Tag) (script : Script) : Script :=
  sweepFrom old new tag [] script (4 * (script.length + old.size + new.size) + 4)

/-- Slide every deletion, then every insertion. -/
def compact (old new : Array α) (script : Script) : Script :=
  sweep old new .insert (sweep old new .delete script)

end HotReload.Script
