import HotReload.Text.Span

/-!
Splicing several edits into one text. All edits of a batch speak about the same text. They are put in
order of position, edits of one span in the order given, and the text is copied once from front to
back. Two edits that remove the same bytes are a conflict.
-/

namespace HotReload

/-- Replace the bytes of `span` with `newText`. -/
structure Edit where
  span : Span
  newText : String
  deriving DecidableEq, Repr

/-- Why a batch of edits has no result. -/
inductive EditError where
  /-- Two edits, neighbours in order of position, that overlap. -/
  | conflict (first second : Span)
  /-- A splice position inside a character. -/
  | splitCharacter
  deriving DecidableEq, Repr

namespace EditError

/-- The text of a failed batch. -/
def message : EditError → String
  | conflict first second => s!"edits overlap: {first.render} and {second.render}"
  | splitCharacter => "edit inside a character"

end EditError

namespace Edit

/-- Insert text at an offset. -/
def insertion (at_ : Nat) (text : String) : Edit := ⟨.point at_, text⟩

/-- The edits by position; edits of one span keep their order. -/
def ordered (edits : List Edit) : List Edit :=
  edits.mergeSort fun a b => a.span.le b.span

/-- The first two neighbours of which the left one ends behind the start of the right one. -/
def firstConflict? : List Edit → Option (Span × Span)
  | a :: b :: rest =>
    if b.span.start < a.span.stop then some (a.span, b.span) else firstConflict? (b :: rest)
  | _ => none

/-- Copy `rest`, the text from byte `copied` on, with the edits put in. Positions before `copied`
count as `copied` and positions behind the end as the end. -/
def splice (copied : Nat) (rest : List Char) : List Edit → Except EditError (List Char)
  | [] => .ok rest
  | e :: edits =>
    let length := copied + Text.byteLength rest
    let start := max copied (min e.span.start length)
    let stop := max start (min e.span.stop length)
    match Text.splitAt? (start - copied) rest with
    | none => .error .splitCharacter
    | some (before, behind) =>
      match Text.drop? (stop - start) behind with
      | none => .error .splitCharacter
      | some remaining =>
        match splice stop remaining edits with
        | .error e => .error e
        | .ok tail => .ok (before ++ e.newText.toList ++ tail)

/-- The text with every edit of the batch put in. -/
def applyAll (source : String) (edits : List Edit) : Except EditError String :=
  let edits := ordered edits
  match firstConflict? edits with
  | some (first, second) => .error (.conflict first second)
  | none => (splice 0 source.toList edits).map String.ofList

end Edit

end HotReload
