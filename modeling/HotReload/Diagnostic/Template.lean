/-!
Message templates. A placeholder is a number in braces and stands for the argument at that position.
A brace that opens no placeholder, or one without an argument, stays as it is, and the text behind it
is read on. The text of an argument is never read for placeholders.
-/

namespace HotReload.Template

/-- Numbers of placeholders fit into 64 bits. -/
def maxIndex : Nat := 18446744073709551615

/-- The value of decimal digits. -/
def digitsValue (digits : List Char) : Nat :=
  digits.foldl (fun n c => 10 * n + (c.toNat - '0'.toNat)) 0

/-- The number that a placeholder's text spells: decimal digits, perhaps with a plus in front. -/
def index? (cs : List Char) : Option Nat :=
  let digits := match cs with
    | '+' :: rest => rest
    | _ => cs
  if !digits.isEmpty && digits.all Char.isDigit && digitsValue digits ≤ maxIndex then
    some (digitsValue digits)
  else none

/-- The argument of a placeholder whose opening brace stands right before the text, and the text
behind its closing brace. -/
def placeholder? (args : List String) (cs : List Char) : Option (String × List Char) :=
  match cs.dropWhile (· ≠ '\x7d') with
  | [] => none
  | _ :: rest => do
    let i ← index? (cs.takeWhile (· ≠ '\x7d'))
    let value ← args[i]?
    return (value, rest)

theorem length_of_placeholder? {args : List String} {cs rest : List Char} {value : String}
    (h : placeholder? args cs = some (value, rest)) : rest.length < cs.length := by
  simp only [placeholder?] at h
  split at h
  · simp at h
  · next hd =>
    have hs := (List.dropWhile_suffix (l := cs) (· ≠ '\x7d')).length_le
    rw [hd] at hs
    simp only [Option.pure_def, Option.bind_eq_bind, Option.bind_eq_some_iff, Option.some.injEq,
      Prod.mk.injEq] at h
    obtain ⟨_, _, _, _, _, rfl⟩ := h
    simp only [List.length_cons] at hs
    omega

/-- The template with its arguments put in. -/
def substitute (args : List String) : List Char → List Char
  | [] => []
  | c :: cs =>
    if c = '\x7b' then
      match _ : placeholder? args cs with
      | some (value, rest) => value.toList ++ substitute args rest
      | none => c :: substitute args cs
    else c :: substitute args cs
termination_by cs => cs.length
decreasing_by
  · have := length_of_placeholder? ‹_›
    simp only [List.length_cons]
    omega
  all_goals simp

/-- The text of a template with its arguments put in. -/
def format (template : String) (args : List String) : String :=
  String.ofList (substitute args template.toList)

end HotReload.Template
