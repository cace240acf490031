import HotReload.Proofs.Text.Quoted
import HotReload.Source.Marker
import Mathlib.Data.List.Basic

/-
  Reading markers. `Marker.read?` takes the marker off the front of a text: its brackets and its name
  tell the kind, a name or quoted text its content. It takes the text of every marker for this marker,
  whatever stands behind it (`Marker.read?_render`), and no text of a marker has a line end in it
  (`Marker.unbroken_render`).
-/

namespace HotReload

/-- The accessor with a name. -/
def Accessor.ofName? (name : List Char) : Option Accessor :=
  Accessor.all.find? fun a => a.name.toList = name

namespace Marker

/-- What stands in front of an accessor. -/
def accessorOpening : List Char := ("[" ++ accessorBodyName ++ "(").toList

/-- What stands in front of the content of a version. -/
def patchesOpening : List Char := ("[assembly: " ++ patchesName ++ "(").toList ++ ['"']

/-- What stands behind either. -/
def closing : List Char := ")]".toList

/-- The marker of a method in front of a text. -/
def readMethodBody? (cs : List Char) : Option (Marker × List Char) :=
  (cs.dropPrefix? methodBody.render.toList).map fun rest => (methodBody, rest)

/-- The marker of an accessor in front of a text. -/
def readAccessorBody? (cs : List Char) : Option (Marker × List Char) := do
  let inside ← cs.dropPrefix? accessorOpening
  let a ← Accessor.ofName? (inside.takeWhile (· ≠ ')'))
  let rest ← (inside.dropWhile (· ≠ ')')).dropPrefix? closing
  return (accessorBody a, rest)

/-- The marker of a version in front of a text. -/
def readPatches? (cs : List Char) : Option (Marker × List Char) := do
  let inside ← cs.dropPrefix? patchesOpening
  let (version, behind) ← Text.decode .character inside
  let rest ← behind.dropPrefix? closing
  return (patches (String.ofList version), rest)

/-- The marker that a text starts with, and the text behind it. -/
def read? (cs : List Char) : Option (Marker × List Char) :=
  (readMethodBody? cs).or ((readAccessorBody? cs).or (readPatches? cs))

/-! ## The parts of the text -/

theorem toList_render_accessorBody (a : Accessor) :
    (accessorBody a).render.toList = accessorOpening ++ a.name.toList ++ closing := by
  unfold render accessorOpening closing
  rw [String.toList_append, String.toList_append]

theorem toList_render_patches (version : String) :
    (patches version).render.toList =
      patchesOpening ++ Text.encode version.toList ++ '"' :: closing := by
  unfold render patchesOpening closing Text.quoted
  rw [String.toList_append, String.toList_append, String.toList_ofList]
  simp only [List.append_assoc, List.cons_append, List.nil_append]

theorem ofName?_name (a : Accessor) : Accessor.ofName? a.name.toList = some a := by
  cases a <;> rfl

/-- A name ends where its marker is closed. -/
theorem name_ne_parenthesis (a : Accessor) : ∀ c ∈ a.name.toList, decide (c ≠ ')') = true := by
  have hall : a.name.toList.all (· ≠ ')') = true := by cases a <;> rfl
  exact List.all_eq_true.1 hall

theorem dropPrefix?_append (cs rest : List Char) : (cs ++ rest).dropPrefix? cs = some rest :=
  List.dropPrefix?_append_of_beq rest (beq_self_eq_true cs)

/-! ## Reading -/

theorem readMethodBody?_render (rest : List Char) :
    readMethodBody? (methodBody.render.toList ++ rest) = some (methodBody, rest) := by
  rw [readMethodBody?, dropPrefix?_append, Option.map_some]

theorem readAccessorBody?_render (a : Accessor) (rest : List Char) :
    readAccessorBody? ((accessorBody a).render.toList ++ rest) = some (accessorBody a, rest) := by
  have htake : (a.name.toList ++ (closing ++ rest)).takeWhile (· ≠ ')') = a.name.toList := by
    rw [List.takeWhile_append_of_pos (name_ne_parenthesis a)]
    exact List.append_nil _
  have hdrop : (a.name.toList ++ (closing ++ rest)).dropWhile (· ≠ ')') = closing ++ rest := by
    rw [List.dropWhile_append_of_pos (name_ne_parenthesis a)]
    rfl
  rw [toList_render_accessorBody, List.append_assoc, List.append_assoc, readAccessorBody?]
  simp only [dropPrefix?_append, Option.bind_eq_bind, Option.bind_some, htake, hdrop, ofName?_name]
  rfl

theorem readPatches?_render (version : String) (rest : List Char) :
    readPatches? ((patches version).render.toList ++ rest) = some (patches version, rest) := by
  rw [toList_render_patches, List.append_assoc, List.append_assoc, List.cons_append, readPatches?]
  simp only [dropPrefix?_append, Option.bind_eq_bind, Option.bind_some, Text.decode_encode,
    String.ofList_toList]
  rfl

/-- The text of a marker is read as the marker, whatever stands behind it. -/
theorem read?_render (m : Marker) (rest : List Char) :
    read? (m.render.toList ++ rest) = some (m, rest) := by
  unfold read?
  cases m with
  | methodBody => rw [readMethodBody?_render, Option.some_or]
  | accessorBody a =>
    have hfirst : readMethodBody? ((accessorBody a).render.toList ++ rest) = none := by
      rw [toList_render_accessorBody, List.append_assoc]
      rfl
    rw [hfirst, readAccessorBody?_render, Option.none_or, Option.some_or]
  | patches version =>
    have hfirst : readMethodBody? ((patches version).render.toList ++ rest) = none := by
      rw [toList_render_patches, List.append_assoc]
      rfl
    have hsecond : readAccessorBody? ((patches version).render.toList ++ rest) = none := by
      rw [toList_render_patches, List.append_assoc]
      rfl
    rw [hfirst, hsecond, readPatches?_render, Option.none_or, Option.none_or]

/-- The text of a marker is on one line, that of any version too. -/
theorem unbroken_render (m : Marker) : Text.Unbroken m.render.toList := by
  cases m with
  | methodBody => decide
  | accessorBody a => cases a <;> decide
  | patches version =>
    have hopening : Text.Unbroken patchesOpening := by decide
    have hclosing : Text.Unbroken ('"' :: closing) := by decide
    rw [toList_render_patches]
    exact List.forall_mem_append.2
      ⟨List.forall_mem_append.2 ⟨hopening, Text.unbroken_encode _⟩, hclosing⟩

end Marker

end HotReload
