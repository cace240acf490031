import HotReload.Cache.Value
import HotReload.Source.Kind
import HotReload.Source.Marker
import HotReload.Text.Span

/-!
The cache format of spans, accessors, node kinds and markers. Names are read exactly as they are
written; what does not fit has no reading. A span may be a list of its two offsets, but the content
of an alternative with named fields has to be an object. What is written reads back
(`ofValue?_toValue`), spans as far as their offsets can be stored.
-/

namespace HotReload

open Cache

namespace Span

/-- The span as a record. -/
def toValue (s : Span) : Value :=
  .object [("start", .natural s.start), ("end", .natural s.stop)]

/-- The span that a value stands for. -/
def ofValue? (v : Value) : Option Span := do
  match ← v.record? ["start", "end"] with
  | [start, stop] => return ⟨← start.offset?, ← stop.offset?⟩
  | _ => none

theorem ofValue?_toValue {s : Span} (h₁ : s.start ≤ Text.maxOffset) (h₂ : s.stop ≤ Text.maxOffset) :
    ofValue? s.toValue = some s := by
  have fields : s.toValue.record? ["start", "end"] =
      some [Value.natural s.start, Value.natural s.stop] := rfl
  simp [ofValue?, fields, Value.offset?_natural, h₁, h₂]

end Span

namespace Accessor

/-- The accessor by name. -/
def toValue (a : Accessor) : Value := .text a.name

/-- The accessor that a value stands for. -/
def ofValue? (v : Value) : Option Accessor := do
  let alternative ← v.variant?
  if alternative.isPlain then all.find? fun a => a.name = alternative.name else none

theorem ofValue?_toValue (a : Accessor) : ofValue? a.toValue = some a := by
  cases a <;> rfl

end Accessor

namespace NodeKind

/-- The kinds without content. -/
def plain : List NodeKind :=
  [compilationUnit, namespaceBlock, typeDecl, method, constructorDecl, operator, property, field,
    event, attributeList, attributeUse, attributeArguments, parameterList, block, arrowClause,
    statement, expression, other]

/-- The name of a kind. -/
def name : NodeKind → String
  | compilationUnit => "CompilationUnit"
  | namespaceBlock => "Namespace"
  | typeDecl => "TypeDecl"
  | method => "Method"
  | constructorDecl => "Constructor"
  | operator => "Operator"
  | property => "Property"
  | accessor _ => "Accessor"
  | field => "Field"
  | event => "Event"
  | attributeList => "AttributeList"
  | attributeUse => "Attribute"
  | attributeArguments => "AttributeArguments"
  | parameterList => "ParameterList"
  | block => "Block"
  | arrowClause => "ArrowClause"
  | statement => "Statement"
  | expression => "Expression"
  | other => "Other"

/-- The kind by name, an accessor with its own. -/
def toValue : NodeKind → Value
  | accessor a => .object [("Accessor", a.toValue)]
  | k => .text k.name

/-- The kind that a value stands for. -/
def ofValue? (v : Value) : Option NodeKind := do
  match ← v.variant? with
  | ⟨"Accessor", some content⟩ => return accessor (← Accessor.ofValue? content)
  | alternative =>
    if alternative.isPlain then plain.find? fun k => k.name = alternative.name else none

theorem ofValue?_toValue (k : NodeKind) : ofValue? k.toValue = some k := by
  cases k with
  | accessor a => cases a <;> rfl
  | _ => rfl

end NodeKind

namespace Marker

/-- The marker by name, with its accessor or version. -/
def toValue : Marker → Value
  | methodBody => .text "MethodBodyChanged"
  | accessorBody a => .object [("AccessorBodyChanged", a.toValue)]
  | patches version =>
    .object [("SupportsHotload", .object [("previous_version", .text version)])]

/-- The marker that a value stands for. -/
def ofValue? (v : Value) : Option Marker := do
  match ← v.variant? with
  | ⟨"AccessorBodyChanged", some content⟩ => return accessorBody (← Accessor.ofValue? content)
  | ⟨"SupportsHotload", some content⟩ =>
    match ← content.fields? ["previous_version"] with
    | [version] => return patches (← version.text?)
    | _ => none
  | alternative =>
    if alternative.isPlain && alternative.name = "MethodBodyChanged" then some methodBody else none

theorem ofValue?_toValue (m : Marker) : ofValue? m.toValue = some m := by
  cases m with
  | accessorBody a => cases a <;> rfl
  | _ => rfl

end Marker

end HotReload
