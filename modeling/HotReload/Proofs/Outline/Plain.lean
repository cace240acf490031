import HotReload.Source.Outline

/-
  Plain files: types, methods with a block or one digit, properties, local methods, assignments of a
  digit to a name, and comment lines. Names are words, so a line of such a file tells what it is.
  Attributes, fields and namespaces are left out.
-/

namespace HotReload.Outline

/-! ## Words -/

/-- A character inside of a name. -/
def isNameChar (c : Char) : Bool := c.isAlphanum || c = '_' || 128 ≤ c.toNat

/-- A character at the start of a name. -/
def isNameStart (c : Char) : Bool := isNameChar c && !c.isDigit

/-- A name. The word that starts a type is none. -/
def isName (text : String) : Bool :=
  match text.toList with
  | [] => false
  | c :: rest => isNameStart c && rest.all isNameChar && text ≠ "class"

/-- One digit. -/
def isDigit (text : String) : Bool :=
  match text.toList with
  | [c] => c.isDigit
  | _ => false

/-- The assignment of a digit to a name. -/
def isAssignment (text : String) : Bool :=
  match text.toList.reverse with
  | ';' :: digit :: ' ' :: '=' :: ' ' :: name => digit.isDigit && isName (String.ofList name.reverse)
  | _ => false

/-- A single line that starts with two slashes. -/
def isCommentLine (text : String) : Bool :=
  ['/', '/'].isPrefixOf text.toList && !text.toList.contains '\n'

theorem exists_of_isDigit {text : String} (h : isDigit text = true) :
    ∃ c, text.toList = [c] ∧ c.isDigit = true := by
  unfold isDigit at h
  split at h
  next c htext => exact ⟨c, htext, h⟩
  · simp at h

theorem exists_of_isAssignment {text : String} (h : isAssignment text = true) :
    ∃ name digit, text.toList = name ++ [' ', '=', ' ', digit, ';'] ∧ digit.isDigit = true ∧
      isName (String.ofList name) = true := by
  unfold isAssignment at h
  split at h
  next digit name hreverse =>
    rw [Bool.and_eq_true] at h
    refine ⟨name.reverse, digit, ?_, h⟩
    have := congrArg List.reverse hreverse
    simpa using this
  · simp at h

/-! ## Files -/

/-- No attributes, and names where names belong; the parameters may be missing. -/
def MethodHead.isPlain (h : MethodHead) : Bool :=
  h.attributes.isEmpty && isName h.name && isName h.returns &&
    (h.parameters = "" || isName h.parameters)

mutual

/-- All items of a block are plain. -/
def itemsArePlain : List BodyItem → Bool
  | [] => true
  | .comment text :: rest => isCommentLine text && itemsArePlain rest
  | .statement text :: rest => isAssignment text && itemsArePlain rest
  | .declaration head body :: rest => head.isPlain && body.isPlain && itemsArePlain rest

/-- The body of a plain method. -/
def MethodBody.isPlain : MethodBody → Bool
  | .block items => itemsArePlain items
  | .arrow expression => isDigit expression

end

/-- A plain property. -/
def Property.isPlain (p : Property) : Bool :=
  isName p.name && isName p.type && p.getter.all itemsArePlain && p.setter.all itemsArePlain &&
    p.arrow.all isDigit

mutual

/-- A plain member of a type. -/
def Member.isPlain : Member → Bool
  | .method head body => head.isPlain && body.isPlain
  | .property p => p.isPlain
  | .field _ _ => false
  | .nestedType name attributes members =>
    isName name && attributes.isEmpty && membersArePlain members
  | .comment text => isCommentLine text

/-- All members are plain. -/
def membersArePlain : List Member → Bool
  | [] => true
  | m :: rest => m.isPlain && membersArePlain rest

end

/-- A plain type. -/
def TypeItem.isPlain (t : TypeItem) : Bool :=
  isName t.name && t.attributes.isEmpty && membersArePlain t.members

/-- A plain file. -/
def File.isPlain (f : File) : Bool :=
  f.scope.isNone && f.header.all isCommentLine && f.types.all TypeItem.isPlain

end HotReload.Outline
