import HotReload.Text.Bytes

/-!
Values of the cache format: null, truth values, decimal numbers, texts, lists and objects. An
alternative of a type is written as its name, or as an object with the name as its one field and the
content of the alternative in it.
-/

namespace HotReload.Cache

/-- A value of the cache format. -/
inductive Value where
  | null
  | bool (b : Bool)
  /-- The mantissa divided by so many tens; a number written without a fraction has none. -/
  | number (mantissa : Int) (places : Nat)
  | text (s : String)
  | list (items : List Value)
  | object (fields : List (String × Value))
  deriving Inhabited

/-- One alternative of a type, with its content. -/
structure Variant where
  name : String
  content : Option Value

namespace Value

/-- A natural number. -/
def natural (n : Nat) : Value := number n 0

/-- The text of a text. -/
def text? : Value → Option String
  | text s => some s
  | _ => none

/-- A number that an offset can be. -/
def offset? : Value → Option Nat
  | number m 0 => if 0 ≤ m ∧ m ≤ Text.maxOffset then some m.toNat else none
  | _ => none

theorem offset?_natural {n : Nat} (h : n ≤ Text.maxOffset) : (natural n).offset? = some n := by
  simp only [offset?, natural]
  rw [if_pos (by omega)]
  rfl

/-- The value as an alternative of a type. -/
def variant? : Value → Option Variant
  | text name => some ⟨name, none⟩
  | object [(name, content)] => some ⟨name, some content⟩
  | _ => none

/-- The contents of an object's fields by name; other fields are ignored. -/
def fields? (names : List String) : Value → Option (List Value)
  | object fields => names.mapM fun name => fields.lookup name
  | _ => none

/-- The contents of a record: its fields by name, or a list in the order of the fields. -/
def record? (names : List String) : Value → Option (List Value)
  | list items => if items.length = names.length then some items else none
  | v => v.fields? names

end Value

/-- The alternative has no content. -/
def Variant.isPlain (v : Variant) : Bool :=
  match v.content with
  | none => true
  | some .null => true
  | some _ => false

end HotReload.Cache
