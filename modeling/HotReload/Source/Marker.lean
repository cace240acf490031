import HotReload.Source.Kind
import HotReload.Text.Quoted

/-!
Markers tell the backend what a build may patch. A marker is stored on its node and written into the
text as an attribute in brackets, so that readers of the tree and of the text see the same.
-/

namespace HotReload

/-- A note for the backend. -/
inductive Marker where
  /-- Only the statements of this method changed. -/
  | methodBody
  /-- Only the statements of this accessor of the property changed. -/
  | accessorBody (which : Accessor)
  /-- The build patches the running version. -/
  | patches (version : String)
  deriving DecidableEq, Repr

namespace Marker

/-- The attribute of a method whose body changed. -/
def methodBodyName : String := "MethodBodyChange"

/-- The attribute of a property with a changed accessor body. -/
def accessorBodyName : String := "PropertyAccessorBodyChange"

/-- The attribute that asks for a patch of the running version. -/
def patchesName : String := "SupportsHotload"

/-- The text of the marker. -/
def render : Marker → String
  | methodBody => "[" ++ methodBodyName ++ "]"
  | accessorBody a => "[" ++ accessorBodyName ++ "(" ++ a.name ++ ")]"
  | patches version => "[assembly: " ++ patchesName ++ "(" ++ Text.quoted version ++ ")]"

/-- The marker speaks about the whole program and stands at the end of a file. -/
def isAssemblyLevel : Marker → Bool
  | patches _ => true
  | _ => false

/-- Methods come first, then accessors in their order, then versions in the order of their text. -/
instance : Ord Marker where
  compare
    | methodBody, methodBody => .eq
    | methodBody, _ => .lt
    | accessorBody _, methodBody => .gt
    | accessorBody a, accessorBody b => compare a b
    | accessorBody _, patches _ => .lt
    | patches v, patches w => compare v w
    | patches _, _ => .gt

end Marker

end HotReload
