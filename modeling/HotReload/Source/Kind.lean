/-!
What a node of a source tree can be. Only the distinctions that deciding about an edit needs are
made; everything else in a body is a statement, an expression or `other`.
-/

namespace HotReload

/-- The accessors of a property or an event. -/
inductive Accessor where
  | get
  | set
  | init
  | add
  | remove
  deriving DecidableEq, Repr

namespace Accessor

/-- All accessors, in order. -/
def all : List Accessor := [get, set, init, add, remove]

/-- The accessor's name in paths and markers. -/
def name : Accessor → String
  | get => "Get"
  | set => "Set"
  | init => "Init"
  | add => "Add"
  | remove => "Remove"

/-- Accessors whose body can be patched alone. -/
def isGetOrSet : Accessor → Bool
  | get | set => true
  | _ => false

/-- The position of an accessor in the order of accessors. -/
def rank : Accessor → Nat
  | get => 0
  | set => 1
  | init => 2
  | add => 3
  | remove => 4

theorem rank_injective {a b : Accessor} (h : a.rank = b.rank) : a = b := by
  cases a <;> cases b <;> simp_all [rank]

instance : Ord Accessor := ⟨compareOn rank⟩

end Accessor

/-- The structural kind of a node. -/
inductive NodeKind where
  | compilationUnit
  | namespaceBlock
  | typeDecl
  | method
  | constructorDecl
  | operator
  | property
  | accessor (which : Accessor)
  | field
  | event
  | attributeList
  | attributeUse
  | attributeArguments
  | parameterList
  /-- Statements in braces. -/
  | block
  /-- A body that is one expression. -/
  | arrowClause
  | statement
  | expression
  | other
  deriving DecidableEq, Repr

namespace NodeKind

/-- Types and their members. Adding or removing one is never a change of statements. -/
def isDeclaration : NodeKind → Bool
  | typeDecl | method | constructorDecl | operator | property | accessor _ | field | event => true
  | _ => false

/-- Kinds that hold the executable code of a member. -/
def isBody : NodeKind → Bool
  | block | arrowClause => true
  | _ => false

/-- Kinds whose name is a segment of a declaration path. -/
def isPathSegment : NodeKind → Bool
  | namespaceBlock => true
  | k => k.isDeclaration

end NodeKind

end HotReload
