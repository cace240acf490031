import HotReload.Change.Diff
import HotReload.Verdict.Basic

/-!
Deciding about a pair of file versions. Every change region is located in both trees and is trivia,
an edit of a body, or a reason for a full reload. Whatever is in doubt is a reason for a full reload,
and the first reason is the verdict.
-/

namespace HotReload

namespace Tree

variable (t : Tree)

/-- Declared directly in a type, and not inside a body. -/
def isMember (id : t.Id) : Bool := (t.parent? id).any fun p => t.kind p = .typeDecl

/-- The declaration and the part of it that the body at a node belongs to, if it is a member that can
be patched. -/
def ownerOfBody? (body : t.Id) : Option (t.Id × Target) := do
  let owner ← t.parent? body
  match t.kind owner with
  | .method => if t.isMember owner then some (owner, .method) else none
  | .accessor a =>
    if a.isGetOrSet then
      let property ← t.parent? owner
      if t.kind property = .property && t.isMember property then some (property, .accessor a)
      else none
    else none
  | _ => none

/-- The nearest body around a node that can be patched. -/
def bodyTarget? (id : t.Id) : Option (t.Id × Target) :=
  ((t.ancestors id).filter fun n => (t.kind n).isBody).findSome? t.ownerOfBody?

/-- There is a declaration at or below a node. -/
def containsDeclaration (id : t.Id) : Bool :=
  (t.descendants id).any fun n => (t.kind n).isDeclaration

/-- The name of the listed attribute whose arguments a node stands in. -/
def sourceLocation? (config : ReloadConfig) (id : t.Id) : Option String := do
  let arguments ← (t.ancestors id).find? fun n => t.kind n = .attributeArguments
  let owner ← t.parent? arguments
  let name ← (t.node owner).name
  if t.kind owner = .attributeUse && config.isSourceLocationAttribute name then some name else none

end Tree

namespace Verdict

/-- What one region comes to, if it does not decline the file. -/
inductive RegionClass where
  /-- Trivia, or arguments that only say where something stands. -/
  | ignorable
  | body (intent : Intent)
  deriving DecidableEq, Repr

/-- The intent of a region. -/
def RegionClass.intent? : RegionClass → Option Intent
  | ignorable => none
  | body intent => some intent

/-- The region touches no significant text of the nodes around it, and these are of one kind and in
one declaration. -/
def isTrivia (old new : Tree) (r : Region) (oldId : old.Id) (newId : new.Id) : Bool :=
  !(old.node oldId).span.overlaps r.span && !(new.node newId).span.overlaps r.newSpan &&
  old.kind oldId = new.kind newId && old.declarationPath oldId = new.declarationPath newId

/-- Both nodes stand in the arguments of a listed attribute of one name. -/
def inSourceLocation (config : ReloadConfig) (old new : Tree) (oldId : old.Id) (newId : new.Id) :
    Bool :=
  match old.sourceLocation? config oldId, new.sourceLocation? config newId with
  | some o, some n => o = n
  | _, _ => false

/-- What a region between two nodes comes to. -/
def classifyAt (config : ReloadConfig) (old new : Tree) (r : Region) (oldId : old.Id)
    (newId : new.Id) : Except DeclineReason RegionClass :=
  if isTrivia old new r oldId newId then .ok .ignorable
  else
    match old.bodyTarget? oldId, new.bodyTarget? newId with
    | some (oldOwner, oldTarget), some (newOwner, newTarget) =>
      if old.containsDeclaration oldId || new.containsDeclaration newId then
        .error (.nestedDeclaration (new.declarationPath newId) r.newSpan)
      else if oldTarget ≠ newTarget ∨
          old.declarationPath oldOwner ≠ new.declarationPath newOwner then
        .error (.targetMismatch (old.declarationPath oldId) (new.declarationPath newId) r.newSpan)
      else .ok (.body ⟨newOwner, newTarget⟩)
    | _, _ =>
      if inSourceLocation config old new oldId newId then .ok .ignorable
      else .error (.outsideBody (new.declarationPath newId) r.newSpan)

/-- What a region comes to. -/
def classifyRegion (config : ReloadConfig) (old new : Tree) (r : Region) :
    Except DeclineReason RegionClass :=
  match old.enclosing r.span, new.enclosing r.newSpan with
  | .ok oldId, .ok newId => classifyAt config old new r oldId newId
  | _, _ => .error .unresolvedRoot

/-- What several regions come to, unless one of them declines the file. -/
def ofClasses (classes : List RegionClass) : Verdict :=
  if classes.all (· = .ignorable) then .triviaOnly
  else .bodyEdits (.ofList (classes.filterMap RegionClass.intent?))

/-- The verdict about given regions. -/
def ofRegions (config : ReloadConfig) (old new : Tree) (regions : List Region) : Verdict :=
  if old.symbols ≠ new.symbols then .declined .symbolsChanged
  else if old.nodes.isEmpty || new.nodes.isEmpty then .declined .unresolvedRoot
  else if regions.isEmpty then .unchanged
  else
    match regions.mapM (classifyRegion config old new) with
    | .error reason => .declined reason
    | .ok classes => ofClasses classes

/-- The verdict about a pair of file versions, by any comparison of lines. -/
def classifyBy (differ : Differ) (config : ReloadConfig) (old new : Tree) : Verdict :=
  if old.symbols ≠ new.symbols then .declined .symbolsChanged
  else
    match old.diffBy differ new with
    | .error _ => .declined .unresolvedRoot
    | .ok regions => ofRegions config old new regions

/-- The verdict about a pair of file versions, by the comparison of the command. -/
def classify (config : ReloadConfig) (old new : Tree) : Verdict :=
  classifyBy .byLines config old new

end Verdict

end HotReload
