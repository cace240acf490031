import HotReload.Source.Builder
import HotReload.Text.Blank

/-!
Outlines of files in a small brace language, and the events that write them out. An outline names
the types of a file, their members and the statements of their bodies; everything is laid out one
item a line, four spaces deeper inside braces.

Trivia goes where front ends put it: indentation and comment lines lead the next item, the line
break behind an item belongs to it.
-/

namespace HotReload.Outline

/-- An attribute with its optional argument text. -/
structure AttributeItem where
  name : String
  arguments : Option String
  deriving DecidableEq, Repr

/-- What a method declares in front of its body. -/
structure MethodHead where
  name : String
  returns : String
  parameters : String
  attributes : List AttributeItem
  deriving DecidableEq, Repr

mutual

/-- One item of a block. -/
inductive BodyItem where
  | statement (text : String)
  | comment (text : String)
  /-- A method declared inside the block. -/
  | declaration (head : MethodHead) (body : MethodBody)

/-- The body of a method. -/
inductive MethodBody where
  | block (items : List BodyItem)
  /-- A body that is one expression. -/
  | arrow (expression : String)

end

/-- A property: one expression, or a getter and a setter that may be absent. -/
structure Property where
  name : String
  type : String
  getter : Option (List BodyItem)
  setter : Option (List BodyItem)
  arrow : Option String

/-- A member of a type. -/
inductive Member where
  | method (head : MethodHead) (body : MethodBody)
  | property (property : Property)
  /-- A field with its full line. -/
  | field (name text : String)
  | nestedType (name : String) (attributes : List AttributeItem) (members : List Member)
  | comment (text : String)

/-- A type at the top of a file or namespace. -/
structure TypeItem where
  name : String
  attributes : List AttributeItem
  members : List Member

/-- A file of the brace language. -/
structure File where
  path : String
  symbols : Symbols
  /-- A comment in front of everything. -/
  header : Option String
  scope : Option String
  types : List TypeItem

/-- A line of a body: a comment if it starts with two slashes, and a statement otherwise. -/
def BodyItem.ofLine (text : String) : BodyItem :=
  if ['/', '/'].isPrefixOf (Text.trimStart text.toList) then .comment text else .statement text

/-! ## Layout -/

/-- The blanks in front of an item. -/
def indent (depth : Nat) : String := String.ofList (List.replicate (4 * depth) ' ')

/-- A comment line as trivia. -/
def commentLine (depth : Nat) (text : String) : String := indent depth ++ text ++ "\n"

/-- A node around some events. -/
def within (kind : NodeKind) (name : Option String) (events : List Event) : List Event :=
  .start kind name :: events ++ [.finish]

/-- Significant text on a line of its own, indented. -/
def line (depth : Nat) (text : String) : List Event :=
  [.trivia (indent depth), .token text, .trivia "\n"]

/-- Attributes, one a line. -/
def attributeEvents (depth : Nat) (attributes : List AttributeItem) : List Event :=
  attributes.flatMap fun a =>
    within .attributeList none <|
      [.trivia (indent depth), .token "["] ++
      within .attributeUse (some a.name) (.token a.name ::
        match a.arguments with
        | none => []
        | some arguments => within .attributeArguments none [.token ("(" ++ arguments ++ ")")]) ++
      [.token "]", .trivia "\n"]

/-- A body that is one expression, on the line of its owner. -/
def arrowEvents (expression : String) : List Event :=
  .trivia " " ::
  within .arrowClause none (.token "=> " :: within .expression none [.token expression]) ++
  [.token ";", .trivia "\n"]

/-- A method, from its attributes to the end of its body. -/
def methodEvents (depth : Nat) (leading : String) (head : MethodHead) (body : List Event) :
    List Event :=
  within .method (some head.name) <|
    .trivia leading :: attributeEvents depth head.attributes ++
    [.trivia (indent depth), .token (head.returns ++ " " ++ head.name)] ++
    within .parameterList none [.token ("(" ++ head.parameters ++ ")")] ++ body

/-- A block in braces around laid-out items. -/
def blockEvents (depth : Nat) (items : List Event) : List Event :=
  within .block none (line depth "\x7b" ++ items ++ line depth "\x7d")

mutual

/-- The items of a block; comment lines wait for the next item. -/
def itemEvents (depth : Nat) (pending : String) : List BodyItem → List Event
  | [] => [.trivia pending]
  | .comment text :: rest => itemEvents depth (pending ++ commentLine depth text) rest
  | .statement text :: rest =>
    within .statement none (.trivia pending :: line depth text) ++ itemEvents depth "" rest
  | .declaration head body :: rest =>
    methodEvents depth pending head (bodyEvents depth body) ++ itemEvents depth "" rest

/-- The body of a method that stands at a depth. -/
def bodyEvents (depth : Nat) : MethodBody → List Event
  | .block items => .trivia "\n" :: blockEvents depth (itemEvents (depth + 1) "" items)
  | .arrow expression => arrowEvents expression

end

/-- An accessor with its block. -/
def accessorEvents (depth : Nat) (which : Accessor) (keyword : String) :
    Option (List BodyItem) → List Event
  | none => []
  | some items =>
    within (.accessor which) none
      (line depth keyword ++ blockEvents depth (itemEvents (depth + 1) "" items))

/-- A property, its getter in front of its setter. -/
def propertyEvents (depth : Nat) (leading : String) (p : Property) : List Event :=
  within .property (some p.name) <|
    [.trivia leading, .trivia (indent depth), .token (p.type ++ " " ++ p.name)] ++
    match p.arrow with
    | some expression => arrowEvents expression
    | none =>
      .trivia "\n" :: line depth "\x7b" ++ accessorEvents (depth + 1) .get "get" p.getter ++
      accessorEvents (depth + 1) .set "set" p.setter ++ line depth "\x7d"

/-- A type around its laid-out members. -/
def typeEvents (depth : Nat) (leading name : String) (attributes : List AttributeItem)
    (members : List Event) : List Event :=
  within .typeDecl (some name) <|
    .trivia leading :: attributeEvents depth attributes ++ line depth ("class " ++ name) ++
    line depth "\x7b" ++ members ++ line depth "\x7d"

/-- The comment lines that wait behind a member: a comment adds its own, and every other member
takes all of them. -/
def Member.pending (depth : Nat) (pending : String) : Member → String
  | .comment text => pending ++ commentLine depth text
  | _ => ""

mutual

/-- One member, led by the comment lines that wait for it. -/
def Member.events (depth : Nat) (leading : String) : Member → List Event
  | .method head body => methodEvents depth leading head (bodyEvents depth body)
  | .property p => propertyEvents depth leading p
  | .field name text => within .field (some name) (.trivia leading :: line depth text)
  | .nestedType name attributes members =>
    typeEvents depth leading name attributes (memberEvents (depth + 1) "" members)
  | .comment _ => []

/-- The members of a type; comment lines wait for the next member. -/
def memberEvents (depth : Nat) (pending : String) : List Member → List Event
  | [] => [.trivia pending]
  | m :: rest => m.events depth pending ++ memberEvents depth (m.pending depth pending) rest

end

/-- A type at the top of a file or namespace. -/
def TypeItem.events (depth : Nat) (leading : String) (t : TypeItem) : List Event :=
  typeEvents depth leading t.name t.attributes (memberEvents (depth + 1) "" t.members)

/-- The events of a file. The header leads whatever comes first. -/
def File.events (f : File) : List Event :=
  let leading := match f.header with
    | none => ""
    | some comment => comment ++ "\n"
  within .compilationUnit none <|
    match f.scope with
    | some name =>
      within .namespaceBlock (some name) <|
        [.trivia leading, .token ("namespace " ++ name), .trivia "\n", .token "\x7b",
          .trivia "\n"] ++
        f.types.flatMap (TypeItem.events 1 "") ++ [.token "\x7d", .trivia "\n"]
    | none =>
      match f.types with
      | [] => [.trivia leading]
      | first :: rest => first.events 0 leading ++ rest.flatMap (TypeItem.events 0 "")

/-- The tree of a file. -/
def File.tree (f : File) : Except BuildError Tree :=
  Tree.ofEvents f.path f.symbols f.events

end HotReload.Outline
