import HotReload.Proofs.Outline.Lines
import HotReload.Proofs.Source.Leading

/-
  Outlines with more comments: `File.noted` puts comment lines directly in front of members of types
  and items of blocks, at any depth. Notes are given by paths: the path of an item is its place among
  its siblings behind the path of what it stands in, and a property has its getter at 0 and its setter
  at 1.

  Comment lines are trivia at the start of the item they lead, and every such item goes on with blanks
  or with its attributes. So the events of the two outlines are `Event.Noted` (`File.noted_events`);
  the induction follows the recursion that writes an outline out, and its heart is the one fact about
  items with attributes and without (`noted_lead`).
-/

namespace HotReload.Outline

/-- The comment lines to put in front of the items at these paths. -/
abbrev Notes := List Nat → List String

/-- The notes inside of one item. -/
def Notes.inside (notes : Notes) (i : Nat) : Notes := fun path => notes (i :: path)

/-! ## Outlines with notes -/

mutual

/-- The items of a block with notes in front of statements and methods. -/
def notedItems (notes : Notes) (i : Nat) : List BodyItem → List BodyItem
  | [] => []
  | .comment text :: rest => .comment text :: notedItems notes (i + 1) rest
  | .statement text :: rest =>
    (notes [i]).map .comment ++ .statement text :: notedItems notes (i + 1) rest
  | .declaration head body :: rest =>
    (notes [i]).map .comment ++
      .declaration head (body.noted (notes.inside i)) :: notedItems notes (i + 1) rest

/-- The body of a method with notes. -/
def MethodBody.noted (notes : Notes) : MethodBody → MethodBody
  | .block items => .block (notedItems notes 0 items)
  | .arrow expression => .arrow expression

end

/-- A property with notes in its accessors. -/
def Property.noted (notes : Notes) (p : Property) : Property :=
  { p with
    getter := p.getter.map (notedItems (notes.inside 0) 0)
    setter := p.setter.map (notedItems (notes.inside 1) 0) }

/-- The notes in front of a member; comments have none. -/
def Member.notes (texts : List String) : Member → List String
  | .comment _ => []
  | _ => texts

mutual

/-- A member with notes inside of it. -/
def Member.noted (notes : Notes) : Member → Member
  | .method head body => .method head (body.noted notes)
  | .property p => .property (p.noted notes)
  | .nestedType name attributes members => .nestedType name attributes (notedMembers notes 0 members)
  | .field name text => .field name text
  | .comment text => .comment text

/-- The members of a type with notes. -/
def notedMembers (notes : Notes) (i : Nat) : List Member → List Member
  | [] => []
  | m :: rest =>
    (m.notes (notes [i])).map .comment ++
      m.noted (notes.inside i) :: notedMembers notes (i + 1) rest

end

/-- Types with notes in front of their members. -/
def notedTypes (notes : Notes) (i : Nat) : List TypeItem → List TypeItem
  | [] => []
  | t :: rest =>
    { t with members := notedMembers (notes.inside i) 0 t.members } :: notedTypes notes (i + 1) rest

/-- The file with notes in front of members and statements. -/
def File.noted (notes : Notes) (f : File) : File :=
  { f with types := notedTypes notes 0 f.types }

/-! ## Notes in front of attributes -/

mutual

/-- Some note in a block stands in front of attributes. -/
def itemsNoteAttributes (notes : Notes) (i : Nat) : List BodyItem → Bool
  | [] => false
  | .comment _ :: rest | .statement _ :: rest => itemsNoteAttributes notes (i + 1) rest
  | .declaration head body :: rest =>
    (!(notes [i]).isEmpty && !head.attributes.isEmpty) ||
      (body.noteAttributes (notes.inside i) || itemsNoteAttributes notes (i + 1) rest)

/-- Some note in the body of a method stands in front of attributes. -/
def MethodBody.noteAttributes (notes : Notes) : MethodBody → Bool
  | .block items => itemsNoteAttributes notes 0 items
  | .arrow _ => false

end

/-- Some note in an accessor stands in front of attributes; a property that is one expression has no
accessors. -/
def Property.noteAttributes (notes : Notes) (p : Property) : Bool :=
  p.arrow.isNone && (p.getter.any (itemsNoteAttributes (notes.inside 0) 0) ||
    p.setter.any (itemsNoteAttributes (notes.inside 1) 0))

/-- The attributes of a member. -/
def Member.attributes : Member → List AttributeItem
  | .method head _ => head.attributes
  | .nestedType _ attributes _ => attributes
  | _ => []

mutual

/-- Some note inside of a member stands in front of attributes. -/
def Member.noteAttributes (notes : Notes) : Member → Bool
  | .method _ body => body.noteAttributes notes
  | .property p => p.noteAttributes notes
  | .nestedType _ _ members => membersNoteAttributes notes 0 members
  | .field _ _ | .comment _ => false

/-- Some note in front of members or inside of them stands in front of attributes. -/
def membersNoteAttributes (notes : Notes) (i : Nat) : List Member → Bool
  | [] => false
  | m :: rest =>
    (!(notes [i]).isEmpty && !m.attributes.isEmpty) ||
      (m.noteAttributes (notes.inside i) || membersNoteAttributes notes (i + 1) rest)

end

/-- Some note in a row of types stands in front of attributes. -/
def typesNoteAttributes (notes : Notes) (i : Nat) : List TypeItem → Bool
  | [] => false
  | t :: rest =>
    membersNoteAttributes (notes.inside i) 0 t.members || typesNoteAttributes notes (i + 1) rest

/-- Some note in the file stands in front of attributes. -/
def File.noteAttributes (notes : Notes) (f : File) : Bool := typesNoteAttributes notes 0 f.types

/-! ## Events -/

open Event

variable {old new : List Event} {attributed : Bool} {kind : NodeKind} {name : Option String}

theorem isWriting_line (depth : Nat) (text : String) : ∀ e ∈ line depth text, e.isWriting := by
  simp [line, isWriting]

theorem noted_finish (h : Noted attributed old new) :
    Noted attributed (old ++ [.finish]) (new ++ [.finish]) := by
  have hclosed := h.append (.same .finish nofun .nil)
  rwa [Bool.or_false] at hclosed

theorem noted_within (kind : NodeKind) (name : Option String) (hkind : kind ≠ .attributeArguments)
    (h : Noted attributed old new) :
    Noted attributed (within kind name old) (within kind name new) :=
  .same _ (fun _ heq => hkind (Event.start.inj heq).1) (noted_finish h)

theorem noted_attributes (depth : Nat) (attributes : List AttributeItem) :
    Noted false (attributeEvents depth attributes) (attributeEvents depth attributes) := by
  induction attributes with
  | nil => exact .nil
  | cons a attributes ih =>
    change Noted (false || false) _ _
    refine Noted.append (noted_within .attributeList none (by decide) ?_) ih
    refine Noted.between ?_ [.trivia (indent depth), .token "["] [.token "]", .trivia "\n"]
      (by simp [isWriting]) (by simp [isWriting])
    refine noted_within .attributeUse (some a.name) (by decide) (.same _ (by simp) ?_)
    cases a.arguments with
    | none => exact .nil
    | some arguments => exact .arguments none _ .nil

theorem commentLines_ne (depth : Nat) (text : String) (texts : List String) :
    commentLines depth (text :: texts) ≠ "" := by
  intro h
  have hlist := congrArg String.toList h
  simp [commentLines, commentLine] at hlist

/-- Comment lines in front of an item are more trivia at its start. The item goes on with blanks, or
with its attributes. -/
theorem noted_lead (kind : NodeKind) (name : Option String) {depth : Nat} (a : String)
    (texts : List String) (hdepth : texts ≠ [] → 0 < depth) (attributes : List AttributeItem)
    (hkind : kind ≠ .attributeArguments)
    (hdeclaration : attributes ≠ [] → kind.isDeclaration = true) (h : Noted attributed old new) :
    Noted ((!texts.isEmpty && !attributes.isEmpty) || attributed)
      (.start kind name :: .trivia a ::
        (attributeEvents depth attributes ++ .trivia (indent depth) :: old))
      (.start kind name :: .trivia (a ++ commentLines depth texts) ::
        (attributeEvents depth attributes ++ .trivia (indent depth) :: new)) := by
  have hrest := (noted_attributes depth attributes).append (.same (.trivia (indent depth)) nofun h)
  rw [Bool.false_or] at hrest
  cases texts with
  | nil =>
    rw [commentLines, String.append_empty]
    exact .same _ (fun _ heq => hkind (Event.start.inj heq).1) (.same _ nofun hrest)
  | cons text texts =>
    have hs := commentLines_ne depth text texts
    have hpos := hdepth (List.cons_ne_nil _ _)
    have hindent : 0 < (indent depth).utf8ByteSize := by
      rw [utf8ByteSize_indent]
      omega
    refine .lead name a hs hkind ?_ hrest
    cases attributes with
    | nil => exact .text [.trivia (indent depth)] old (by simp [isWriting]) hindent
    | cons first attributes =>
      refine .attributes [.trivia (indent depth), .token "["] _ (by simp [isWriting]) ?_
        (hdeclaration (by simp))
      exact Nat.lt_of_lt_of_le hindent (Nat.le_add_right _ _)

theorem noted_method {depth : Nat} (hdepth : 0 < depth) (a : String) (texts : List String)
    (head : MethodHead) {body body' : List Event} (h : Noted attributed body body') :
    Noted ((!texts.isEmpty && !head.attributes.isEmpty) || attributed)
      (methodEvents depth a head body)
      (methodEvents depth (a ++ commentLines depth texts) head body') := by
  have hsignature : Noted false
      ([.token (head.returns ++ " " ++ head.name), .start .parameterList none,
        .token ("(" ++ head.parameters ++ ")"), .finish])
      ([.token (head.returns ++ " " ++ head.name), .start .parameterList none,
        .token ("(" ++ head.parameters ++ ")"), .finish]) :=
    .refl (by simp)
  have hrest := hsignature.append (noted_finish h)
  rw [Bool.false_or] at hrest
  have hlead := noted_lead .method (some head.name) a texts (fun _ => hdepth) head.attributes
    (by decide) (fun _ => rfl) hrest
  simpa [methodEvents, within] using hlead

theorem noted_line (kind : NodeKind) (name : Option String) {depth : Nat} (hdepth : 0 < depth)
    (a : String) (texts : List String) (hkind : kind ≠ .attributeArguments) (text : String) :
    Noted false (within kind name (.trivia a :: line depth text))
      (within kind name (.trivia (a ++ commentLines depth texts) :: line depth text)) := by
  have hrest : Noted false [.token text, .trivia "\n", .finish]
      [.token text, .trivia "\n", .finish] :=
    .refl (by simp)
  have hlead := noted_lead kind name a texts (fun _ => hdepth) [] hkind (fun h => absurd rfl h)
    hrest
  rw [List.isEmpty_nil, Bool.not_true, Bool.and_false, Bool.false_or] at hlead
  simpa [within, line, attributeEvents] using hlead

theorem noted_block (depth : Nat) (h : Noted attributed old new) :
    Noted attributed (blockEvents depth old) (blockEvents depth new) :=
  noted_within .block none (by decide)
    (h.between _ _ (isWriting_line depth "\x7b") (isWriting_line depth "\x7d"))

/-- Comments in front of an item wait for it. -/
theorem itemEvents_comments (depth : Nat) (pending : String) (texts : List String)
    (items : List BodyItem) : itemEvents depth pending (texts.map .comment ++ items) =
      itemEvents depth (pending ++ commentLines depth texts) items := by
  induction texts generalizing pending with
  | nil => rw [List.map_nil, List.nil_append, commentLines, String.append_empty]
  | cons text texts ih =>
    rw [List.map_cons, List.cons_append, itemEvents, ih, commentLines, String.append_assoc]

theorem memberEvents_comments (depth : Nat) (pending : String) (texts : List String)
    (members : List Member) : memberEvents depth pending (texts.map .comment ++ members) =
      memberEvents depth (pending ++ commentLines depth texts) members := by
  induction texts generalizing pending with
  | nil => rw [List.map_nil, List.nil_append, commentLines, String.append_empty]
  | cons text texts ih =>
    rw [List.map_cons, List.cons_append, memberEvents, Member.events, List.nil_append,
      Member.pending, ih, commentLines, String.append_assoc]

mutual

theorem noted_itemEvents {depth : Nat} (hdepth : 0 < depth) (notes : Notes) (i : Nat)
    (pending : String) : ∀ items : List BodyItem,
    Noted (itemsNoteAttributes notes i items) (itemEvents depth pending items)
      (itemEvents depth pending (notedItems notes i items))
  | [] => by
    rw [notedItems, itemEvents, itemsNoteAttributes]
    exact .of_writing (by simp [isWriting])
  | .comment text :: rest => by
    rw [notedItems, itemEvents, itemEvents, itemsNoteAttributes]
    exact noted_itemEvents hdepth notes (i + 1) _ rest
  | .statement text :: rest => by
    rw [notedItems, itemEvents_comments, itemEvents, itemEvents, itemsNoteAttributes]
    have hstatement := noted_line .statement none hdepth pending (notes [i]) (by decide) text
    exact hstatement.append (noted_itemEvents hdepth notes (i + 1) "" rest)
  | .declaration head body :: rest => by
    rw [notedItems, itemEvents_comments, itemEvents, itemEvents, itemsNoteAttributes,
      ← Bool.or_assoc]
    exact (noted_method hdepth pending (notes [i]) head
      (noted_bodyEvents depth (notes.inside i) body)).append
      (noted_itemEvents hdepth notes (i + 1) "" rest)

theorem noted_bodyEvents (depth : Nat) (notes : Notes) : ∀ body : MethodBody,
    Noted (body.noteAttributes notes) (bodyEvents depth body) (bodyEvents depth (body.noted notes))
  | .block items => by
    rw [MethodBody.noted, bodyEvents, bodyEvents, MethodBody.noteAttributes]
    exact .same _ nofun (noted_block depth
      (noted_itemEvents (Nat.succ_pos depth) notes 0 "" items))
  | .arrow expression => by
    rw [MethodBody.noted, MethodBody.noteAttributes]
    exact .refl (by simp [bodyEvents, arrowEvents, within])

end

theorem noted_accessor (depth : Nat) (which : Accessor) (keyword : String) (notes : Notes)
    (items : Option (List BodyItem)) :
    Noted (items.any (itemsNoteAttributes notes 0)) (accessorEvents depth which keyword items)
      (accessorEvents depth which keyword (items.map (notedItems notes 0))) := by
  cases items with
  | none => exact .nil
  | some items =>
    have hinside := (Noted.of_writing (isWriting_line depth keyword)).append
      (noted_block depth (noted_itemEvents (Nat.succ_pos depth) notes 0 "" items))
    rw [Bool.false_or] at hinside
    exact noted_within _ none nofun hinside

theorem noted_property {depth : Nat} (hdepth : 0 < depth) (a : String) (texts : List String)
    (notes : Notes) (p : Property) :
    Noted (p.noteAttributes notes) (propertyEvents depth a p)
      (propertyEvents depth (a ++ commentLines depth texts) (p.noted notes)) := by
  have hname : Noted false [.token (p.type ++ " " ++ p.name)] [.token (p.type ++ " " ++ p.name)] :=
    .of_writing (by simp [isWriting])
  cases harrow : p.arrow with
  | some expression =>
    have harrowEvents : Noted false (arrowEvents expression) (arrowEvents expression) :=
      .refl (by simp [arrowEvents, within])
    have hlead := noted_lead .property (some p.name) a texts (fun _ => hdepth) [] (by decide)
      (fun h => absurd rfl h) (noted_finish (hname.append harrowEvents))
    simpa [propertyEvents, Property.noted, Property.noteAttributes, harrow, within, attributeEvents]
      using hlead
  | none =>
    have haccessors := (noted_accessor (depth + 1) .get "get" (notes.inside 0) p.getter).append
      (noted_accessor (depth + 1) .set "set" (notes.inside 1) p.setter)
    have hinside := haccessors.between
      (.token (p.type ++ " " ++ p.name) :: .trivia "\n" :: line depth "\x7b") _
      (by simp [line, isWriting]) (isWriting_line depth "\x7d")
    have hlead := noted_lead .property (some p.name) a texts (fun _ => hdepth) [] (by decide)
      (fun h => absurd rfl h) (noted_finish hinside)
    simpa [propertyEvents, Property.noted, Property.noteAttributes, harrow, within, attributeEvents]
      using hlead

theorem noted_type (depth : Nat) (a name : String) (texts : List String)
    (hdepth : texts ≠ [] → 0 < depth) (attributes : List AttributeItem)
    (h : Noted attributed old new) :
    Noted ((!texts.isEmpty && !attributes.isEmpty) || attributed)
      (typeEvents depth a name attributes old)
      (typeEvents depth (a ++ commentLines depth texts) name attributes new) := by
  have hinside := h.between
    (.token ("class " ++ name) :: .trivia "\n" :: line depth "\x7b") _
    (by simp [line, isWriting]) (isWriting_line depth "\x7d")
  have hlead := noted_lead .typeDecl (some name) a texts hdepth attributes (by decide)
    (fun _ => rfl) (noted_finish hinside)
  simpa [typeEvents, within, line] using hlead

mutual

theorem noted_member {depth : Nat} (hdepth : 0 < depth) (notes : Notes) (a : String)
    (texts : List String) : ∀ m : Member,
    Noted ((!texts.isEmpty && !m.attributes.isEmpty) || m.noteAttributes notes) (m.events depth a)
      ((m.noted notes).events depth (a ++ commentLines depth (m.notes texts)))
  | .method head body => by
    rw [Member.noted, Member.events, Member.events, Member.noteAttributes]
    exact noted_method hdepth a texts head (noted_bodyEvents depth notes body)
  | .property p => by
    rw [Member.noted, Member.events, Member.events, Member.noteAttributes, Member.attributes,
      List.isEmpty_nil, Bool.not_true, Bool.and_false, Bool.false_or]
    · exact noted_property hdepth a texts notes p
    · exact nofun
    · exact nofun
  | .field name text => by
    rw [Member.noted, Member.events, Member.events, Member.noteAttributes, Member.attributes,
      List.isEmpty_nil, Bool.not_true, Bool.and_false, Bool.false_or]
    · exact noted_line .field (some name) hdepth a texts (by decide) text
    · exact nofun
    · exact nofun
  | .nestedType name attributes members => by
    rw [Member.noted, Member.events, Member.events, Member.noteAttributes]
    exact noted_type depth a name texts (fun _ => hdepth) attributes
      (noted_memberEvents (Nat.succ_pos depth) notes 0 "" members)
  | .comment text => by
    rw [Member.noted, Member.events, Member.events, Member.noteAttributes, Member.attributes,
      List.isEmpty_nil, Bool.not_true, Bool.and_false, Bool.false_or]
    · exact .nil
    · exact nofun
    · exact nofun

theorem noted_memberEvents {depth : Nat} (hdepth : 0 < depth) (notes : Notes) (i : Nat)
    (pending : String) : ∀ members : List Member,
    Noted (membersNoteAttributes notes i members) (memberEvents depth pending members)
      (memberEvents depth pending (notedMembers notes i members))
  | [] => by
    rw [notedMembers, memberEvents, membersNoteAttributes]
    exact .of_writing (by simp [isWriting])
  | m :: rest => by
    rw [notedMembers, memberEvents_comments, memberEvents, memberEvents, membersNoteAttributes,
      ← Bool.or_assoc]
    have hpending : (m.noted (notes.inside i)).pending depth
        (pending ++ commentLines depth (m.notes (notes [i]))) = m.pending depth pending := by
      cases m <;> simp [Member.noted, Member.pending, Member.notes, commentLines]
    rw [hpending]
    exact (noted_member hdepth (notes.inside i) pending (notes [i]) m).append
      (noted_memberEvents hdepth notes (i + 1) _ rest)

end

/-- A type at the top has no notes in front of it. -/
theorem noted_typeItem (depth : Nat) (leading : String) (notes : Notes) (t : TypeItem) :
    Noted (membersNoteAttributes notes 0 t.members) (t.events depth leading)
      (TypeItem.events depth leading { t with members := notedMembers notes 0 t.members }) := by
  have htype := noted_type depth leading t.name [] (fun h => absurd rfl h) t.attributes
    (noted_memberEvents (Nat.succ_pos depth) notes 0 "" t.members)
  rwa [List.isEmpty_nil, Bool.not_true, Bool.false_and, Bool.false_or, commentLines,
    String.append_empty] at htype

theorem noted_types (depth : Nat) (notes : Notes) (i : Nat) (types : List TypeItem) :
    Noted (typesNoteAttributes notes i types) (types.flatMap (TypeItem.events depth ""))
      ((notedTypes notes i types).flatMap (TypeItem.events depth "")) := by
  induction types generalizing i with
  | nil => exact .nil
  | cons t types ih =>
    exact (noted_typeItem depth "" (notes.inside i) t).append (ih (i + 1))

/-- Notes in a file are more trivia at the start of members and statements. -/
theorem File.noted_events (notes : Notes) (f : File) :
    Noted (f.noteAttributes notes) f.events (f.noted notes).events := by
  unfold File.events File.noteAttributes File.noted
  refine noted_within .compilationUnit none (by decide) ?_
  cases f.scope with
  | some name =>
    exact noted_within .namespaceBlock (some name) (by decide)
      ((noted_types 1 notes 0 f.types).between _ _ (by simp [isWriting]) (by simp [isWriting]))
  | none =>
    cases f.types with
    | nil => exact .of_writing (by simp [isWriting])
    | cons first rest =>
      exact (noted_typeItem 0 _ (notes.inside 0) first).append (noted_types 0 notes 1 rest)

end HotReload.Outline
