import HotReload.Proofs.Outline.Plain
import HotReload.Proofs.Source.Forest

/-
  A plain file as a tree of lines. A type, a method, a property and an accessor differ in the line
  that opens them (`Head`) and in little else, so `Items` has one constructor for what stands in
  braces and one for what ends on its line, and proofs about plain files are inductions on `Items`.
  The events of a plain file are the ones of its items (`File.events_items`).
-/

namespace HotReload

/-- Significant text on a line of its own. -/
def Forest.line (depth : Nat) (text : String) (rest : Forest) : Forest :=
  .trivia (Outline.indent depth) (.token text (.trivia "\n" rest))

namespace Outline

/-- Comment lines as trivia. -/
def commentLines (depth : Nat) : List String → String
  | [] => ""
  | text :: rest => commentLine depth text ++ commentLines depth rest

theorem commentLines_append (depth : Nat) (comments : List String) (text : String) :
    commentLines depth (comments ++ [text]) =
      commentLines depth comments ++ commentLine depth text := by
  induction comments with
  | nil => simp [commentLines]
  | cons c comments ih => simp only [List.cons_append, commentLines, ih, String.append_assoc]

/-- The line that opens a declaration, with the comment lines in front of it. -/
inductive Head where
  | type (comments : List String) (name : String)
  | method (comments : List String) (returns name parameters : String)
  | property (comments : List String) (returns name : String)
  | getter
  | setter
  deriving DecidableEq, Repr

namespace Head

def kind : Head → NodeKind
  | type .. => .typeDecl
  | method .. => .method
  | property .. => .property
  | getter => .accessor .get
  | setter => .accessor .set

def name : Head → Option String
  | type _ name | method _ _ name _ | property _ _ name => some name
  | getter | setter => none

/-- The declaration's segment of a path. -/
def segment : Head → String
  | type _ name | method _ _ name _ | property _ _ name => name
  | getter => "Get"
  | setter => "Set"

def comments : Head → List String
  | type comments _ | method comments _ _ _ | property comments _ _ => comments
  | getter | setter => []

/-- The text that is written straight into the declaration, up to its name. -/
def text : Head → String
  | type _ name => "class " ++ name
  | method _ returns name _ => returns ++ " " ++ name
  | property _ returns name => returns ++ " " ++ name
  | getter => "get"
  | setter => "set"

/-- The trivia in front; of an accessor the front end writes none. -/
def lead (depth : Nat) (rest : Forest) : Head → Forest
  | type comments _ | method comments _ _ _ | property comments _ _ =>
    .trivia (commentLines depth comments) rest
  | getter | setter => rest

/-- The parameters of a method. -/
def parameters (rest : Forest) : Head → Forest
  | method _ _ _ parameters =>
    .node .parameterList none (.token ("(" ++ parameters ++ ")") .nil) rest
  | _ => rest

/-- The line, without its end. -/
def forest (depth : Nat) (rest : Forest) (h : Head) : Forest :=
  h.lead depth (.trivia (indent depth) (.token h.text (h.parameters rest)))

/-- Code in braces is a block, and members in braces are parts of what they belong to. -/
def wrap (parts : Forest) : Head → Forest
  | method .. | getter | setter => .node .block none parts .nil
  | type .. | property .. => parts

/-- A declaration around items in braces. -/
def blockForest (depth : Nat) (items : Forest) (h : Head) : Forest :=
  h.forest depth (.trivia "\n" (h.wrap (.line depth "\x7b" items)))

/-- A declaration that ends on its line with an expression. -/
def arrowForest (depth : Nat) (expression : String) (h : Head) : Forest :=
  h.forest depth (.trivia " "
    (.node .arrowClause none (.token "=> " (.node .expression none (.token expression .nil) .nil))
      (.token ";" (.trivia "\n" .nil))))

end Head

/-- The lines of a plain file. -/
inductive Items where
  | nil
  /-- Comment lines behind the last item. -/
  | trailing (comments : List String)
  | statement (comments : List String) (text : String) (rest : Items)
  /-- A declaration with items in braces. -/
  | block (head : Head) (body rest : Items)
  /-- A declaration that ends on its line with an expression. -/
  | arrow (head : Head) (expression : String) (rest : Items)

namespace Items

/-- The items at a depth, in front of what ends them. -/
def forest (depth : Nat) (tail : Forest) : Items → Forest
  | nil => tail
  | trailing comments => .trivia (commentLines depth comments) tail
  | statement comments text rest =>
    .node .statement none (.trivia (commentLines depth comments) (.line depth text .nil))
      (rest.forest depth tail)
  | block head body rest =>
    .node head.kind head.name
      (head.blockForest depth (body.forest (depth + 1) (.line depth "\x7d" .nil)))
      (rest.forest depth tail)
  | arrow head expression rest =>
    .node head.kind head.name (head.arrowForest depth expression) (rest.forest depth tail)

/-- The events of a file with these items. -/
def events (items : Items) : List Event :=
  within .compilationUnit none (items.forest 0 .nil).events

end Items

/-! ## The items of an outline -/

mutual

/-- The items of a block; comment lines wait for the next item. -/
def bodyItems (waiting : List String) : List BodyItem → Items
  | [] => .trailing waiting
  | .comment text :: rest => bodyItems (waiting ++ [text]) rest
  | .statement text :: rest => .statement waiting text (bodyItems [] rest)
  | .declaration head body :: rest => body.items waiting head (bodyItems [] rest)

/-- A method with this body. -/
def MethodBody.items (waiting : List String) (head : MethodHead) (rest : Items) :
    MethodBody → Items
  | .block items =>
    .block (.method waiting head.returns head.name head.parameters) (bodyItems [] items) rest
  | .arrow expression =>
    .arrow (.method waiting head.returns head.name head.parameters) expression rest

end

/-- An accessor, if it is there. -/
def accessorItems (head : Head) (rest : Items) : Option (List BodyItem) → Items
  | none => rest
  | some items => .block head (bodyItems [] items) rest

/-- A property. -/
def Property.items (waiting : List String) (rest : Items) (p : Property) : Items :=
  match p.arrow with
  | some expression => .arrow (.property waiting p.type p.name) expression rest
  | none =>
    .block (.property waiting p.type p.name)
      (accessorItems .getter (accessorItems .setter .nil p.setter) p.getter) rest

/-- The comment lines that wait behind a member. -/
def Member.waiting (waiting : List String) : Member → List String
  | .comment text => waiting ++ [text]
  | _ => []

mutual

/-- One member of a type. -/
def Member.items (waiting : List String) (rest : Items) : Member → Items
  | .method head body => body.items waiting head rest
  | .property p => p.items waiting rest
  | .nestedType name _ members => .block (.type waiting name) (memberItems [] members) rest
  | .field _ _ | .comment _ => rest

/-- The members of a type. -/
def memberItems (waiting : List String) : List Member → Items
  | [] => .trailing waiting
  | m :: rest => m.items waiting (memberItems (m.waiting waiting) rest)

end

/-- Types in a row. -/
def typeItems (waiting : List String) : List TypeItem → Items
  | [] => .nil
  | t :: rest => .block (.type waiting t.name) (memberItems [] t.members) (typeItems [] rest)

/-- The items of a file. The header leads whatever comes first. -/
def File.items (f : File) : Items :=
  if f.types.isEmpty then .trailing f.header.toList else typeItems f.header.toList f.types

/-! ## Plain items -/

/-- What items stand in. -/
inductive Scope where
  | file
  | type
  | property
  | body
  deriving DecidableEq, Repr

/-- What a line opens. -/
def Head.scope : Head → Scope
  | type .. => .type
  | property .. => .property
  | method .. | getter | setter => .body

/-- The declarations that stand in a scope. -/
def Scope.admits : Scope → Head → Bool
  | file, .type .. => true
  | type, .type .. | type, .method .. | type, .property .. => true
  | property, .getter | property, .setter => true
  | body, .method .. => true
  | _, _ => false

/-- Names where names belong, with comment lines in front. -/
def Head.IsPlain (h : Head) : Prop :=
  (∀ c ∈ h.comments, isCommentLine c = true) ∧
  match h with
  | .type _ name => isName name = true
  | .method _ returns name parameters =>
    isName returns = true ∧ isName name = true ∧ (parameters = "" ∨ isName parameters = true)
  | .property _ returns name => isName returns = true ∧ isName name = true
  | .getter | .setter => True

/-- What items of plain files are. -/
def Items.IsPlain (scope : Scope) : Items → Prop
  | nil => True
  | trailing comments => ∀ c ∈ comments, isCommentLine c = true
  | statement comments text rest =>
    scope = .body ∧ (∀ c ∈ comments, isCommentLine c = true) ∧ isAssignment text = true ∧
      rest.IsPlain scope
  | block head body rest =>
    scope.admits head = true ∧ head.IsPlain ∧ body.IsPlain head.scope ∧ rest.IsPlain scope
  | arrow head expression rest =>
    scope.admits head = true ∧ head.IsPlain ∧ (head.kind = .method ∨ head.kind = .property) ∧
      isDigit expression = true ∧ rest.IsPlain scope

theorem isCommentLine_append {waiting : List String} {text : String}
    (h : ∀ c ∈ waiting, isCommentLine c = true) (htext : isCommentLine text = true) :
    ∀ c ∈ waiting ++ [text], isCommentLine c = true := by
  intro c hc
  rcases List.mem_append.1 hc with hc | hc
  · exact h c hc
  · rw [List.mem_singleton.1 hc]
    exact htext

theorem Head.isPlain_method {waiting : List String} {head : MethodHead}
    (hwaiting : ∀ c ∈ waiting, isCommentLine c = true) (h : head.isPlain = true) :
    (Head.method waiting head.returns head.name head.parameters).IsPlain := by
  simp only [MethodHead.isPlain, Bool.and_eq_true, Bool.or_eq_true, decide_eq_true_eq] at h
  exact ⟨hwaiting, h.1.2, h.1.1.2, h.2⟩

mutual

theorem isPlain_bodyItems {waiting : List String}
    (hwaiting : ∀ c ∈ waiting, isCommentLine c = true) : (items : List BodyItem) →
    itemsArePlain items = true → (bodyItems waiting items).IsPlain .body
  | [], _ => hwaiting
  | .comment text :: rest, h => by
    simp only [itemsArePlain, Bool.and_eq_true] at h
    exact isPlain_bodyItems (isCommentLine_append hwaiting h.1) rest h.2
  | .statement text :: rest, h => by
    simp only [itemsArePlain, Bool.and_eq_true] at h
    exact ⟨rfl, hwaiting, h.1, isPlain_bodyItems (by simp) rest h.2⟩
  | .declaration head body :: rest, h => by
    simp only [itemsArePlain, Bool.and_eq_true] at h
    exact isPlain_bodyOf hwaiting (Or.inr rfl) head h.1.1
      (isPlain_bodyItems (by simp) rest h.2) body h.1.2

theorem isPlain_bodyOf {waiting : List String}
    (hwaiting : ∀ c ∈ waiting, isCommentLine c = true) {scope : Scope}
    (hscope : scope = .type ∨ scope = .body) (head : MethodHead) (hhead : head.isPlain = true)
    {rest : Items} (hrest : rest.IsPlain scope) : (body : MethodBody) → body.isPlain = true →
    (body.items waiting head rest).IsPlain scope
  | .block items, h => by
    refine ⟨?_, Head.isPlain_method hwaiting hhead, ?_, hrest⟩
    · rcases hscope with rfl | rfl <;> rfl
    · exact isPlain_bodyItems (by simp) items h
  | .arrow expression, h => by
    refine ⟨?_, Head.isPlain_method hwaiting hhead, Or.inl rfl, h, hrest⟩
    rcases hscope with rfl | rfl <;> rfl

end

theorem isPlain_accessorItems {head : Head} (hhead : head = .getter ∨ head = .setter)
    {rest : Items} (hrest : rest.IsPlain .property) {items : Option (List BodyItem)}
    (h : items.all itemsArePlain = true) : (accessorItems head rest items).IsPlain .property := by
  cases items with
  | none => exact hrest
  | some items =>
    rcases hhead with rfl | rfl <;>
      exact ⟨rfl, ⟨by simp [Head.comments], trivial⟩, isPlain_bodyItems (by simp) items h, hrest⟩

theorem isPlain_property {waiting : List String}
    (hwaiting : ∀ c ∈ waiting, isCommentLine c = true) {rest : Items}
    (hrest : rest.IsPlain .type) {p : Property} (h : p.isPlain = true) :
    (p.items waiting rest).IsPlain .type := by
  simp only [Property.isPlain, Bool.and_eq_true] at h
  have hhead : (Head.property waiting p.type p.name).IsPlain := ⟨hwaiting, h.1.1.1.2, h.1.1.1.1⟩
  unfold Property.items
  cases harrow : p.arrow with
  | some expression =>
    rw [harrow] at h
    exact ⟨rfl, hhead, Or.inr rfl, h.2, hrest⟩
  | none =>
    have hnil : Items.nil.IsPlain .property := trivial
    have hset := isPlain_accessorItems (Or.inr rfl) hnil h.1.2
    exact ⟨rfl, hhead, isPlain_accessorItems (Or.inl rfl) hset h.1.1.2, hrest⟩

mutual

theorem isPlain_memberOf {waiting : List String}
    (hwaiting : ∀ c ∈ waiting, isCommentLine c = true) {rest : Items}
    (hrest : rest.IsPlain .type) : (m : Member) → m.isPlain = true →
    (m.items waiting rest).IsPlain .type
  | .method head body, h => by
    simp only [Member.isPlain, Bool.and_eq_true] at h
    exact isPlain_bodyOf hwaiting (Or.inl rfl) head h.1 hrest body h.2
  | .property p, h => isPlain_property hwaiting hrest h
  | .field _ _, h => absurd h (by simp [Member.isPlain])
  | .nestedType name _ members, h => by
    simp only [Member.isPlain, Bool.and_eq_true] at h
    exact ⟨rfl, ⟨hwaiting, h.1.1⟩, isPlain_memberItems (by simp) members h.2, hrest⟩
  | .comment _, _ => hrest

theorem isPlain_memberItems {waiting : List String}
    (hwaiting : ∀ c ∈ waiting, isCommentLine c = true) : (members : List Member) →
    membersArePlain members = true → (memberItems waiting members).IsPlain .type
  | [], _ => hwaiting
  | m :: rest, h => by
    simp only [membersArePlain, Bool.and_eq_true] at h
    have hnext : ∀ c ∈ m.waiting waiting, isCommentLine c = true := by
      cases m with
      | comment text => exact isCommentLine_append hwaiting h.1
      | _ => simp [Member.waiting]
    exact isPlain_memberOf hwaiting (isPlain_memberItems hnext rest h.2) m h.1

end

theorem isPlain_typeItems {waiting : List String}
    (hwaiting : ∀ c ∈ waiting, isCommentLine c = true) {types : List TypeItem}
    (h : types.all TypeItem.isPlain = true) : (typeItems waiting types).IsPlain .file := by
  induction types generalizing waiting with
  | nil => trivial
  | cons t rest ih =>
    simp only [List.all_cons, TypeItem.isPlain, Bool.and_eq_true] at h
    exact ⟨rfl, ⟨hwaiting, h.1.1.1⟩, isPlain_memberItems (by simp) t.members h.1.2,
      ih (by simp) h.2⟩

theorem File.isPlain_items {f : File} (h : f.isPlain = true) : f.items.IsPlain .file := by
  simp only [File.isPlain, Bool.and_eq_true] at h
  have hheader : ∀ c ∈ f.header.toList, isCommentLine c = true := by
    intro c hc
    rw [Option.mem_toList] at hc
    exact (Option.all_eq_true _ _).1 h.1.2 c hc
  unfold File.items
  split
  · exact hheader
  · exact isPlain_typeItems hheader h.2

/-! ## Events -/

theorem events_line (depth : Nat) (text : String) (rest : Forest) :
    (Forest.line depth text rest).events = line depth text ++ rest.events := rfl

mutual

theorem events_bodyItems (depth : Nat) (waiting : List String) (tail : Forest) :
    (items : List BodyItem) → itemsArePlain items = true →
    ((bodyItems waiting items).forest depth tail).events =
      itemEvents depth (commentLines depth waiting) items ++ tail.events
  | [], _ => rfl
  | .comment text :: rest, h => by
    simp only [itemsArePlain, Bool.and_eq_true] at h
    rw [bodyItems, events_bodyItems depth _ tail rest h.2, commentLines_append, itemEvents]
  | .statement text :: rest, h => by
    simp only [itemsArePlain, Bool.and_eq_true] at h
    have ih := events_bodyItems depth [] tail rest h.2
    simp only [bodyItems, Items.forest, Forest.events, events_line, ih, itemEvents, within,
      commentLines, List.append_nil, List.cons_append, List.append_assoc, List.nil_append]
  | .declaration head body :: rest, h => by
    simp only [itemsArePlain, Bool.and_eq_true] at h
    have ih := events_bodyItems depth [] tail rest h.2
    rw [bodyItems, events_bodyOf depth waiting tail head _ body h.1.1 h.1.2, ih, itemEvents,
      List.append_assoc]
    rfl

theorem events_bodyOf (depth : Nat) (waiting : List String) (tail : Forest) (head : MethodHead)
    (rest : Items) : (body : MethodBody) → head.isPlain = true → body.isPlain = true →
    ((body.items waiting head rest).forest depth tail).events =
      methodEvents depth (commentLines depth waiting) head (bodyEvents depth body) ++
        (rest.forest depth tail).events
  | .block items, hhead, h => by
    simp only [MethodBody.isPlain] at h
    simp only [MethodHead.isPlain, Bool.and_eq_true, List.isEmpty_iff] at hhead
    have ih := events_bodyItems (depth + 1) [] (.line depth "\x7d" .nil) items h
    simp only [MethodBody.items, Items.forest, Head.blockForest, Head.forest, Head.lead,
      Head.parameters, Head.wrap, Head.kind, Head.name, Head.text, Forest.events, events_line, ih,
      methodEvents, bodyEvents, blockEvents, attributeEvents, hhead.1.1.1, within, commentLines,
      List.flatMap_nil, List.append_nil, List.cons_append, List.append_assoc, List.nil_append]
  | .arrow expression, hhead, _ => by
    simp only [MethodHead.isPlain, Bool.and_eq_true, List.isEmpty_iff] at hhead
    simp only [MethodBody.items, Items.forest, Head.arrowForest, Head.forest, Head.lead,
      Head.parameters, Head.kind, Head.name, Head.text, Forest.events, methodEvents, bodyEvents,
      arrowEvents, attributeEvents, hhead.1.1.1, within, List.flatMap_nil, List.cons_append,
      List.append_assoc, List.nil_append]

end

theorem events_accessorItems (depth : Nat) (tail : Forest) (rest : Items) (which : Accessor)
    (head : Head) (hhead : head = .getter ∧ which = .get ∨ head = .setter ∧ which = .set)
    (items : Option (List BodyItem)) (h : items.all itemsArePlain = true) :
    ((accessorItems head rest items).forest depth tail).events =
      accessorEvents depth which head.text items ++ (rest.forest depth tail).events := by
  cases items with
  | none => rfl
  | some items =>
    have ih := events_bodyItems (depth + 1) [] (.line depth "\x7d" .nil) items h
    rcases hhead with ⟨rfl, rfl⟩ | ⟨rfl, rfl⟩ <;>
    simp only [accessorItems, Items.forest, Head.blockForest, Head.forest, Head.lead,
      Head.parameters, Head.wrap, Head.kind, Head.name, Head.text, Forest.events, events_line, ih,
      accessorEvents, blockEvents, within, line, commentLines, List.append_nil, List.cons_append,
      List.append_assoc, List.nil_append]

theorem events_property (depth : Nat) (waiting : List String) (tail : Forest) (rest : Items)
    (p : Property) (h : p.isPlain = true) :
    ((p.items waiting rest).forest depth tail).events =
      propertyEvents depth (commentLines depth waiting) p ++ (rest.forest depth tail).events := by
  simp only [Property.isPlain, Bool.and_eq_true] at h
  unfold Property.items propertyEvents
  cases p.arrow with
  | some expression =>
    simp only [Items.forest, Head.arrowForest, Head.forest, Head.lead, Head.parameters, Head.kind,
      Head.name, Head.text, Forest.events, arrowEvents, within, List.cons_append, List.nil_append]
  | none =>
    have hset := events_accessorItems (depth + 1) (.line depth "\x7d" .nil) .nil .set .setter
      (Or.inr ⟨rfl, rfl⟩) p.setter h.1.2
    have hget := events_accessorItems (depth + 1) (.line depth "\x7d" .nil)
      (accessorItems .setter .nil p.setter) .get .getter (Or.inl ⟨rfl, rfl⟩) p.getter h.1.1.2
    simp only [Items.forest, Head.blockForest, Head.forest, Head.lead, Head.parameters, Head.wrap,
      Head.kind, Head.name, Head.text, Forest.events, events_line, hset, hget, within,
      List.append_nil, List.cons_append, List.append_assoc, List.nil_append]

theorem events_typeBlock (depth : Nat) (waiting : List String) (name : String) (tail : Forest)
    (body rest : Items) {events : List Event}
    (hbody : (body.forest (depth + 1) (.line depth "\x7d" .nil)).events =
      events ++ line depth "\x7d") :
    ((Items.block (.type waiting name) body rest).forest depth tail).events =
      typeEvents depth (commentLines depth waiting) name [] events ++
        (rest.forest depth tail).events := by
  simp only [Items.forest, Head.blockForest, Head.forest, Head.lead, Head.parameters, Head.wrap,
    Head.kind, Head.name, Head.text, Forest.events, events_line, hbody, typeEvents,
    attributeEvents, within, line, List.flatMap_nil, List.cons_append, List.append_assoc,
    List.nil_append]

mutual

theorem events_memberOf (depth : Nat) (waiting : List String) (tail : Forest) (rest : Items) :
    (m : Member) → m.isPlain = true →
    ((m.items waiting rest).forest depth tail).events =
      m.events depth (commentLines depth waiting) ++ (rest.forest depth tail).events
  | .method head body, h => by
    simp only [Member.isPlain, Bool.and_eq_true] at h
    rw [Member.items, events_bodyOf depth waiting tail head rest body h.1 h.2, Member.events]
  | .property p, h => by
    rw [Member.items, events_property depth waiting tail rest p h, Member.events]
  | .field _ _, h => absurd h (by simp [Member.isPlain])
  | .nestedType name attributes members, h => by
    simp only [Member.isPlain, Bool.and_eq_true, List.isEmpty_iff] at h
    have ih := events_memberItems (depth + 1) [] (.line depth "\x7d" .nil) members h.2
    rw [Member.items, events_typeBlock depth waiting name tail _ rest ih, Member.events, h.1.2]
    rfl
  | .comment _, _ => rfl

theorem events_memberItems (depth : Nat) (waiting : List String) (tail : Forest) :
    (members : List Member) → membersArePlain members = true →
    ((memberItems waiting members).forest depth tail).events =
      memberEvents depth (commentLines depth waiting) members ++ tail.events
  | [], _ => rfl
  | m :: rest, h => by
    simp only [membersArePlain, Bool.and_eq_true] at h
    have hwaiting : commentLines depth (m.waiting waiting) =
        m.pending depth (commentLines depth waiting) := by
      cases m with
      | comment text => exact commentLines_append depth waiting text
      | _ => rfl
    rw [memberItems, events_memberOf depth waiting tail _ m h.1,
      events_memberItems depth _ tail rest h.2, hwaiting, memberEvents, List.append_assoc]

end

theorem events_typeItems (waiting : List String) (t : TypeItem) (rest : List TypeItem)
    (h : (t :: rest).all TypeItem.isPlain = true) :
    ((typeItems waiting (t :: rest)).forest 0 .nil).events =
      t.events 0 (commentLines 0 waiting) ++ rest.flatMap (TypeItem.events 0 "") := by
  induction rest generalizing t waiting with
  | nil =>
    simp only [List.all_cons, TypeItem.isPlain, Bool.and_eq_true, List.isEmpty_iff] at h
    have hmembers := events_memberItems 1 [] (.line 0 "\x7d" .nil) t.members h.1.2
    rw [typeItems, events_typeBlock 0 waiting t.name .nil _ _ hmembers, TypeItem.events, h.1.1.2]
    rfl
  | cons t' rest ih =>
    rw [List.all_cons, Bool.and_eq_true] at h
    have hrest := ih [] t' h.2
    simp only [TypeItem.isPlain, Bool.and_eq_true, List.isEmpty_iff] at h
    have hmembers := events_memberItems 1 [] (.line 0 "\x7d" .nil) t.members h.1.2
    have hfirst : t.events 0 (commentLines 0 waiting) =
        typeEvents 0 (commentLines 0 waiting) t.name [] (memberEvents 1 "" t.members) := by
      rw [TypeItem.events, h.1.1.2]
    rw [typeItems, events_typeBlock 0 waiting t.name .nil _ _ hmembers, hrest, hfirst,
      List.flatMap_cons]
    rfl

/-- The events of a plain file are the ones of its items. -/
theorem File.events_items {f : File} (h : f.isPlain = true) : f.events = f.items.events := by
  obtain ⟨path, symbols, header, scope, types⟩ := f
  simp only [File.isPlain, Bool.and_eq_true, Option.isNone_iff_eq_none] at h
  obtain ⟨⟨rfl, -⟩, htypes⟩ := h
  have hheader : ∀ comment, comment ++ "\n" = commentLines 0 [comment] := by
    intro comment
    simp [commentLines, commentLine, indent]
  cases types with
  | nil =>
    cases header with
    | none => rfl
    | some comment =>
      show within .compilationUnit none [.trivia (comment ++ "\n")] = _
      rw [hheader]
      rfl
  | cons t rest =>
    have hitems := events_typeItems header.toList t rest htypes
    cases header with
    | none => exact congrArg (within .compilationUnit none) hitems.symm
    | some comment =>
      show within .compilationUnit none (t.events 0 (comment ++ "\n") ++ _) = _
      rw [hheader]
      exact congrArg (within .compilationUnit none) hitems.symm

end Outline
end HotReload
