import HotReload.Change.Region
import HotReload.Proofs.Source.Alike
import HotReload.Proofs.Source.Described
import HotReload.Proofs.Source.Enclosing

/-
  Descriptions with more trivia at the start of some nodes. `Event.additions` says what the second of
  two descriptions writes more, as regions, and `Event.Noted` which descriptions are meant: the trivia
  stands at the very start of a node, and what follows is text or an attribute list.

  What follows decides what a search finds there (`Tree.Opens.enclosing`). In the second version the
  node around the new trivia is the node that it leads. In the first one nothing stands there but an
  insertion point, and the search goes on to the attribute list, if one starts there.
-/

namespace HotReload

namespace Event

/-- What the second of two events writes more at its end, if both write trivia. -/
def addition (oldOffset newOffset : Nat) : Event → Event → List Region
  | .trivia a, .trivia b =>
    if a = b then []
    else [⟨.point (oldOffset + a.utf8ByteSize), newOffset + a.utf8ByteSize,
      String.ofList (b.toList.drop a.toList.length)⟩]
  | _, _ => []

/-- What the second of two descriptions writes more, if the two are written at these offsets. -/
def additions (oldOffset newOffset : Nat) : List Event → List Event → List Region
  | e :: old, e' :: new =>
    addition oldOffset newOffset e e' ++
      additions (oldOffset + e.text.utf8ByteSize) (newOffset + e'.text.utf8ByteSize) old new
  | _, _ => []

/-- What stands behind the trivia at the start of a node: text, or the attributes of a declaration. -/
inductive Follows (kind : NodeKind) : Bool → List Event → Prop where
  | text (gap rest : List Event) (hgap : ∀ e ∈ gap, e.isWriting) (hbytes : 0 < bytes gap) :
      Follows kind false (gap ++ rest)
  | attributes (gap rest : List Event) (hgap : ∀ e ∈ gap, e.isWriting) (hbytes : 0 < bytes gap)
      (hkind : kind.isDeclaration = true) :
      Follows kind true (.start .attributeList none :: (gap ++ rest))

/-- The second events write more trivia at the start of some nodes, in front of attributes if the
flag is set. -/
inductive Noted : Bool → List Event → List Event → Prop where
  | nil : Noted false [] []
  | same {attributed : Bool} {old new : List Event} (e : Event)
      (he : ∀ name, e ≠ .start .attributeArguments name) (h : Noted attributed old new) :
      Noted attributed (e :: old) (e :: new)
  /-- The arguments of an attribute are one text. -/
  | arguments {attributed : Bool} {old new : List Event} (name : Option String) (text : String)
      (h : Noted attributed old new) :
      Noted attributed (.start .attributeArguments name :: .token text :: .finish :: old)
        (.start .attributeArguments name :: .token text :: .finish :: new)
  | lead {here attributed : Bool} {old new : List Event} {kind : NodeKind} (name : Option String)
      (a : String) {s : String} (hs : s ≠ "") (hkind : kind ≠ .attributeArguments)
      (hfollows : Follows kind here old) (h : Noted attributed old new) :
      Noted (here || attributed) (.start kind name :: .trivia a :: old)
        (.start kind name :: .trivia (a ++ s) :: new)

/-- The region is what two descriptions differ by at the start of one node. -/
inductive Led (old new : List Event) (oldOffset newOffset : Nat) (r : Region) : Bool → Prop where
  | intro {attributed : Bool} (front front' : List Event) {rest rest' : List Event}
      {kind : NodeKind} {name : Option String} {a s : String}
      (hold : old = front ++ .start kind name :: .trivia a :: rest)
      (hnew : new = front' ++ .start kind name :: .trivia (a ++ s) :: rest')
      (hstarts : starts front = starts front') (hs : s ≠ "")
      (hfollows : Follows kind attributed rest)
      (hr : r = ⟨.point (oldOffset + bytes front + a.utf8ByteSize),
        newOffset + bytes front' + a.utf8ByteSize, s⟩) :
      Led old new oldOffset newOffset r attributed

variable {old new front front' : List Event} {oldOffset newOffset : Nat} {r : Region}
  {attributed attributed' : Bool}

theorem Follows.append {kind : NodeKind} (h : Follows kind attributed old) (more : List Event) :
    Follows kind attributed (old ++ more) := by
  cases h with
  | text gap rest hgap hbytes =>
    rw [List.append_assoc]
    exact .text gap _ hgap hbytes
  | attributes gap rest hgap hbytes hkind =>
    rw [List.cons_append, List.append_assoc]
    exact .attributes gap _ hgap hbytes hkind

namespace Noted

theorem append {old' new' : List Event} (h : Noted attributed old new)
    (h' : Noted attributed' old' new') :
    Noted (attributed || attributed') (old ++ old') (new ++ new') := by
  induction h with
  | nil => exact h'
  | same e he h ih => exact .same e he ih
  | arguments name text h ih => exact .arguments name text ih
  | lead name a hs hkind hfollows h ih =>
    rw [Bool.or_assoc]
    exact .lead name a hs hkind (hfollows.append _) ih

/-- Without arguments of attributes, nothing differs from itself. -/
theorem refl (h : ∀ e ∈ old, ∀ name, e ≠ .start .attributeArguments name) :
    Noted false old old := by
  induction old with
  | nil => exact .nil
  | cons e old ih =>
    exact .same e (h e List.mem_cons_self) (ih fun e' he' => h e' (List.mem_cons_of_mem _ he'))

/-- Text does not differ from itself. -/
theorem of_writing (h : ∀ e ∈ old, e.isWriting) : Noted false old old :=
  refl fun e he name heq => by simpa [heq, isWriting] using h e he

/-- Text around two descriptions makes no difference. -/
theorem between (h : Noted attributed old new) (front back : List Event)
    (hfront : ∀ e ∈ front, e.isWriting) (hback : ∀ e ∈ back, e.isWriting) :
    Noted attributed (front ++ old ++ back) (front ++ new ++ back) := by
  have hall := ((of_writing hfront).append h).append (of_writing hback)
  rwa [Bool.false_or, Bool.or_false] at hall

theorem alike (h : Noted attributed old new) : List.Forall₂ Alike old new := by
  induction h with
  | nil => exact .nil
  | same e he h ih => exact .cons (.same e) ih
  | arguments name text h ih => exact .cons (.same _) (.cons (.same _) (.cons (.same _) ih))
  | lead name a hs hkind hfollows h ih => exact .cons (.same _) (.cons (.trivia _ _) ih)

end Noted

theorem addition_self (oldOffset newOffset : Nat) (e : Event) :
    addition oldOffset newOffset e e = [] := by
  cases e <;> simp [addition]

theorem addition_append {a s : String} (hs : s ≠ "") :
    addition oldOffset newOffset (.trivia a) (.trivia (a ++ s)) =
      [⟨.point (oldOffset + a.utf8ByteSize), newOffset + a.utf8ByteSize, s⟩] := by
  have hne : a ≠ a ++ s := by
    intro h
    have hlist := congrArg String.toList h
    rw [String.toList_append, List.self_eq_append_right] at hlist
    exact hs (String.toList_inj.1 hlist)
  rw [addition, if_neg hne, String.toList_append, List.drop_left, String.ofList_toList]

theorem Led.prepend (front front' : List Event) (hstarts : starts front = starts front')
    (h : Led old new (oldOffset + bytes front) (newOffset + bytes front') r attributed) :
    Led (front ++ old) (front' ++ new) oldOffset newOffset r attributed := by
  obtain ⟨inner, inner', hold, hnew, hinner, hs, hfollows, hr⟩ := h
  refine .intro (front ++ inner) (front' ++ inner') (by rw [hold, List.append_assoc])
    (by rw [hnew, List.append_assoc]) ?_ hs hfollows ?_
  · rw [starts_append, starts_append, hstarts, hinner]
  · rw [hr, bytes_append, bytes_append, Nat.add_assoc oldOffset, Nat.add_assoc newOffset]

theorem additions_append (gap old new : List Event) (oldOffset newOffset : Nat) :
    additions oldOffset newOffset (gap ++ old) (gap ++ new) =
      additions (oldOffset + bytes gap) (newOffset + bytes gap) old new := by
  induction gap generalizing oldOffset newOffset with
  | nil => rfl
  | cons e gap ih =>
    rw [List.cons_append, List.cons_append, additions, addition_self, List.nil_append, ih,
      bytes_cons, Nat.add_assoc, Nat.add_assoc]

theorem additions_lead (kind : NodeKind) (name : Option String) (a : String) {s : String}
    (hs : s ≠ "") (oldOffset newOffset : Nat) :
    additions oldOffset newOffset (.start kind name :: .trivia a :: old)
        (.start kind name :: .trivia (a ++ s) :: new) =
      ⟨.point (oldOffset + a.utf8ByteSize), newOffset + a.utf8ByteSize, s⟩ ::
        additions (oldOffset + a.utf8ByteSize) (newOffset + (a ++ s).utf8ByteSize) old new := by
  rw [additions, addition_self, List.nil_append, additions]
  simp only [text, String.utf8ByteSize_empty, Nat.add_zero, addition_append hs,
    List.singleton_append]

namespace Noted

/-- Every addition leads a node. -/
theorem led_of_mem (h : Noted attributed old new) (hr : r ∈ additions oldOffset newOffset old new) :
    ∃ here, Led old new oldOffset newOffset r here ∧ (here = true → attributed = true) := by
  induction h generalizing oldOffset newOffset with
  | nil => exact absurd hr List.not_mem_nil
  | @same attributed old new e he h ih =>
    have happend := additions_append [e] old new oldOffset newOffset
    obtain ⟨here, hled, hhere⟩ := ih (happend ▸ hr)
    exact ⟨here, hled.prepend [e] [e] rfl, hhere⟩
  | @arguments attributed old new name text h ih =>
    have happend := additions_append [.start .attributeArguments name, .token text, .finish] old new
      oldOffset newOffset
    obtain ⟨here, hled, hhere⟩ := ih (happend ▸ hr)
    exact ⟨here, hled.prepend [_, _, _] [_, _, _] rfl, hhere⟩
  | @lead here attributed old new kind name a s hs hkind hfollows h ih =>
    rw [additions_lead kind name a hs, List.mem_cons] at hr
    rcases hr with rfl | hr
    · exact ⟨here, .intro [] [] rfl rfl rfl hs hfollows rfl, fun h => by rw [h, Bool.true_or]⟩
    · obtain ⟨here', hled, hhere⟩ := ih hr
      refine ⟨here', Led.prepend [.start kind name, .trivia a]
        [.start kind name, .trivia (a ++ s)] rfl ?_, fun h => by rw [hhere h, Bool.or_true]⟩
      simpa [Event.text] using hled

/-- If attributes are led, some addition leads them. -/
theorem exists_led (h : Noted attributed old new) (hattributed : attributed = true)
    (oldOffset newOffset : Nat) :
    ∃ r ∈ additions oldOffset newOffset old new, Led old new oldOffset newOffset r true := by
  induction h generalizing oldOffset newOffset with
  | nil => exact absurd hattributed nofun
  | @same attributed old new e he h ih =>
    obtain ⟨r, hr, hled⟩ := ih hattributed (oldOffset + bytes [e]) (newOffset + bytes [e])
    rw [← additions_append] at hr
    exact ⟨r, hr, hled.prepend [e] [e] rfl⟩
  | @arguments attributed old new name text h ih =>
    have hprepend := additions_append [.start .attributeArguments name, .token text, .finish] old new
      oldOffset newOffset
    obtain ⟨r, hr, hled⟩ := ih hattributed _ _
    exact ⟨r, hprepend ▸ hr, hled.prepend [_, _, _] [_, _, _] rfl⟩
  | @lead here attributed old new kind name a s hs hkind hfollows h ih =>
    rw [additions_lead kind name a hs]
    cases here with
    | true => exact ⟨_, List.mem_cons_self, .intro [] [] rfl rfl rfl hs hfollows rfl⟩
    | false =>
      obtain ⟨r, hr, hled⟩ := ih (by simpa using hattributed) (oldOffset + a.utf8ByteSize)
        (newOffset + (a ++ s).utf8ByteSize)
      refine ⟨r, List.mem_cons_of_mem _ hr, Led.prepend [.start kind name, .trivia a]
        [.start kind name, .trivia (a ++ s)] rfl ?_⟩
      simpa [Event.text] using hled

end Noted

/-- The arguments of attributes are one text each. -/
def ArgumentsClosed : List Event → Prop
  | [] => True
  | e :: rest =>
    (∀ name, e = .start .attributeArguments name →
      ∃ text tail, rest = .token text :: .finish :: tail) ∧ ArgumentsClosed rest

theorem ArgumentsClosed.of_append (h : ArgumentsClosed (front ++ old)) : ArgumentsClosed old := by
  induction front with
  | nil => exact h
  | cons e front ih => exact ih h.2

theorem Noted.argumentsClosed (h : Noted attributed old new) : ArgumentsClosed old := by
  induction h with
  | nil => trivial
  | same e he h ih => exact ⟨fun name heq => absurd heq (he name), ih⟩
  | arguments name text h ih => exact ⟨fun _ _ => ⟨text, _, rfl⟩, nofun, nofun, ih⟩
  | lead name a hs hkind hfollows h ih =>
    exact ⟨fun _ heq => absurd (Event.start.inj heq).1 hkind, nofun, ih⟩

theorem le_start_of_mem_tokens {events : List Event} {offset : Nat} {s : Span}
    (h : s ∈ tokens offset events) : offset ≤ s.start := by
  induction events generalizing offset with
  | nil => exact absurd h List.not_mem_nil
  | cons e events ih =>
    cases e with
    | token text =>
      rcases List.mem_cons.1 h with rfl | h
      · exact Nat.le_refl _
      · have := ih h
        omega
    | trivia text =>
      have := ih h
      omega
    | start kind name | finish => exact ih h

end Event

/-! ## In a tree -/

namespace Tree

variable {path : String} {symbols : Symbols} {events : List Event} {t : Tree} {id : t.Id}

/-- The node starts behind these events, and with this text. -/
structure Opens (t : Tree) (events : List Event) (id : t.Id) (front : List Event) (kind : NodeKind)
    (lead : List Event) : Prop where
  starts_eq : Event.starts front = id.1
  writing : ∀ e ∈ lead, e.isWriting
  split : ∃ name rest, events = front ++ .start kind name :: (lead ++ rest)

/-- Every start in the events is that of a node. -/
theorem exists_opens (hbuilt : Tree.ofEvents path symbols events = .ok t) {front : List Event}
    {kind : NodeKind} {name : Option String} (lead rest : List Event)
    (hevents : events = front ++ .start kind name :: (lead ++ rest))
    (hwriting : ∀ e ∈ lead, e.isWriting) :
    ∃ id : t.Id, id.1 = Event.starts front ∧ t.Opens events id front kind lead := by
  have hsize := starts_eq_size hbuilt
  rw [hevents, Event.starts_append, Event.starts] at hsize
  have hlt : Event.starts front < t.size := by omega
  exact ⟨⟨Event.starts front, hlt⟩, rfl, rfl, hwriting, name, rest, hevents⟩

namespace Opens

variable {front lead : List Event} {kind : NodeKind} {span : Span}

theorem startOf_eq (h : t.Opens events id front kind lead) :
    Event.startOf id.1 events = Event.bytes front := by
  obtain ⟨name, rest, hevents⟩ := h.split
  rw [Event.startOf, ← h.starts_eq, hevents, Event.before_append_start]

theorem exists_inside_eq (h : t.Opens events id front kind lead) :
    ∃ rest, Event.inside id.1 events = lead ++ rest := by
  obtain ⟨name, rest, hevents⟩ := h.split
  refine ⟨Event.untilFinish 0 rest, ?_⟩
  rw [Event.inside, ← h.starts_eq, hevents, Event.behind_append_start,
    Event.untilFinish_writing h.writing]

theorem le_stopOf (h : t.Opens events id front kind lead) :
    Event.bytes front + Event.bytes lead ≤ Event.stopOf id.1 events := by
  obtain ⟨rest, hinside⟩ := h.exists_inside_eq
  rw [Event.stopOf, h.startOf_eq, hinside, Event.bytes_append]
  omega

theorem le_bytes (h : t.Opens events id front kind lead) :
    Event.bytes front + Event.bytes lead ≤ Event.bytes events := by
  obtain ⟨name, rest, hevents⟩ := h.split
  rw [hevents, Event.bytes_append, Event.bytes_cons, Event.bytes_append]
  omega

/-- Nodes behind this one start behind its leading text. -/
theorem le_startOf (h : t.Opens events id front kind lead) {x : t.Id} (hx : id.1 < x.1) :
    Event.bytes front + Event.bytes lead ≤ Event.startOf x.1 events := by
  obtain ⟨name, rest, hevents⟩ := h.split
  have hstarts : Event.starts (front ++ .start kind name :: lead) = id.1 + 1 := by
    rw [Event.starts_append, Event.starts, Event.starts_writing h.writing, h.starts_eq]
  have hx' : x.1 = Event.starts (front ++ .start kind name :: lead) + (x.1 - (id.1 + 1)) := by omega
  have hsplit : events = (front ++ .start kind name :: lead) ++ rest := by rw [hevents]; simp
  rw [Event.startOf, hx', hsplit, Event.before_append, Event.bytes_append, Event.bytes_append,
    Event.bytes_cons, Event.text, String.utf8ByteSize_empty]
  omega

section Built

variable (hbuilt : Tree.ofEvents path symbols events = .ok t)

include hbuilt

theorem kind_eq (h : t.Opens events id front kind lead) : t.kind id = kind := by
  obtain ⟨front', parts, rest', hextent⟩ := exists_extent hbuilt id
  obtain ⟨name, rest, hevents⟩ := h.split
  have hfront : front' = front := by
    rw [← hextent.before_eq, ← h.starts_eq, hevents, Event.before_append_start]
  have hsame := hextent.events_eq.symm.trans hevents
  rw [hfront, List.append_cancel_left_eq, List.cons.injEq, Event.start.injEq] at hsame
  exact hsame.1.1

/-- The first search ends at the node, if the span starts inside of the leading text. -/
theorem enclosing (h : t.Opens events id front kind lead) (hspan : span.start ≤ span.stop)
    (hstart : Event.bytes front ≤ span.start)
    (hlead : span.start < Event.bytes front + Event.bytes lead)
    (hstop : span.stop ≤ Event.bytes front + Event.bytes lead) :
    t.enclosing span = .ok id := by
  have htext : t.text = Event.written events := (Tree.ofEvents_eq_ok hbuilt).1
  have hend := h.le_stopOf
  refine enclosing_eq_ok hbuilt hspan (Span.contains_iff.2 ?_) fun x hx => ?_
  · by_cases hid : id.1 = 0
    · rw [fullSpan_root hbuilt hid, htext, Event.utf8ByteSize_written]
      exact ⟨Nat.zero_le _, Nat.le_trans hstop h.le_bytes⟩
    · rw [fullSpan_eq hbuilt hid, h.startOf_eq]
      exact ⟨hstart, Nat.le_trans hstop hend⟩
  · have hbehind := h.le_startOf hx
    refine Bool.eq_false_iff.2 fun hcontains => ?_
    have hxstart := (Span.contains_iff.1 hcontains).1
    rw [fullSpan_eq hbuilt (by omega)] at hxstart
    dsimp only at hxstart
    omega

/-- Leading trivia is no significant text of the node. -/
theorem le_span_start (h : t.Opens events id front kind lead)
    (htrivia : ∀ offset, Event.tokens offset lead = []) :
    Event.bytes front + Event.bytes lead ≤ (t.node id).span.start := by
  obtain ⟨rest, hinside⟩ := h.exists_inside_eq
  have htokens : ∀ s ∈ Event.tokensOf id.1 events,
      Event.bytes front + Event.bytes lead ≤ s.start := by
    rw [Event.tokensOf, h.startOf_eq, hinside, Event.tokens_append, htrivia, List.nil_append]
    exact fun _ => Event.le_start_of_mem_tokens
  by_cases hnone : Event.tokensOf id.1 events = []
  · rw [span_of_tokenless hbuilt hnone]
    exact h.le_stopOf
  · have hfirst := List.head?_eq_some_head hnone
    have hlast := List.getLast?_eq_some_getLast hnone
    have hbehind := htokens _ (List.head_mem hnone)
    rw [span_of_tokensOf hbuilt hfirst hlast]
    exact hbehind

end Built

end Opens

/-- Nothing stands below the arguments of an attribute. -/
theorem subtreeEnd_arguments (hbuilt : Tree.ofEvents path symbols events = .ok t)
    (hclosed : Event.ArgumentsClosed events) (hkind : t.kind id = .attributeArguments) :
    (t.node id).subtreeEnd = id.1 + 1 := by
  obtain ⟨front, parts, rest, hextent⟩ := exists_extent hbuilt id
  have hevents := hextent.events_eq
  rw [show (t.node id).kind = .attributeArguments from hkind] at hevents
  rw [hevents] at hclosed
  obtain ⟨text, tail, hparts⟩ := hclosed.of_append.1 _ rfl
  rw [hextent.subtreeEnd_eq]
  cases parts with
  | nil => exact rfl
  | trivia text parts | node kind name inner parts => exact absurd hparts (by simp [Forest.events])
  | token text parts =>
    cases parts with
    | nil => exact rfl
    | token text parts | trivia text parts | node kind name inner parts =>
      exact absurd hparts (by simp [Forest.events])

end Tree
end HotReload
