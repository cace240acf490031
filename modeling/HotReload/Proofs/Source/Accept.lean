import HotReload.Proofs.Source.Layout

/-
  Which descriptions the builder accepts, and the tree it makes of them. An accepted description is
  text without nodes, or one root with text around it (`Rooted`); `Tree.ofEvents_eq_ok` gives the
  nodes of the tree in closed form, by the layout of what stands inside the root.

  A node that starts below an open one and is closed at the end has a forest inside
  (`Builder.exists_forest`, by induction on the number of events). Outside the root nothing may
  start or end: either is a fault, and a fault stays.
-/

namespace HotReload

namespace Event

/-- The event writes text, and no node starts or ends. -/
def isWriting : Event → Bool
  | .token _ | .trivia _ => true
  | .start _ _ | .finish => false

/-- The text that events write. -/
def written : List Event → String
  | [] => ""
  | e :: events => e.text ++ written events

theorem utf8ByteSize_written (events : List Event) :
    (written events).utf8ByteSize = bytes events := by
  induction events with
  | nil => rfl
  | cons e events ih => rw [written, String.utf8ByteSize_append, ih, bytes_cons]

end Event

namespace Builder

/-! ## Text and faults -/

theorem text_step (b : Builder) (e : Event) : (b.step e).text = b.text ++ e.text := by
  cases e with
  | start kind name =>
    simp only [step, start, Event.text, String.append_empty]
    split <;> rfl
  | token text => rfl
  | trivia text => rfl
  | finish =>
    simp only [step, finish, Event.text, String.append_empty]
    split <;> rfl

theorem text_run (b : Builder) (events : List Event) :
    (b.run events).text = b.text ++ Event.written events := by
  induction events generalizing b with
  | nil => simp [run, Event.written]
  | cons e events ih => rw [run_cons, ih, text_step, Event.written, String.append_assoc]

theorem text_run_empty (events : List Event) :
    (empty.run events).text = Event.written events := by
  rw [text_run]
  exact String.empty_append

theorem utf8ByteSize_run_empty (events : List Event) :
    (empty.run events).text.utf8ByteSize = Event.bytes events := by
  rw [text_run_empty, Event.utf8ByteSize_written]

/-- A fault stays. -/
theorem fault_of_step {b : Builder} {e : Event} (h : (b.step e).fault = none) :
    b.fault = none := by
  have hfail : ∀ f, (b.fail f).fault = none → b.fault = none := by
    intro f hf
    unfold fail at hf
    cases hb : b.fault with
    | none => rfl
    | some _ => simp [hb] at hf
  cases e with
  | start kind name =>
    simp only [step, start] at h
    split at h
    · exact hfail _ h
    · exact h
  | token text => exact h
  | trivia text => exact h
  | finish =>
    simp only [step, finish] at h
    split at h
    · exact hfail _ h
    · exact h

theorem fault_of_run {b : Builder} {events : List Event} (h : (b.run events).fault = none) :
    b.fault = none := by
  induction events generalizing b with
  | nil => exact h
  | cons e events ih => exact fault_of_step (ih h)

/-- Nodes stay. -/
theorem size_le_run (b : Builder) (events : List Event) :
    b.nodes.size ≤ (b.run events).nodes.size := by
  induction events generalizing b with
  | nil => exact Nat.le_refl _
  | cons e events ih =>
    have hstep : b.nodes.size ≤ (b.step e).nodes.size := by
      cases e with
      | start kind name =>
        simp only [step, start]
        split
        · exact Nat.le_refl _
        · simp
      | token text => exact Nat.le_refl _
      | trivia text => exact Nat.le_refl _
      | finish =>
        simp only [step, finish]
        split
        · exact Nat.le_refl _
        · simp
    exact Nat.le_trans hstep (ih _)

theorem fault_fail (b : Builder) (f : BuildFault) : (b.fail f).fault ≠ none := by
  unfold fail
  cases b.fault <;> simp

theorem finalFault_eq_none_iff {b : Builder} :
    b.finalFault = none ↔
      b.fault = none ∧ b.stack = [] ∧ b.text.utf8ByteSize ≤ Text.maxOffset := by
  unfold finalFault
  cases b.fault with
  | some fault => simp
  | none =>
    by_cases hstack : b.stack = []
    · by_cases hsize : b.text.utf8ByteSize ≤ Text.maxOffset
      · simp [hstack, hsize]
      · simp [hstack, hsize, Nat.lt_of_not_le hsize]
    · simp [hstack]

/-! ## Inside the root -/

theorem stack_start {b : Builder} (hopen : b.stack ≠ []) (kind : NodeKind) (name : Option String) :
    (b.start kind name).stack = b.startStack :=
  (starts (.inl hopen) kind name).stack

theorem length_stack_finish {b : Builder} {n : Nat} (h : b.stack.length = n + 1) :
    b.finish.stack.length = n := by
  obtain ⟨o, rest, hcons⟩ := List.exists_cons_of_length_eq_add_one h
  rw [(finish_of_open hcons).2.1]
  rw [hcons] at h
  exact Nat.succ.inj h

/-- A forest leaves as many nodes open as there were. -/
theorem length_stack_run_forest (f : Forest) {b : Builder} (hopen : b.stack ≠ []) :
    (b.run f.events).stack.length = b.stack.length := by
  induction f generalizing b with
  | nil => rfl
  | token text rest ih =>
    have hlength : (b.token text).stack.length = b.stack.length := by simp [token]
    rw [← hlength]
    exact ih (b := b.token text) (by simpa [token] using hopen)
  | trivia text rest ih => exact ih hopen
  | node kind name parts rest ihp ihr =>
    have hparts := ihp (b := b.start kind name)
      (by rw [stack_start hopen]; exact List.cons_ne_nil _ _)
    rw [stack_start hopen, length_startStack] at hparts
    have hfinish := length_stack_finish hparts
    rw [Forest.events, run_node, ← hfinish]
    exact ihr (List.length_pos_iff.1 (by rw [hfinish]; exact List.length_pos_iff.2 hopen))

/-- If an open node ends at last, what comes before its end is a forest. -/
theorem exists_forest (events : List Event) {b : Builder} (hopen : b.stack ≠ [])
    (hclosed : (b.run events).stack = []) :
    ∃ (f : Forest) (rest : List Event), events = f.events ++ .finish :: rest := by
  match events with
  | [] => exact absurd hclosed hopen
  | .token text :: rest =>
    obtain ⟨f, tail, rfl⟩ := exists_forest rest (b := b.token text)
      (by simpa [token] using hopen) hclosed
    exact ⟨.token text f, tail, rfl⟩
  | .trivia text :: rest =>
    obtain ⟨f, tail, rfl⟩ := exists_forest rest (b := b.trivia text) hopen hclosed
    exact ⟨.trivia text f, tail, rfl⟩
  | .finish :: rest => exact ⟨.nil, rest, rfl⟩
  | .start kind name :: rest =>
    obtain ⟨parts, tail, hrest⟩ := exists_forest rest (b := b.start kind name)
      (by rw [stack_start hopen]; exact List.cons_ne_nil _ _) hclosed
    -- behind the end of the inner node, the outer one is still open
    have hparts := length_stack_run_forest parts (b := b.start kind name)
      (by rw [stack_start hopen]; exact List.cons_ne_nil _ _)
    rw [stack_start hopen, length_startStack] at hparts
    have hfinish := length_stack_finish hparts
    rw [hrest, run_node] at hclosed
    have hshorter : tail.length < rest.length := by
      rw [hrest, List.length_append, List.length_cons]
      omega
    obtain ⟨f, tail', rfl⟩ := exists_forest tail
      (List.length_pos_iff.1 (by rw [hfinish]; exact List.length_pos_iff.2 hopen)) hclosed
    refine ⟨.node kind name parts f, tail', ?_⟩
    rw [hrest, Forest.events, List.cons_append, List.append_assoc, List.cons_append]
termination_by events.length

/-! ## Outside the root -/

/-- Outside a root that has ended, only text may follow. -/
theorem isWriting_of_run {b : Builder} {events : List Event} (hclosed : b.stack = [])
    (hroot : b.nodes.isEmpty = false) (h : (b.run events).fault = none) :
    ∀ e ∈ events, e.isWriting := by
  induction events generalizing b with
  | nil => simp
  | cons e events ih =>
    have hstep : (b.step e).fault = none := fault_of_run h
    have hwriting : e.isWriting ∧ (b.step e).stack = [] ∧ (b.step e).nodes = b.nodes := by
      cases e with
      | token text => exact ⟨rfl, by simp [step, token, hclosed], rfl⟩
      | trivia text => exact ⟨rfl, hclosed, rfl⟩
      | start kind name =>
        simp only [step, start, hclosed, hroot] at hstep
        exact absurd hstep (fault_fail _ _)
      | finish =>
        simp only [step, finish] at hstep
        split at hstep
        · exact absurd hstep (fault_fail _ _)
        · next hcons => simp [hclosed] at hcons
    intro e' he'
    rcases List.mem_cons.1 he' with rfl | he'
    · exact hwriting.1
    · exact ih hwriting.2.1 (by rw [hwriting.2.2, hroot]) h e' he'

/-- Text outside of every node changes nothing but the text. -/
theorem run_writing {b : Builder} {events : List Event} (hclosed : b.stack = [])
    (h : ∀ e ∈ events, e.isWriting) :
    (b.run events).nodes = b.nodes ∧ (b.run events).childList = b.childList ∧
      (b.run events).stack = [] := by
  induction events generalizing b with
  | nil => exact ⟨rfl, rfl, hclosed⟩
  | cons e events ih =>
    have hevents := fun e' he' => h e' (List.mem_cons_of_mem _ he')
    cases e with
    | token text => exact ih (b := b.token text) (by simp [token, hclosed]) hevents
    | trivia text => exact ih (b := b.trivia text) hclosed hevents
    | start kind name => simpa [Event.isWriting] using h _ List.mem_cons_self
    | finish => simpa [Event.isWriting] using h _ List.mem_cons_self

/-- Behind the end of a root, nothing is open. -/
theorem stack_finish_root {b : Builder} (hclosed : b.stack = []) (hempty : b.nodes = #[])
    (kind : NodeKind) (name : Option String) (parts : Forest) :
    ((b.start kind name).run parts.events).finish.stack = [] := by
  have hstart := starts (.inr hempty) kind name
  have hparts := length_stack_run_forest parts (b := b.start kind name)
    (by rw [hstart.stack]; exact List.cons_ne_nil _ _)
  rw [hstart.stack, length_startStack, hclosed] at hparts
  exact List.eq_nil_of_length_eq_zero (length_stack_finish hparts)

end Builder

/-! ## Accepted descriptions -/

/-- A description with one root, and text around it. -/
structure Rooted where
  before : List Event
  kind : NodeKind
  name : Option String
  parts : Forest
  after : List Event
  before_writing : ∀ e ∈ before, e.isWriting
  after_writing : ∀ e ∈ after, e.isWriting

namespace Rooted

/-- The events of the description. -/
def events (r : Rooted) : List Event :=
  r.before ++ .start r.kind r.name :: (r.parts.events ++ .finish :: r.after)

/-- Where the root starts. -/
def offset (r : Rooted) : Nat := Event.bytes r.before

/-- The nodes of the description: the root reaches over the whole text. -/
def rows (r : Rooted) : List Node :=
  { r.parts.row none 0 r.offset 0 r.kind r.name with fullSpan := ⟨0, Event.bytes r.events⟩ } ::
    r.parts.layout (some 0) 1 r.offset 0

/-- The children of all nodes: the root ends last. -/
def listing (r : Rooted) : List Nat := r.parts.listing 1 ++ r.parts.roots 1

theorem bytes_events (r : Rooted) :
    Event.bytes r.events = r.offset + r.parts.bytes + Event.bytes r.after := by
  simp [events, offset, Event.text, Forest.bytes_events, Nat.add_assoc]

/-- What ends without a fault has one root at most. -/
theorem exists_events_eq {b : Builder} {events : List Event} (hstack : b.stack = [])
    (hempty : b.nodes = #[]) (hclosed : (b.run events).stack = [])
    (hfault : (b.run events).fault = none) :
    (∀ e ∈ events, e.isWriting) ∨ ∃ r : Rooted, events = r.events := by
  induction events generalizing b with
  | nil => exact Or.inl (by simp)
  | cons e events ih =>
    have hwriting : ∀ b' : Builder, b.step e = b' → e.isWriting → b'.stack = [] →
        b'.nodes = #[] → (∀ e' ∈ e :: events, e'.isWriting) ∨ ∃ r : Rooted, e :: events = r.events := by
      intro b' hb' he hstack' hempty'
      rw [Builder.run_cons, hb'] at hclosed hfault
      rcases ih hstack' hempty' hclosed hfault with h | ⟨r, hr⟩
      · refine Or.inl fun e' he' => ?_
        rcases List.mem_cons.1 he' with rfl | he'
        · exact he
        · exact h e' he'
      · refine Or.inr ⟨{ r with before := e :: r.before, before_writing := fun e' he' => ?_ }, ?_⟩
        · rcases List.mem_cons.1 he' with rfl | he'
          · exact he
          · exact r.before_writing e' he'
        · rw [hr]
          rfl
    cases e with
    | token text => exact hwriting _ rfl rfl (by simp [Builder.step, Builder.token, hstack]) hempty
    | trivia text => exact hwriting _ rfl rfl hstack hempty
    | finish =>
      have hstep := Builder.fault_of_run (b := b.step .finish) hfault
      simp only [Builder.step, Builder.finish] at hstep
      split at hstep
      · exact absurd hstep (Builder.fault_fail _ _)
      · next hcons => simp [hstack] at hcons
    | start kind name =>
      have hstart := Builder.starts (.inr hempty) kind name
      have hopen : (b.start kind name).stack ≠ [] := by
        rw [hstart.stack]
        exact List.cons_ne_nil _ _
      obtain ⟨parts, after, rfl⟩ := Builder.exists_forest events hopen hclosed
      refine Or.inr ⟨⟨[], kind, name, parts, after, by simp, ?_⟩, rfl⟩
      have hfinish := Builder.stack_finish_root hstack hempty kind name parts
      have hsize := Builder.size_le_run (b.start kind name) (parts.events ++ [.finish])
      rw [hstart.size_nodes, Builder.run_append] at hsize
      rw [Builder.run_node] at hfault
      refine Builder.isWriting_of_run hfinish ?_ hfault
      rw [Array.isEmpty_eq_false_iff, ← Array.size_pos_iff]
      exact Nat.lt_of_lt_of_le (Nat.succ_pos _) hsize

/-- The builder makes the rows of a description with one root, and its listing. -/
theorem toList_run (r : Rooted) (h : Event.bytes r.events ≤ Text.maxOffset) :
    (Builder.empty.run r.events).nodes.toList =
        r.parts.row none 0 r.offset 0 r.kind r.name :: r.parts.layout (some 0) 1 r.offset 0 ∧
      (Builder.empty.run r.events).childList.toList = r.listing := by
  obtain ⟨hnodes, hlist, hclosed⟩ := Builder.run_writing (b := .empty) rfl r.before_writing
  have htext : (Builder.empty.run r.before).text.utf8ByteSize = r.offset :=
    Builder.utf8ByteSize_run_empty r.before
  rw [bytes_events] at h
  have hstart := Builder.starts (.inr hnodes) r.kind r.name
  have hparts := Builder.run_forest r.parts ((Builder.empty.run r.before).start r.kind r.name)
    (by rw [hstart.stack]; exact List.cons_ne_nil _ _) (by rw [hstart.text, htext]; omega)
  rw [hstart.text, hstart.stack, hstart.size_nodes, hstart.childList] at hparts
  have hroot := hstart.finish (by rw [htext]; omega) hparts
  have hnone : (Builder.empty.run r.before).nodes.size = 0 := by rw [hnodes]; rfl
  have hunlisted : (Builder.empty.run r.before).childList.size = 0 := by rw [hlist]; rfl
  rw [hclosed, hnone, hunlisted, htext] at hroot
  have hstack := Builder.stack_finish_root hclosed hnodes r.kind r.name r.parts
  obtain ⟨hafter, hafterList, -⟩ := Builder.run_writing hstack r.after_writing
  rw [events, Builder.run_append, Builder.run_node, hafter, hafterList, hroot.nodes,
    hroot.childList, hnodes, hlist]
  exact ⟨rfl, rfl⟩

/-- The tree that the builder leaves has the rows of the description. -/
theorem toList_nodes_ofBuilder (r : Rooted) (path : String) (symbols : Symbols)
    (h : Event.bytes r.events ≤ Text.maxOffset) :
    (Tree.ofBuilder path symbols (Builder.empty.run r.events)).nodes.toList = r.rows := by
  have hposition : (Builder.empty.run r.events).position = Event.bytes r.events := by
    rw [Builder.position_eq] <;> rw [Builder.utf8ByteSize_run_empty]
    exact h
  simp only [Tree.ofBuilder, Array.toList_modify]
  rw [(r.toList_run h).1, hposition]
  rfl

end Rooted

namespace Tree

variable {path : String} {symbols : Symbols} {events : List Event} {t : Tree}

/-- A description has the tree that its events leave, unless they leave a fault. -/
theorem ofEvents_eq_ok_iff : Tree.ofEvents path symbols events = .ok t ↔
    (Builder.empty.run events).finalFault = none ∧
      t = .ofBuilder path symbols (Builder.empty.run events) := by
  unfold Tree.ofEvents
  dsimp only
  split
  · next fault hfault => simp [hfault]
  · next hnone => simp [hnone, eq_comm]

theorem eq_ofBuilder (h : Tree.ofEvents path symbols events = .ok t) :
    t = .ofBuilder path symbols (Builder.empty.run events) := (ofEvents_eq_ok_iff.1 h).2

/-- What an accepted description makes: the text as it was written, and no nodes or the rows of a
description with one root. -/
theorem ofEvents_eq_ok (h : Tree.ofEvents path symbols events = .ok t) :
    t.text = Event.written events ∧ Event.bytes events ≤ Text.maxOffset ∧
    ((t.nodes = #[] ∧ ∀ e ∈ events, e.isWriting) ∨
      ∃ r : Rooted, events = r.events ∧ t.nodes.toList = r.rows) := by
  obtain ⟨hfault, rfl⟩ := ofEvents_eq_ok_iff.1 h
  have hnone := Builder.finalFault_eq_none_iff.1 hfault
  rw [Builder.utf8ByteSize_run_empty] at hnone
  refine ⟨Builder.text_run_empty events, hnone.2.2, ?_⟩
  rcases Rooted.exists_events_eq (b := .empty) rfl rfl hnone.2.1 hnone.1 with hwriting | ⟨r, rfl⟩
  · refine Or.inl ⟨?_, hwriting⟩
    simp only [Tree.ofBuilder, (Builder.run_writing (b := .empty) rfl hwriting).1]
    rfl
  · exact Or.inr ⟨r, rfl, r.toList_nodes_ofBuilder path symbols hnone.2.2⟩

/-- The list of children is the one that the builder has written. -/
theorem childList_of_ofEvents (h : Tree.ofEvents path symbols events = .ok t) :
    t.childList = (Builder.empty.run events).childList := by
  rw [eq_ofBuilder h]
  rfl

/-- Text outside of nodes has no children. -/
theorem childList_of_writing (h : Tree.ofEvents path symbols events = .ok t)
    (hwriting : ∀ e ∈ events, e.isWriting) : t.childList = #[] := by
  rw [childList_of_ofEvents h, (Builder.run_writing (b := .empty) rfl hwriting).2.1]
  rfl

end Tree

namespace Rooted

variable {path : String} {symbols : Symbols} {t : Tree} {r : Rooted}

/-- The rows of a description with one root are the nodes of its tree. -/
theorem toList_nodes (h : Tree.ofEvents path symbols r.events = .ok t) :
    t.nodes.toList = r.rows := by
  rw [Tree.eq_ofBuilder h]
  exact r.toList_nodes_ofBuilder path symbols (Tree.ofEvents_eq_ok h).2.1

/-- A description with one root has its listing as the list of children. -/
theorem toList_childList (h : Tree.ofEvents path symbols r.events = .ok t) :
    t.childList.toList = r.listing := by
  rw [Tree.childList_of_ofEvents h, (r.toList_run (Tree.ofEvents_eq_ok h).2.1).2]

end Rooted

end HotReload
