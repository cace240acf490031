import HotReload.Proofs.Source.Accept
import Mathlib.Combinatorics.Enumerative.DyckWord

/-
  Which descriptions have a tree, and what is wrong with the others. The starts and ends of a
  description are a word of steps up and down (`Event.steps`), and an event offends if it goes below
  the ground, or up from the ground for a second time (`Event.Offends`). `Tree.ofEvents_decides` is
  the main result: there is a tree exactly if the word is empty or one nested Dyck word, the fault is
  that of the first event that offends, and nodes count as unclosed only if none does.

  Up to the first offence the builder keeps as many nodes open as the word is above the ground
  (`Builder.Traces`, by induction on the events from the back). From there on its stack is no longer
  that of the word, but nothing reads it: a fault stays (`Builder.fault_run_of_some`), and the builder
  goes on as if the event that offends had not come (`Builder.SameFile`).
-/

namespace HotReload

namespace Event

/-- Where nodes start and end, as steps up and down. -/
def steps : List Event → List DyckStep
  | [] => []
  | .start _ _ :: rest => .U :: steps rest
  | .finish :: rest => .D :: steps rest
  | .token _ :: rest | .trivia _ :: rest => steps rest

/-- The number of nodes that are open behind some events. -/
def depth (events : List Event) : Nat := (steps events).count .U - (steps events).count .D

/-- The event may not come behind the others: no node is open, so there is none to end, and none to
start in if the root has been there. -/
inductive Offends (before : List Event) : Event → BuildFault → Prop
  | finish (ground : depth before = 0) : Offends before .finish .unbalanced
  | start {kind : NodeKind} {name : Option String} (ground : depth before = 0)
      (rooted : .U ∈ steps before) : Offends before (.start kind name) .secondRoot

/-- No event offends. -/
def Clean (events : List Event) : Prop :=
  ∀ before e after fault, events = before ++ e :: after → ¬Offends before e fault

/-- What is wrong with the first event that offends. -/
def FirstFault (events : List Event) (fault : BuildFault) : Prop :=
  ∃ before e after, events = before ++ e :: after ∧ Clean before ∧ Offends before e fault

/-- No node starts or ends, or the starts and ends are one balanced word that is back on the ground at
its end only. -/
def OneRooted (events : List Event) : Prop :=
  steps events = [] ∨ ∃ w : DyckWord, w.IsNested ∧ w.toList = steps events

variable {events before after : List Event} {e : Event} {fault : BuildFault}

/-! ## Words -/

theorem steps_append (a b : List Event) : steps (a ++ b) = steps a ++ steps b := by
  induction a with
  | nil => rfl
  | cons e a ih => cases e <;> simp [steps, ih]

/-- Every front part of the word is the word of a front part of the events. -/
theorem exists_steps_eq_take (events : List Event) (i : Nat) :
    ∃ before after, events = before ++ after ∧ steps before = (steps events).take i := by
  induction events generalizing i with
  | nil => exact ⟨[], [], rfl, List.take_nil.symm⟩
  | cons e events ih =>
    cases e with
    | token text | trivia text =>
      obtain ⟨before, after, rfl, h⟩ := ih i
      exact ⟨_ :: before, after, rfl, h⟩
    | start kind name | finish =>
      cases i with
      | zero => exact ⟨[], _, rfl, rfl⟩
      | succ i =>
        obtain ⟨before, after, rfl, h⟩ := ih i
        refine ⟨_ :: before, after, rfl, ?_⟩
        rw [steps, h]
        rfl

/-- Behind some text comes the next start or end, if there is one. -/
theorem exists_next (h : steps after ≠ []) :
    ∃ lead e rest, after = lead ++ e :: rest ∧ steps lead = [] ∧ e.isWriting = false := by
  induction after with
  | nil => exact absurd rfl h
  | cons e after ih =>
    cases e with
    | token text | trivia text =>
      obtain ⟨lead, e, rest, rfl, hlead, he⟩ := ih h
      exact ⟨_ :: lead, e, rest, rfl, hlead, he⟩
    | start kind name | finish => exact ⟨[], _, after, rfl, rfl, rfl⟩

/-! ## Offences -/

theorem clean_nil : Clean [] := by
  intro before e after fault h
  simp at h

theorem Clean.left (h : Clean (before ++ after)) : Clean before := by
  rintro a e b fault rfl
  exact h a e (b ++ after) fault (by simp)

theorem clean_snoc_iff : Clean (events ++ [e]) ↔ Clean events ∧ ∀ fault, ¬Offends events e fault := by
  constructor
  · exact fun h => ⟨h.left, fun fault => h events e [] fault rfl⟩
  · rintro ⟨hclean, he⟩ a e' b fault heq
    rcases List.eq_nil_or_concat b with rfl | ⟨b, last, rfl⟩
    · obtain ⟨rfl, h⟩ := List.append_inj' heq rfl
      obtain rfl := List.singleton_inj.1 h
      exact he fault
    · have hrest : events = a ++ e' :: b := by
        rw [List.concat_eq_append, ← List.cons_append, ← List.append_assoc] at heq
        exact (List.append_inj' heq rfl).1
      exact hclean a e' b fault hrest

theorem FirstFault.append (h : FirstFault before fault) (after : List Event) :
    FirstFault (before ++ after) fault := by
  obtain ⟨a, e, b, rfl, hclean, he⟩ := h
  exact ⟨a, e, b ++ after, by simp, hclean, he⟩

theorem FirstFault.not_clean (h : FirstFault events fault) : ¬Clean events := by
  obtain ⟨before, e, after, heq, -, he⟩ := h
  exact fun hclean => hclean before e after fault heq he

theorem clean_or_firstFault (events : List Event) :
    Clean events ∨ ∃ fault, FirstFault events fault := by
  induction events using List.reverseRecOn with
  | nil => exact Or.inl clean_nil
  | append_singleton events e ih =>
    rcases ih with hclean | ⟨fault, hfault⟩
    · by_cases he : ∃ fault, Offends events e fault
      · obtain ⟨fault, he⟩ := he
        exact Or.inr ⟨fault, events, e, [], rfl, hclean, he⟩
      · exact Or.inl (clean_snoc_iff.2 ⟨hclean, not_exists.1 he⟩)
    · exact Or.inr ⟨fault, hfault.append [e]⟩

/-- Without an offence no more nodes end than start. -/
theorem Clean.count_le (h : Clean events) : (steps events).count .D ≤ (steps events).count .U := by
  induction events using List.reverseRecOn with
  | nil => exact Nat.le_refl _
  | append_singleton events e ih =>
    obtain ⟨hclean, he⟩ := clean_snoc_iff.1 h
    have ih := ih hclean
    rw [steps_append, List.count_append, List.count_append]
    cases e with
    | token text | trivia text => exact ih
    | start kind name => exact Nat.le_trans ih (Nat.le_add_right _ _)
    | finish =>
      have hpos : depth events ≠ 0 := fun hzero => he _ (.finish hzero)
      unfold depth at hpos
      simp only [steps, List.count_cons_self, List.count_nil, List.count_cons_of_ne, ne_eq,
        reduceCtorEq, not_false_eq_true]
      omega

/-- Between the start and the end of the root a clean word is above the ground. -/
theorem Clean.depth_pos (h : Clean (before ++ after)) (hroot : .U ∈ steps before)
    (hmore : steps after ≠ []) : 0 < depth before := by
  obtain ⟨lead, e, rest, rfl, hlead, he⟩ := exists_next hmore
  have hsteps : steps (before ++ lead) = steps before := by
    rw [steps_append, hlead, List.append_nil]
  have hoffends := fun fault => h (before ++ lead) e rest fault (by simp)
  refine Nat.pos_of_ne_zero fun hzero => ?_
  have hground : depth (before ++ lead) = 0 := by rw [depth, hsteps]; exact hzero
  cases e with
  | token text | trivia text => simp [isWriting] at he
  | start kind name => exact hoffends _ (.start hground (hsteps ▸ hroot))
  | finish => exact hoffends _ (.finish hground)

/-- A clean word starts with a step up. -/
theorem Clean.mem_steps (h : Clean events) (hsome : steps events ≠ []) : .U ∈ steps events := by
  obtain ⟨s, hs⟩ := List.exists_mem_of_ne_nil _ hsome
  cases s with
  | U => exact hs
  | D => exact List.count_pos_iff.1 (Nat.lt_of_lt_of_le (List.count_pos_iff.2 hs) h.count_le)

theorem clean_of_steps_eq_nil (h : steps events = []) : Clean events := by
  rintro before e after fault rfl
  rw [steps_append] at h
  obtain ⟨-, he⟩ := List.append_eq_nil_iff.1 h
  rintro (_ | _)
  · simp [steps] at he
  · simp [steps] at he

/-- In a nested word no event offends. -/
theorem clean_of_isNested {w : DyckWord} (hnested : w.IsNested) (hw : w.toList = steps events) :
    Clean events := by
  rintro before e after fault rfl hoffends
  rw [steps_append] at hw
  cases hoffends with
  | finish ground =>
    -- the end of no node takes the word below the ground
    have hle := w.count_D_le_count_U ((steps before).length + 1)
    rw [hw, List.take_length_add_append] at hle
    simp only [steps, List.take_succ_cons, List.take_zero, List.count_append,
      List.count_cons_self, List.count_nil, List.count_cons_of_ne, ne_eq, reduceCtorEq,
      not_false_eq_true] at hle
    unfold depth at ground
    omega
  | start ground rooted =>
    -- in front of the second root the word is back on the ground too early
    have hlt := hnested.2 (i := (steps before).length) (List.length_pos_of_mem rooted)
      (by rw [hw, List.length_append]; simp [steps])
    rw [hw, List.take_left] at hlt
    unfold depth at ground
    omega

/-- A clean word that is back on the ground is nested. -/
theorem Clean.exists_isNested (h : Clean events) (hground : depth events = 0)
    (hsome : steps events ≠ []) : ∃ w : DyckWord, w.IsNested ∧ w.toList = steps events := by
  have hle := h.count_le
  unfold depth at hground
  refine ⟨⟨steps events, by omega, fun i => ?front⟩, ⟨DyckWord.toList_ne_nil.1 hsome, ?nested⟩, rfl⟩
  case front =>
    obtain ⟨before, after, rfl, htake⟩ := exists_steps_eq_take events i
    exact htake ▸ h.left.count_le
  case nested =>
    intro i hi hlength
    obtain ⟨before, after, rfl, htake⟩ := exists_steps_eq_take events i
    dsimp only at hlength ⊢
    have hbefore : (steps before).length = i := by
      rw [htake, List.length_take, Nat.min_eq_left (Nat.le_of_lt hlength)]
    have hfront : steps before ≠ [] := List.ne_nil_of_length_pos (hbefore ▸ hi)
    have hmore : steps after ≠ [] := by
      intro hnil
      rw [steps_append, hnil, List.append_nil, hbefore] at hlength
      exact Nat.lt_irrefl _ hlength
    have hpos := h.depth_pos (h.left.mem_steps hfront) hmore
    rw [← htake]
    unfold depth at hpos
    omega

/-- A description has one root exactly if no event offends and all nodes end. -/
theorem oneRooted_iff : OneRooted events ↔ Clean events ∧ depth events = 0 := by
  constructor
  · rintro (hnone | ⟨w, hnested, hw⟩)
    · exact ⟨clean_of_steps_eq_nil hnone, by rw [depth, hnone]; rfl⟩
    · exact ⟨clean_of_isNested hnested hw,
        by rw [depth, ← hw, w.count_U_eq_count_D, Nat.sub_self]⟩
  · rintro ⟨hclean, hground⟩
    by_cases hnone : steps events = []
    · exact Or.inl hnone
    · exact Or.inr (hclean.exists_isNested hground hnone)

end Event

namespace Builder

variable {b b' : Builder} {events : List Event} {e : Event} {fault : BuildFault}

/-! ## Without an offence -/

/-- The builder has come through the events without a fault, and has the nodes open that they leave
open. -/
structure Traces (events : List Event) (b : Builder) : Prop where
  fault_eq : b.fault = none
  stack_eq : b.stack.length = Event.depth events
  nodes_iff : b.nodes.isEmpty = true ↔ .U ∉ Event.steps events

theorem traces_empty : empty.Traces [] := ⟨rfl, rfl, by simp [empty, Event.steps]⟩

theorem Traces.stack_eq_nil_iff (h : b.Traces events) : b.stack = [] ↔ Event.depth events = 0 := by
  rw [← List.length_eq_zero_iff, h.stack_eq]

theorem Traces.open_or_unrooted (h : b.Traces events) {kind : NodeKind} {name : Option String}
    (he : ¬Event.Offends events (.start kind name) .secondRoot) :
    ¬(b.stack.isEmpty && !b.nodes.isEmpty) = true := by
  rw [Bool.and_eq_true, Bool.not_eq_true', Bool.eq_false_iff, ne_eq, h.nodes_iff, Decidable.not_not,
    List.isEmpty_iff, h.stack_eq_nil_iff]
  exact fun ⟨hground, hrooted⟩ => he (.start hground hrooted)

theorem stack_finish {o : OpenNode} {rest : List OpenNode} (h : b.stack = o :: rest) :
    b.finish.stack = rest ∧ b.finish.fault = b.fault ∧ b.finish.nodes.size = b.nodes.size := by
  unfold finish
  split
  · next hnil => simp [h] at hnil
  · next o' rest' hcons =>
    obtain ⟨rfl, rfl⟩ := List.cons.inj (h.symm.trans hcons)
    simp

/-- An event that does not offend is followed. -/
theorem Traces.step (h : b.Traces events) (hclean : Event.Clean (events ++ [e])) :
    (b.step e).Traces (events ++ [e]) := by
  have hle := hclean.left.count_le
  have hoffends := (Event.clean_snoc_iff.1 hclean).2
  have hstack := h.stack_eq
  have hsteps := Event.steps_append events [e]
  cases e with
  | token text | trivia text =>
    rw [Event.steps, Event.steps, List.append_nil] at hsteps
    refine ⟨h.fault_eq, ?_, by rw [hsteps]; exact h.nodes_iff⟩
    rw [Event.depth, hsteps]
    simpa [Builder.step, token, trivia, Event.depth] using hstack
  | start kind name =>
    rw [Event.steps, Event.steps] at hsteps
    rw [Builder.step, start, if_neg (h.open_or_unrooted (hoffends _))]
    refine ⟨h.fault_eq, ?_, ?_⟩
    · unfold Event.depth at hstack ⊢
      rw [hsteps, List.count_append, List.count_append, length_startStack, hstack]
      simp
      omega
    · simp [hsteps]
  | finish =>
    rw [Event.steps, Event.steps] at hsteps
    have hopen : Event.depth events ≠ 0 := fun hground => hoffends _ (.finish hground)
    obtain ⟨o, rest, hcons⟩ := List.exists_cons_of_ne_nil (mt h.stack_eq_nil_iff.1 hopen)
    obtain ⟨hrest, hfault, hsize⟩ := stack_finish hcons
    have hnodes : b.finish.nodes.isEmpty = b.nodes.isEmpty := by
      rw [Array.isEmpty, hsize, Array.isEmpty]
    refine ⟨hfault.trans h.fault_eq, ?_, ?_⟩
    · rw [hcons, List.length_cons] at hstack
      unfold Event.depth at hstack ⊢
      change b.finish.stack.length = _
      rw [hsteps, List.count_append, List.count_append, hrest]
      simp
      omega
    · change b.finish.nodes.isEmpty = true ↔ _
      rw [hnodes, hsteps, h.nodes_iff]
      simp

/-- Without an offence all events are followed. -/
theorem traces_run (h : Event.Clean events) : (empty.run events).Traces events := by
  induction events using List.reverseRecOn with
  | nil => exact traces_empty
  | append_singleton events e ih =>
    rw [run_append]
    exact (ih h.left).step h

/-! ## From an offence on -/

/-- A fault stays the one it is. -/
theorem fault_step_of_some (h : b.fault = some fault) (e : Event) :
    (b.step e).fault = some fault := by
  have hfail : ∀ f, (b.fail f).fault = some fault := by
    intro f
    unfold fail
    rw [h]
    rfl
  cases e with
  | token text | trivia text => exact h
  | start kind name =>
    rw [Builder.step, start]
    split
    · exact hfail _
    · exact h
  | finish =>
    rw [Builder.step, finish]
    split
    · exact hfail _
    · exact h

theorem fault_run_of_some (h : b.fault = some fault) (events : List Event) :
    (b.run events).fault = some fault := by
  induction events generalizing b with
  | nil => exact h
  | cons e events ih => exact ih (fault_step_of_some h e)

/-- An event that offends is recorded, and that is all. -/
theorem Traces.step_eq_fail (h : b.Traces events) (he : Event.Offends events e fault) :
    b.step e = b.fail fault := by
  cases he with
  | finish ground =>
    rw [Builder.step, finish]
    split
    · rfl
    · next hcons => simp [h.stack_eq_nil_iff.2 ground] at hcons
  | start ground rooted =>
    have hnodes : b.nodes.isEmpty = false := by
      rw [Bool.eq_false_iff, ne_eq, h.nodes_iff, Decidable.not_not]
      exact rooted
    rw [Builder.step, start, if_pos (by rw [h.stack_eq_nil_iff.2 ground, hnodes]; rfl)]

theorem fault_run_of_firstFault (h : Event.FirstFault events fault) :
    (empty.run events).fault = some fault := by
  obtain ⟨before, e, after, rfl, hclean, he⟩ := h
  have htraces := traces_run hclean
  rw [run_append, run_cons, htraces.step_eq_fail he]
  apply fault_run_of_some
  unfold fail
  rw [htraces.fault_eq]
  rfl

/-- Two builders agree in all but the fault. -/
structure SameFile (b b' : Builder) : Prop where
  text : b.text = b'.text
  nodes : b.nodes = b'.nodes
  childList : b.childList = b'.childList
  stack : b.stack = b'.stack

theorem SameFile.step (h : b.SameFile b') (e : Event) : (b.step e).SameFile (b'.step e) := by
  obtain ⟨text, nodes, childList, stack, fault, linked, hfits⟩ := b
  obtain ⟨text', nodes', childList', stack', fault', linked', hfits'⟩ := b'
  obtain ⟨htext, hnodes, hlist, hstack⟩ := h
  dsimp only at htext hnodes hlist hstack
  subst htext hnodes hlist hstack
  cases e with
  | token text | trivia text => exact ⟨rfl, rfl, rfl, rfl⟩
  | start kind name =>
    rw [Builder.step, start, Builder.step, start]
    split
    · exact ⟨rfl, rfl, rfl, rfl⟩
    · exact ⟨rfl, rfl, rfl, rfl⟩
  | finish =>
    cases stack with
    | nil => exact ⟨rfl, rfl, rfl, rfl⟩
    | cons o rest => exact ⟨rfl, rfl, rfl, rfl⟩

theorem SameFile.run (h : b.SameFile b') (events : List Event) :
    (b.run events).SameFile (b'.run events) := by
  induction events generalizing b b' with
  | nil => exact h
  | cons e events ih => exact ih (h.step e)

/-- The builder goes on as if an event that offends had not come. -/
theorem sameFile_of_offends {before after : List Event} (hclean : Event.Clean before)
    (he : Event.Offends before e fault) :
    (empty.run (before ++ e :: after)).SameFile (empty.run (before ++ after)) := by
  rw [run_append, run_append, run_cons, (traces_run hclean).step_eq_fail he]
  have hfail : ((empty.run before).fail fault).SameFile (empty.run before) :=
    ⟨rfl, rfl, rfl, rfl⟩
  exact hfail.run after

end Builder

namespace Tree

variable {path : String} {symbols : Symbols} {events : List Event} {fault : BuildFault}

theorem ofEvents_eq_error_iff {e : BuildError} : Tree.ofEvents path symbols events = .error e ↔
    ∃ fault, (Builder.empty.run events).finalFault = some fault ∧ e = ⟨path, fault⟩ := by
  unfold Tree.ofEvents
  dsimp only
  split
  · next fault hfault => simp [hfault, eq_comm]
  · next hnone => simp [hnone]

/-- What is wrong with a description whose text is not too long. -/
theorem finalFault_eq_some_iff (hsize : Event.bytes events ≤ Text.maxOffset) :
    (Builder.empty.run events).finalFault = some fault ↔ Event.FirstFault events fault ∨
      Event.Clean events ∧ Event.depth events ≠ 0 ∧ fault = .unclosed (Event.depth events) := by
  have htext : (Builder.empty.run events).text.utf8ByteSize ≤ Text.maxOffset :=
    (Builder.utf8ByteSize_run_empty events).trans_le hsize
  unfold Builder.finalFault
  rcases Event.clean_or_firstFault events with hclean | ⟨found, hfound⟩
  · have hnone : ¬Event.FirstFault events fault := fun hfault => hfault.not_clean hclean
    obtain ⟨hfault, hstack, -⟩ := Builder.traces_run hclean
    rw [hfault, hstack, if_neg (Nat.not_lt.2 htext)]
    by_cases hground : Event.depth events = 0
    · simp [hground, hnone]
    · simp [hground, hnone, hclean, eq_comm]
  · rw [Builder.fault_run_of_firstFault hfound]
    constructor
    · intro heq
      obtain rfl : found = fault := Option.some.inj heq
      exact Or.inl hfound
    · rintro (hfault | ⟨h, -⟩)
      · rw [← Builder.fault_run_of_firstFault hfound, Builder.fault_run_of_firstFault hfault]
        rfl
      · exact absurd h hfound.not_clean

/-- A description has a tree exactly if its nodes are one root at most, with everything else inside.
Otherwise the error is the first event that offends, which changes nothing but the fault and is not
hidden by what comes after, or it is that nodes are open at the end. -/
theorem ofEvents_decides (path : String) (symbols : Symbols) (events : List Event)
    (hsize : Event.bytes events ≤ Text.maxOffset) :
    ((∃ t, Tree.ofEvents path symbols events = .ok t) ↔ Event.OneRooted events) ∧
    (∀ e, Tree.ofEvents path symbols events = .error e ↔ ∃ fault, e = ⟨path, fault⟩ ∧
      (Event.FirstFault events fault ∨ Event.Clean events ∧ Event.depth events ≠ 0 ∧
        fault = .unclosed (Event.depth events))) ∧
    (∀ before e after fault, events = before ++ e :: after → Event.Clean before →
      Event.Offends before e fault →
      (Builder.empty.run events).SameFile (Builder.empty.run (before ++ after))) ∧
    ∀ fault more, Event.FirstFault events fault →
      Tree.ofEvents path symbols (events ++ more) = .error ⟨path, fault⟩ := by
  have herror : ∀ e, Tree.ofEvents path symbols events = .error e ↔ ∃ fault, e = ⟨path, fault⟩ ∧
      (Event.FirstFault events fault ∨ Event.Clean events ∧ Event.depth events ≠ 0 ∧
        fault = .unclosed (Event.depth events)) := by
    intro e
    rw [ofEvents_eq_error_iff]
    apply exists_congr
    intro fault
    rw [finalFault_eq_some_iff hsize, and_comm]
  refine ⟨?accepted, herror, ?ignored, ?kept⟩
  case accepted =>
    rw [Event.oneRooted_iff]
    constructor
    · rintro ⟨t, hok⟩
      have hnone : ∀ e, Tree.ofEvents path symbols events ≠ .error e := by simp [hok]
      have hclean : Event.Clean events := (Event.clean_or_firstFault events).resolve_right
        fun ⟨fault, hfault⟩ => hnone _ ((herror _).2 ⟨fault, rfl, Or.inl hfault⟩)
      refine ⟨hclean, not_not.1 fun hopen => ?_⟩
      exact hnone _ ((herror _).2 ⟨_, rfl, Or.inr ⟨hclean, hopen, rfl⟩⟩)
    · rintro ⟨hclean, hground⟩
      cases hres : Tree.ofEvents path symbols events with
      | ok t => exact ⟨t, rfl⟩
      | error e =>
        obtain ⟨fault, -, hfault | ⟨-, hopen, -⟩⟩ := (herror e).1 hres
        · exact absurd hclean hfault.not_clean
        · exact absurd hground hopen
  case ignored =>
    rintro before e after fault rfl hclean he
    exact Builder.sameFile_of_offends hclean he
  case kept =>
    intro fault more hfault
    apply ofEvents_eq_error_iff.2
    refine ⟨fault, ?_, rfl⟩
    unfold Builder.finalFault
    rw [Builder.fault_run_of_firstFault (hfault.append more)]
    rfl

/-- A root, a second one with a comment inside, and an end too many. -/
def twoRoots : List Event :=
  [.start .compilationUnit none, .token "a", .finish, .start .compilationUnit none, .trivia "b",
    .finish, .finish]

/-- The second root is what is wrong with it, and not that the end of its only node comes with no node
open. -/
theorem ofEvents_decides_twoRoots : Event.bytes twoRoots ≤ Text.maxOffset ∧
    Tree.ofEvents "a.cs" {} twoRoots = .error ⟨"a.cs", .secondRoot⟩ ∧
    ¬Event.OneRooted twoRoots := by
  have hsize : Event.bytes twoRoots ≤ Text.maxOffset := by decide +kernel
  obtain ⟨haccepted, herror, -, hkept⟩ := ofEvents_decides "a.cs" {} twoRoots hsize
  have hclean : Event.Clean (twoRoots.take 3) := by
    refine (Event.oneRooted_iff.1 (Or.inr ⟨DyckWord.nest 0, DyckWord.IsNested.nest, ?_⟩)).1
    rfl
  have hfirst : Event.FirstFault twoRoots .secondRoot :=
    ⟨_, _, _, rfl, hclean, .start rfl (by decide)⟩
  have hres := hkept .secondRoot [] hfirst
  rw [List.append_nil] at hres
  refine ⟨hsize, hres, fun hone => ?_⟩
  obtain ⟨t, ht⟩ := haccepted.2 hone
  rw [hres] at ht
  cases ht

end Tree

end HotReload
