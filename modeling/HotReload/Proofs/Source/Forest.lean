import HotReload.Source.Builder

/-
  A balanced sequence of events is a forest: text at the top, and nodes with everything that is
  written inside them. `Forest.tokens` says which bytes of the text are significant; they come in
  order and stay within the forest (`tokens_bounds`, `tokens_pairwise`).
-/

namespace HotReload

namespace Event

/-- The text that an event writes. -/
def text : Event → String
  | .token text | .trivia text => text
  | .start _ _ | .finish => ""

/-- The number of bytes that events write. -/
def bytes : List Event → Nat
  | [] => 0
  | e :: rest => e.text.utf8ByteSize + bytes rest

/-- Where the significant text of some events stands, if the first event writes at an offset. -/
def tokens (offset : Nat) : List Event → List Span
  | [] => []
  | .token text :: rest =>
    ⟨offset, offset + text.utf8ByteSize⟩ :: tokens (offset + text.utf8ByteSize) rest
  | .trivia text :: rest => tokens (offset + text.utf8ByteSize) rest
  | .start _ _ :: rest | .finish :: rest => tokens offset rest

@[simp] theorem bytes_nil : bytes [] = 0 := rfl

@[simp] theorem bytes_cons (e : Event) (events : List Event) :
    bytes (e :: events) = e.text.utf8ByteSize + bytes events := rfl

@[simp] theorem bytes_append (a b : List Event) : bytes (a ++ b) = bytes a + bytes b := by
  induction a with
  | nil => simp
  | cons e a ih => simp [ih, Nat.add_assoc]

theorem tokens_append (offset : Nat) (a b : List Event) :
    tokens offset (a ++ b) = tokens offset a ++ tokens (offset + bytes a) b := by
  induction a generalizing offset with
  | nil => rfl
  | cons e a ih => cases e <;> simp [tokens, ih, text, Nat.add_assoc]

/-- Significant text stays within what the events write. -/
theorem tokens_bounds {events : List Event} {offset : Nat} {s : Span} (h : s ∈ tokens offset events) :
    offset ≤ s.start ∧ s.start ≤ s.stop ∧ s.stop ≤ offset + bytes events := by
  induction events generalizing offset with
  | nil => simp [tokens] at h
  | cons e events ih =>
    rw [bytes_cons]
    cases e with
    | token text =>
      rcases List.mem_cons.1 h with rfl | h
      · exact ⟨Nat.le_refl _, Nat.le_add_right _ _, by simp only [Event.text]; omega⟩
      · have := ih h
        simp only [Event.text]
        omega
    | trivia text =>
      have := ih h
      simp only [Event.text]
      omega
    | start kind name | finish =>
      have := ih h
      simp only [Event.text]
      omega

end Event

/-- A balanced sequence of events. -/
inductive Forest where
  | nil
  | token (text : String) (rest : Forest)
  | trivia (text : String) (rest : Forest)
  | node (kind : NodeKind) (name : Option String) (parts rest : Forest)
  deriving DecidableEq, Repr

namespace Forest

/-- The events of a forest. -/
def events : Forest → List Event
  | nil => []
  | token text rest => .token text :: rest.events
  | trivia text rest => .trivia text :: rest.events
  | node kind name parts rest => .start kind name :: (parts.events ++ .finish :: rest.events)

/-- The number of nodes. -/
def size : Forest → Nat
  | nil => 0
  | token _ rest | trivia _ rest => rest.size
  | node _ _ parts rest => parts.size + 1 + rest.size

/-- The text. -/
def text : Forest → String
  | nil => ""
  | token text rest | trivia text rest => text ++ rest.text
  | node _ _ parts rest => parts.text ++ rest.text

/-- The number of bytes of the text. -/
def bytes : Forest → Nat
  | nil => 0
  | token text rest | trivia text rest => text.utf8ByteSize + rest.bytes
  | node _ _ parts rest => parts.bytes + rest.bytes

/-- Where the significant text stands, if the forest starts at an offset. -/
def tokens (offset : Nat) : Forest → List Span
  | nil => []
  | token text rest =>
    ⟨offset, offset + text.utf8ByteSize⟩ :: rest.tokens (offset + text.utf8ByteSize)
  | trivia text rest => rest.tokens (offset + text.utf8ByteSize)
  | node _ _ parts rest => parts.tokens offset ++ rest.tokens (offset + parts.bytes)

/-- The positions of the outermost nodes, if the first one of the forest gets position `id`. -/
def roots (id : Nat) : Forest → List Nat
  | nil => []
  | token _ rest | trivia _ rest => rest.roots id
  | node _ _ parts rest => id :: rest.roots (id + 1 + parts.size)

/-- The children of all nodes of the forest, in the order in which the nodes end, if the first node
of the forest gets position `id`. -/
def listing (id : Nat) : Forest → List Nat
  | nil => []
  | token _ rest | trivia _ rest => rest.listing id
  | node _ _ parts rest =>
    parts.listing (id + 1) ++ (parts.roots (id + 1) ++ rest.listing (id + 1 + parts.size))

/-- Every node of the forest is a child of another one of it or outermost. -/
theorem length_listing_add_roots (f : Forest) (id : Nat) :
    (f.listing id).length + (f.roots id).length = f.size := by
  induction f generalizing id with
  | nil => rfl
  | token text rest ih | trivia text rest ih => exact ih id
  | node kind name parts rest ihp ihr =>
    have hparts := ihp (id + 1)
    have hrest := ihr (id + 1 + parts.size)
    simp only [listing, roots, size, List.length_append, List.length_cons]
    omega

/-! ## Events and text -/

theorem bytes_events (f : Forest) : Event.bytes f.events = f.bytes := by
  induction f with
  | nil => rfl
  | token text rest ih | trivia text rest ih => simp [events, bytes, Event.text, ih]
  | node kind name parts rest ihp ihr => simp [events, bytes, Event.text, ihp, ihr]

theorem tokens_events (f : Forest) (offset : Nat) :
    Event.tokens offset f.events = f.tokens offset := by
  induction f generalizing offset with
  | nil => rfl
  | token text rest ih | trivia text rest ih => simp only [events, Event.tokens, tokens, ih]
  | node kind name parts rest ihp ihr =>
    simp only [events, Event.tokens, tokens, Event.tokens_append, bytes_events, ihp, ihr]

theorem utf8ByteSize_text (f : Forest) : f.text.utf8ByteSize = f.bytes := by
  induction f with
  | nil => rfl
  | token text rest ih | trivia text rest ih =>
    simp only [Forest.text, bytes, String.utf8ByteSize_append, ih]
  | node kind name parts rest ihp ihr =>
    simp only [Forest.text, bytes, String.utf8ByteSize_append, ihp, ihr]

/-! ## Significant text -/

/-- Significant text stays within the forest. -/
theorem tokens_bounds {f : Forest} {offset : Nat} {s : Span} (h : s ∈ f.tokens offset) :
    offset ≤ s.start ∧ s.start ≤ s.stop ∧ s.stop ≤ offset + f.bytes := by
  rw [← tokens_events] at h
  have hbounds := Event.tokens_bounds h
  rwa [bytes_events] at hbounds

/-- Significant text comes in order. -/
theorem tokens_pairwise (f : Forest) (offset : Nat) :
    (f.tokens offset).Pairwise fun a b => a.stop ≤ b.start := by
  induction f generalizing offset with
  | nil => exact List.Pairwise.nil
  | token text rest ih =>
    exact List.Pairwise.cons (fun s hs => (tokens_bounds hs).1) (ih _)
  | trivia text rest ih => exact ih _
  | node kind name parts rest ihp ihr =>
    refine List.pairwise_append.2 ⟨ihp _, ihr _, fun a ha b hb => ?_⟩
    exact Nat.le_trans (tokens_bounds ha).2.2 (tokens_bounds hb).1

end Forest
end HotReload
