import HotReload.Proofs.Source.Nesting

/-
  Significant spans and significant text. The tree does not store tokens, so this is about the events
  it was built from: significant text is written into some node or stray (`Event.mem_tokens_iff`).
  As long as no token is written outside of the root, whatever significant text lies in the full span
  of a node lies in its significant span (`Tree.mem_span_of_mem_tokens`), and all of it lies in the one
  of the root.

  For a span and the node around it (`Tree.noTokenIn_of_not_overlaps`): if the two do not overlap,
  the span covers no significant text. The node is the root or contains the span, so a shared byte
  would lie in its significant span.
-/

namespace HotReload

/-- The bytes of a span. -/
instance : Membership Nat Span := ⟨fun s byte => s.start ≤ byte ∧ byte < s.stop⟩

namespace Span

theorem mem_iff {s : Span} {byte : Nat} : byte ∈ s ↔ s.start ≤ byte ∧ byte < s.stop := Iff.rfl

theorem overlaps_of_mem {s t : Span} {byte : Nat} (hs : byte ∈ s) (ht : byte ∈ t) :
    s.overlaps t = true := by
  obtain ⟨hs₁, hs₂⟩ := hs
  obtain ⟨ht₁, ht₂⟩ := ht
  have hs₃ : s.isEmpty = false := decide_eq_false (by omega)
  have ht₃ : t.isEmpty = false := decide_eq_false (by omega)
  unfold overlaps
  rw [hs₃, ht₃]
  simp
  omega

theorem mem_of_contains {s t : Span} {byte : Nat} (h : s.contains t = true) (ht : byte ∈ t) :
    byte ∈ s := by
  obtain ⟨ht₁, ht₂⟩ := ht
  obtain ⟨hstart, hstop⟩ := contains_iff.1 h
  exact ⟨by omega, by omega⟩

end Span

/-- The events write no significant text into a span. -/
def Event.NoTokenIn (events : List Event) (span : Span) : Prop :=
  ∀ token ∈ Event.tokens 0 events, ∀ byte ∈ token, byte ∉ span

/-- Every significant text is written while a node is open, if the builder follows the events. -/
def Builder.tokensInside (b : Builder) : List Event → Bool
  | [] => true
  | .token text :: rest => !b.stack.isEmpty && (b.token text).tokensInside rest
  | .trivia text :: rest => (b.trivia text).tokensInside rest
  | .start kind name :: rest => (b.start kind name).tokensInside rest
  | .finish :: rest => b.finish.tokensInside rest

namespace Event

/-- Significant text that is written while no node is open. So many nodes are open at the start. -/
def stray (nested offset : Nat) : List Event → List Span
  | [] => []
  | .start _ _ :: rest => stray (nested + 1) offset rest
  | .finish :: rest => stray (nested - 1) offset rest
  | .trivia text :: rest => stray nested (offset + text.utf8ByteSize) rest
  | .token text :: rest =>
    (if nested = 0 then [⟨offset, offset + text.utf8ByteSize⟩] else []) ++
      stray nested (offset + text.utf8ByteSize) rest

/-- Significant text is written into a node or stray. -/
theorem mem_tokens_iff (next : Nat) (stack : List Nat) {offset : Nat} {events : List Event}
    {s : Span} : s ∈ tokens offset events ↔
      (∃ owner, ⟨owner, true, s⟩ ∈ pieces next stack offset events) ∨
        s ∈ stray stack.length offset events := by
  induction events generalizing next stack offset with
  | nil => simp [tokens, pieces, stray]
  | cons e events ih =>
    cases e with
    | start kind name => exact ih (next + 1) (next :: stack)
    | finish =>
      have hrest := @ih next stack.tail offset
      rwa [List.length_tail] at hrest
    | trivia text =>
      have hrest := @ih next stack (offset + text.utf8ByteSize)
      cases stack <;> simpa [tokens, pieces, stray] using hrest
    | token text =>
      have hrest := @ih next stack (offset + text.utf8ByteSize)
      cases stack with
      | nil => simp [tokens, pieces, stray, hrest, or_left_comm]
      | cons owner stack => simp [tokens, pieces, stray, hrest, exists_or, or_assoc]

/-- Nothing is stray if every token is written while a node is open. A mistake leaves fewer nodes open
than have started. -/
theorem stray_eq_nil {b : Builder} {events : List Event} (h : b.tokensInside events = true)
    {nested : Nat} (hnested : b.stack.length ≤ nested) (offset : Nat) :
    stray nested offset events = [] := by
  induction events generalizing b nested offset with
  | nil => rfl
  | cons e events ih =>
    cases e with
    | start kind name =>
      refine ih (b := b.start kind name) h ?_ offset
      unfold Builder.start
      split
      · exact Nat.le_succ_of_le hnested
      · rw [Builder.length_startStack]
        exact Nat.succ_le_succ hnested
    | finish =>
      refine ih (b := b.finish) h ?_ offset
      unfold Builder.finish
      split
      · next hnone => simp [Builder.fail, hnone]
      · next hcons =>
        rw [hcons] at hnested
        exact Nat.le_sub_one_of_lt hnested
    | trivia text => exact ih (b := b.trivia text) h hnested _
    | token text =>
      obtain ⟨hopen, hrest⟩ := Bool.and_eq_true_iff.1 h
      have hpos : nested ≠ 0 := by
        rintro rfl
        simp [List.eq_nil_of_length_eq_zero (Nat.le_zero.1 hnested)] at hopen
      rw [stray, if_neg hpos, List.nil_append]
      exact ih (b := b.token text) hrest (by simpa [Builder.token] using hnested) _

end Event

/-! ## In a tree -/

namespace Tree

variable {path : String} {symbols : Symbols} {events : List Event} {t : Tree}

/-- If nothing significant stands outside of the root, all of it is written in some node. -/
theorem exists_piece (hinside : Builder.empty.tokensInside events = true) {s : Span}
    (hs : s ∈ Event.tokens 0 events) : ∃ w, ⟨w, true, s⟩ ∈ Event.pieces 0 [] 0 events := by
  rcases (Event.mem_tokens_iff 0 []).1 hs with hpiece | hstray
  · exact hpiece
  · have hnone : Event.stray 0 0 events = [] := Event.stray_eq_nil hinside (Nat.le_refl 0) 0
    exact absurd (hnone ▸ hstray) List.not_mem_nil

/-- Significant text lies in the span of the root, and in the span of every node around it. -/
theorem mem_span_of_mem_tokens (hbuilt : Tree.ofEvents path symbols events = .ok t)
    (hinside : Builder.empty.tokensInside events = true) {id : t.Id} {s : Span}
    (hs : s ∈ Event.tokens 0 events) {byte : Nat} (hbyte : byte ∈ s)
    (hfull : id.1 = 0 ∨ byte ∈ (t.node id).fullSpan) : byte ∈ (t.node id).span := by
  obtain ⟨w, hw⟩ := exists_piece hinside hs
  rcases hfull with hid | hfull
  · exact Span.mem_of_contains ((root_contains hbuilt hw hid).1 rfl) hbyte
  · obtain ⟨hstart, hstop⟩ := hbyte
    obtain ⟨hfullStart, hfullStop⟩ := hfull
    rcases apart_or_below hbuilt hw id with h | h | h
    · dsimp only at h
      omega
    · dsimp only at h
      omega
    · exact Span.mem_of_contains (h.1 rfl) ⟨hstart, hstop⟩

/-- The node around a span is the root or contains the span. -/
theorem contains_of_enclosing {span : Span} {id : t.Id} (h : t.enclosing span = .ok id) :
    id.1 = 0 ∨ (t.node id).fullSpan.contains span = true := by
  have hfrom : ∀ start : t.Id, start.1 = 0 ∨ (t.node start).fullSpan.contains span = true →
      (t.enclosingFrom span start).1 = 0 ∨
        (t.node (t.enclosingFrom span start)).fullSpan.contains span = true := by
    intro start hstart
    fun_induction t.enclosingFrom span start with
    | case1 id hnone => exact hstart
    | case2 id c hsome hcontains ih => exact ih (Or.inr hcontains)
    | case3 id c hsome hcontains => exact hstart
  unfold enclosing root at h
  split at h
  · rw [← Except.ok.inj h]
    exact hfrom _ (Or.inl rfl)
  · simp [Except.map] at h

/-- A span that does not overlap the significant text of the node around it covers no significant
text at all. -/
theorem noTokenIn_of_not_overlaps (hbuilt : Tree.ofEvents path symbols events = .ok t)
    (hinside : Builder.empty.tokensInside events = true) {span : Span} {id : t.Id}
    (henclosing : t.enclosing span = .ok id) (h : (t.node id).span.overlaps span = false) :
    Event.NoTokenIn events span := by
  intro token htoken byte hbyte hspan
  have hfull : id.1 = 0 ∨ byte ∈ (t.node id).fullSpan :=
    (contains_of_enclosing henclosing).imp_right fun hc => Span.mem_of_contains hc hspan
  have hmem := mem_span_of_mem_tokens hbuilt hinside htoken hbyte hfull
  rw [Span.overlaps_of_mem hmem hspan] at h
  exact absurd h (by decide)

end Tree
end HotReload
