import HotReload.Proofs.Verdict.SignificantEdits
import HotReload.Proofs.Source.Spans

/-
  Significant text outside of the root. The builder appends a token to the text also when no node is
  open, and then no node covers it. Such stray text stands in front of the root or behind it
  (`Rooted.stray_events`), so it is apart from the root's significant span and from every other node
  (`Tree.stray_apart`).

  For the test on trivia that is the one gap (`Verdict.trivia_iff_stray`). A region that passes it
  overlaps no significant text but stray one; and a region within stray text passes it, if the roots of
  the two versions are alike. So `Verdict.stray_edit_ignored` is an edit of a token that counts as
  trivia.
-/

namespace HotReload

namespace Event

/-- Where no node is open, all tokens are stray. -/
theorem stray_writing {es : List Event} (h : ∀ e ∈ es, e.isWriting) (offset : Nat)
    (events : List Event) : stray 0 offset (es ++ events) =
      tokens offset es ++ stray 0 (offset + bytes es) events := by
  induction es generalizing offset with
  | nil => rfl
  | cons e es ih =>
    have hes := fun e' he' => h e' (List.mem_cons_of_mem _ he')
    cases e with
    | token text | trivia text =>
      simp [stray, tokens, ih hes, Event.text, Nat.add_assoc]
    | start kind name => simpa [isWriting] using h _ List.mem_cons_self
    | finish => simpa [isWriting] using h _ List.mem_cons_self

/-- In a node, no token is stray. -/
theorem stray_forest (f : Forest) (nested offset : Nat) (events : List Event) :
    stray (nested + 1) offset (f.events ++ events) = stray (nested + 1) (offset + f.bytes) events := by
  induction f generalizing nested offset events with
  | nil => rfl
  | token text rest ih | trivia text rest ih =>
    simp [Forest.events, stray, Forest.bytes, ih, Nat.add_assoc]
  | node kind name parts rest ihp ihr =>
    simp only [Forest.events, List.cons_append, List.append_assoc, stray, ihp, Forest.bytes,
      ← Nat.add_assoc]
    exact ihr nested _ events

end Event

namespace Rooted

/-- What is stray stands before the parts of the root or behind them. -/
theorem stray_events (r : Rooted) : Event.stray 0 0 r.events =
    Event.tokens 0 r.before ++ Event.tokens (r.offset + r.parts.bytes) r.after := by
  have hafter := Event.stray_writing r.after_writing (r.offset + r.parts.bytes) []
  rw [List.append_nil] at hafter
  rw [events, Event.stray_writing r.before_writing, Event.stray, Event.stray_forest, Event.stray,
    Nat.zero_add, Nat.zero_add]
  exact congrArg _ (hafter.trans (List.append_nil _))

theorem stray_bounds {r : Rooted} {s : Span} (h : s ∈ Event.stray 0 0 r.events) :
    s.start ≤ s.stop ∧ (s.stop ≤ r.offset ∨ r.offset + r.parts.bytes ≤ s.start) := by
  rw [stray_events, List.mem_append] at h
  rcases h with h | h
  · have hbounds := Event.tokens_bounds h
    rw [Nat.zero_add] at hbounds
    exact ⟨hbounds.2.1, Or.inl hbounds.2.2⟩
  · have hbounds := Event.tokens_bounds h
    exact ⟨hbounds.2.1, Or.inr hbounds.1⟩

end Rooted

namespace Tree

variable {path : String} {symbols : Symbols} {events : List Event} {t : Tree}

/-- The byte is significant text of the root. -/
def OwnsByte (t : Tree) (byte : Nat) : Prop :=
  ∃ root, t.root = .ok root ∧ byte ∈ (t.node root).span

/-- All significant text is significant text of the root. -/
def OwnsTokens (t : Tree) (events : List Event) : Prop :=
  ∀ token ∈ Event.tokens 0 events, ∀ byte ∈ token, t.OwnsByte byte

/-- Stray text is apart from what is significant in any node, and from any node but the root. -/
theorem stray_apart (hbuilt : Tree.ofEvents path symbols events = .ok t) {s : Span}
    (hs : s ∈ Event.stray 0 0 events) (id : t.Id) :
    (s.stop ≤ (t.node id).span.start ∨ (t.node id).span.stop ≤ s.start) ∧
      (id.1 ≠ 0 → s.stop ≤ (t.node id).fullSpan.start ∨ (t.node id).fullSpan.stop ≤ s.start) := by
  obtain ⟨-, -, ⟨hempty, -⟩ | ⟨r, rfl, hrows⟩⟩ := Tree.ofEvents_eq_ok hbuilt
  · exact absurd id.2 (by simp [hempty])
  obtain ⟨hle, hoff⟩ := Rooted.stray_bounds hs
  rcases r.eq_or_places hrows id with ⟨hid, hspan, -⟩ | hplaces
  · -- the root as a node of a forest of its own
    have hself : (Forest.node r.kind r.name r.parts .nil).Places none 0 r.offset 0 0
        (r.parts.row none 0 r.offset 0 r.kind r.name) := Or.inl ⟨rfl, rfl⟩
    have hbounds := Forest.span_of_places hself
    rw [← hspan] at hbounds
    simp only [Forest.row] at hbounds
    exact ⟨by omega, fun hne => absurd hid hne⟩
  · have hbounds := Forest.bounds_of_places hplaces
    have hspan := Forest.span_of_places hplaces
    exact ⟨by omega, fun _ => by omega⟩

/-- There is a piece only if there is a root. -/
theorem size_pos_of_piece (hbuilt : Tree.ofEvents path symbols events = .ok t) {p : Piece}
    (hp : p ∈ Event.pieces 0 [] 0 events) : 0 < t.nodes.size := by
  obtain ⟨-, -, ⟨-, hwriting⟩ | ⟨r, rfl, hrows⟩⟩ := Tree.ofEvents_eq_ok hbuilt
  · have hnone := Rooted.pieces_writing hwriting 0 0 []
    rw [List.append_nil] at hnone
    rw [hnone] at hp
    exact absurd hp List.not_mem_nil
  · rw [Rooted.size_eq hrows]
    exact Nat.lt_of_lt_of_le Nat.zero_lt_one (Nat.le_add_right _ _)

/-- A byte of significant text is the root's unless it is stray. -/
theorem ownsByte_iff (hbuilt : Tree.ofEvents path symbols events = .ok t) {token : Span}
    (htoken : token ∈ Event.tokens 0 events) {byte : Nat} (hbyte : byte ∈ token) :
    t.OwnsByte byte ↔ ∀ s ∈ Event.stray 0 0 events, byte ∉ s := by
  refine ⟨fun ⟨root, _, hmem⟩ s hs hstray => ?_, fun hnot => ?_⟩
  · obtain ⟨hstart, hstop⟩ := hmem
    obtain ⟨hstart', hstop'⟩ := hstray
    rcases (stray_apart hbuilt hs root).1 with h | h <;> omega
  rcases (Event.mem_tokens_iff 0 []).1 htoken with ⟨owner, hp⟩ | hstray
  · let root : t.Id := ⟨0, size_pos_of_piece hbuilt hp⟩
    have hroot : root.1 = 0 := rfl
    have hcontains := (root_contains hbuilt hp hroot).1 rfl
    exact ⟨root, root_eq_ok_iff.2 hroot, Span.mem_of_contains hcontains hbyte⟩
  · exact absurd hbyte (hnot token hstray)

/-- All significant text is the root's, unless some of it is stray. -/
theorem ownsTokens_iff (hbuilt : Tree.ofEvents path symbols events = .ok t) :
    t.OwnsTokens events ↔ ∀ s ∈ Event.stray 0 0 events, s.isEmpty = true := by
  refine ⟨fun howns s hs => ?_, fun hempty token htoken byte hbyte => ?_⟩
  · have htoken : s ∈ Event.tokens 0 events :=
      (Event.mem_tokens_iff 0 []).2 (Or.inr hs)
    have hle := (Event.tokens_bounds htoken).2.1
    by_contra hne
    have hbyte : s.start ∈ s := ⟨Nat.le_refl _, Nat.lt_of_le_of_ne hle (by simpa [Span.isEmpty] using hne)⟩
    exact (ownsByte_iff hbuilt htoken hbyte).1 (howns s htoken _ hbyte) s hs hbyte
  · refine (ownsByte_iff hbuilt htoken hbyte).2 fun s hs hmem => ?_
    have hpoint : s.start = s.stop := of_decide_eq_true (hempty s hs)
    obtain ⟨hstart, hstop⟩ := hmem
    omega

/-- A span that does not overlap the significant text of the node around it overlaps no significant
text but stray one. -/
theorem stray_of_overlaps (hbuilt : Tree.ofEvents path symbols events = .ok t) {span : Span} {id : t.Id}
    (henclosing : t.enclosing span = .ok id) (hapart : (t.node id).span.overlaps span = false)
    {token : Span} (htoken : token ∈ Event.tokens 0 events) (hoverlaps : token.overlaps span = true) :
    token ∈ Event.stray 0 0 events := by
  rcases (Event.mem_tokens_iff 0 []).1 htoken with ⟨owner, hp⟩ | hstray
  · rw [(below_of_overlaps hbuilt hp henclosing hoverlaps).2.2 rfl] at hapart
    exact absurd hapart (by decide)
  · exact hstray

/-- Around a span within stray text there is the root only, and its significant text is apart. -/
theorem enclosing_of_stray (hbuilt : Tree.ofEvents path symbols events = .ok t) {span : Span} {id : t.Id}
    (henclosing : t.enclosing span = .ok id) {s : Span} (hs : s ∈ Event.stray 0 0 events)
    (hcontains : s.contains span = true) (hoverlaps : s.overlaps span = true) :
    id.1 = 0 ∧ (t.node id).span.overlaps span = false := by
  obtain ⟨hspan, hfull⟩ := stray_apart hbuilt hs id
  refine ⟨?_, Bool.eq_false_iff.2 fun hroot => ?_⟩
  · by_contra hid
    have hnot := Span.not_apart ((contains_of_enclosing henclosing).resolve_left hid) hoverlaps
    have := hfull hid
    omega
  · have hnot := Span.not_apart hcontains hroot
    omega

end Tree

namespace Verdict

variable {oldPath newPath : String} {oldSymbols newSymbols : Symbols} {oldEvents newEvents : List Event}
  {old new : Tree}

/-- The span lies within stray text, and touches it. -/
def InStray (events : List Event) (span : Span) : Prop :=
  ∃ s ∈ Event.stray 0 0 events, s.contains span = true ∧ s.overlaps span = true

/-- The significant text that a span overlaps is stray. -/
def OnlyStray (events : List Event) (span : Span) : Prop :=
  ∀ token ∈ Event.tokens 0 events, token.overlaps span = true → token ∈ Event.stray 0 0 events

/-- The root owns all significant text but what is written while no node is open. In two versions,
a region that passes for trivia overlaps no other significant text, and one within such text passes
if the roots are alike. -/
theorem trivia_iff_stray (hold : Tree.ofEvents oldPath oldSymbols oldEvents = .ok old)
    (hnew : Tree.ofEvents newPath newSymbols newEvents = .ok new) :
    (∀ token ∈ Event.tokens 0 newEvents, ∀ byte ∈ token,
        new.OwnsByte byte ↔ ∀ s ∈ Event.stray 0 0 newEvents, byte ∉ s) ∧
      (new.OwnsTokens newEvents ↔ ∀ s ∈ Event.stray 0 0 newEvents, s.isEmpty = true) ∧
      ∀ (r : Region) (o : old.Id) (n : new.Id), old.enclosing r.span = .ok o →
        new.enclosing r.newSpan = .ok n →
        (isTrivia old new r o n = true → OnlyStray oldEvents r.span ∧ OnlyStray newEvents r.newSpan) ∧
        (InStray oldEvents r.span → InStray newEvents r.newSpan → o.1 = 0 ∧ n.1 = 0 ∧
          (isTrivia old new r o n = true ↔
            old.kind o = new.kind n ∧ old.declarationPath o = new.declarationPath n)) := by
  refine ⟨fun token htoken byte hbyte => Tree.ownsByte_iff hnew htoken hbyte,
    Tree.ownsTokens_iff hnew, fun r o n ho hn => ⟨fun htrivia => ?_, ?_⟩⟩
  · obtain ⟨holdApart, hnewApart, -, -⟩ := isTrivia_iff.1 htrivia
    exact ⟨fun _ => Tree.stray_of_overlaps hold ho holdApart,
      fun _ => Tree.stray_of_overlaps hnew hn hnewApart⟩
  · rintro ⟨s, hs, hcontains, hoverlaps⟩ ⟨u, hu, hcontains', hoverlaps'⟩
    obtain ⟨hroot, holdApart⟩ := Tree.enclosing_of_stray hold ho hs hcontains hoverlaps
    obtain ⟨hroot', hnewApart⟩ := Tree.enclosing_of_stray hnew hn hu hcontains' hoverlaps'
    refine ⟨hroot, hroot', fun htrivia => (isTrivia_iff.1 htrivia).2.2, fun ⟨hkind, hpath⟩ => ?_⟩
    exact isTrivia_iff.2 ⟨holdApart, hnewApart, hkind, hpath⟩

/-- A token in front of the root. -/
def strayEvents (text : String) : List Event := [.token text, .start .compilationUnit none, .finish]

theorem trivia_iff_stray_edited :
    ∃ (old new : Tree) (o : old.Id) (n : new.Id),
      Tree.ofEvents "A.cs" .empty (strayEvents "x") = .ok old ∧
      Tree.ofEvents "A.cs" .empty (strayEvents "y") = .ok new ∧
      old.enclosing ⟨0, 1⟩ = .ok o ∧ new.enclosing ⟨0, 1⟩ = .ok n ∧
      isTrivia old new ⟨⟨0, 1⟩, 0, "y"⟩ o n = true := by
  refine ⟨_, _, ⟨0, by decide⟩, ⟨0, by decide⟩, rfl, rfl, ?hold, ?hnew, (((trivia_iff_stray
    (show Tree.ofEvents "A.cs" .empty (strayEvents "x") = .ok _ from rfl)
    (show Tree.ofEvents "A.cs" .empty (strayEvents "y") = .ok _ from rfl)).2.2
      ⟨⟨0, 1⟩, 0, "y"⟩ _ _ ?hold ?hnew).2 ⟨⟨0, 1⟩, by decide⟩ ⟨⟨0, 1⟩, by decide⟩).2.2.2
        ⟨by decide, ?path⟩⟩
  case hold => decide +kernel
  case hnew => decide +kernel
  case path => decide +kernel

/-- The root does not own a token in front of it, and an edit of that token counts as trivia. -/
theorem stray_edit_ignored :
    ∃ old new : Tree, Tree.ofEvents "A.cs" .empty (strayEvents "x") = .ok old ∧
      Tree.ofEvents "A.cs" .empty (strayEvents "y") = .ok new ∧
      ¬old.OwnsTokens (strayEvents "x") ∧ ¬new.OwnsTokens (strayEvents "y") ∧
      old.text ≠ new.text ∧ classify .standard old new = .triviaOnly := by
  refine ⟨_, _, rfl, rfl, ?_, ?_, by decide, by decide +kernel⟩
  · rw [Tree.ownsTokens_iff rfl]
    decide
  · rw [Tree.ownsTokens_iff rfl]
    decide

end Verdict

end HotReload
