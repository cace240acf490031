import HotReload.Proofs.Verdict.RegionSafety

/-
  What a verdict other than a decline says about significant text that a region takes away, brings in
  or splits, in files without attributes. None of it is written straight into a declaration, and all
  of it stands in the body of a member that the verdict records, by the position of the member in
  the new version (`Passes.old_overlap`, `Passes.new_overlap`).

  Both come from one fact: the node around a region is an ancestor of whatever owns the text that
  the region overlaps (`Tree.below_of_overlaps`). So a declaration whose text is overlapped stands
  at or below that node, and between the node and the text there is no other body of a member.
-/

namespace HotReload

theorem Span.overlaps_of_contains {s t r : Span} (h : s.contains t = true)
    (ht : t.start ≤ t.stop) (hoverlaps : t.overlaps r = true) : s.overlaps r = true := by
  obtain ⟨hstart, hstop⟩ := contains_iff.1 h
  unfold overlaps isEmpty at hoverlaps ⊢
  by_cases hr : r.start = r.stop
  · simp only [hr, decide_true, if_true, Bool.and_eq_true, decide_eq_true_eq] at hoverlaps ⊢
    omega
  · by_cases hte : t.start = t.stop <;> by_cases hse : s.start = s.stop <;>
      simp only [hr, hte, hse, decide_true, decide_false, if_true, if_false, Bool.and_eq_true,
        decide_eq_true_eq, Bool.false_eq_true] at hoverlaps ⊢ <;> omega

/-- What overlaps a span inside of another one is not apart from that one. -/
theorem Span.not_apart {s p r : Span} (h : s.contains r = true)
    (hoverlaps : p.overlaps r = true) : s.start < p.stop ∧ p.start < s.stop := by
  obtain ⟨hstart, hstop⟩ := contains_iff.1 h
  unfold overlaps isEmpty at hoverlaps
  by_cases hr : r.start = r.stop <;> by_cases hpe : p.start = p.stop <;>
    simp only [hr, hpe, decide_true, decide_false, if_true, if_false, Bool.and_eq_true,
      decide_eq_true_eq, Bool.false_eq_true] at hoverlaps <;> omega

namespace Tree

variable {path : String} {symbols : Symbols} {events : List Event} {t : Tree}

/-- The node around a span is an ancestor of whatever owns a piece that the span overlaps, and
overlaps the span itself if the piece is significant. -/
theorem below_of_overlaps (hbuilt : Tree.ofEvents path symbols events = .ok t) {p : Piece}
    (hp : p ∈ Event.pieces 0 [] 0 events) {span : Span} {id : t.Id}
    (henclosing : t.enclosing span = .ok id) (hoverlaps : p.span.overlaps span = true) :
    id.1 ≤ p.owner ∧ p.owner < (t.node id).subtreeEnd ∧
      (p.significant = true → (t.node id).span.overlaps span = true) := by
  obtain ⟨hordered, -⟩ := piece_bounds hbuilt hp (Nat.zero_lt_of_lt id.2)
  have hbelow : (p.significant = true → (t.node id).span.contains p.span = true) ∧
      id.1 ≤ p.owner ∧ p.owner < (t.node id).subtreeEnd := by
    rcases contains_of_enclosing henclosing with hid | hcontains
    · obtain ⟨hspan, hend⟩ := root_contains hbuilt hp hid
      exact ⟨hspan, by omega, hend⟩
    · have hapart := Span.not_apart hcontains hoverlaps
      rcases apart_or_below hbuilt hp id with h | h | h
      · omega
      · omega
      · exact h
  exact ⟨hbelow.2.1, hbelow.2.2,
    fun hs => Span.overlaps_of_contains (hbelow.1 hs) hordered hoverlaps⟩

/-- Nodes below one that contains no declaration are none. -/
theorem isDeclaration_eq_false {id d : t.Id} (h : t.containsDeclaration id = false)
    (hle : id.1 ≤ d.1) (hlt : d.1 < (t.node id).subtreeEnd) : (t.kind d).isDeclaration = false := by
  refine not_isDeclaration_of_mem_descendants h (List.mem_filter.2 ⟨List.mem_finRange d, ?_⟩)
  simp [hle, hlt]

theorem isDeclaration_of_ownerOfBody? {body owner : t.Id} {target : Target}
    (h : t.ownerOfBody? body = some (owner, target)) :
    ∃ above, t.parent? body = some above ∧ (t.kind above).isDeclaration = true := by
  cases target with
  | method =>
    obtain ⟨-, hparent, hkind⟩ := owns_of_ownerOfBody? h
    exact ⟨owner, hparent, by rw [hkind]; rfl⟩
  | accessor a =>
    obtain ⟨-, -, -, accessor, hparent, hkind, -⟩ := owns_of_ownerOfBody? h
    exact ⟨accessor, hparent, by rw [hkind]; rfl⟩

/-- Below a node that contains no declaration, the nearest body of a member is the one around that
node. -/
theorem bodyTarget?_eq (hbuilt : Tree.ofEvents path symbols events = .ok t) {a b : t.Id}
    (hfree : t.containsDeclaration a = false) (hab : a.1 ≤ b.1)
    (hb : b.1 < (t.node a).subtreeEnd) : t.bodyTarget? b = t.bodyTarget? a := by
  obtain ⟨between, hancestors, hbelow⟩ := exists_ancestors_eq hbuilt hab hb
  unfold bodyTarget?
  rw [hancestors, List.filter_append, List.findSome?_append]
  have hnone : ((between.filter fun n => (t.kind n).isBody).findSome? t.ownerOfBody?) = none := by
    refine List.findSome?_eq_none_iff.2 fun x hx => ?_
    obtain ⟨hax, hxa⟩ := hbelow x (List.mem_filter.1 hx).1
    cases hx : t.ownerOfBody? x with
    | none => rfl
    | some owner =>
      obtain ⟨above, habove, hkind⟩ := isDeclaration_of_ownerOfBody? hx
      obtain ⟨p, hp, hap, hpx⟩ := exists_parent? hbuilt hax hxa
      obtain rfl := Option.some.inj (hp.symm.trans habove)
      rw [isDeclaration_eq_false hfree hap (Nat.lt_trans hpx hxa)] at hkind
      exact absurd hkind (by decide)
  rw [hnone, Option.none_or]

end Tree

namespace Verdict

/-- In files without attributes: what a region between two nodes is, in a verdict that does not
decline and has these intents. -/
inductive Passes (old new : Tree) (intents : SortedSet Intent) (r : Region) (o : old.Id)
    (n : new.Id) : Prop where
  | trivia (h : isTrivia old new r o n = true)
  | body (oldOwner : old.Id) (newOwner : new.Id) (target : Target)
      (hold : old.bodyTarget? o = some (oldOwner, target))
      (hnew : new.bodyTarget? n = some (newOwner, target))
      (hpath : old.declarationPath oldOwner = new.declarationPath newOwner)
      (holdFree : old.containsDeclaration o = false) (hnewFree : new.containsDeclaration n = false)
      (hrecorded : ⟨newOwner, target⟩ ∈ intents)

/-- Without attributes, a region that does not decline its file is trivia or the edit of a body. -/
theorem exists_passes {config : ReloadConfig} {old new : Tree} {regions : List Region}
    (hattributes : ∀ id, old.kind id ≠ .attributeArguments)
    (hsafe : (ofRegions config old new regions).isDeclined = false) {r : Region}
    (hr : r ∈ regions) :
    ∃ o n, old.enclosing r.span = .ok o ∧ new.enclosing r.newSpan = .ok n ∧
      Passes old new (ofRegions config old new regions).intents r o n := by
  obtain ⟨classes, hclasses, hverdict⟩ := exists_classes hsafe (List.ne_nil_of_mem hr)
  obtain ⟨c, hc, hclass⟩ := exists_of_mapM hclasses hr
  obtain ⟨o, n, ho, hn, hat⟩ := exists_of_classifyRegion hclass
  refine ⟨o, n, ho, hn, ?_⟩
  rcases classifyAt_eq_ok hat with htrivia | hlocation | hbody
  · exact .trivia htrivia
  · obtain ⟨name, ⟨arguments, -, hkind, -⟩, -⟩ := exists_of_inSourceLocation hlocation
    exact absurd hkind (hattributes arguments)
  · obtain ⟨oldOwner, newOwner, target, hold, hnew, holdFree, hnewFree, hpath, rfl⟩ := hbody
    refine .body oldOwner newOwner target hold hnew hpath holdFree hnewFree ?_
    rw [hverdict]
    exact mem_intents_ofClasses hc

variable {oldPath newPath : String} {oldSymbols newSymbols : Symbols}
  {oldEvents newEvents : List Event} {old new : Tree}

namespace Passes

variable {intents : SortedSet Intent} {r : Region} {o : old.Id} {n : new.Id}

/-- Significant text that the region overlaps in the old version stands in a body that is recorded,
and in no declaration of that body. -/
theorem old_overlap (h : Passes old new intents r o n)
    (hold : Tree.ofEvents oldPath oldSymbols oldEvents = .ok old)
    (ho : old.enclosing r.span = .ok o) {p : Piece} (hp : p ∈ Event.pieces 0 [] 0 oldEvents)
    (hsignificant : p.significant = true) (hoverlaps : p.span.overlaps r.span = true)
    {w : old.Id} (hw : w.1 = p.owner) :
    (old.kind w).isDeclaration = false ∧
    ∃ oldOwner newOwner target, old.bodyTarget? w = some (oldOwner, target) ∧
      old.declarationPath oldOwner = new.declarationPath newOwner ∧
      ⟨newOwner.1, target⟩ ∈ intents := by
  obtain ⟨hle, hlt, hspan⟩ := Tree.below_of_overlaps hold hp ho hoverlaps
  rw [← hw] at hle hlt
  cases h with
  | trivia h =>
    rw [(isTrivia_iff.1 h).1] at hspan
    exact absurd (hspan hsignificant) (by decide)
  | body oldOwner newOwner target hbody _ hpath hfree _ hrecorded =>
    refine ⟨Tree.isDeclaration_eq_false hfree hle hlt, oldOwner, newOwner, target, ?_, hpath,
      hrecorded⟩
    rw [Tree.bodyTarget?_eq hold hfree hle hlt, hbody]

/-- Significant text that the region overlaps in the new version stands in a body that is recorded,
and in no declaration of that body. -/
theorem new_overlap (h : Passes old new intents r o n)
    (hnew : Tree.ofEvents newPath newSymbols newEvents = .ok new)
    (hn : new.enclosing r.newSpan = .ok n) {p : Piece} (hp : p ∈ Event.pieces 0 [] 0 newEvents)
    (hsignificant : p.significant = true) (hoverlaps : p.span.overlaps r.newSpan = true)
    {w : new.Id} (hw : w.1 = p.owner) :
    (new.kind w).isDeclaration = false ∧
    ∃ newOwner target, new.bodyTarget? w = some (newOwner, target) ∧
      ⟨newOwner.1, target⟩ ∈ intents := by
  obtain ⟨hle, hlt, hspan⟩ := Tree.below_of_overlaps hnew hp hn hoverlaps
  rw [← hw] at hle hlt
  cases h with
  | trivia h =>
    rw [(isTrivia_iff.1 h).2.1] at hspan
    exact absurd (hspan hsignificant) (by decide)
  | body oldOwner newOwner target _ hbody _ _ hfree hrecorded =>
    refine ⟨Tree.isDeclaration_eq_false hfree hle hlt, newOwner, target, ?_, hrecorded⟩
    rw [Tree.bodyTarget?_eq hnew hfree hle hlt, hbody]

end Passes

end Verdict
end HotReload
