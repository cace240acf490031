import HotReload.Proofs.Change.Aligned
import HotReload.Proofs.Change.Geometry
import HotReload.Proofs.Outline.Members
import HotReload.Proofs.Source.Enclosing

/-
  Two plain versions of a file with changes between them, none of which declines the file
  (`Revision`). A change is quiet, if it touches no significant text between nodes of one kind in one
  declaration, or it stands in bodies of one member, around no declaration. Nothing here tells the
  two versions apart, so what is shown of one holds of the other (`Revision.symm`).

  A change that touches the start of a declaration is quiet (`Revision.quietAt_start`), and the end
  of a name is touched only in front of parameters (`Revision.not_touches_stop`).
-/

namespace HotReload

open Marked Outline

/-- A change that touches no significant text, between nodes of one kind in one declaration. -/
structure Quiet (t u : Tree) (c : Span × Span) (o : t.Id) (n : u.Id) : Prop where
  old_enclosing : t.enclosing c.1 = .ok o
  new_enclosing : u.enclosing c.2 = .ok n
  old_apart : (t.node o).span.overlaps c.1 = false
  new_apart : (u.node n).span.overlaps c.2 = false
  kind : t.kind o = u.kind n
  path : t.declarationPath o = u.declarationPath n

/-- All changes that touch an offset are quiet. -/
def QuietAt (t u : Tree) (changes : List (Span × Span)) (q : Nat) : Prop :=
  ∀ c ∈ changes, c.1.start ≤ q → q ≤ c.1.stop → ∃ o n, Quiet t u c o n

/-- A change in bodies of one member, around no declaration. The path of the bodies is marked. -/
structure InBodies (t u : Tree) (marked : String → Prop) (c : Span × Span) (o : t.Id) (n : u.Id)
    (b : t.Id) (b' : u.Id) : Prop where
  old_enclosing : t.enclosing c.1 = .ok o
  new_enclosing : u.enclosing c.2 = .ok n
  old_body : t.isMemberBody b = true
  new_body : u.isMemberBody b' = true
  old_below : b.1 ≤ o.1 ∧ o.1 < (t.node b).subtreeEnd
  new_below : b'.1 ≤ n.1 ∧ n.1 < (u.node b').subtreeEnd
  old_free : t.containsDeclaration o = false
  new_free : u.containsDeclaration n = false
  path : t.declarationPath b = u.declarationPath b'
  marked : marked (t.declarationPath b)

/-- A change that does not decline the file. -/
inductive Accepted (t u : Tree) (marked : String → Prop) (c : Span × Span) : Prop where
  | quiet (o : t.Id) (n : u.Id) (h : Quiet t u c o n)
  | body (o : t.Id) (n : u.Id) (b : t.Id) (b' : u.Id) (h : InBodies t u marked c o n b b')

/-- Two plain versions, with changes from one to the other that do not decline the file. -/
structure Revision (items items' : Items) (t u : Tree) (marked : String → Prop)
    (changes : List (Span × Span)) : Prop where
  old : items.Builds t
  new : items'.Builds u
  aligned : Aligned 0 0 changes items.marks items'.marks
  accepted : ∀ c ∈ changes, Accepted t u marked c

variable {t u : Tree} {marked : String → Prop} {c : Span × Span} {o : t.Id} {n : u.Id}
  {b : t.Id} {b' : u.Id} {items items' : Items} {changes : List (Span × Span)}

theorem Quiet.symm (h : Quiet t u c o n) : Quiet u t c.swap n o where
  old_enclosing := h.new_enclosing
  new_enclosing := h.old_enclosing
  old_apart := h.new_apart
  new_apart := h.old_apart
  kind := h.kind.symm
  path := h.path.symm

theorem InBodies.symm (h : InBodies t u marked c o n b b') :
    InBodies u t marked c.swap n o b' b where
  old_enclosing := h.new_enclosing
  new_enclosing := h.old_enclosing
  old_body := h.new_body
  new_body := h.old_body
  old_below := h.new_below
  new_below := h.old_below
  old_free := h.new_free
  new_free := h.old_free
  path := h.path.symm
  marked := h.path ▸ h.marked

theorem Accepted.symm (h : Accepted t u marked c) : Accepted u t marked c.swap := by
  cases h with
  | quiet o n h => exact .quiet n o h.symm
  | body o n b b' h => exact .body n o b' b h.symm

theorem Accepted.exists_enclosing (h : Accepted t u marked c) :
    ∃ o, t.enclosing c.1 = .ok o := by
  cases h with
  | quiet o n h => exact ⟨o, h.old_enclosing⟩
  | body o n b b' h => exact ⟨o, h.old_enclosing⟩

/-- A quiet change overlaps no significant text. -/
theorem Quiet.not_overlaps {path : String} {symbols : Symbols} {events : List Event}
    (h : Quiet t u c o n) (hbuilt : Tree.ofEvents path symbols events = .ok t) {p : Piece}
    (hp : p ∈ Event.pieces 0 [] 0 events) (hsignificant : p.significant = true) :
    p.span.overlaps c.1 = false := by
  refine Bool.eq_false_iff.2 fun hoverlaps => ?_
  have hspan := (Tree.below_of_overlaps hbuilt hp h.old_enclosing hoverlaps).2.2 hsignificant
  rw [h.old_apart] at hspan
  exact Bool.false_ne_true hspan

namespace Revision

variable (h : Revision items items' t u marked changes)

include h

theorem symm : Revision items' items u t marked (changes.map Prod.swap) where
  old := h.new
  new := h.old
  aligned := h.aligned.symm
  accepted c hc := by
    obtain ⟨c', hc', rfl⟩ := List.mem_map.1 hc
    exact (h.accepted c' hc').symm

variable {scope : Scope} {depth : Nat} {head : Head} {d : t.Id}
  (hd : Declared t items.marks items.pieces scope depth head d)

include hd

/-- A change around a declaration is quiet. -/
theorem quiet_of_above (hc : c ∈ changes) (ho : t.enclosing c.1 = .ok o) (hle : o.1 ≤ d.1)
    (hlt : d.1 < (t.node o).subtreeEnd) : ∃ n, Quiet t u c o n := by
  cases h.accepted c hc with
  | quiet o' n hquiet =>
    obtain rfl := Except.ok.inj (ho.symm.trans hquiet.old_enclosing)
    exact ⟨n, hquiet⟩
  | body o' n b b' hbody =>
    obtain rfl := Except.ok.inj (ho.symm.trans hbody.old_enclosing)
    have hfree := Tree.isDeclaration_eq_false hbody.old_free hle hlt
    rw [hd.isDeclaration] at hfree
    exact absurd hfree.symm Bool.false_ne_true

/-- No change overlaps the line of a declaration up to the end of the name. -/
theorem head_free (hc : c ∈ changes) :
    (⟨(t.node d).span.start, (t.node d).span.start + head.text.utf8ByteSize⟩ : Span).overlaps c.1 =
      false := by
  refine Bool.eq_false_iff.2 fun hoverlaps => ?_
  obtain ⟨path, symbols, hbuilt⟩ := h.old.built
  obtain ⟨o, ho⟩ := (h.accepted c hc).exists_enclosing
  obtain ⟨hle, hlt, -⟩ := Tree.below_of_overlaps hbuilt hd.piece ho hoverlaps
  obtain ⟨n, hquiet⟩ := h.quiet_of_above hd hc ho hle hlt
  rw [hquiet.not_overlaps hbuilt hd.piece rfl] at hoverlaps
  exact Bool.false_ne_true hoverlaps

/-- Changes at the start of a declaration are quiet. -/
theorem quietAt_start : QuietAt t u changes (t.node d).span.start := by
  intro c hc hstart hstop
  cases h.accepted c hc with
  | quiet o n hquiet => exact ⟨o, n, hquiet⟩
  | body o n b b' hbody =>
    have ho := hbody.old_enclosing
    have htouches := Tree.touches_of_enclosing ho hstart hstop
    rcases Nat.lt_or_eq_of_le hd.full_start_le with hlt | heq
    · obtain ⟨hle, hlt⟩ := hd.below_of_touches h.old htouches hlt (Nat.le_refl _)
      exact ⟨o, h.quiet_of_above hd hc ho hle hlt⟩
    · -- such a declaration is at the top of the file, where no body ends
      obtain ⟨path, symbols, hbuilt⟩ := h.old.built
      obtain ⟨l, hl, -, -, hspan⟩ := hd.line
      obtain ⟨m, _, depth', _, hm, hdm, -, hdepth', -⟩ := h.old.exists_callable hbody.old_body
      obtain ⟨hmb, hbm⟩ := Tree.below_of_parent? hbuilt hm (Nat.le_refl _)
        (Tree.lt_subtreeEnd hbuilt m).1
      obtain ⟨hmo, hom⟩ := Tree.below_trans hbuilt (Nat.le_of_lt hmb) hbm hbody.old_below.1
        hbody.old_below.2
      have := hd.depth_le_of_touches h.old hdm (htouches.above hbuilt hmo hom) hd.full_start_le
        (Nat.le_refl _)
      omega

/-- A change that ends in front of a declaration that is not at the top, but within what leads it, is
quiet, and the declaration is the node around it. -/
theorem quiet_of_lead (hc : c ∈ changes) (hdepth : depth ≠ 0)
    (hstart : (t.node d).fullSpan.start < c.1.stop) (hstop : c.1.stop ≤ (t.node d).span.start) :
    ∃ n, Quiet t u c d n := by
  obtain ⟨hordered, -⟩ := h.aligned.ordered c hc
  obtain ⟨o, ho⟩ := (h.accepted c hc).exists_enclosing
  obtain ⟨hle, hlt⟩ := hd.below_of_touches h.old
    (Tree.touches_of_enclosing ho hordered (Nat.le_refl _)) hstart hstop
  obtain ⟨n, hquiet⟩ := h.quiet_of_above hd hc ho hle hlt
  obtain rfl : o = d := by
    by_contra hne
    have hpos := hd.pos
    have hfront := hd.span_start_lt h.old hle hlt hne hdepth
    obtain ⟨-, hbehind⟩ := hd.span_contains h.old hle hlt
    have hoverlaps := Span.overlaps_of_touches
      (show (t.node o).span.start < c.1.stop by omega) (by omega) hordered (Nat.le_refl _)
    rw [hquiet.old_apart] at hoverlaps
    exact Bool.false_ne_true hoverlaps
  exact ⟨n, hquiet⟩

/-- The end of a name is touched only in front of parameters. -/
theorem not_touches_stop (hc : c ∈ changes) (hlist : head.hasList = false)
    (hstart : c.1.start ≤ (t.node d).span.start + head.text.utf8ByteSize) :
    c.1.stop < (t.node d).span.start + head.text.utf8ByteSize := by
  refine Nat.lt_of_not_le fun hstop => ?_
  obtain ⟨o, ho⟩ := (h.accepted c hc).exists_enclosing
  obtain ⟨hle, hlt⟩ := hd.below_of_touches_stop h.old hlist
    (Tree.touches_of_enclosing ho hstart hstop)
  obtain ⟨n, hquiet⟩ := h.quiet_of_above hd hc ho hle hlt
  obtain ⟨hspanStart, hspanStop⟩ := hd.span_contains h.old hle hlt
  have hpos := hd.pos
  have hoverlaps := Span.overlaps_of_touches (show (t.node o).span.start <
    (t.node d).span.start + head.text.utf8ByteSize by omega) hspanStop hstart hstop
  rw [hquiet.old_apart] at hoverlaps
  exact Bool.false_ne_true hoverlaps

end Revision

/-! ## From verdicts -/

/-- Some intent is for a body with this path. -/
def Tree.HasIntentFor (t : Tree) (intents : SortedSet Intent) (path : String) : Prop :=
  ∃ body owner target, (t.kind body).isBody = true ∧
    t.ownerOfBody? body = some (owner, target) ∧ t.declarationPath body = path ∧
    ⟨owner.1, target⟩ ∈ intents

/-- The body of a member around a node. -/
theorem Outline.Items.Builds.exists_memberBody (hb : items.Builds t) {id owner : t.Id}
    {target : Target} (h : t.bodyTarget? id = some (owner, target)) :
    ∃ body, (t.kind body).isBody = true ∧ t.ownerOfBody? body = some (owner, target) ∧
      (body.1 ≤ id.1 ∧ id.1 < (t.node body).subtreeEnd) ∧
      t.segments body = t.segments owner ++ target.segments := by
  obtain ⟨path, symbols, hbuilt⟩ := hb.built
  obtain ⟨body, hmem, howner⟩ := List.exists_of_findSome?_eq_some h
  obtain ⟨hancestor, hbody⟩ := List.mem_filter.1 hmem
  exact ⟨body, hbody, howner, Tree.below_of_mem_ancestors hbuilt hancestor,
    hb.segments_of_owns hbody (Tree.owns_of_ownerOfBody? howner).2⟩

/-- A member has a path of its own. -/
theorem Outline.Items.Builds.segments_ne_nil (hb : items.Builds t) {body owner : t.Id}
    {target : Target} (h : t.ownerOfBody? body = some (owner, target)) : t.segments owner ≠ [] := by
  have hdeclaration : (t.kind owner).isDeclaration = true := by
    have howns := (Tree.owns_of_ownerOfBody? h).2
    cases target with
    | method =>
      rw [howns.2]
      rfl
    | accessor a =>
      rw [howns.2.1]
      rfl
  obtain ⟨scope, depth, head, hd⟩ := hb.declared hdeclaration
  exact List.ne_nil_of_length_eq_add_one hd.length

theorem Accepted.of_passes (hold : items.Builds t) (hnew : items'.Builds u)
    {intents : SortedSet Intent} {r : Region} (ho : t.enclosing r.span = .ok o)
    (hn : u.enclosing r.newSpan = .ok n) (h : Verdict.Passes t u intents r o n) :
    Accepted t u (u.HasIntentFor intents) r.spans := by
  cases h with
  | trivia h =>
    obtain ⟨hapart, hapart', hkind, hpath⟩ := Verdict.isTrivia_iff.1 h
    exact .quiet o n ⟨ho, hn, hapart, hapart', hkind, hpath⟩
  | body owner owner' target htarget htarget' hpath hfree hfree' hrecorded =>
    obtain ⟨b, hb, howner, hbelow, hsegments⟩ := hold.exists_memberBody htarget
    obtain ⟨b', hb', howner', hbelow', hsegments'⟩ := hnew.exists_memberBody htarget'
    have hsame := Items.Builds.segments_eq_of_path_eq hold hnew (hold.segments_ne_nil howner)
      (hnew.segments_ne_nil howner') hpath
    have hbodies : t.declarationPath b = u.declarationPath b' := by
      rw [Tree.declarationPath_eq, Tree.declarationPath_eq, hsegments, hsegments', hsame]
    refine .body o n b b' ⟨ho, hn, ?_, ?_, hbelow, hbelow', hfree, hfree', hbodies,
      ⟨b', owner', target, hb', howner', hbodies.symm, hrecorded⟩⟩
    · rw [Tree.isMemberBody, hb, howner]
      rfl
    · rw [Tree.isMemberBody, hb', howner']
      rfl

/-- The regions of a comparison that does not decline a plain file make a revision, if the text they
keep stays code or stays trivia. -/
theorem Revision.of_classifyBy {f g : File} (hf : f.isPlain = true) (hg : g.isPlain = true)
    (hold : f.tree = .ok t) (hnew : g.tree = .ok u) {differ : Differ}
    (hcovers : (differ t.text u.text).Covers t.text u.text) {config : ReloadConfig}
    (hkeeps : Region.KeepsCode (differ.between t.text u.text) f.events g.events)
    (hsafe : (Verdict.classifyBy differ config t u).isDeclined = false) :
    Revision f.items g.items t u (u.HasIntentFor (Verdict.classifyBy differ config t u).intents)
      ((differ.between t.text u.text).map Region.spans) := by
  obtain ⟨htext, hsize, -⟩ := Tree.ofEvents_eq_ok hold
  obtain ⟨htext', hsize', -⟩ := Tree.ofEvents_eq_ok hnew
  have holdBuilds : f.items.Builds t :=
    ⟨File.isPlain_items hf, f.path, f.symbols, by rw [← File.events_items hf]; exact hold⟩
  have hnewBuilds : g.items.Builds u :=
    ⟨File.isPlain_items hg, g.path, g.symbols, by rw [← File.events_items hg]; exact hnew⟩
  have hverdict : Verdict.classifyBy differ config t u =
      Verdict.ofRegions config t u (differ.between t.text u.text) := by
    have hsymbols : t.symbols = u.symbols := by
      by_contra hne
      rw [Verdict.classifyBy, if_pos hne] at hsafe
      exact absurd hsafe Bool.false_ne_true.symm
    rw [Verdict.classifyBy, if_neg (not_not.2 hsymbols),
      Tree.diffBy_eq differ holdBuilds.size_pos hnewBuilds.size_pos]
  refine ⟨holdBuilds, hnewBuilds, ?_, fun c hc => ?_⟩
  · obtain ⟨apart, hspaced⟩ := Differ.spaced_between hcovers
      (by rw [htext, Event.utf8ByteSize_written]; exact hsize)
      (by rw [htext', Event.utf8ByteSize_written]; exact hsize')
    unfold Items.marks
    rw [← File.events_items hf, ← File.events_items hg]
    refine hspaced.patch.aligned (by rw [Event.text_marks, htext]) (by rw [Event.text_marks, htext'])
      (by rw [Event.width_marks]; omega) fun i _ hi i' hi' => ?_
    rw [Event.width_marks, Nat.zero_add] at hi
    exact hkeeps i hi i' hi'
  · obtain ⟨r, hr, rfl⟩ := List.mem_map.1 hc
    rw [hverdict] at hsafe ⊢
    obtain ⟨o, n, ho, hn, hpasses⟩ :=
      Verdict.exists_passes (fun id => (holdBuilds.kind_ne id).1) hsafe hr
    exact .of_passes holdBuilds hnewBuilds ho hn hpasses

end HotReload
