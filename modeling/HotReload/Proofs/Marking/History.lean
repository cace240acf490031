import HotReload.Proofs.Marking.Provenance
import HotReload.Proofs.Source.Described
import HotReload.Proofs.Text.Splices
import HotReload.Proofs.Verdict.Annotate

/-
  Any history of batches. What a tree stores for a node are the markers that it was ever asked for, in
  order of first request, and its text has the rendering of each of them once. `Traced` is what a batch
  preserves (`Traced.addMarkers`), so it holds after all batches; while offsets reach the end of the
  text, renderings are also whole.

  A batch that asks for nothing new leaves the tree as it is (`Tree.addMarkers_of_stored`). After a
  batch all that it asked for is there, so the same batch again changes nothing
  (`Tree.addMarkers_again`).
-/

namespace HotReload

namespace Tree

variable {path : String} {symbols : Symbols} {events : List Event} {t t' : Tree}
  {requests : List Marking.Request} {rounds : List (List Marking.Request)}

/-- The tree after some batches of markers. -/
def addRounds (t : Tree) (rounds : List (List Marking.Request)) : Except MarkError Tree :=
  rounds.foldlM addMarkers t

theorem addRounds_cons_of_ok (h : t.addMarkers requests = .ok t') :
    t.addRounds (requests :: rounds) = t'.addRounds rounds := by
  rw [addRounds, List.foldlM_cons, h]
  rfl

theorem exists_of_addRounds_cons (h : t.addRounds (requests :: rounds) = .ok t') :
    ∃ u, t.addMarkers requests = .ok u ∧ u.addRounds rounds = .ok t' := by
  cases hfirst : t.addMarkers requests with
  | error e => simp [addRounds, hfirst, bind, Except.bind] at h
  | ok u => exact ⟨u, rfl, (addRounds_cons_of_ok hfirst).symm.trans h⟩

/-- Some of the batches, the first ones, leave a text that offsets do not reach the end of. -/
def Outgrows (t : Tree) (rounds : List (List Marking.Request)) : Prop :=
  ∃ done rest u, rounds = done ++ rest ∧ t.addRounds done = .ok u ∧
    Text.maxOffset < u.text.utf8ByteSize

/-- The nodes of a tree that comes from events have no markers. -/
theorem stored_of_built (hbuilt : Tree.ofEvents path symbols events = .ok t) (id : Nat) :
    t.stored id = [] := by
  unfold stored
  cases hn : t.nodes[id]? with
  | none => rfl
  | some n =>
    obtain ⟨-, -, ⟨hempty, -⟩ | ⟨r, rfl, hrows⟩⟩ := Tree.ofEvents_eq_ok hbuilt
    · simp [hempty] at hn
    · rcases r.root_or_places hrows hn with ⟨-, rfl⟩ | hplaces
      · rfl
      · obtain ⟨front, parts, rest, -, -, _, hrow⟩ := Forest.exists_row_of_places hplaces
        rw [hrow]
        rfl

end Tree

namespace Marking

open Text

/-- What the parts of a text are: the source, layout, and the rendering of every pair that was asked
for, once. -/
structure Records (source : List Char) (history : List Request) (text : List Char)
    (parts : List (Text.Part Origin)) : Prop where
  spells : spell parts = text
  source : spell (parts.filter (·.origin = .source)) = source
  layout : ∀ part ∈ parts, part.origin = .layout → part.text = [' '] ∨ part.text = ['\n']
  once : ∀ id m, spell (parts.filter (tells id m)) =
    if (id, m) ∈ history then m.render.toList else []

/-- Every rendering is one part. -/
def Whole (history : List Request) (parts : List (Text.Part Origin)) : Prop :=
  ∀ id m, parts.filter (tells id m) = if (id, m) ∈ history then [rendering id m] else []

variable {source text : List Char} {history requests : List Request} {t t' : Tree}
  {parts parts' : List (Text.Part Origin)}

theorem mem_gained {id : Nat} {m : Marker} :
    m ∈ gained t requests id ↔ (id, m) ∈ requests ∧ m ∉ t.stored id := mem_additions

namespace Records

/-- Parts may be split into characters. -/
theorem letters (h : Records source history text parts) :
    Records source history text (letters parts) where
  spells := by rw [spell_letters, h.spells]
  source := by
    have hfilter := filter_letters (fun origin => decide (origin = Origin.source)) parts
    exact (congrArg spell hfilter).trans ((spell_letters _).trans h.source)
  layout part hpart horigin := by
    obtain ⟨whole, hwhole, c, hc, rfl⟩ := mem_letters.1 hpart
    rcases h.layout whole hwhole horigin with htext | htext
    · rw [htext, List.mem_singleton] at hc
      exact .inl (by rw [hc])
    · rw [htext, List.mem_singleton] at hc
      exact .inr (by rw [hc])
  once id m := by
    have hfilter := filter_letters (fun origin => decide (origin = Origin.marker id m)) parts
    exact (congrArg spell hfilter).trans ((spell_letters _).trans (h.once id m))

/-- No part says of a pair that it was asked for if it was not. -/
theorem filter_eq_nil (h : Records source history text parts)
    (hsolid : ∀ part ∈ parts, part.text ≠ []) {id : Nat} {m : Marker} (hnew : (id, m) ∉ history) :
    parts.filter (tells id m) = [] := by
  have honce := h.once id m
  rw [if_neg hnew] at honce
  exact eq_nil_of_spell (fun part hpart => hsolid part (List.mem_filter.1 hpart).1) honce

variable (h : Records source history text parts) (hsolid : ∀ part ∈ parts, part.text ≠ [])
  (hstored : ∀ id m, (id, m) ∈ history ↔ m ∈ t.stored id)
  (hknown : ∀ r ∈ requests, r.1 < t.nodes.size)
  (hparts : Interleaved parts (written t requests) parts')

include h hsolid hstored hknown hparts

/-- The renderings of a pair are those from before, or the one that the batch puts in. -/
theorem filter_interleaved (id : Nat) (m : Marker) : parts'.filter (tells id m) =
    if (id, m) ∈ history then parts.filter (tells id m)
    else if (id, m) ∈ requests then [rendering id m] else [] := by
  have hfilter := hparts.filter (tells id m)
  rw [filter_written hknown] at hfilter
  split
  · next hold =>
    rw [if_neg fun hgained => (mem_gained.1 hgained).2 ((hstored id m).1 hold)] at hfilter
    exact hfilter.eq_left
  · next hnew =>
    rw [h.filter_eq_nil hsolid hnew] at hfilter
    rw [hfilter.eq_right]
    simp only [mem_gained, ← hstored, hnew, not_false_eq_true, and_true]

/-- With the parts of a batch put in, the renderings are those that were asked for up to it. -/
theorem interleaved : Records source (history ++ requests) (spell parts') parts' where
  spells := rfl
  source := by
    have hfilter := hparts.filter (·.origin = .source)
    have hnone : (written t requests).filter (·.origin = .source) = [] := by
      refine List.filter_eq_nil_iff.2 fun part hpart => ?_
      rcases mem_written hpart with rfl | rfl | ⟨id, m, rfl⟩ <;> simp [blank, newline, rendering]
    rw [hnone] at hfilter
    rw [hfilter.eq_left, h.source]
  layout part hpart horigin := by
    rcases hparts.mem_iff.1 hpart with hpart | hpart
    · exact h.layout part hpart horigin
    · rcases mem_written hpart with rfl | rfl | ⟨id, m, rfl⟩
      · exact .inl rfl
      · exact .inr rfl
      · simp [rendering] at horigin
  once id m := by
    rw [h.filter_interleaved hsolid hstored hknown hparts]
    by_cases hold : (id, m) ∈ history
    · rw [if_pos hold, if_pos (List.mem_append_left _ hold), h.once, if_pos hold]
    · rw [if_neg hold]
      by_cases hnew : (id, m) ∈ requests
      · rw [if_pos hnew, if_pos (List.mem_append_right _ hnew)]
        exact List.append_nil _
      · rw [if_neg hnew, if_neg fun hmem => (List.mem_append.1 hmem).elim hold hnew]
        rfl

/-- Renderings stay whole when parts are put in between them. -/
theorem whole_interleaved (hwhole : Whole history parts) : Whole (history ++ requests) parts' := by
  intro id m
  rw [h.filter_interleaved hsolid hstored hknown hparts, hwhole]
  by_cases hold : (id, m) ∈ history
  · rw [if_pos hold, if_pos hold, if_pos (List.mem_append_left _ hold)]
  · simp only [hold, List.mem_append, if_false, false_or]

end Records

/-! ## One batch -/

theorem stored_addMarkers (h : t.addMarkers requests = .ok t') (id : Nat) :
    t'.stored id = t.stored id ++ gained t requests id := by
  unfold gained Tree.stored
  rw [Tree.markers_addMarkers h]
  cases hn : t.nodes[id]? with
  | some n => rfl
  | none =>
    -- nothing is asked for where no node is
    refine (List.eq_nil_iff_forall_not_mem.2 fun m hm => ?_).symm
    rw [Option.map_none, Option.getD_none, List.nil_append] at hm
    have hlt := Tree.lt_of_addMarkers h _ (mem_additions.1 hm).1
    exact absurd hn (by simpa [Tree.size] using hlt)

/-- The text of a batch is the old one with its insertions put in. -/
theorem splice_of_addMarkers (h : t.addMarkers requests = .ok t') :
    Edit.splice 0 t.text.toList ((insertions t requests).map Insertion.edit) =
      .ok t'.text.toList := by
  obtain ⟨text, htext, rfl⟩ := Tree.exists_of_addMarkers h
  rw [Edit.applyAll_of_gaps] at htext
  · obtain ⟨out, hout, rfl⟩ := map_eq_ok_iff.1 htext
    rw [hout, String.toList_ofList]
  · exact List.forall_mem_map.2 fun ins _ => Nat.le_refl ins.position
  · exact List.pairwise_map.2 insertions_position_le

/-- Whatever its size, the text of a batch is the old one and what the batch puts in. -/
theorem exists_interleaved_letters (h : t.addMarkers requests = .ok t')
    (hspells : spell parts = t.text.toList) :
    ∃ parts', spell parts' = t'.text.toList ∧
      Interleaved (letters parts) (written t requests) parts' := by
  have hsplice := splice_of_addMarkers h
  rw [← hspells, ← spell_letters] at hsplice
  refine exists_interleaved_of_splice (fun _ _ => rfl) (fun ins hins => spell_parts hins) ?_ hsplice
  intro part hpart
  obtain ⟨whole, -, c, -, rfl⟩ := mem_letters.1 hpart
  exact ⟨c, rfl⟩

/-- No batch makes a text shorter. -/
theorem utf8ByteSize_le_of_addMarkers (h : t.addMarkers requests = .ok t') :
    t.text.utf8ByteSize ≤ t'.text.utf8ByteSize := by
  have hone : spell [⟨Origin.source, t.text.toList⟩] = t.text.toList := List.append_nil _
  obtain ⟨parts', hspell, hparts⟩ := exists_interleaved_letters h hone
  have hlength := byteLength_interleaved hparts
  rw [hspell, spell_letters, hone] at hlength
  rw [utf8ByteSize_eq_byteLength, utf8ByteSize_eq_byteLength, hlength]
  exact Nat.le_add_right _ _

/-- Nodes start at seams. -/
def StartsAtSeams (t : Tree) (parts : List (Text.Part Origin)) : Prop :=
  ∀ (i : Nat) (n : Node), t.nodes[i]? = some n → Seam parts n.span.start

/-- In reach of offsets, a batch puts its parts in at seams, and nodes start at seams again. -/
theorem exists_interleaved_seams (h : t.addMarkers requests = .ok t')
    (hsize : t'.text.utf8ByteSize ≤ maxOffset) (hspells : spell parts = t.text.toList)
    (hsolid : ∀ part ∈ parts, part.text ≠ []) (hstarts : StartsAtSeams t parts) :
    ∃ parts', spell parts' = t'.text.toList ∧ Interleaved parts (written t requests) parts' ∧
      StartsAtSeams t' parts' := by
  have hbefore := Nat.le_trans (utf8ByteSize_le_of_addMarkers h) hsize
  have hseams : ∀ ins ∈ insertions t requests, Seam parts ins.position := by
    intro ins hins
    obtain ⟨id, hid⟩ := mem_insertions_iff.1 hins
    obtain ⟨-, ⟨-, hposition, -⟩ | ⟨-, hposition, -⟩⟩ := mem_insertionsOf hid
    · exact hposition ▸ hstarts _ _ (t.getElem?_node id)
    · rw [hposition, Text.offset_eq_self hbefore, utf8ByteSize_eq_byteLength, ← hspells]
      exact Seam.stop parts
  have hcuts : ∀ ins ∈ insertions t requests, IsCut t.text.toList ins.position :=
    fun ins hins => hspells ▸ (hseams ins hins).isCut
  have htext : t'.text.toList = weave (Insertion.marks (insertions t requests)) 0 (spell parts) := by
    rw [Except.ok.inj (h.symm.trans (Tree.addMarkers_eq_of_cuts (Tree.lt_of_addMarkers h) hcuts)), hspells]
    exact String.toList_ofList
  rw [utf8ByteSize_eq_byteLength, htext] at hsize
  have hattached : ∀ {i : Nat} {n : Node}, (attach t requests).nodes[i]? = some n →
      Seam parts n.span.start := by
    intro i n' hn'
    obtain ⟨n, hn, rfl⟩ := exists_of_getElem?_attach hn'
    exact hstarts i n hn
  obtain ⟨parts', hspell, hfronts, hstarts'⟩ := exists_grown (fun ins hins => spell_parts hins)
    insertions_position_le hsolid hseams hsize hattached
  obtain ⟨cs, hcs, hinterleaved⟩ := hfronts [] parts rfl fun _ _ => Nat.zero_le _
  obtain rfl : parts' = cs := hcs
  refine ⟨parts', hspell.trans htext.symm, hinterleaved, fun i n hn => ?_⟩
  rw [(Tree.nodes_addMarkers h).1] at hn
  exact hstarts' hn

/-! ## What a batch preserves -/

/-- Parts of the text of a tree with a history of requests. -/
structure Traced (source : List Char) (history : List Request) (t : Tree)
    (parts : List (Text.Part Origin)) : Prop where
  stored : ∀ id, t.stored id = (asked history id).eraseDups
  records : Records source history t.text.toList parts
  solid : ∀ part ∈ parts, part.text ≠ []
  whole : t.text.utf8ByteSize ≤ maxOffset → Whole history parts ∧ StartsAtSeams t parts

theorem toList_render_ne_nil (m : Marker) : m.render.toList ≠ [] := by
  cases m <;> simp [Marker.render]

theorem removeAll_eraseDups (as bs : List Marker) : as.removeAll bs.eraseDups = as.removeAll bs := by
  unfold List.removeAll
  apply List.filter_congr
  intro m _
  simp [List.elem_eq_contains]

namespace Traced

theorem mem_history_iff (h : Traced source history t parts) (id : Nat) (m : Marker) :
    (id, m) ∈ history ↔ m ∈ t.stored id := by
  rw [h.stored, List.mem_eraseDups, mem_asked]

/-- What a batch adds to what was asked for before it. -/
theorem stored_append (h : Traced source history t parts) (hadded : t.addMarkers requests = .ok t')
    (id : Nat) : t'.stored id = (asked (history ++ requests) id).eraseDups := by
  rw [stored_addMarkers hadded, asked_append, List.eraseDups_append, gained, additions_eq, h.stored,
    removeAll_eraseDups]

theorem solid_of_interleaved (hsolid : ∀ part ∈ parts, part.text ≠ [])
    (hparts : Interleaved parts (written t requests) parts') : ∀ part ∈ parts', part.text ≠ [] := by
  intro part hpart
  rcases hparts.mem_iff.1 hpart with hpart | hpart
  · exact hsolid part hpart
  · rcases mem_written hpart with rfl | rfl | ⟨id, m, rfl⟩
    · exact List.cons_ne_nil _ _
    · exact List.cons_ne_nil _ _
    · exact toList_render_ne_nil m

/-- The step: a batch leaves a tree with the requests of the batch in its history. Out of reach of
offsets a part may be broken up, so there the parts are characters. -/
theorem addMarkers (h : Traced source history t parts) (hadded : t.addMarkers requests = .ok t') :
    ∃ parts', Traced source (history ++ requests) t' parts' := by
  have hknown := Tree.lt_of_addMarkers hadded
  by_cases hsize : t'.text.utf8ByteSize ≤ maxOffset
  · obtain ⟨hwhole, hstarts⟩ :=
      h.whole (Nat.le_trans (utf8ByteSize_le_of_addMarkers hadded) hsize)
    obtain ⟨parts', hspell, hparts, hstarts'⟩ :=
      exists_interleaved_seams hadded hsize h.records.spells h.solid hstarts
    have hrecords := h.records.interleaved h.solid h.mem_history_iff hknown hparts
    refine ⟨parts', h.stored_append hadded, hspell ▸ hrecords, solid_of_interleaved h.solid hparts,
      fun _ => ⟨?_, hstarts'⟩⟩
    exact h.records.whole_interleaved h.solid h.mem_history_iff hknown hparts hwhole
  · obtain ⟨parts', hspell, hparts⟩ := exists_interleaved_letters hadded h.records.spells
    have hsolid : ∀ part ∈ letters parts, part.text ≠ [] := by
      intro part hpart
      obtain ⟨whole, -, c, -, rfl⟩ := mem_letters.1 hpart
      exact List.cons_ne_nil _ _
    have hrecords := h.records.letters.interleaved hsolid h.mem_history_iff hknown hparts
    exact ⟨parts', h.stored_append hadded, hspell ▸ hrecords, solid_of_interleaved hsolid hparts,
      fun hle => absurd hle hsize⟩

theorem isCut_position (h : Traced source history t parts)
    (hsize : t.text.utf8ByteSize ≤ maxOffset) :
    ∀ ins ∈ insertions t requests, IsCut t.text.toList ins.position := by
  refine Tree.isCut_position_of_starts hsize fun id => ?_
  rw [← h.records.spells]
  exact ((h.whole hsize).2 _ _ (t.getElem?_node id)).isCut

/-- The run: batch after batch adds to the history. -/
theorem addRounds {rounds : List (List Request)} (h : Traced source history t parts)
    (hadded : t.addRounds rounds = .ok t') :
    ∃ parts', Traced source (history ++ rounds.flatten) t' parts' := by
  induction rounds generalizing t history parts with
  | nil =>
    obtain rfl := Except.ok.inj hadded
    exact ⟨parts, by rwa [List.flatten_nil, List.append_nil]⟩
  | cons requests rounds ih =>
    obtain ⟨u, hfirst, hrest⟩ := Tree.exists_of_addRounds_cons hadded
    obtain ⟨parts₁, h₁⟩ := h.addMarkers hfirst
    obtain ⟨parts', h'⟩ := ih h₁ hrest
    exact ⟨parts', by rwa [List.flatten_cons, ← List.append_assoc]⟩

/-- Batches about nodes have a result until the text leaves the reach of offsets. -/
theorem exists_addRounds {rounds : List (List Request)} (h : Traced source history t parts)
    (hknown : ∀ r ∈ rounds.flatten, r.1 < t.size) :
    (∃ t', t.addRounds rounds = .ok t') ∨ t.Outgrows rounds := by
  induction rounds generalizing t history parts with
  | nil => exact .inl ⟨t, rfl⟩
  | cons requests rounds ih =>
    rcases Nat.lt_or_ge maxOffset t.text.utf8ByteSize with hsize | hsize
    · exact .inr ⟨[], _, t, rfl, rfl, hsize⟩
    rw [List.flatten_cons] at hknown
    obtain ⟨next, hadded⟩ : ∃ next, t.addMarkers requests = .ok next :=
      ⟨_, Tree.addMarkers_eq_of_cuts (fun r hr => hknown r (List.mem_append_left _ hr))
        (h.isCut_position hsize)⟩
    obtain ⟨parts', h'⟩ := h.addMarkers hadded
    have hknown' : ∀ r ∈ rounds.flatten, r.1 < next.size := by
      intro r hr
      rw [Tree.size_addMarkers hadded]
      exact hknown r (List.mem_append_right _ hr)
    rcases ih h' hknown' with ⟨t', ht'⟩ | ⟨done, rest, u, rfl, hdone, hu⟩
    · exact .inl ⟨t', (Tree.addRounds_cons_of_ok hadded).trans ht'⟩
    · exact .inr ⟨requests :: done, rest, u, rfl, (Tree.addRounds_cons_of_ok hadded).trans hdone, hu⟩

end Traced

/-! ## Before any batch -/

theorem filter_singles (source : List Char) (id : Nat) (m : Marker) :
    (singles Origin.source source).filter (tells id m) = [] := by
  refine List.filter_eq_nil_iff.2 fun part hpart => ?_
  obtain ⟨c, -, rfl⟩ := mem_singles.1 hpart
  simp [tells]

theorem records_singles (source : List Char) : Records source [] source (singles .source source) where
  spells := spell_singles _ source
  source := by
    rw [List.filter_eq_self.2 fun part hpart => ?_]
    · exact spell_singles _ source
    · obtain ⟨c, -, rfl⟩ := mem_singles.1 hpart
      rfl
  layout part hpart horigin := by
    obtain ⟨c, -, rfl⟩ := mem_singles.1 hpart
    simp at horigin
  once id m := congrArg spell (filter_singles source id m)

/-- A tree that comes from events has its text, and nothing was asked for. -/
theorem traced_of_built {path : String} {symbols : Symbols} {events : List Event}
    (hbuilt : Tree.ofEvents path symbols events = .ok t) :
    Traced t.text.toList [] t (singles .source t.text.toList) where
  stored := Tree.stored_of_built hbuilt
  records := records_singles _
  solid part hpart := by
    obtain ⟨c, -, rfl⟩ := mem_singles.1 hpart
    exact List.cons_ne_nil _ _
  whole _ := by
    refine ⟨filter_singles _, fun i n hn => Seam.of_isCut ?_ ?_⟩
    · intro part hpart
      obtain ⟨c, -, rfl⟩ := mem_singles.1 hpart
      exact ⟨c, rfl⟩
    · rw [spell_singles]
      exact (Tree.markable_of_built hbuilt).starts hn

/-! ## A batch that asks for nothing new -/

theorem additions_eq_nil_iff {id : Nat} {present : List Marker} :
    additions requests id present = [] ↔ ∀ m, (id, m) ∈ requests → m ∈ present := by
  simp only [List.eq_nil_iff_forall_not_mem, mem_additions, not_and, not_not]

end Marking

namespace Tree

open Marking Text

variable {path : String} {symbols : Symbols} {events : List Event} {t t' u : Tree}
  {requests : List Request} {rounds : List (List Request)} {intents : SortedSet Intent}
  {version : String}

/-- If every marker is there already, nothing happens. -/
theorem addMarkers_of_stored (h : ∀ r ∈ requests, r.2 ∈ t.stored r.1) :
    t.addMarkers requests = .ok t := by
  have hnode : ∀ {id : Nat} {n : Node}, t.nodes[id]? = some n →
      additions requests id n.markers = [] := by
    intro id n hn
    refine additions_eq_nil_iff.2 fun m hm => ?_
    have hstored := h _ hm
    rwa [stored, hn] at hstored
  have hknown : ∀ r ∈ requests, r.1 < t.nodes.size := by
    refine fun r hr => Nat.lt_of_not_le fun hunknown => ?_
    have hstored := h r hr
    rw [stored, Array.getElem?_eq_none hunknown] at hstored
    exact List.not_mem_nil hstored
  have hinsertions : insertions t requests = [] := by
    refine List.eq_nil_iff_forall_not_mem.2 fun ins hins => ?_
    obtain ⟨id, hid⟩ := mem_insertions_iff.1 hins
    rw [added, hnode (t.getElem?_node id)] at hid
    exact List.not_mem_nil hid
  have hnodes : (attach t requests).nodes = t.nodes := by
    apply Array.ext_getElem?
    intro i
    rw [getElem?_attach]
    cases hn : t.nodes[i]? with
    | none => rfl
    | some n => rw [Option.map_some, hnode hn, List.append_nil]
  have htext : String.ofList (weave (Insertion.marks []) 0 t.text.toList) = t.text := by
    rw [Insertion.weave_marks_nil, String.ofList_toList]
  rw [addMarkers_eq_of_cuts hknown (by simp [hinsertions]), hinsertions]
  exact congrArg Except.ok (eq_of_fields rfl htext rfl hnodes rfl)

/-- After a batch, all that it asked for is there. -/
theorem mem_stored_of_addMarkers (hadded : t.addMarkers requests = .ok t') :
    ∀ r ∈ requests, r.2 ∈ t'.stored r.1 := by
  intro r hr
  rw [stored_addMarkers hadded, List.mem_append]
  by_cases hold : r.2 ∈ t.stored r.1
  · exact .inl hold
  · exact .inr (mem_gained.2 ⟨hr, hold⟩)

/-- The same batch again changes nothing. -/
theorem addMarkers_again (hadded : t.addMarkers requests = .ok t') :
    t'.addMarkers requests = .ok t' :=
  addMarkers_of_stored (mem_stored_of_addMarkers hadded)

/-- What changes nothing when it is done again can be done again. -/
theorem bind_eq_self {ε : Type} {x : Except ε Tree} {f : Tree → Except ε Tree}
    (h : ∀ u, x = .ok u → f u = .ok u) : x >>= f = x := by
  cases x with
  | error e => rfl
  | ok u => exact h u rfl

theorem annotate_again (h : t.annotate intents = .ok t') : t'.annotate intents = .ok t' := by
  unfold annotate at h ⊢
  rw [addMarkers_again (mapError_eq_ok_iff.1 h)]
  rfl

/-- The marker of the program stays on the root, so it is written once. -/
theorem markProgram_again (h : t.markProgram version = .ok t') :
    t'.markProgram version = .ok t' := by
  obtain ⟨root, hroot, hmem⟩ := patches_of_markProgram h
  unfold markProgram
  rw [hroot]
  refine congrArg (Except.mapError AnnotateError.mark) (addMarkers_of_stored fun r hr => ?_)
  obtain rfl := List.mem_singleton.1 hr
  rwa [t'.stored_eq root]

/-! ## Any history -/

/-- What batches leave of a tree that had no markers. -/
structure Remembers (t : Tree) (history : List Request) (t' : Tree) : Prop where
  /-- A node has the markers that it was asked to have, in order of first request. -/
  stored : ∀ id, t'.stored id = (asked history id).eraseDups
  /-- The text has the rendering of each of them once, in one piece while offsets reach the end. -/
  written : ∃ parts, Records t.text.toList history t'.text.toList parts ∧
    (t'.text.utf8ByteSize ≤ maxOffset → Whole history parts)
  /-- Asking for what is there changes nothing. -/
  present : ∀ requests : List Request, (∀ r ∈ requests, r.2 ∈ t'.stored r.1) →
    t'.addMarkers requests = .ok t'
  /-- What changed can be marked. -/
  annotates : ∀ intents : SortedSet Intent, (∀ i ∈ intents, i.declaration < t'.size) →
    t'.text.utf8ByteSize ≤ maxOffset → ∃ u, t'.annotate intents = .ok u
  /-- Marking it again changes nothing. -/
  again : ∀ intents : SortedSet Intent,
    (do let u ← t'.annotate intents; u.annotate intents) = t'.annotate intents
  programAgain : ∀ version : String,
    (do let u ← t'.markProgram version; u.markProgram version) = t'.markProgram version

theorem remembers_of_traced {history : List Request} {parts : List (Text.Part Origin)}
    (h : Traced t.text.toList history t' parts) :
    t.Remembers history t' where
  stored := h.stored
  written := ⟨parts, h.records, fun hsize => (h.whole hsize).1⟩
  present _ := addMarkers_of_stored
  annotates _ hknown hsize := exists_annotate_of_cuts (h.isCut_position hsize) hknown
  again _ := bind_eq_self fun _ => annotate_again
  programAgain _ := bind_eq_self fun _ => markProgram_again

/-- Whatever batches of markers for its nodes a tree that comes from events gets, its nodes have every
marker once that was ever asked for, so does the text, and asking again changes nothing. -/
theorem addRounds_remembers (hbuilt : Tree.ofEvents path symbols events = .ok t)
    (hknown : ∀ r ∈ rounds.flatten, r.1 < t.size) :
    ((∃ t', t.addRounds rounds = .ok t') ∨ t.Outgrows rounds) ∧
    ∀ t', t.addRounds rounds = .ok t' → t.Remembers rounds.flatten t' := by
  have htraced := traced_of_built hbuilt
  refine ⟨htraced.exists_addRounds hknown, fun t' hadded => ?_⟩
  obtain ⟨parts, h⟩ := htraced.addRounds hadded
  exact remembers_of_traced h

/-- The first marker again, and others. -/
def repeatingRound : List Request := [(3, .methodBody), (1, .methodBody), (1, .accessorBody .get)]

/-- Two rounds, of which the second asks for a marker again. -/
def overlappingRounds : List (List Request) := [firstRound, repeatingRound]

theorem addRounds_remembers_overlapping :
    Tree.ofEvents "A.cs" .empty nestedEvents = .ok nestedOwners ∧
    (∀ r ∈ overlappingRounds.flatten, r.1 < nestedOwners.size) ∧
    ∃ t', nestedOwners.addRounds overlappingRounds = .ok t' ∧
      nestedOwners.Remembers overlappingRounds.flatten t' ∧
      t'.stored 1 = [.methodBody, .accessorBody .get] := by
  have hknown : ∀ r ∈ overlappingRounds.flatten, r.1 < nestedOwners.size := by decide
  have hremembers := (addRounds_remembers ofEvents_nestedEvents hknown).2
  obtain ⟨hfirst, hadded⟩ := addMarkers_firstRound
  have hbetween : betweenRounds.AfterRounds := .round (.built ofEvents_nestedEvents) hfirst hadded
  obtain ⟨t', hsecond⟩ : ∃ t', betweenRounds.addMarkers repeatingRound = .ok t' :=
    ⟨_, hbetween.sound.addMarkers_eq (by decide)⟩
  have ht' : nestedOwners.addRounds overlappingRounds = .ok t' :=
    (addRounds_cons_of_ok hadded).trans (addRounds_cons_of_ok hsecond)
  refine ⟨ofEvents_nestedEvents, hknown, t', ht', hremembers t' ht', ?_⟩
  rw [(hremembers t' ht').stored]
  decide

end Tree

end HotReload
