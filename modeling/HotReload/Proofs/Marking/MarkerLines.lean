import HotReload.Proofs.Marking.History
import HotReload.Proofs.Source.Marker

/-
  Markers in the text of a unit. A reader takes the markers in front of a member off one by one, so
  their text tells all of them (`Marking.memberText_injective`). The marker of the program goes to the
  end of the extra unit, on a line of its own behind the lines that were there
  (`Tree.exists_addsLine_patching`). Later batches put text in between renderings and never inside of
  one, so whatever they are about, every marker that was asked for stays in one line
  (`Tree.exists_line_of_mem`). `Marker.render_determines` has all this together with what is known of
  the text of one marker.

  Lines are as far as offsets reach: the end of a longer text is no place that text can be put in at.
-/

namespace HotReload

/-- The second text has one more line than the first, and the marker is this line. -/
def Marker.AddsLine (m : Marker) (before after : String) : Prop :=
  Text.fullLines after.toList =
    Text.fullLines (Text.endLine before.toList) ++ [m.render.toList ++ ['\n']]

namespace Marking

open Text

variable {t t' : Tree} {version : String}

/-! ## In front of a member -/

theorem toList_memberText_cons (m : Marker) (ms : List Marker) :
    (memberText (m :: ms)).toList = m.render.toList ++ (memberText ms).toList := by
  unfold memberText
  rw [List.map_cons, String.join_cons, String.append_assoc, String.toList_append]

/-- Different markers in front of a member have different texts. -/
theorem memberText_injective : Function.Injective memberText := by
  intro ms ns h
  have hnil : ∀ m ms, memberText [] ≠ memberText (m :: ms) := by
    intro m ms heq
    have hread := Marker.read?_render m (memberText ms).toList
    rw [← toList_memberText_cons, ← heq] at hread
    exact Option.some_ne_none _ hread.symm
  induction ms generalizing ns with
  | nil =>
    cases ns with
    | nil => rfl
    | cons n ns => exact absurd h (hnil n ns)
  | cons m ms ih =>
    cases ns with
    | nil => exact absurd h.symm (hnil m ms)
    | cons n ns =>
      have hread := Marker.read?_render m (memberText ms).toList
      rw [← toList_memberText_cons, h, toList_memberText_cons, Marker.read?_render] at hread
      obtain ⟨rfl, hrest⟩ := Prod.mk.inj (Option.some.inj hread)
      rw [ih (String.toList_inj.1 hrest).symm]

/-! ## The end of the extra unit -/

theorem atLineStart_iff (text : String) :
    (text.isEmpty || decide (text.toList.getLast? = some '\n')) = true ↔
      AtLineStart text.toList := by
  rw [Bool.or_eq_true, decide_eq_true_eq, String.isEmpty_iff, ← String.toList_eq_nil_iff]
  rfl

/-- A marker of the program ends the last line of the text and is one of its own. -/
theorem append_assemblyText (text : String) (m : Marker) :
    text.toList ++ (assemblyText text [m]).toList =
      endLine text.toList ++ (m.render.toList ++ ['\n']) := by
  have hline : (String.join ([m].map fun m => m.render ++ "\n")).toList =
      m.render.toList ++ ['\n'] := by
    rw [List.map_singleton, String.join_cons, String.toList_append, String.toList_append]
    exact List.append_nil _
  unfold assemblyText endLine
  rw [String.toList_append, hline, ← List.append_assoc]
  congr 1
  by_cases hstart : AtLineStart text.toList
  · rw [if_pos ((atLineStart_iff text).2 hstart), if_pos hstart]
    exact List.append_nil _
  · rw [if_neg (mt (atLineStart_iff text).1 hstart), if_neg hstart]
    rfl

/-- A request for one node adds its marker there, unless the node has it. -/
theorem added_self {id : t.Id} {m : Marker} (hnew : m ∉ (t.node id).markers) :
    t.added [(id.1, m)] id = [m] := by
  have hasked : asked [(id.1, m)] id.1 = [m] := by simp [asked]
  have hremove : [m].removeAll (t.node id).markers = [m] := by simp [List.removeAll, hnew]
  unfold Tree.added
  rw [additions_eq, hasked, hremove]
  rfl

theorem added_other {id other : t.Id} (m : Marker) (hne : other ≠ id) :
    t.added [(id.1, m)] other = [] := by
  refine List.eq_nil_iff_forall_not_mem.2 fun x hx => hne (Fin.ext ?_)
  exact (Prod.mk.inj (List.mem_singleton.1 (mem_additions.1 hx).1)).1

/-- A new version for a node is all that is put in, at the end of the file. -/
theorem insertions_patches {id : t.Id} (hnew : .patches version ∉ (t.node id).markers) :
    insertions t [(id.1, .patches version)] =
      [⟨id.1, Text.offset t.text.utf8ByteSize, assemblyText t.text [.patches version], .after⟩] := by
  let request : Request := (id.1, .patches version)
  have hothers : ∀ other, other ≠ id →
      insertionsOf t.text other.1 (t.node other) (t.added [request] other) = [] := by
    intro other hne
    rw [added_other _ hne]
    rfl
  have hunsorted : unsorted t [request] =
      [⟨id.1, Text.offset t.text.utf8ByteSize, assemblyText t.text [.patches version], .after⟩] := by
    rw [unsorted_eq, flatMap_eq_of_unique (List.nodup_finRange _) (List.mem_finRange id) hothers,
      added_self hnew]
    rfl
  have hperm : (insertions t [request]).Perm (unsorted t [request]) := insertions_perm
  rw [hunsorted] at hperm
  exact List.perm_singleton.1 hperm

/-- The text of a unit with a new version. -/
theorem text_addMarkers_patches {id : t.Id} (hsize : t.text.utf8ByteSize ≤ maxOffset)
    (hnew : .patches version ∉ (t.node id).markers)
    (h : t.addMarkers [(id.1, .patches version)] = .ok t') :
    t'.text.toList = t.text.toList ++ (assemblyText t.text [.patches version]).toList := by
  have hsplice := splice_of_addMarkers h
  have hposition : 0 + byteLength t.text.toList = Text.offset t.text.utf8ByteSize := by
    rw [Nat.zero_add, Text.offset_eq_self hsize, utf8ByteSize_eq_byteLength]
  rw [insertions_patches hnew, Insertion.splice_eq (List.pairwise_singleton _ _),
    Insertion.weave_marks_last hposition] at hsplice
  · exact (Except.ok.inj hsplice).symm
  · intro ins hins
    obtain rfl := List.mem_singleton.1 hins
    exact ⟨t.text.toList, [], (List.append_nil _).symm, hposition⟩

/-- What is put in at the end of the file is a line. -/
theorem addsLine_of_append {m : Marker} {before after : String}
    (h : after.toList = before.toList ++ (assemblyText before [m]).toList) :
    m.AddsLine before after := by
  unfold Marker.AddsLine
  rw [h, append_assemblyText, fullLines_append (atLineStart_endLine _),
    fullLines_line (Marker.unbroken_render m)]

end Marking

namespace Tree

open Marking Text

variable {t t' unit : Tree} {version : String}

/-- The version is there already, or it gets a line. -/
theorem addsLine_markProgram (hsize : t.text.utf8ByteSize ≤ maxOffset)
    (h : t.markProgram version = .ok unit) :
    t.Patches version ∧ unit = t ∨ Marker.AddsLine (.patches version) t.text unit.text := by
  unfold markProgram at h
  cases hroot : t.root with
  | error e => simp [hroot, bind, Except.bind, Except.mapError] at h
  | ok root =>
    rw [hroot] at h
    have hadded := mapError_eq_ok_iff.1 h
    by_cases hpresent : .patches version ∈ (t.node root).markers
    · have hstored : ∀ r ∈ [(root.1, Marker.patches version)], r.2 ∈ t.stored r.1 := by
        intro r hr
        obtain rfl := List.mem_singleton.1 hr
        rwa [t.stored_eq root]
      exact .inl ⟨⟨root, hroot, hpresent⟩,
        Except.ok.inj (hadded.symm.trans (addMarkers_of_stored hstored))⟩
    · exact .inr (addsLine_of_append (text_addMarkers_patches hsize hpresent hadded))

theorem not_patches_of_built {path : String} {symbols : Symbols} {events : List Event}
    (hbuilt : Tree.ofEvents path symbols events = .ok t) : ¬t.Patches version := by
  rintro ⟨root, -, hmem⟩
  rw [← t.stored_eq root, stored_of_built hbuilt] at hmem
  exact List.not_mem_nil hmem

/-- An extra unit with nodes, or none at all, becomes a unit that has the version: on its root, and in
a line of its own if it was not there. -/
theorem exists_addsLine_patching (path version : String) {extra : Option Tree}
    (h : ∀ t ∈ extra, t.text.utf8ByteSize ≤ maxOffset ∧ t.nodes ≠ #[]) :
    ∃ unit, patching extra path version = .ok unit ∧ unit.Patches version ∧
      (extra = some unit ∨
        Marker.AddsLine (.patches version) ((extra.map Tree.text).getD "") unit.text) := by
  obtain ⟨unit, hunit⟩ := exists_patching path version h
  refine ⟨unit, hunit, patches_of_patching hunit, ?_⟩
  cases extra with
  | some t =>
    rcases addsLine_markProgram (h t rfl).1 hunit with ⟨-, hsame⟩ | hline
    · exact .inl (congrArg some hsame.symm)
    · exact .inr hline
  | none =>
    obtain ⟨t, ht, htext⟩ : ∃ t, blank path = .ok t ∧ t.text = "" := ⟨_, rfl, rfl⟩
    unfold patching at hunit
    rw [ht] at hunit
    have hline := (addsLine_markProgram (sound_of_built ht).size hunit).resolve_left fun h =>
      not_patches_of_built ht h.1
    exact .inr (htext ▸ hline)

/-! ## Any history -/

variable {path : String} {symbols : Symbols} {events : List Event} {rounds : List (List Request)}

/-- Whatever batches a tree that comes from events gets, each marker is in one line of the text. -/
theorem exists_line_of_mem (hbuilt : Tree.ofEvents path symbols events = .ok t)
    (hadded : t.addRounds rounds = .ok t') (hsize : t'.text.utf8ByteSize ≤ maxOffset)
    {r : Request} (hr : r ∈ rounds.flatten) :
    ∃ line ∈ fullLines t'.text.toList, r.2.render.toList <:+: line := by
  obtain ⟨parts, h⟩ := (traced_of_built hbuilt).addRounds hadded
  have hwhole := (h.whole hsize).1 r.1 r.2
  rw [List.nil_append, if_pos hr] at hwhole
  have hpart : rendering r.1 r.2 ∈ parts :=
    List.mem_of_mem_filter (hwhole ▸ List.mem_singleton_self _)
  obtain ⟨front, back, hparts⟩ := List.append_of_mem hpart
  refine exists_mem_fullLines (Marker.unbroken_render r.2) (toList_render_ne_nil r.2) ?_
  rw [← h.records.spells, hparts, spell_append, spell_cons]
  exact ⟨spell front, spell back, List.append_assoc _ _ _⟩

end Tree

namespace Marker

open Marking Text

/-- The text of a marker tells which marker it is, whatever stands behind it, the text in front of a
member tells all its markers, and no marker has a line end in it. A version gets a line of its own at
the end of the extra unit, and whatever batches of markers a unit gets, each of them stays in one
line. -/
theorem render_determines :
    (∀ m n : Marker, m.render = n.render → m = n) ∧
    (∀ ms ns : List Marker, memberText ms = memberText ns → ms = ns) ∧
    (∀ (m : Marker) (rest : List Char), read? (m.render.toList ++ rest) = some (m, rest)) ∧
    (∀ m : Marker, '\n' ∉ m.render.toList ∧ '\r' ∉ m.render.toList) ∧
    (∀ (extra : Option Tree) (path version : String),
      (∀ t ∈ extra, t.text.utf8ByteSize ≤ maxOffset ∧ t.nodes ≠ #[]) →
      ∃ unit, Tree.patching extra path version = .ok unit ∧ unit.Patches version ∧
        (extra = some unit ∨
          AddsLine (patches version) ((extra.map Tree.text).getD "") unit.text)) ∧
    ∀ (path : String) (symbols : Symbols) (events : List Event) (rounds : List (List Request))
      (t unit : Tree), Tree.ofEvents path symbols events = .ok t →
      t.addRounds rounds = .ok unit → unit.text.utf8ByteSize ≤ maxOffset →
      ∀ r ∈ rounds.flatten, ∃ line ∈ fullLines unit.text.toList, r.2.render.toList <:+: line := by
  refine ⟨fun m n h => ?_, fun _ _ h => memberText_injective h, read?_render, fun m => ⟨?_, ?_⟩,
    fun extra path version h => ?_, ?_⟩
  · have hread := read?_render m []
    rw [h, read?_render n []] at hread
    exact (Prod.mk.inj (Option.some.inj hread)).1.symm
  · exact fun hmem => (unbroken_render m _ hmem).1 rfl
  · exact fun hmem => (unbroken_render m _ hmem).2 rfl
  · exact Tree.exists_addsLine_patching path version h
  · intro path symbols events rounds t unit hbuilt hadded hsize r hr
    exact Tree.exists_line_of_mem hbuilt hadded hsize hr

/-- A version of quotes, a line end and a backslash. -/
def wildVersion : String := "\"\r\n\\\""

/-- The version for the program. -/
def versionRound : List Request := [(0, patches wildVersion)]

theorem render_determines_wildVersion :
    (∀ t ∈ some Tree.nestedOwners, t.text.utf8ByteSize ≤ maxOffset ∧ t.nodes ≠ #[]) ∧
    (∃ unit, Tree.patching (some Tree.nestedOwners) "A.cs" wildVersion = .ok unit ∧
      AddsLine (patches wildVersion) Tree.nestedOwners.text unit.text) ∧
    Tree.ofEvents "A.cs" .empty Tree.nestedEvents = .ok Tree.nestedOwners ∧
    ∃ unit, Tree.nestedOwners.addRounds [Tree.firstRound, versionRound] = .ok unit ∧
      unit.text.utf8ByteSize ≤ maxOffset ∧
      ∃ line ∈ fullLines unit.text.toList, (patches wildVersion).render.toList <:+: line := by
  obtain ⟨-, -, -, -, hpatching, hhistory⟩ := render_determines
  have hfits : ∀ t ∈ some Tree.nestedOwners,
      t.text.utf8ByteSize ≤ maxOffset ∧ t.nodes ≠ #[] := by
    intro t ht
    obtain rfl := Option.some.inj ht
    exact ⟨(Tree.sound_of_built Tree.ofEvents_nestedEvents).size, by decide⟩
  refine ⟨hfits, ?_, Tree.ofEvents_nestedEvents, ?_⟩
  · obtain ⟨unit, hunit, hpatches, hsame | hline⟩ := hpatching _ "A.cs" wildVersion hfits
    · obtain rfl := Option.some.inj hsame
      exact absurd hpatches (Tree.not_patches_of_built Tree.ofEvents_nestedEvents)
    · exact ⟨unit, hunit, hline⟩
  · obtain ⟨hfirst, hadded⟩ := Tree.addMarkers_firstRound
    have hbetween : Tree.betweenRounds.AfterRounds :=
      .round (.built Tree.ofEvents_nestedEvents) hfirst hadded
    have hversion : Tree.betweenRounds.Admits versionRound := by decide +kernel
    obtain ⟨unit, hunit, hrewritten, -⟩ := hbetween.sound.addMarkers hversion
    have hrounds : Tree.nestedOwners.addRounds [Tree.firstRound, versionRound] = .ok unit :=
      (Tree.addRounds_cons_of_ok hadded).trans (Tree.addRounds_cons_of_ok hunit)
    have hsize : unit.text.utf8ByteSize ≤ maxOffset := by
      rw [hrewritten.text, utf8ByteSize_eq_byteLength, String.toList_ofList]
      exact hversion.size
    exact ⟨unit, hrounds, hsize, hhistory _ _ _ _ _ _ Tree.ofEvents_nestedEvents hrounds hsize
      (0, patches wildVersion) (by simp [versionRound])⟩

end Marker

end HotReload
