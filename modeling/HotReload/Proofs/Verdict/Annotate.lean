import HotReload.Proofs.Marking.Rounds
import HotReload.Proofs.Verdict.Batch
import HotReload.Proofs.Verdict.RegionSafety
import HotReload.Verdict.Annotate

/-
  Annotating cannot fail. The intents of a verdict are about nodes of the new tree
  (`Verdict.lt_of_mem_bodyEdits`), and a tree that can be marked takes markers for any of its nodes,
  so every verdict can be carried out (`Tree.Sound.exists_annotate`). The marker of the program goes
  to the root of the extra unit (`Tree.patches_of_patching`), and a unit that was not there gets one; so
  only an extra unit without nodes cannot be marked (`Tree.exists_patching`, `Tree.patching_of_empty`).
-/

namespace HotReload

namespace Verdict

variable {config : ReloadConfig} {old new : Tree} {intents : SortedSet Intent} {intent : Intent}

/-- The body that a region is in is the one around its new side. -/
theorem bodyTarget?_of_classifyAt {r : Region} {o : old.Id} {n : new.Id}
    (h : classifyAt config old new r o n = .ok (.body intent)) :
    ∃ owner target, new.bodyTarget? n = some (owner, target) ∧ intent = ⟨owner, target⟩ := by
  unfold classifyAt at h
  split at h
  · simp at h
  split at h
  · next newOwner newTarget _ hnew =>
    split at h
    · simp at h
    split at h
    · simp at h
    exact ⟨newOwner, newTarget, hnew, (RegionClass.body.inj (Except.ok.inj h)).symm⟩
  · split at h <;> simp at h

/-- The recorded bodies are those of the regions. -/
theorem mem_bodyEdits_iff {classes : List RegionClass} (h : ofClasses classes = .bodyEdits intents) :
    intent ∈ intents ↔ .body intent ∈ classes := by
  unfold ofClasses at h
  split at h
  · simp at h
  obtain rfl := Verdict.bodyEdits.inj h
  rw [SortedSet.mem_ofList, List.mem_filterMap]
  constructor
  · rintro ⟨c, hc, hintent⟩
    cases c with
    | ignorable => simp [RegionClass.intent?] at hintent
    | body found =>
      obtain rfl : found = intent := Option.some.inj hintent
      exact hc
  · intro hc
    exact ⟨_, hc, rfl⟩

/-- What is recorded for some regions is a body around the new side of one of them. -/
theorem exists_bodyTarget? {regions : List Region}
    (h : ofRegions config old new regions = .bodyEdits intents) (hi : intent ∈ intents) :
    ∃ n owner target, new.bodyTarget? n = some (owner, target) ∧ intent = ⟨owner, target⟩ := by
  have hregions : regions ≠ [] := by
    rintro rfl
    unfold ofRegions at h
    split at h
    · simp at h
    split at h <;> simp at h
  obtain ⟨classes, hclasses, hverdict⟩ := exists_classes (by rw [h]; rfl) hregions
  rw [hverdict] at h
  obtain ⟨r, -, hclass⟩ := (mem_of_mapM hclasses).1 ((mem_bodyEdits_iff h).1 hi)
  obtain ⟨o, n, -, -, hat⟩ := exists_of_classifyRegion hclass
  exact ⟨n, bodyTarget?_of_classifyAt hat⟩

/-- The recorded bodies belong to nodes of the new tree. -/
theorem lt_of_mem_bodyEdits {differ : Differ}
    (h : classifyBy differ config old new = .bodyEdits intents) (hi : intent ∈ intents) :
    intent.declaration < new.nodes.size := by
  unfold classifyBy at h
  split at h
  · simp at h
  split at h
  · simp at h
  obtain ⟨-, owner, -, -, rfl⟩ := exists_bodyTarget? h hi
  exact owner.2

end Verdict

namespace Tree

variable {t : Tree} {intents : SortedSet Intent} {path version : String}

/-- Markers for nodes of the tree can be added if nothing is put in inside of a character. -/
theorem exists_annotate_of_cuts
    (hcuts : ∀ ins ∈ Marking.insertions t (intents.toList.map Intent.request),
      Text.IsCut t.text.toList ins.position)
    (h : ∀ i ∈ intents, i.declaration < t.nodes.size) : ∃ t', t.annotate intents = .ok t' := by
  unfold annotate
  rw [addMarkers_eq_of_cuts _ hcuts]
  · exact ⟨_, rfl⟩
  · exact List.forall_mem_map.2 h

theorem Sound.exists_annotate (hs : t.Sound) (h : ∀ i ∈ intents, i.declaration < t.nodes.size) :
    ∃ t', t.annotate intents = .ok t' :=
  exists_annotate_of_cuts hs.isCut_position h

theorem exists_blank (path : String) :
    ∃ t, blank path = .ok t ∧ t.Sound ∧ t.nodes ≠ #[] := by
  obtain ⟨t, ht, hsize⟩ : ∃ t, blank path = .ok t ∧ t.nodes.size = 1 := ⟨_, rfl, rfl⟩
  refine ⟨t, ht, sound_of_built ht, ?_⟩
  rintro hempty
  simp [hempty] at hsize

/-- The marker of the program goes to the end of the file. -/
theorem exists_markProgram (hsize : t.text.utf8ByteSize ≤ Text.maxOffset) (h : t.nodes ≠ #[]) :
    ∃ unit, t.markProgram version = .ok unit := by
  obtain ⟨root, hroot, -⟩ := root_of_ne_empty h
  have hcuts : ∀ ins ∈ Marking.insertions t [(root.1, .patches version)],
      Text.IsCut t.text.toList ins.position := by
    intro ins hins
    obtain ⟨id, hid⟩ := Marking.mem_insertions_iff.1 hins
    obtain ⟨-, ⟨-, -, hne, -⟩ | ⟨-, hposition, -⟩⟩ := Marking.mem_insertionsOf hid
    · obtain ⟨m, hm, hmember⟩ := Marking.exists_request hne
      obtain ⟨-, rfl⟩ := Prod.mk.inj (List.mem_singleton.1 hm)
      cases hmember
    · exact hposition ▸ isCut_stop hsize
  unfold markProgram
  rw [hroot]
  change ∃ unit, (t.addMarkers _).mapError AnnotateError.mark = .ok unit
  rw [addMarkers_eq_of_cuts _ hcuts]
  · exact ⟨_, rfl⟩
  · intro r hr
    obtain rfl := List.mem_singleton.1 hr
    exact root.2

/-- The root says that the program patches a version. -/
def Patches (t : Tree) (version : String) : Prop :=
  ∃ root, t.root = .ok root ∧ .patches version ∈ (t.node root).markers

theorem patches_of_markProgram {unit : Tree} (h : t.markProgram version = .ok unit) :
    unit.Patches version := by
  unfold markProgram at h
  cases hroot : t.root with
  | error e => simp [hroot, bind, Except.bind, Except.mapError] at h
  | ok root =>
    rw [hroot] at h
    have hmarkers := markers_addMarkers (mapError_eq_ok_iff.1 h) root.1
    rw [t.getElem?_node root, Option.map_some] at hmarkers
    obtain ⟨n, hn, hnmarkers⟩ := Option.map_eq_some_iff.1 hmarkers
    obtain ⟨hlt, rfl⟩ := Array.getElem?_eq_some_iff.1 hn
    have hzero : root.1 = 0 := root_eq_ok_iff.1 hroot
    refine ⟨⟨root.1, hlt⟩, root_eq_ok_iff.2 hzero, ?_⟩
    change .patches version ∈ unit.nodes[root.1].markers
    rw [hnmarkers, List.mem_append]
    by_cases hpresent : .patches version ∈ (t.node root).markers
    · exact .inl hpresent
    · exact .inr (Marking.mem_additions.2 ⟨List.mem_singleton.2 rfl, hpresent⟩)

/-- An extra unit with nodes, or none at all, becomes the unit with the marker of the program. -/
theorem exists_patching (path version : String) {extra : Option Tree}
    (h : ∀ t ∈ extra, t.text.utf8ByteSize ≤ Text.maxOffset ∧ t.nodes ≠ #[]) :
    ∃ unit, patching extra path version = .ok unit := by
  cases extra with
  | some t =>
    obtain ⟨hsize, hne⟩ := h t rfl
    exact exists_markProgram hsize hne
  | none =>
    obtain ⟨t, ht, hs, hne⟩ := exists_blank path
    unfold patching
    rw [ht]
    exact exists_markProgram hs.size hne

theorem patches_of_patching {extra : Option Tree} {unit : Tree}
    (h : patching extra path version = .ok unit) : unit.Patches version := by
  cases extra with
  | some t => exact patches_of_markProgram h
  | none =>
    unfold patching at h
    cases hblank : blank path with
    | error e => simp [hblank, bind, Except.bind, Except.mapError] at h
    | ok t =>
      rw [hblank] at h
      exact patches_of_markProgram h

/-- An extra unit without nodes has no root for the marker. -/
theorem patching_of_empty (h : t.nodes = #[]) :
    patching (some t) path version = .error (.root ⟨t.path⟩) := by
  change t.markProgram version = _
  unfold markProgram
  rw [root_eq_error_iff.2 ⟨h, rfl⟩]
  rfl

end Tree

end HotReload
