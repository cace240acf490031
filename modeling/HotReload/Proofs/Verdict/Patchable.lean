import HotReload.Proofs.Marking.AnyBatch
import HotReload.Proofs.Verdict.Annotate
import HotReload.Proofs.Verdict.BodyEdits

/-
  What a verdict records can be marked. A recorded body belongs to a method or to an accessor of a
  property, and the method or property is declared in a type (`Verdict.patchable_of_mem_intents`): the
  search for a body goes up by parents, and the accessor that it comes through is a child of the
  property. Markers fail on nodes that are not there and on nothing else, so the markers of a verdict
  never do (`Tree.Made.patches`).
-/

namespace HotReload

namespace Tree

/-- The intent is about a method in a type, or about the accessor of that kind of a property in a
type. -/
def Patchable (t : Tree) (intent : Intent) : Prop :=
  ∃ id : t.Id, id.1 = intent.declaration ∧
    (∃ type, t.parent? id = some type ∧ t.kind type = .typeDecl) ∧
    match intent.target with
    | .method => t.kind id = .method
    | .accessor a => a.isGetOrSet = true ∧ t.kind id = .property ∧
      ∃ accessor ∈ t.children id, t.kind accessor = .accessor a

variable {t : Tree}

theorem isMember_iff {id : t.Id} :
    t.isMember id = true ↔ ∃ type, t.parent? id = some type ∧ t.kind type = .typeDecl := by
  unfold isMember
  rw [Option.any_eq_true]
  simp only [decide_eq_true_eq]

/-- The owner of a body can be marked for it. -/
theorem Markable.patchable (h : t.Markable) {id owner : t.Id} {target : Target}
    (hbody : t.InBody id owner target) : t.Patchable ⟨owner, target⟩ := by
  obtain ⟨hmember, body, -, -, howns⟩ := hbody
  refine ⟨owner, rfl, isMember_iff.1 hmember, ?_⟩
  cases target with
  | method => exact howns.2
  | accessor a =>
    obtain ⟨hgetOrSet, hkind, accessor, -, haccessor, hparent⟩ := howns
    exact ⟨hgetOrSet, hkind, accessor, h.mem_children_iff.2 hparent, haccessor⟩

theorem Patchable.lt_size {intent : Intent} (h : t.Patchable intent) :
    intent.declaration < t.size := by
  obtain ⟨id, hid, -⟩ := h
  exact hid ▸ id.2

end Tree

namespace Verdict

variable {config : ReloadConfig} {old new : Tree} {regions : List Region} {intent : Intent}

/-- Whatever the regions, what is recorded for them can be marked. -/
theorem patchable_of_mem_intents (hnew : new.Markable)
    (h : intent ∈ (ofRegions config old new regions).intents) : new.Patchable intent := by
  cases hverdict : ofRegions config old new regions with
  | bodyEdits intents =>
    rw [hverdict] at h
    obtain ⟨n, owner, target, htarget, rfl⟩ := exists_bodyTarget? hverdict h
    exact hnew.patchable (Tree.inBody_of_bodyTarget? htarget)
  | unchanged | triviaOnly | declined reason =>
    rw [hverdict] at h
    exact absurd h (SortedSet.not_mem_empty _)

end Verdict

namespace Tree

variable {t : Tree}

theorem Markable.exists_annotate (h : t.Markable) {intents : SortedSet Intent}
    (hintents : ∀ intent ∈ intents, t.Patchable intent) : ∃ t', t.annotate intents = .ok t' :=
  exists_annotate_of_cuts h.isCut_position fun intent hintent => (hintents intent hintent).lt_size

/-- Markers fail on nodes that the tree does not have, with the first of them, and on nothing else:
nothing is put in inside of a character. What a verdict records are methods of types and accessors of
properties of types, so annotating a tree with it never fails. -/
theorem Made.patches (h : t.Made) :
    (∀ requests : List Marking.Request,
      ((∃ e, t.addMarkers requests = .error e) ↔ ∃ r ∈ requests, t.size ≤ r.1) ∧
      (∀ e, t.addMarkers requests = .error e →
        ∃ id, t.FirstUnknown requests id ∧ e = .unknownNode t.path id) ∧
      ∀ ins ∈ Marking.insertions t requests, Text.IsCut t.text.toList ins.position) ∧
    ∀ (config : ReloadConfig) (old : Tree) (regions : List Region),
      (∀ intent ∈ (Verdict.ofRegions config old t regions).intents, t.Patchable intent) ∧
      ∃ t', t.annotate (Verdict.ofRegions config old t regions).intents = .ok t' := by
  have hmarkable := h.markable
  refine ⟨fun requests => ?_, fun config old regions => ?_⟩
  · obtain ⟨hfails, hfirst⟩ := hmarkable.addMarkers_fails_iff requests
    exact ⟨hfails, hfirst, hmarkable.isCut_position⟩
  · have hpatchable : ∀ intent ∈ (Verdict.ofRegions config old t regions).intents,
        t.Patchable intent := fun intent hintent =>
      Verdict.patchable_of_mem_intents hmarkable hintent
    exact ⟨hpatchable, hmarkable.exists_annotate hpatchable⟩

open Verdict in
/-- A getter and a method that changed can be marked, and a node that is not there cannot. -/
theorem patches_readsY :
    readsY.Made ∧
    (ofRegions .standard readsX readsY bodyRegions).intents.toList =
      [⟨2, .accessor .get⟩, ⟨9, .method⟩] ∧
    readsY.Patchable ⟨2, .accessor .get⟩ ∧ readsY.Patchable ⟨9, .method⟩ ∧
    (∃ t', readsY.annotate (ofRegions .standard readsX readsY bodyRegions).intents = .ok t') ∧
    ∃ e, readsY.addMarkers [(9, .methodBody), (99, .methodBody)] = .error e := by
  have hbuilt : Tree.ofEvents "A.cs" .empty (propertyAndMethod "return y;" "x = 2;").events =
    .ok readsY := by decide +kernel
  have hmade : readsY.Made := .built hbuilt
  have hintents : (ofRegions .standard readsX readsY bodyRegions).intents.toList =
    [⟨2, .accessor .get⟩, ⟨9, .method⟩] := by decide +kernel
  obtain ⟨hmarkers, hverdict⟩ := hmade.patches
  obtain ⟨hpatchable, hannotate⟩ := hverdict .standard readsX bodyRegions
  have hmem : ∀ intent ∈ [⟨2, .accessor .get⟩, ⟨9, .method⟩], readsY.Patchable intent := by
    rw [← hintents]
    exact hpatchable
  have hsize : readsY.size ≤ 99 := by decide +kernel
  exact ⟨hmade, hintents, hmem _ (by simp), hmem _ (by simp), hannotate,
    (hmarkers _).1.2 ⟨(99, .methodBody), by simp, hsize⟩⟩

end Tree

end HotReload
