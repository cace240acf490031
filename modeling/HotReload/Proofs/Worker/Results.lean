import HotReload.Worker.FanOut
import HotReload.Proofs.Order.Sorting
import Mathlib.Data.List.Forall2

/-
  Lists of results. A pass over a list answers with all results if every step has one
  (`mapM_eq_ok_iff`), and workers that all have a result are joined to the list of their results, in
  the order in which they came (`Outcome.join_map`).
-/

namespace HotReload

variable {α β ε : Type} {f : α → Except ε β}

theorem mapM_eq_ok_iff {as : List α} {bs : List β} :
    as.mapM f = .ok bs ↔ List.Forall₂ (fun a b => f a = .ok b) as bs := by
  induction as generalizing bs with
  | nil => cases bs <;> simp [pure, Except.pure]
  | cons a as ih =>
    rw [List.mapM_cons]
    cases ha : f a with
    | error e => cases bs <;> simp [bind, Except.bind, ha]
    | ok b =>
      cases has : as.mapM f with
      | error e => cases bs <;> simp [bind, Except.bind, ha, ← ih, has]
      | ok bs' => cases bs <;> simp [bind, Except.bind, pure, Except.pure, ha, ← ih, has]

/-- Every step has its result. -/
theorem exists_of_mapM {as : List α} {bs : List β} (h : as.mapM f = .ok bs) {a : α} (ha : a ∈ as) :
    ∃ b ∈ bs, f a = .ok b := by
  have hsteps := mapM_eq_ok_iff.1 h
  clear h
  induction hsteps with
  | nil => simp at ha
  | @cons a' b as bs hstep _ ih =>
    rcases List.mem_cons.1 ha with rfl | ha
    · exact ⟨b, List.mem_cons_self, hstep⟩
    · obtain ⟨b', hb', hstep'⟩ := ih ha
      exact ⟨b', List.mem_cons_of_mem _ hb', hstep'⟩

/-- The results are those of the steps. -/
theorem mem_of_mapM {as : List α} {bs : List β} (h : as.mapM f = .ok bs) {b : β} :
    b ∈ bs ↔ ∃ a ∈ as, f a = .ok b := by
  have hsteps := mapM_eq_ok_iff.1 h
  clear h
  induction hsteps with
  | nil => simp
  | cons hstep _ ih => simp [ih, hstep, eq_comm]

/-- Every step has a known result. -/
theorem mapM_eq_ok_map {as : List α} {g : α → β} (h : ∀ a ∈ as, f a = .ok (g a)) :
    as.mapM f = .ok (as.map g) :=
  mapM_eq_ok_iff.2 (List.forall₂_map_right_iff.2 (List.forall₂_same.2 h))

/-- Every step has some result. -/
theorem exists_mapM {as : List α} (h : ∀ a ∈ as, ∃ b, f a = .ok b) :
    ∃ bs, as.mapM f = .ok bs := by
  induction as with
  | nil => exact ⟨[], rfl⟩
  | cons a as ih =>
    obtain ⟨b, hb⟩ := h a List.mem_cons_self
    obtain ⟨bs, hbs⟩ := ih fun a' ha' => h a' (List.mem_cons_of_mem _ ha')
    exact ⟨b :: bs, mapM_eq_ok_iff.2 (.cons hb (mapM_eq_ok_iff.1 hbs))⟩

/-- Another name for an error changes no result. -/
theorem mapError_eq_ok_iff {ε' : Type} {g : ε → ε'} {x : Except ε α} {a : α} :
    x.mapError g = .ok a ↔ x = .ok a := by
  cases x <;> simp [Except.mapError]

theorem map_eq_ok_iff {g : α → β} {x : Except ε α} {b : β} :
    x.map g = .ok b ↔ ∃ a, x = .ok a ∧ b = g a := by
  cases x <;> simp [Except.map, eq_comm]

/-- Workers that all have a result are joined. -/
theorem Outcome.join_map {jobs : List α} {outcome : α → Outcome β} {g : α → β}
    (h : ∀ job ∈ jobs, (outcome job).result = .ok (g job)) :
    Outcome.join (jobs.map outcome) = .ok (jobs.map g) := by
  have herrors : (jobs.map outcome).filterMap Outcome.error? = [] := by
    rw [List.filterMap_eq_nil_iff, List.forall_mem_map]
    intro job hjob
    unfold Outcome.error?
    rw [h job hjob]
  have hvalues : (jobs.map outcome).filterMap Outcome.value? = jobs.map g := by
    rw [List.filterMap_map, ← List.filterMap_eq_map]
    apply List.filterMap_congr
    intro job hjob
    change Outcome.value? (outcome job) = some (g job)
    unfold Outcome.value?
    rw [h job hjob]
  unfold Outcome.join Outcome.failure?
  rw [herrors, hvalues]
  rfl

end HotReload
