import HotReload.Proofs.Worker.Results

/-
  The error of some failures (`FanOutError.Collects`). Failures are sorted by path, and nothing else:
  those of one path keep the order in which they came (`FanOutError.filter_failures`). If no two
  failures of one path differ, then the error is a matter of what failed, and not of the order
  (`FanOutError.ofFailures_congr`). An error with several failures in every aggregate is known by its
  failures (`FanOutError.Several.eq_of_failures`).
-/

namespace HotReload

namespace FanOutError

variable {failures failures' : List WorkerError} {e : FanOutError}

/-- The error of some failures: a single one stands for itself, and several of them are in order of
path. -/
inductive Collects : List WorkerError → FanOutError → Prop
  | single (one : WorkerError) : Collects [one] (.single one)
  | aggregate {failures all : List WorkerError} (hmany : 2 ≤ failures.length)
      (hperm : all.Perm failures) (hsorted : all.Pairwise fun a b => a.path ≤ b.path) :
      Collects failures (.aggregate all)

theorem collects_ofFailures (h : ofFailures failures = some e) : Collects failures e := by
  match failures with
  | [] => simp [ofFailures] at h
  | [one] =>
    obtain rfl := Option.some.inj h
    exact .single one
  | first :: second :: rest =>
    obtain rfl := Option.some.inj h
    exact .aggregate (by simp) (List.mergeSort_perm _ _) (pairwise_mergeSort_by WorkerError.path _)

theorem ofFailures_eq_none_iff : ofFailures failures = none ↔ failures = [] := by
  match failures with
  | [] => simp [ofFailures]
  | [one] => simp [ofFailures]
  | first :: second :: rest => simp [ofFailures]

theorem exists_ofFailures (h : failures ≠ []) : ∃ e, ofFailures failures = some e :=
  Option.ne_none_iff_exists'.1 (mt ofFailures_eq_none_iff.1 h)

/-- The failures of an error are the sorted ones. -/
theorem failures_ofFailures (h : ofFailures failures = some e) :
    e.failures = failures.mergeSort fun a b => a.path ≤ b.path := by
  match failures with
  | [] => simp [ofFailures] at h
  | [one] =>
    obtain rfl := Option.some.inj h
    exact (List.mergeSort_singleton one).symm
  | first :: second :: rest =>
    obtain rfl := Option.some.inj h
    rfl

/-- Failures of one path keep their order. -/
theorem filter_failures (h : ofFailures failures = some e) (path : String) :
    (e.failures.filter fun failure => failure.path = path) =
      failures.filter fun failure => failure.path = path := by
  rw [failures_ofFailures h]
  exact filter_mergeSort_by WorkerError.path failures path

/-- The order of failures does not matter if no two of one path differ. -/
theorem ofFailures_congr (hperm : failures.Perm failures')
    (halike : ∀ a ∈ failures, ∀ b ∈ failures, a.path = b.path → a = b) :
    ofFailures failures = ofFailures failures' := by
  match failures, failures' with
  | [], failures' => rw [hperm.nil_eq]
  | [one], failures' => rw [List.singleton_perm.1 hperm]
  | _ :: _ :: _, [] => exact absurd hperm.length_eq (by simp)
  | _ :: _ :: _, [_] => exact absurd hperm.length_eq (by simp)
  | _ :: _ :: _, _ :: _ :: _ =>
    exact congrArg (fun all => some (FanOutError.aggregate all))
      (mergeSort_by_congr WorkerError.path hperm halike)

/-! ## Only several failures are an aggregate -/

/-- An aggregate has several failures. -/
def Several (e : FanOutError) : Prop := ∀ all, e = .aggregate all → 2 ≤ all.length

theorem Collects.several (h : Collects failures e) : e.Several := by
  rintro all rfl
  cases h with
  | aggregate hmany hperm hsorted => rwa [hperm.length_eq]

theorem Several.exists_mem_failures (h : e.Several) : ∃ failure, failure ∈ e.failures := by
  cases e with
  | single one => exact ⟨one, List.mem_singleton_self one⟩
  | aggregate all => exact List.exists_mem_of_length_pos (Nat.lt_of_lt_of_le Nat.two_pos (h all rfl))

/-- Such an error is known by its failures. -/
theorem Several.eq_of_failures {e' : FanOutError} (h : e.Several) (h' : e'.Several)
    (hfailures : e.failures = e'.failures) : e = e' := by
  cases e with
  | single one =>
    cases e' with
    | single one' => rw [List.singleton_inj.1 hfailures]
    | aggregate all' =>
      have hlength := h' all' rfl
      obtain rfl : [one] = all' := hfailures
      exact absurd hlength (by simp)
  | aggregate all =>
    cases e' with
    | single one' =>
      have hlength := h all rfl
      obtain rfl : all = [one'] := hfailures
      exact absurd hlength (by simp)
    | aggregate all' => exact congrArg FanOutError.aggregate hfailures

end FanOutError

end HotReload
