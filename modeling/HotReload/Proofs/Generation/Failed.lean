import HotReload.Proofs.Diagnostic.Crash
import HotReload.Proofs.Generation.Sequential
import HotReload.Proofs.Worker.Failures

/-
  Passes in which a worker fails, for generators whose answer depends on the file only (`Answers`). The
  error of such a pass holds what failed, in order of path, and failures of one path in the order in
  which their workers finished. So all schedules report the same failures of the same paths, and they
  report them in one order exactly if inputs of one path fail alike
  (`Generation.run_failed_agree_iff`). Outputs go by path and then by position, but failures have no
  position, so with repeated paths the order of the workers shows.
-/

namespace HotReload.Generation

variable {H : Type} {schedule schedule' : Schedule} {config : GenerationConfig} {parser : Parser}
  {generator : Generator H} {cx : GenerationContext H} {trees : List Tree} {tags : TagSet}
  {result : Tree → Except Failure GenerationOutput} {failure failure' : Failure} {e : FanOutError}
  {t : Tree}

/-- On these files the generator's answer depends on the file only, whatever tags are taken. -/
def Answers (generator : Generator H) (cx : GenerationContext H) (trees : List Tree)
    (result : Tree → Except Failure GenerationOutput) : Prop :=
  ∀ t ∈ trees, ∀ tags, ((generator cx t).run tags).1 = result t

/-- The files in the order in which their workers finish. -/
def finished (schedule : Schedule) (trees : List Tree) : List Tree :=
  (schedule.arrange trees.zipIdx).map Prod.fst

/-- What a file's worker failed with. -/
def failureOf? (result : Tree → Except Failure GenerationOutput) (t : Tree) : Option WorkerError :=
  match result t with
  | .ok _ => none
  | .error failure => some ⟨t.path, failure⟩

/-- Inputs of one path that fail do so alike. -/
def FailAlike (trees : List Tree) (result : Tree → Except Failure GenerationOutput) : Prop :=
  ∀ t ∈ trees, ∀ u ∈ trees, t.path = u.path → ∀ failure failure', result t = .error failure →
    result u = .error failure' → failure = failure'

theorem finished_perm (schedule : Schedule) (trees : List Tree) :
    (finished schedule trees).Perm trees := by
  have hperm := (schedule.perm trees.zipIdx).map Prod.fst
  rwa [List.zipIdx_map_fst] at hperm

theorem failureOf?_of_error (h : result t = .error failure) :
    failureOf? result t = some ⟨t.path, failure⟩ := by
  unfold failureOf?
  rw [h]

theorem failureOf?_eq_some {one : WorkerError} :
    failureOf? result t = some one ↔ one.path = t.path ∧ result t = .error one.failure := by
  unfold failureOf?
  cases result t with
  | ok output => simp
  | error failure =>
    obtain ⟨path, failure'⟩ := one
    simp [eq_comm]

/-! ## The error of a pass -/

/-- The outcome of a worker whose answer depends on the file only. -/
def outcomeOf (result : Tree → Except Failure GenerationOutput) (job : Tree × Nat) :
    Outcome WorkerOutput :=
  ⟨job.1.path, (result job.1).map fun output => ⟨job.1.path, job.2, output⟩⟩

theorem runJobs_of_answers (h : Answers generator cx trees result) {jobs : List (Tree × Nat)}
    (hjobs : ∀ job ∈ jobs, job.1 ∈ trees) (tags : TagSet) :
    (runJobs generator cx jobs tags).1 = jobs.map (outcomeOf result) := by
  induction jobs generalizing tags with
  | nil => rfl
  | cons job jobs ih =>
    have hjob := h job.1 (hjobs job List.mem_cons_self) tags
    have hrest := ih fun job' hjob' => hjobs job' (List.mem_cons_of_mem _ hjob')
    rw [List.map_cons, ← hrest ((generator cx job.1).run tags).2]
    unfold outcomeOf
    rw [← hjob]
    rfl

/-- What the workers of a pass came to, in the order in which they finished. -/
theorem runJobs_arrange (h : Answers generator cx trees result) (schedule : Schedule)
    (tags : TagSet) :
    (runJobs generator cx (schedule.arrange trees.zipIdx) tags).1 =
      (schedule.arrange trees.zipIdx).map (outcomeOf result) :=
  runJobs_of_answers h
    (fun _ hjob => List.fst_mem_of_mem_zipIdx ((schedule.perm _).mem_iff.1 hjob)) tags

theorem filterMap_error?_outcomeOf (jobs : List (Tree × Nat)) :
    (jobs.map (outcomeOf result)).filterMap Outcome.error? =
      (jobs.map Prod.fst).filterMap (failureOf? result) := by
  rw [List.filterMap_map, List.filterMap_map]
  refine List.filterMap_congr fun job _ => ?_
  unfold Function.comp outcomeOf failureOf? Outcome.error?
  cases result job.1 <;> rfl

theorem join_of_failures
    (he : FanOutError.ofFailures ((finished schedule trees).filterMap (failureOf? result)) = some e) :
    Outcome.join ((schedule.arrange trees.zipIdx).map (outcomeOf result)) = .error e := by
  have hfailure : Outcome.failure? ((schedule.arrange trees.zipIdx).map (outcomeOf result)) = some e := by
    unfold Outcome.failure?
    rw [filterMap_error?_outcomeOf]
    exact he
  unfold Outcome.join
  rw [hfailure]

section Failures

variable (h : Answers generator cx trees result)
  (he : FanOutError.ofFailures ((finished schedule trees).filterMap (failureOf? result)) = some e)

include h he

/-- The error holds the failures in the order in which they came. -/
theorem runWorkers_of_failures (tags : TagSet) :
    runWorkers schedule generator cx tags trees = .error e := by
  unfold runWorkers
  rw [runJobs_arrange h, join_of_failures he]
  rfl

/-- The pass reports this error. -/
theorem run_of_failures (config : GenerationConfig) (parser : Parser) :
    run schedule config parser generator cx trees = ⟨trees, [crashDiagnostic e], some e⟩ := by
  apply run_of_failed
  unfold outcomes
  rw [runJobs_arrange h, join_of_failures he]

end Failures

/-- A pass in which a worker fails has an error. -/
theorem exists_failures (hfailed : ∃ t ∈ trees, ∃ failure, result t = .error failure)
    (schedule : Schedule) : ∃ e,
      FanOutError.ofFailures ((finished schedule trees).filterMap (failureOf? result)) = some e := by
  obtain ⟨t, ht, failure, hfailure⟩ := hfailed
  apply FanOutError.exists_ofFailures
  refine List.ne_nil_of_mem (a := ⟨t.path, failure⟩) (List.mem_filterMap.2 ⟨t, ?_, ?_⟩)
  · exact (finished_perm schedule trees).mem_iff.2 ht
  · exact failureOf?_of_error hfailure

/-! ## Schedules compared -/

/-- The failures of a favoured file come first. -/
theorem head?_failures {k : Nat} (hk : trees[k]? = some t) (hfailure : result t = .error failure) :
    (((finished (favouring fun i => i = k) trees).filterMap (failureOf? result)).filter
      fun one => one.path = t.path).head? = some ⟨t.path, failure⟩ := by
  have hmem : (t, k) ∈ trees.zipIdx.filter fun job => job.2 = k :=
    List.mem_filter.2 ⟨List.mk_mem_zipIdx_iff_getElem?.2 hk, decide_eq_true rfl⟩
  obtain ⟨job, jobs, hjobs⟩ := List.exists_cons_of_ne_nil (List.ne_nil_of_mem hmem)
  -- the favoured file is the only one of its position
  obtain rfl : job = (t, k) := by
    obtain ⟨hjob, hindex⟩ := List.mem_filter.1 (hjobs ▸ List.mem_cons_self : job ∈ _)
    exact eq_of_index hjob (List.mk_mem_zipIdx_iff_getElem?.2 hk) (of_decide_eq_true hindex)
  unfold finished
  rw [arrange_favouring, hjobs, List.cons_append, List.map_cons,
    List.filterMap_cons_some (failureOf?_of_error hfailure), List.filter_cons_of_pos (by simp),
    List.head?_cons]

/-- If all schedules agree, then inputs of one path fail alike. -/
theorem failAlike_of_agree (h : Answers generator cx trees result)
    (hagree : ∀ schedule schedule' : Schedule, runWorkers schedule generator cx tags trees =
      runWorkers schedule' generator cx tags trees) : FailAlike trees result := by
  intro t ht u hu hpath failure failure' hfailure hfailure'
  obtain ⟨i, hi⟩ := List.mem_iff_getElem?.1 ht
  obtain ⟨j, hj⟩ := List.mem_iff_getElem?.1 hu
  obtain ⟨e, he⟩ := exists_failures ⟨t, ht, failure, hfailure⟩ (favouring fun k => k = i)
  obtain ⟨e', he'⟩ := exists_failures ⟨t, ht, failure, hfailure⟩ (favouring fun k => k = j)
  have herror : e = e' := by
    have hruns := hagree (favouring fun k => k = i) (favouring fun k => k = j)
    rw [runWorkers_of_failures h he, runWorkers_of_failures h he'] at hruns
    exact Except.error.inj hruns
  have hfirst := head?_failures hi hfailure
  have hfirst' := head?_failures hj hfailure'
  rw [← FanOutError.filter_failures he, herror, FanOutError.filter_failures he', hpath, hfirst'] at hfirst
  exact (WorkerError.mk.inj (Option.some.inj hfirst)).2.symm

/-- If inputs of one path fail alike, then all schedules have one error. -/
theorem ofFailures_finished (halike : FailAlike trees result) (schedule schedule' : Schedule) :
    FanOutError.ofFailures ((finished schedule trees).filterMap (failureOf? result)) =
      FanOutError.ofFailures ((finished schedule' trees).filterMap (failureOf? result)) := by
  have hperm := (finished_perm schedule trees).trans (finished_perm schedule' trees).symm
  refine FanOutError.ofFailures_congr (hperm.filterMap _) ?_
  rintro ⟨path, failure⟩ ha ⟨path', failure'⟩ hb hpath
  obtain ⟨t, ht, hone⟩ := List.mem_filterMap.1 ha
  obtain ⟨u, hu, hone'⟩ := List.mem_filterMap.1 hb
  obtain ⟨rfl, hfailure⟩ := failureOf?_eq_some.1 hone
  obtain ⟨rfl, hfailure'⟩ := failureOf?_eq_some.1 hone'
  have hmem := (finished_perm schedule trees).mem_iff.1 ht
  have hmem' := (finished_perm schedule trees).mem_iff.1 hu
  rw [WorkerError.mk.injEq]
  exact ⟨hpath, halike t hmem u hmem' hpath _ _ hfailure hfailure'⟩

/-- The error of a pass: everything that failed, by path, and what failed for one path in the order in
which the workers finished. -/
structure Reports (schedule : Schedule) (trees : List Tree)
    (result : Tree → Except Failure GenerationOutput) (e : FanOutError) : Prop where
  perm : e.failures.Perm (trees.filterMap (failureOf? result))
  sorted : e.failures.Pairwise fun a b => a.path ≤ b.path
  ties : ∀ path, (e.failures.filter fun one => one.path = path) =
    ((finished schedule trees).filterMap (failureOf? result)).filter fun one => one.path = path

theorem reports_ofFailures
    (he : FanOutError.ofFailures ((finished schedule trees).filterMap (failureOf? result)) = some e) :
    Reports schedule trees result e where
  perm := by
    rw [FanOutError.failures_ofFailures he]
    exact (List.mergeSort_perm _ _).trans ((finished_perm schedule trees).filterMap _)
  sorted := by
    rw [FanOutError.failures_ofFailures he]
    exact pairwise_mergeSort_by WorkerError.path _
  ties := FanOutError.filter_failures he

/-- A pass in which a worker fails reports what failed, whatever the schedule, and all schedules report
it in one order exactly if inputs of one path fail alike. -/
theorem run_failed_agree_iff (config : GenerationConfig) (parser : Parser) (tags : TagSet)
    (h : Answers generator cx trees result)
    (hfailed : ∃ t ∈ trees, ∃ failure, result t = .error failure) :
    (∀ schedule : Schedule, ∃ e, Reports schedule trees result e ∧
      runWorkers schedule generator cx tags trees = .error e ∧
      run schedule config parser generator cx trees = ⟨trees, [crashDiagnostic e], some e⟩) ∧
    ((∀ schedule schedule' : Schedule,
      runWorkers schedule generator cx tags trees = runWorkers schedule' generator cx tags trees ∧
      run schedule config parser generator cx trees = run schedule' config parser generator cx trees) ↔
        FailAlike trees result) := by
  refine ⟨fun schedule => ?_, fun hagree => ?_, fun halike schedule schedule' => ?_⟩
  · obtain ⟨e, he⟩ := exists_failures hfailed schedule
    exact ⟨e, reports_ofFailures he, runWorkers_of_failures h he tags,
      run_of_failures h he config parser⟩
  · exact failAlike_of_agree h fun schedule schedule' => (hagree schedule schedule').1
  · obtain ⟨e, he⟩ := exists_failures hfailed schedule
    have he' := (ofFailures_finished halike schedule' schedule).trans he
    rw [runWorkers_of_failures h he, runWorkers_of_failures h he', run_of_failures h he,
      run_of_failures h he']
    exact ⟨rfl, rfl⟩

/-- Every file fails, with its text as the message. -/
def failing : Generator Unit := fun _ t => throw (.error t.text [])

theorem answers_failing (trees : List Tree) :
    Answers failing ⟨(), .empty⟩ trees fun t => .error (.error t.text []) :=
  fun _ _ _ => rfl

/-- Two copies of a file, and a file of another path in front of them. -/
def failingCopies : List Tree := [plainFile "B.cs" "b", plainFile "A.cs" "a", plainFile "A.cs" "a"]

theorem run_failed_agree_iff_copies :
    Answers failing ⟨(), .empty⟩ failingCopies (fun t => .error (.error t.text [])) ∧
      (∃ t ∈ failingCopies, ∃ failure, Except.error (Failure.error t.text []) =
        (Except.error failure : Except Failure GenerationOutput)) ∧
      ∀ schedule schedule' : Schedule,
        runWorkers schedule failing ⟨(), .empty⟩ .empty failingCopies =
          runWorkers schedule' failing ⟨(), .empty⟩ .empty failingCopies ∧
        run schedule .standard plainParser failing ⟨(), .empty⟩ failingCopies =
          run schedule' .standard plainParser failing ⟨(), .empty⟩ failingCopies := by
  have hanswers := answers_failing failingCopies
  have hfailed : ∃ t ∈ failingCopies, ∃ failure, Except.error (Failure.error t.text []) =
      (Except.error failure : Except Failure GenerationOutput) :=
    ⟨plainFile "B.cs" "b", List.mem_cons_self, _, rfl⟩
  have halike : FailAlike failingCopies fun t => .error (.error t.text []) := by
    have htexts : ∀ t ∈ failingCopies, ∀ u ∈ failingCopies, t.path = u.path → t.text = u.text := by
      decide
    intro t ht u hu hpath failure failure' hfailure hfailure'
    rw [← Except.error.inj hfailure, ← Except.error.inj hfailure', htexts t ht u hu hpath]
  exact ⟨hanswers, hfailed,
    (run_failed_agree_iff .standard plainParser .empty hanswers hfailed).2.2 halike⟩

/-- Two files of one path that fail with different messages. -/
def failingTwice : List Tree := [plainFile "A.cs" "first", plainFile "A.cs" "second"]

/-- The failure of the first file. -/
def failedFirst : WorkerError := ⟨"A.cs", .error "first" []⟩

/-- The failure of the second file. -/
def failedSecond : WorkerError := ⟨"A.cs", .error "second" []⟩

/-- The error, and the message of its report, show which of the two workers finished first. -/
theorem run_failed_twice_ne :
    Answers failing ⟨(), .empty⟩ failingTwice (fun t => .error (.error t.text [])) ∧
      runWorkers .inOrder failing ⟨(), .empty⟩ .empty failingTwice =
        .error (.aggregate [failedFirst, failedSecond]) ∧
      runWorkers .reversed failing ⟨(), .empty⟩ .empty failingTwice =
        .error (.aggregate [failedSecond, failedFirst]) ∧
      (run .inOrder .standard plainParser failing ⟨(), .empty⟩ failingTwice).diagnostics.map
          Diagnostic.message ≠
        (run .reversed .standard plainParser failing ⟨(), .empty⟩ failingTwice).diagnostics.map
          Diagnostic.message := by
  have hanswers := answers_failing failingTwice
  have hfirst : FanOutError.ofFailures
      ((finished .inOrder failingTwice).filterMap (failureOf? fun t => .error (.error t.text []))) =
        some (.aggregate [failedFirst, failedSecond]) :=
    congrArg (fun all => some (FanOutError.aggregate all)) (List.mergeSort_of_pairwise (by decide))
  have hsecond : FanOutError.ofFailures
      ((finished .reversed failingTwice).filterMap (failureOf? fun t => .error (.error t.text []))) =
        some (.aggregate [failedSecond, failedFirst]) :=
    congrArg (fun all => some (FanOutError.aggregate all)) (List.mergeSort_of_pairwise (by decide))
  refine ⟨hanswers, runWorkers_of_failures hanswers hfirst _,
    runWorkers_of_failures hanswers hsecond _, ?_⟩
  rw [run_of_failures hanswers hfirst, run_of_failures hanswers hsecond]
  intro hmessages
  have hmessage := congrArg String.toList (List.singleton_inj.1 hmessages)
  unfold crashDiagnostic at hmessage
  rw [Diagnostic.message_crash, Diagnostic.message_crash] at hmessage
  simp only [String.toList_append, List.append_assoc] at hmessage
  -- behind the lead stand the two texts of the error, which are equally long
  have hrender := (List.append_inj (List.append_cancel_left hmessage) (by decide +kernel)).1
  exact absurd (String.toList_inj.1 hrender) (by decide +kernel)

end HotReload.Generation
