import HotReload.Proofs.Worker.Failures
import HotReload.Verdict.Batch
import Mathlib.Data.List.Nodup

/-
  Deciding about many files by any workers, which may fail by an error or a panic. What the answer has
  to be is a matter of what each worker comes to (`Verdict.Answers`): all verdicts if none failed, and
  else all failures, in strict order of path. Only one answer is of that kind (`Answers.unique`), and
  for files with distinct paths every schedule gives it (`Verdict.answers_classifyWith`).

  Verdicts and failures are sorted alike: both are what some workers leave behind (`mem_collected`,
  `ascending_collected`).
-/

namespace HotReload.Verdict

variable {worker : FilePair → Except Failure Verdict} {pairs : List FilePair} {schedule : Schedule}
  {pair : FilePair} {entry : FileVerdict} {one : WorkerError} {β : Type}

/-- The paths of the new versions are distinct. -/
def DistinctNew (pairs : List FilePair) : Prop := (pairs.map fun pair => pair.new.path).Nodup

instance : Decidable (DistinctNew pairs) := inferInstanceAs (Decidable (List.Nodup _))

/-- The entry holds the verdict of the worker on the pair. -/
def Judges (worker : FilePair → Except Failure Verdict) (pair : FilePair) (entry : FileVerdict) :
    Prop :=
  entry.path = pair.new.path ∧ worker pair = .ok entry.verdict

/-- This is how the worker on the pair failed. -/
def Fails (worker : FilePair → Except Failure Verdict) (pair : FilePair) (one : WorkerError) : Prop :=
  one.path = pair.new.path ∧ worker pair = .error one.failure

/-- What workers on some pairs have to answer. Verdicts are the answer only if no worker failed, and
then all of them are there; else every failure is, and a single one stands for itself. -/
inductive Answers (worker : FilePair → Except Failure Verdict) (pairs : List FilePair) :
    Except FanOutError (List FileVerdict) → Prop
  | judged {verdicts : List FileVerdict} (all : ∀ pair ∈ pairs, ∃ verdict, worker pair = .ok verdict)
      (mem_iff : ∀ entry, entry ∈ verdicts ↔ ∃ pair ∈ pairs, Judges worker pair entry)
      (ascending : verdicts.Pairwise fun a b => a.path < b.path) :
      Answers worker pairs (.ok verdicts)
  | failed {e : FanOutError} (mem_iff : ∀ one, one ∈ e.failures ↔ ∃ pair ∈ pairs, Fails worker pair one)
      (ascending : e.failures.Pairwise fun a b => a.path < b.path)
      (several : e.Several) : Answers worker pairs (.error e)

/-- What an answer says about the files of a path: verdicts, or how workers failed. -/
def about (path : String) : Except FanOutError (List FileVerdict) → List (Except Failure Verdict)
  | .ok verdicts => (verdicts.filter fun entry => entry.path = path).map fun entry => .ok entry.verdict
  | .error e => (e.failures.filter fun one => one.path = path).map fun one => .error one.failure

/-! ## One worker -/

theorem value?_outcome : (outcome worker pair).value? = some entry ↔ Judges worker pair entry := by
  obtain ⟨path, verdict⟩ := entry
  unfold outcome Outcome.value? Judges
  cases worker pair <;> simp [Except.map, eq_comm]

theorem error?_outcome : (outcome worker pair).error? = some one ↔ Fails worker pair one := by
  obtain ⟨path, failure⟩ := one
  unfold outcome Outcome.error? Fails
  cases worker pair <;> simp [Except.map, eq_comm]

/-! ## What workers leave behind -/

/-- What workers leave behind, in order of path. -/
def collected (key : β → String) (leave : FilePair → Option β) (jobs : List FilePair) : List β :=
  (jobs.filterMap leave).mergeSort fun a b => key a ≤ key b

theorem mem_collected {key : β → String} {leave : FilePair → Option β} {b : β} :
    b ∈ collected key leave (schedule.arrange pairs) ↔ ∃ pair ∈ pairs, leave pair = some b := by
  unfold collected
  simp only [List.mem_mergeSort, List.mem_filterMap, (schedule.perm pairs).mem_iff]

theorem ascending_collected {key : β → String} {leave : FilePair → Option β}
    (hkey : ∀ pair b, leave pair = some b → key b = pair.new.path) (hpairs : DistinctNew pairs) :
    (collected key leave (schedule.arrange pairs)).Pairwise fun a b => key a < key b := by
  have hjobs : ((schedule.arrange pairs).map fun pair => pair.new.path).Nodup :=
    ((schedule.perm pairs).map _).nodup_iff.2 hpairs
  have hsublist : ∀ jobs : List FilePair,
      ((jobs.filterMap leave).map key).Sublist (jobs.map fun pair => pair.new.path) := by
    intro jobs
    induction jobs with
    | nil => exact .slnil
    | cons pair jobs ih =>
      cases hleave : leave pair with
      | none =>
        rw [List.filterMap_cons_none hleave]
        exact ih.cons _
      | some b =>
        rw [List.filterMap_cons_some hleave, List.map_cons, List.map_cons, hkey pair b hleave]
        exact ih.cons_cons _
  exact pairwise_lt_mergeSort_by key (hjobs.sublist (hsublist _))

/-- The verdicts that workers leave behind. -/
abbrev judged (worker : FilePair → Except Failure Verdict) (jobs : List FilePair) : List FileVerdict :=
  collected FileVerdict.path (fun pair => (outcome worker pair).value?) jobs

/-- The failures that workers leave behind. -/
abbrev failed (worker : FilePair → Except Failure Verdict) (jobs : List FilePair) : List WorkerError :=
  collected WorkerError.path (fun pair => (outcome worker pair).error?) jobs

theorem mem_judged :
    entry ∈ judged worker (schedule.arrange pairs) ↔ ∃ pair ∈ pairs, Judges worker pair entry := by
  simp only [mem_collected, value?_outcome]

theorem mem_failed :
    one ∈ failed worker (schedule.arrange pairs) ↔ ∃ pair ∈ pairs, Fails worker pair one := by
  simp only [mem_collected, error?_outcome]

/-! ## The answer -/

/-- The workers answer with what they left behind. -/
theorem classifyWith_eq (schedule : Schedule) (worker : FilePair → Except Failure Verdict)
    (pairs : List FilePair) :
    (failed worker (schedule.arrange pairs) = [] ∧
        classifyWith schedule worker pairs = .ok (judged worker (schedule.arrange pairs))) ∨
      ∃ e, classifyWith schedule worker pairs = .error e ∧
        e.failures = failed worker (schedule.arrange pairs) ∧ e.Several := by
  unfold classifyWith Outcome.join Outcome.failure?
  rw [List.filterMap_map, List.filterMap_map]
  cases hfailures : FanOutError.ofFailures ((schedule.arrange pairs).filterMap
      (Outcome.error? ∘ outcome worker)) with
  | none =>
    refine Or.inl ⟨?_, rfl⟩
    have hnone := FanOutError.ofFailures_eq_none_iff.1 hfailures
    exact (congrArg (List.mergeSort · _) hnone).trans List.mergeSort_nil
  | some e =>
    exact Or.inr ⟨e, rfl, FanOutError.failures_ofFailures hfailures,
      (FanOutError.collects_ofFailures hfailures).several⟩

theorem answers_classifyWith (hpairs : DistinctNew pairs) (schedule : Schedule)
    (worker : FilePair → Except Failure Verdict) :
    Answers worker pairs (classifyWith schedule worker pairs) := by
  obtain ⟨hnone, hanswer⟩ | ⟨e, hanswer, hfailures, hmany⟩ := classifyWith_eq schedule worker pairs
  · rw [hanswer]
    refine .judged (fun pair hpair => ?_) (fun _ => mem_judged) ?_
    · cases hworker : worker pair with
      | ok verdict => exact ⟨verdict, rfl⟩
      | error failure =>
        have hfails : Fails worker pair ⟨pair.new.path, failure⟩ := ⟨rfl, hworker⟩
        have hmem : _ ∈ failed worker (schedule.arrange pairs) := mem_failed.2 ⟨pair, hpair, hfails⟩
        rw [hnone] at hmem
        exact absurd hmem List.not_mem_nil
    · exact ascending_collected (fun _ _ h => (value?_outcome.1 h).1) hpairs
  · rw [hanswer]
    refine .failed (fun one => ?_) ?_ hmany
    · rw [hfailures]
      exact mem_failed
    · rw [hfailures]
      exact ascending_collected (fun _ _ h => (error?_outcome.1 h).1) hpairs

/-- An error has a failed worker. -/
theorem not_several {e : FanOutError}
    (hmem : ∀ one, one ∈ e.failures ↔ ∃ pair ∈ pairs, Fails worker pair one)
    (hall : ∀ pair ∈ pairs, ∃ verdict, worker pair = .ok verdict) :
    ¬e.Several := by
  intro hseveral
  obtain ⟨one, hone⟩ := hseveral.exists_mem_failures
  obtain ⟨pair, hpair, -, hfailure⟩ := (hmem one).1 hone
  obtain ⟨verdict, hverdict⟩ := hall pair hpair
  simp [hfailure] at hverdict

/-- There is one answer. The order of a list is that of its paths, and so its entries are enough. -/
theorem Answers.unique {answer answer' : Except FanOutError (List FileVerdict)}
    (h : Answers worker pairs answer) (h' : Answers worker pairs answer') : answer = answer' := by
  cases h with
  | judged all mem_iff ascending =>
    cases h' with
    | judged all' mem_iff' ascending' =>
      rw [eq_of_mem_iff_by FileVerdict.path ascending ascending' fun entry =>
        (mem_iff entry).trans (mem_iff' entry).symm]
    | failed mem_iff' ascending' several' => exact absurd several' (not_several mem_iff' all)
  | failed mem_iff ascending several =>
    cases h' with
    | judged all' mem_iff' ascending' => exact absurd several (not_several mem_iff all')
    | failed mem_iff' ascending' several' =>
      have hfailures := eq_of_mem_iff_by WorkerError.path ascending ascending' fun one =>
        (mem_iff one).trans (mem_iff' one).symm
      rw [several.eq_of_failures several' hfailures]

/-- Verdicts are the answer if no worker failed. -/
theorem Answers.isOk_iff {answer : Except FanOutError (List FileVerdict)}
    (h : Answers worker pairs answer) :
    (∃ verdicts, answer = .ok verdicts) ↔ ∀ pair ∈ pairs, ∃ verdict, worker pair = .ok verdict := by
  cases h with
  | @judged verdicts all mem_iff ascending => exact ⟨fun _ => all, fun _ => ⟨verdicts, rfl⟩⟩
  | failed mem_iff ascending several =>
    exact ⟨fun ⟨_, herror⟩ => (nomatch herror), fun all => absurd several (not_several mem_iff all)⟩

/-! ## What each worker contributes -/

/-- In strict order of path, an entry is the only one of its path. -/
theorem filter_path_eq {key : β → String} {l : List β} (hl : l.Pairwise fun a b => key a < key b)
    {b : β} (hb : b ∈ l) {path : String} (hpath : key b = path) :
    (l.filter fun a => key a = path) = [b] := by
  subst hpath
  obtain ⟨front, back, rfl⟩ := List.append_of_mem hb
  obtain ⟨-, hback, hfront⟩ := List.pairwise_append.1 hl
  have hfrontNil : (front.filter fun a => key a = key b) = [] :=
    List.filter_eq_nil_iff.2 fun a ha => by
      simpa using String.ne_of_lt (hfront a ha b List.mem_cons_self)
  have hbackNil : (back.filter fun a => key a = key b) = [] :=
    List.filter_eq_nil_iff.2 fun a ha => by
      simpa using (String.ne_of_lt (List.rel_of_pairwise_cons hback ha)).symm
  rw [List.filter_append, hfrontNil, List.filter_cons_of_pos (by simp), hbackNil, List.nil_append]

/-- A worker that fails is in the answer with its failure and nothing else, whatever becomes of the
others. -/
theorem about_of_error {answer : Except FanOutError (List FileVerdict)} {failure : Failure}
    (h : Answers worker pairs answer) (hpair : pair ∈ pairs) (hworker : worker pair = .error failure) :
    about pair.new.path answer = [.error failure] := by
  cases h with
  | judged all mem_iff ascending =>
    obtain ⟨verdict, hverdict⟩ := all pair hpair
    simp [hworker] at hverdict
  | failed mem_iff ascending several =>
    have hfails : Fails worker pair ⟨pair.new.path, failure⟩ := ⟨rfl, hworker⟩
    exact congrArg (List.map fun one => Except.error one.failure)
      (filter_path_eq ascending ((mem_iff _).2 ⟨pair, hpair, hfails⟩) rfl)

/-- A worker that does not fail is in the answer with its verdict, or in no failure. -/
theorem about_of_ok {answer : Except FanOutError (List FileVerdict)} {verdict : Verdict}
    (h : Answers worker pairs answer) (hpairs : DistinctNew pairs) (hpair : pair ∈ pairs)
    (hworker : worker pair = .ok verdict) :
    about pair.new.path answer = if answer.isOk then [.ok verdict] else [] := by
  cases h with
  | judged all mem_iff ascending =>
    have hjudges : Judges worker pair ⟨pair.new.path, verdict⟩ := ⟨rfl, hworker⟩
    exact congrArg (List.map fun entry => Except.ok entry.verdict)
      (filter_path_eq ascending ((mem_iff _).2 ⟨pair, hpair, hjudges⟩) rfl)
  | failed mem_iff ascending several =>
    refine List.map_eq_nil_iff.2 (List.filter_eq_nil_iff.2 fun one hone hpath => ?_)
    obtain ⟨other, hother, hpath', hfailure⟩ := (mem_iff one).1 hone
    have hsame : other.new.path = pair.new.path := hpath'.symm.trans (of_decide_eq_true hpath)
    obtain rfl := List.inj_on_of_nodup_map hpairs hother hpair hsame
    simp [hworker] at hfailure

/-- Workers on files with distinct paths answer with all verdicts if none of them failed, and else with
all failures, in order of path and whichever finished first. A failure leaves those of others as they
are. -/
theorem classifyWith_eq_iff (hpairs : DistinctNew pairs) (worker : FilePair → Except Failure Verdict)
    (schedule : Schedule) :
    ((∃ verdicts, classifyWith schedule worker pairs = .ok verdicts) ↔
        ∀ pair ∈ pairs, ∃ verdict, worker pair = .ok verdict) ∧
      (∀ answer, classifyWith schedule worker pairs = answer ↔ Answers worker pairs answer) ∧
      (∀ schedule' : Schedule,
        classifyWith schedule' worker pairs = classifyWith schedule worker pairs) ∧
      ∀ pair ∈ pairs,
        (∀ failure, worker pair = .error failure →
          about pair.new.path (classifyWith schedule worker pairs) = [.error failure]) ∧
        ∀ verdict, worker pair = .ok verdict →
          about pair.new.path (classifyWith schedule worker pairs) =
            if (classifyWith schedule worker pairs).isOk then [.ok verdict] else [] := by
  have hanswers := answers_classifyWith hpairs schedule worker
  refine ⟨?_, fun answer => ⟨?_, hanswers.unique⟩, fun schedule' => ?_, fun pair hpair => ⟨?_, ?_⟩⟩
  · exact hanswers.isOk_iff
  · rintro rfl
    exact hanswers
  · exact (answers_classifyWith hpairs schedule' worker).unique hanswers
  · exact fun failure hworker => about_of_error hanswers hpair hworker
  · exact fun verdict hworker => about_of_ok hanswers hpairs hpair hworker

/-- Two versions of an empty file. -/
def emptyPair (path : String) : FilePair :=
  ⟨⟨path, "", .empty, #[], #[], .empty⟩, ⟨path, "", .empty, #[], #[], .empty⟩⟩

/-- Three files, not in order of path. -/
def threePairs : List FilePair := [emptyPair "C.cs", emptyPair "B.cs", emptyPair "A.cs"]

/-- One worker panics, another returns an error, and the third has a verdict. -/
def mixedWorker (pair : FilePair) : Except Failure Verdict :=
  if pair.new.path = "C.cs" then .error (.panic (.text "index out of range") [])
  else if pair.new.path = "A.cs" then .error (.error "no root" [])
  else .ok .unchanged

theorem classifyWith_eq_iff_threePairs :
    DistinctNew threePairs ∧
      classifyWith .inOrder mixedWorker threePairs =
        .error (.aggregate [⟨"A.cs", .error "no root" []⟩,
          ⟨"C.cs", .panic (.text "index out of range") []⟩]) := by
  have hpairs : DistinctNew threePairs := by decide
  refine ⟨hpairs, ((classifyWith_eq_iff hpairs mixedWorker .inOrder).2.1 _).2 (.failed ?_ ?_ ?_)⟩
  · rintro ⟨path, failure⟩
    have hpanics : mixedWorker (emptyPair "C.cs") =
        .error (.panic (.text "index out of range") []) := rfl
    have hjudges : mixedWorker (emptyPair "B.cs") = .ok .unchanged := rfl
    have herror : mixedWorker (emptyPair "A.cs") = .error (.error "no root" []) := rfl
    simp only [threePairs, FanOutError.failures, List.exists_mem_cons_iff, Fails, hpanics, hjudges,
      herror]
    grind [emptyPair]
  · decide
  · rintro all h
    obtain rfl := FanOutError.aggregate.inj h
    decide

end HotReload.Verdict
