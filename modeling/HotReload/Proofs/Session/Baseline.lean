import HotReload.Proofs.Gate.Atomic
import HotReload.Proofs.Gate.Unchanged
import HotReload.Proofs.Generation.Sequential
import HotReload.Session
import Mathlib.Data.List.Induction

/-
  The baseline of a session, over any history of calls. What a session keeps can be read off its
  history: a commit succeeds exactly if there was a compile since the last successful commit and the
  last discard (`isSome_pending_after`), and the last good build is that of the last successful commit,
  with the trees that went into the compile before it (`lastGood_after_eq_some`). All of these say that
  something happened and that nothing came after it which ends it (`Unended`), and are inductions over
  the history from its end.

  So the trees of the last good build are inputs, never annotated or generated ones, and compiling them
  once more finds nothing to patch. `Session.baseline_after` puts this together.
-/

namespace HotReload.Session

/-- A call of a host. Each compile may compare texts in another way, and give something else to its
generator. -/
inductive Call : Type 1
  | compile {H : Type} (classifying generating : Schedule) (differ : Differ) (trees : List Tree)
      (generator : Generator H) (handle : H)
  | commit (version : String)
  | discard

/-- The trees that a call compiles. -/
def Call.inputs? : Call → Option (List Tree)
  | .compile _ _ _ trees _ _ => some trees
  | _ => none

/-- The session after a call. -/
def step (s : Session) : Call → Session
  | .compile classifying generating differ trees generator handle =>
    (s.compile classifying generating differ trees generator handle).2
  | .commit version => (s.commit version).2
  | .discard => s.discard

/-- The session after some calls, one after the other. -/
def after (s : Session) (calls : List Call) : Session := calls.foldl step s

variable {s : Session} {calls later : List Call} {c : Call} {i k n : Nat} {version : String}
  {trees : List Tree} {snapshot : Snapshot}

theorem after_append (s : Session) (calls later : List Call) :
    s.after (calls ++ later) = (s.after calls).after later := List.foldl_append

theorem after_snoc (s : Session) (calls : List Call) (c : Call) :
    s.after (calls ++ [c]) = (s.after calls).step c := after_append s calls [c]

theorem pending_commit (s : Session) (version : String) : (s.commit version).2.pending = none := by
  unfold commit
  cases hpending : s.pending with
  | none => exact hpending
  | some trees => rfl

/-- A commit succeeds if a cycle is pending. -/
theorem commit_eq_true : (s.commit version).1 = true ↔ s.pending.isSome := by
  unfold commit
  cases s.pending <;> simp

/-! ## What happened in a history -/

/-- There is a compile at this place. -/
def Compiles (calls : List Call) (i : Nat) : Prop := ∃ c, calls[i]? = some c ∧ c.inputs?.isSome

/-- There is a successful commit at this place. -/
def Commits (s : Session) (calls : List Call) (i : Nat) (version : String) : Prop :=
  calls[i]? = some (.commit version) ∧ ((s.after (calls.take i)).commit version).1 = true

/-- No cycle is pending after the call at this place: it is a discard, or a successful commit. -/
def Settles (s : Session) (calls : List Call) (i : Nat) : Prop :=
  calls[i]? = some .discard ∨ ∃ version, Commits s calls i version

/-- The trees of the last compile. -/
def lastInputs? (calls : List Call) : Option (List Tree) := (calls.filterMap Call.inputs?).getLast?

/-- The successful commit at this place makes this build: its version, with the trees that went into
the compile before it. -/
def Builds (s : Session) (calls : List Call) (i : Nat) (snapshot : Snapshot) : Prop :=
  Commits s calls i snapshot.version ∧ snapshot.beforeProcessing = lastInputs? (calls.take i)

/-- Something has happened, and nothing that ends it came after it. -/
def Unended (starts ends : Nat → Prop) : Prop := ∃ i, starts i ∧ ∀ j, i < j → ¬ends j

theorem getElem?_snoc {x : Call} :
    (calls ++ [c])[i]? = some x ↔ calls[i]? = some x ∨ i = calls.length ∧ c = x := by
  grind

theorem compiles_snoc :
    Compiles (calls ++ [c]) i ↔ Compiles calls i ∨ i = calls.length ∧ c.inputs?.isSome := by
  unfold Compiles
  simp only [getElem?_snoc]
  grind

theorem Compiles.lt (h : Compiles calls i) : i < calls.length := by
  obtain ⟨c, hc, -⟩ := h
  exact (List.getElem?_eq_some_iff.1 hc).1

theorem commits_snoc : Commits s (calls ++ [c]) i version ↔
    Commits s calls i version ∨
      i = calls.length ∧ c = .commit version ∧ (s.after calls).pending.isSome := by
  unfold Commits
  rw [getElem?_snoc, commit_eq_true, commit_eq_true]
  constructor
  · rintro ⟨hcall | ⟨rfl, hcall⟩, hpending⟩
    · have hlt := (List.getElem?_eq_some_iff.1 hcall).1
      rw [List.take_append_of_le_length (Nat.le_of_lt hlt)] at hpending
      exact .inl ⟨hcall, hpending⟩
    · rw [List.take_left' rfl] at hpending
      exact .inr ⟨rfl, hcall, hpending⟩
  · rintro (⟨hcall, hpending⟩ | ⟨rfl, hcall, hpending⟩)
    · have hlt := (List.getElem?_eq_some_iff.1 hcall).1
      rw [List.take_append_of_le_length (Nat.le_of_lt hlt)]
      exact ⟨.inl hcall, hpending⟩
    · rw [List.take_left' rfl]
      exact ⟨.inr ⟨rfl, hcall⟩, hpending⟩

theorem Commits.lt (h : Commits s calls i version) : i < calls.length :=
  (List.getElem?_eq_some_iff.1 h.1).1

theorem exists_commits_snoc : (∃ version, Commits s (calls ++ [c]) i version) ↔
    (∃ version, Commits s calls i version) ∨
      i = calls.length ∧ ∃ version, c = .commit version ∧ (s.after calls).pending.isSome := by
  simp only [commits_snoc]
  grind

theorem settles_snoc : Settles s (calls ++ [c]) i ↔
    Settles s calls i ∨ i = calls.length ∧
      (c = .discard ∨ ∃ version, c = .commit version ∧ (s.after calls).pending.isSome) := by
  unfold Settles
  rw [getElem?_snoc, exists_commits_snoc]
  grind

theorem Settles.lt (h : Settles s calls i) : i < calls.length := by
  rcases h with hdiscard | ⟨version, hcommit⟩
  · exact (List.getElem?_eq_some_iff.1 hdiscard).1
  · exact hcommit.lt

theorem lastInputs?_snoc (calls : List Call) (c : Call) :
    lastInputs? (calls ++ [c]) = c.inputs?.or (lastInputs? calls) := by
  unfold lastInputs?
  rw [List.filterMap_append]
  cases hinputs : c.inputs? with
  | none => simp [hinputs]
  | some trees => simp [hinputs]

theorem builds_snoc : Builds s (calls ++ [c]) i snapshot ↔
    Builds s calls i snapshot ∨ i = calls.length ∧ c = .commit snapshot.version ∧
      (s.after calls).pending.isSome ∧ snapshot.beforeProcessing = lastInputs? calls := by
  unfold Builds
  rw [commits_snoc]
  constructor
  · rintro ⟨hcommit | ⟨rfl, hcall, hpending⟩, htrees⟩
    · rw [List.take_append_of_le_length (Nat.le_of_lt hcommit.lt)] at htrees
      exact .inl ⟨hcommit, htrees⟩
    · rw [List.take_left' rfl] at htrees
      exact .inr ⟨rfl, hcall, hpending, htrees⟩
  · rintro (⟨hcommit, htrees⟩ | ⟨rfl, hcall, hpending, htrees⟩)
    · rw [List.take_append_of_le_length (Nat.le_of_lt hcommit.lt)]
      exact ⟨.inl hcommit, htrees⟩
    · rw [List.take_left' rfl]
      exact ⟨.inr ⟨rfl, hcall, hpending⟩, htrees⟩

/-- One more call starts something, or it is none that ends what went on before it. -/
theorem unended_snoc {starts starts' ends ends' : Nat → Prop} {start stop : Prop}
    (hstarts : ∀ i, starts' i ↔ starts i ∨ i = n ∧ start)
    (hends : ∀ i, ends' i ↔ ends i ∨ i = n ∧ stop)
    (hstartsLt : ∀ i, starts i → i < n) (hendsLt : ∀ i, ends i → i < n) :
    Unended starts' ends' ↔ start ∨ Unended starts ends ∧ ¬stop := by
  unfold Unended
  constructor
  · rintro ⟨i, hi, hrest⟩
    rcases (hstarts i).1 hi with hi | ⟨-, hstart⟩
    · refine .inr ⟨⟨i, hi, fun j hij hj => hrest j hij ((hends j).2 (.inl hj))⟩, fun hstop => ?_⟩
      exact hrest n (hstartsLt i hi) ((hends n).2 (.inr ⟨rfl, hstop⟩))
    · exact .inl hstart
  · rintro (hstart | ⟨⟨i, hi, hrest⟩, hstop⟩)
    · refine ⟨n, (hstarts n).2 (.inr ⟨rfl, hstart⟩), fun j hj hends' => ?_⟩
      rcases (hends j).1 hends' with hj' | ⟨rfl, -⟩
      · exact absurd (hendsLt j hj') (Nat.lt_asymm hj)
      · exact absurd hj (Nat.lt_irrefl _)
    · refine ⟨i, (hstarts i).2 (.inl hi), fun j hij hends' => ?_⟩
      rcases (hends j).1 hends' with hj' | ⟨-, hstop'⟩
      · exact hrest j hij hj'
      · exact hstop hstop'

/-! ## What a session keeps -/

theorem isSome_pending_after (hpending : s.pending = none) (calls : List Call) :
    (s.after calls).pending.isSome ↔ Unended (Compiles calls) (Settles s calls) := by
  induction calls using List.reverseRecOn with
  | nil =>
    refine iff_of_false (by simp [after, hpending]) ?_
    rintro ⟨i, ⟨c, hc, -⟩, -⟩
    simp at hc
  | append_singleton calls c ih =>
    rw [after_snoc, unended_snoc (fun _ => compiles_snoc) (fun _ => settles_snoc)
      (fun _ h => h.lt) (fun _ h => h.lt), ← ih]
    cases c with
    | compile => exact iff_of_true rfl (.inl rfl)
    | commit version =>
      -- a commit with a cycle settles it, and without one there was none to settle
      refine iff_of_false (by simp [step, pending_commit]) ?_
      rintro (hcompile | ⟨hsome, hsettled⟩)
      · cases hcompile
      · exact hsettled (.inr ⟨version, rfl, hsome⟩)
    | discard =>
      refine iff_of_false (by simp [step, discard]) ?_
      rintro (hcompile | ⟨-, hsettled⟩)
      · cases hcompile
      · exact hsettled (.inl rfl)

/-- A pending cycle is the last compile. -/
theorem lastInputs?_of_pending (hpending : s.pending = none)
    (h : (s.after calls).pending = some trees) : lastInputs? calls = some trees := by
  induction calls using List.reverseRecOn with
  | nil => simp [after, hpending] at h
  | append_singleton calls c ih =>
    rw [after_snoc] at h
    rw [lastInputs?_snoc]
    cases c with
    | compile => exact h
    | commit version => simp [step, pending_commit] at h
    | discard => simp [step, discard] at h

/-- The last good build is what the last successful commit made it. -/
theorem lastGood_after_eq_some (hpending : s.pending = none) (hlast : s.lastGood = none)
    (calls : List Call) : (s.after calls).lastGood = some snapshot ↔
      Unended (fun i => Builds s calls i snapshot) fun i => ∃ version, Commits s calls i version := by
  induction calls using List.reverseRecOn with
  | nil =>
    refine iff_of_false (by simp [after, hlast]) ?_
    rintro ⟨i, ⟨⟨hc, -⟩, -⟩, -⟩
    simp at hc
  | append_singleton calls c ih =>
    rw [after_snoc, unended_snoc (fun _ => builds_snoc) (fun _ => exists_commits_snoc)
      (fun _ h => h.1.lt) (fun _ ⟨_, h⟩ => h.lt), ← ih]
    cases c with
    | compile => simp [step, compile]
    | discard => simp [step, discard]
    | commit version =>
      cases htrees : (s.after calls).pending with
      | none => simp [step, commit, htrees]
      | some trees =>
        obtain ⟨version', baseline⟩ := snapshot
        rw [lastInputs?_of_pending hpending htrees]
        simp [step, commit, htrees, eq_comm]

/-- There is a last good build once a commit has succeeded. -/
theorem isSome_lastGood_after (calls : List Call) : (s.after calls).lastGood.isSome ↔
    s.lastGood.isSome ∨ ∃ i version, Commits s calls i version := by
  induction calls using List.reverseRecOn with
  | nil => simp [after, Commits]
  | append_singleton calls c ih =>
    rw [after_snoc]
    simp only [exists_commits_snoc, exists_or, exists_eq_left, ← or_assoc, ← ih]
    cases c with
    | compile => simp [step, compile]
    | discard => simp [step, discard]
    | commit version => cases htrees : (s.after calls).pending <;> simp [step, commit, htrees]

/-- Without a successful commit the last good build stays. -/
theorem lastGood_after_of_not_commits (h : ∀ i version, ¬Commits s later i version) :
    (s.after later).lastGood = s.lastGood := by
  induction later using List.reverseRecOn with
  | nil => rfl
  | append_singleton later c ih =>
    rw [after_snoc, ← ih fun i version hcommit => h i version (commits_snoc.2 (.inl hcommit))]
    cases c with
    | compile => rfl
    | discard => rfl
    | commit version =>
      cases htrees : (s.after later).pending with
      | none => simp [step, commit, htrees]
      | some trees =>
        exact absurd (commits_snoc.2 (.inr ⟨rfl, rfl, by simp [htrees]⟩)) (h later.length version)

/-- No call changes the settings of the gate. -/
theorem config_after (s : Session) (calls : List Call) :
    (s.after calls).gate.config = s.gate.config := by
  induction calls using List.reverseRecOn with
  | nil => rfl
  | append_singleton calls c ih =>
    rw [after_snoc, ← ih]
    cases c with
    | compile classifying _ differ trees =>
      exact Gate.config_answer _ ⟨classifying, differ, (s.after calls).lastGood, .ofTrees trees⟩
    | discard => rfl
    | commit version =>
      change (commit _ version).2.gate.config = _
      unfold commit
      cases (s.after calls).pending <;> rfl

/-! ## The baseline compiled once more -/

/-- A compile of these trees can be applied as a patch of the version, and rewrites none of them. -/
structure Repeats (s : Session) (extraUnitPath version : String) (trees : List Tree) : Prop where
  reload : ∀ {H : Type} (classifying generating : Schedule) (differ : Differ)
    (generator : Generator H) (handle : H),
    (s.compile classifying generating differ trees generator handle).1.reload = .committed []
  supported : ∀ {H : Type} (classifying generating : Schedule) (differ : Differ)
    (generator : Generator H) (handle : H),
    (s.compile classifying generating differ trees generator handle).1.reloadSupported = true
  /-- Before generation, the extra unit says which version is patched. -/
  unit : ∀ (classifying : Schedule) (differ : Differ),
    ∃ unit ∈ (s.gate.run classifying differ s.lastGood (.ofTrees trees)).compilation.trees,
      unit.path = extraUnitPath ∧ unit.Patches version

theorem repeats_lastGood (hlast : s.lastGood = some ⟨version, some trees⟩)
    (hdistinct : DistinctPaths trees) (hsized : ∀ t ∈ trees, t.Sized) :
    s.Repeats s.gate.config.extraUnitPath version trees := by
  have hrun (classifying : Schedule) (differ : Differ) :=
    Gate.run_baseline hdistinct hsized s.gate classifying differ
      (rfl : (Snapshot.mk version (some trees)).beforeProcessing = _)
  rw [← hlast] at hrun
  refine ⟨fun classifying _ differ _ _ => ?_, fun classifying _ differ _ _ => ?_,
    fun classifying differ => ?_⟩
  · obtain ⟨unit, -, -, heq⟩ := hrun classifying differ
    change (s.gate.run classifying differ s.lastGood (.ofTrees trees)).outcome = _
    rw [heq]
  · obtain ⟨unit, -, -, heq⟩ := hrun classifying differ
    change (s.gate.run classifying differ s.lastGood (.ofTrees trees)).compilation.reloadSupported = _
    rw [heq]
    rfl
  · obtain ⟨unit, hpath, hpatches, heq⟩ := hrun classifying differ
    rw [heq]
    exact ⟨unit, Commit.extraUnit_mem_apply ⟨[], unit⟩ _, hpath, hpatches⟩

/-- What a new session keeps over some calls is what the calls say. -/
structure Keeps (config : SessionConfig) (new : Session) (calls : List Call) : Prop where
  /-- A commit succeeds if there was a compile since the last successful commit and the last discard. -/
  commit_iff : ∀ version, ((new.after calls).commit version).1 = true ↔
    Unended (Compiles calls) (Settles new calls)
  /-- The last good build is that of the last successful commit. -/
  lastGood_iff : ∀ snapshot, (new.after calls).lastGood = some snapshot ↔
    Unended (fun i => Builds new calls i snapshot) fun i => ∃ version, Commits new calls i version
  /-- There is one once a commit has succeeded. -/
  lastGood_none : (new.after calls).lastGood = none ↔ ∀ i version, ¬Commits new calls i version
  /-- Until the next successful commit its trees can be compiled again. -/
  again : ∀ (version : String) (trees : List Tree) (later : List Call),
    (new.after calls).lastGood = some ⟨version, some trees⟩ → DistinctPaths trees →
    (∀ t ∈ trees, t.Sized) → (∀ i version', ¬Commits (new.after calls) later i version') →
      ((new.after calls).after later).Repeats config.reload.extraUnitPath version trees

/-- Sessions keep the inputs of what was committed last, over all histories. -/
theorem baseline_after (config : SessionConfig) (parser : Parser) (paths : OutputPaths)
    (calls : List Call) : Keeps config (start config parser paths) calls where
  commit_iff version := commit_eq_true.trans (isSome_pending_after rfl calls)
  lastGood_iff snapshot := lastGood_after_eq_some rfl rfl calls
  lastGood_none := by
    have hsome := isSome_lastGood_after (s := start config parser paths) calls
    rw [← Option.not_isSome_iff_eq_none, hsome]
    simp [start]
  again version trees later hlast hdistinct hsized hnone := by
    rw [← lastGood_after_of_not_commits hnone] at hlast
    have hrepeats := repeats_lastGood hlast hdistinct hsized
    rw [config_after, config_after] at hrepeats
    exact hrepeats

/-- A host makes a build of one file. -/
def firstBuild : List Call :=
  [.compile .inOrder .inOrder .byLines [Gate.sampleFile "1"] Generation.copying (), .commit "1.0"]

/-- It then edits the file, and makes no build of that. -/
def failedBuild : List Call :=
  [.compile .reversed .inOrder .byLines [Gate.sampleFile "2"] Generation.copying (), .discard]

/-- A session of that host before its first call. -/
def hostSession : Session := start ⟨.standard, .standard⟩ Generation.plainParser .empty

theorem baseline_after_failedBuild :
    (hostSession.after firstBuild).lastGood = some ⟨"1.0", some [Gate.sampleFile "1"]⟩ ∧
      DistinctPaths [Gate.sampleFile "1"] ∧ (∀ t ∈ [Gate.sampleFile "1"], t.Sized) ∧
      (∀ i version, ¬Commits (hostSession.after firstBuild) failedBuild i version) ∧
      ((hostSession.after firstBuild).after failedBuild).Repeats extraUnitPath "1.0"
        [Gate.sampleFile "1"] := by
  have hkeeps := baseline_after ⟨.standard, .standard⟩ Generation.plainParser .empty firstBuild
  have hlast : (hostSession.after firstBuild).lastGood = some ⟨"1.0", some [Gate.sampleFile "1"]⟩ := rfl
  have hdistinct : DistinctPaths [Gate.sampleFile "1"] := by decide
  have hbuilt : Tree.ofEvents "A.cs" .empty (Verdict.sample "// a" "1" "1") =
      .ok (Gate.sampleFile "1") := rfl
  have hsized : ∀ t ∈ [Gate.sampleFile "1"], t.Sized := by
    intro t ht
    obtain rfl := List.mem_singleton.1 ht
    exact ⟨by decide, (Tree.sound_of_built hbuilt).size⟩
  have hnone : ∀ i version, ¬Commits (hostSession.after firstBuild) failedBuild i version := by
    rintro i version ⟨hcall, -⟩
    have hmem := List.mem_of_getElem? hcall
    simp [failedBuild] at hmem
  exact ⟨hlast, hdistinct, hsized, hnone,
    hkeeps.again "1.0" [Gate.sampleFile "1"] failedBuild hlast hdistinct hsized hnone⟩

end HotReload.Session
