import HotReload.Gate.Run

/-
  Runs of a gate are atomic, over any history. An attempt compares all files and then annotates the
  changed ones; the gate moves to the second stage only if the first one succeeded (`run_attempt`).
  Whatever makes the attempt fail, the run goes on to one of the two states at which it ends
  (`run_of_ok`, `run_of_error`, `isTerminal_run`), and what it does depends on neither where the gate stood before nor
  the mark that an earlier run left on the compile (`run_eq_of_config`). So after any calls a gate
  answers like one that has not run. `run_after_isAtomic` puts these together.
-/

namespace HotReload

/-- The run gave up and left the trees as they were, or it committed; the mark on the compile and
where the gate stands say which. -/
inductive GateRun.IsAtomic (current : Compilation) : GateRun → Prop
  | aborted (reason : AbortReason) (config : ReloadConfig) :
      IsAtomic current ⟨.aborted reason, ⟨current.trees, false⟩, ⟨config, .aborted⟩⟩
  | committed (paths : List String) (trees : List Tree) (config : ReloadConfig) :
      IsAtomic current ⟨.committed paths, ⟨trees, true⟩, ⟨config, .committed⟩⟩

namespace Gate

variable {gate : Gate} {schedule : Schedule} {differ : Differ} {previous : Option Snapshot}
  {current : Compilation}

/-! ## Steps of an attempt -/

section Steps

variable {α β : Type}

theorem run_bind (step : ExceptT AbortReason (StateM Gate) α)
    (rest : α → ExceptT AbortReason (StateM Gate) β) (gate : Gate) :
    (step >>= rest).run.run gate =
      match step.run.run gate with
      | (.error reason, gate') => (.error reason, gate')
      | (.ok a, gate') => (rest a).run.run gate' := by
  rw [ExceptT.run_bind, StateT.run_bind]
  rcases step.run.run gate with ⟨_ | _, gate'⟩ <;> rfl

theorem run_get (gate : Gate) :
    (get : ExceptT AbortReason (StateM Gate) Gate).run.run gate = (.ok gate, gate) := rfl

theorem run_liftExcept (result : Except AbortReason α) (gate : Gate) :
    (liftExcept result : ExceptT AbortReason (StateM Gate) α).run.run gate = (result, gate) := by
  cases result <;> rfl

theorem run_enter (state : GateState) (gate : Gate) :
    (liftM (enter state) : ExceptT AbortReason (StateM Gate) Unit).run.run gate =
      (.ok (), { gate with state }) := rfl

end Steps

/-- If comparing fails, the gate has not moved; otherwise it annotates. -/
theorem run_attempt (gate : Gate) (schedule : Schedule) (differ : Differ)
    (previous : Option Snapshot) (current : Compilation) :
    (attempt schedule differ previous current).run.run gate =
      match compareFiles schedule differ gate.config previous current with
      | .error reason => (.error reason, gate)
      | .ok (version, verdicts) =>
        (annotateFiles gate.config current version verdicts,
          { gate with state := .annotating }) := by
  unfold attempt
  simp only [run_bind, run_get, run_liftExcept, run_enter]
  cases compareFiles schedule differ gate.config previous current <;> rfl

/-! ## Runs -/

/-- What an attempt comes to with some settings: the commit of a compile, or why there is none. -/
def plan (schedule : Schedule) (differ : Differ) (config : ReloadConfig)
    (previous : Option Snapshot) (current : Compilation) : Except AbortReason Commit :=
  (compareFiles schedule differ config previous current).bind fun (version, verdicts) =>
    annotateFiles config current version verdicts

/-- What is left of a run behind its attempt. -/
theorem run_steps (gate : Gate) (schedule : Schedule) (differ : Differ) (previous : Option Snapshot)
    (current : Compilation) :
    (steps schedule differ previous current).run gate =
      match (attempt schedule differ previous (.ofTrees current.trees)).run.run
        ⟨gate.config, .comparing⟩ with
      | (.ok commit, gate') => ((.committed commit.paths, commit.apply (.ofTrees current.trees)),
          { gate' with state := .committed })
      | (.error reason, gate') =>
        ((.aborted reason, .ofTrees current.trees), { gate' with state := .aborted }) := by
  unfold steps enter Compilation.ofTrees
  simp only [StateT.run_bind, StateT.run_modify, pure_bind]
  rcases (attempt schedule differ previous ⟨current.trees, false⟩).run.run ⟨gate.config, .comparing⟩
    with ⟨_ | _, gate'⟩ <;> rfl

/-- At its end a run has committed or aborted, whichever stage it came from. -/
theorem run_eq (gate : Gate) (schedule : Schedule) (differ : Differ) (previous : Option Snapshot)
    (current : Compilation) :
    gate.run schedule differ previous current =
      match plan schedule differ gate.config previous (.ofTrees current.trees) with
      | .ok commit =>
        ⟨.committed commit.paths, commit.apply (.ofTrees current.trees), ⟨gate.config, .committed⟩⟩
      | .error reason => ⟨.aborted reason, .ofTrees current.trees, ⟨gate.config, .aborted⟩⟩ := by
  unfold run plan
  rw [run_steps, run_attempt]
  cases compareFiles schedule differ gate.config previous (.ofTrees current.trees) with
  | error reason => rfl
  | ok result =>
    dsimp only [Except.bind]
    cases annotateFiles gate.config (.ofTrees current.trees) result.1 result.2 <;> rfl

theorem run_of_ok {commit : Commit}
    (h : plan schedule differ gate.config previous current = .ok commit) :
    gate.run schedule differ previous current =
      ⟨.committed commit.paths, commit.apply (.ofTrees current.trees), ⟨gate.config, .committed⟩⟩ := by
  have hplan : plan schedule differ gate.config previous (.ofTrees current.trees) = .ok commit := h
  rw [run_eq, hplan]

theorem run_of_error {reason : AbortReason}
    (h : plan schedule differ gate.config previous current = .error reason) :
    gate.run schedule differ previous current =
      ⟨.aborted reason, .ofTrees current.trees, ⟨gate.config, .aborted⟩⟩ := by
  have hplan : plan schedule differ gate.config previous (.ofTrees current.trees) = .error reason := h
  rw [run_eq, hplan]

/-- One run gives up or commits, and nothing in between. -/
theorem run_isAtomic (gate : Gate) (schedule : Schedule) (differ : Differ)
    (previous : Option Snapshot) (current : Compilation) :
    (gate.run schedule differ previous current).IsAtomic current := by
  cases hplan : plan schedule differ gate.config previous current with
  | ok commit =>
    rw [run_of_ok hplan]
    exact .committed commit.paths (commit.apply (.ofTrees current.trees)).trees gate.config
  | error reason =>
    rw [run_of_error hplan]
    exact .aborted reason gate.config

/-- A run never stops on its way. -/
theorem isTerminal_run (gate : Gate) (schedule : Schedule) (differ : Differ)
    (previous : Option Snapshot) (current : Compilation) :
    (gate.run schedule differ previous current).gate.state.isTerminal = true := by
  rw [run_eq]
  split <;> rfl

/-- A run reads the settings of its gate and the trees of the compile, and no more. -/
theorem run_eq_of_config {gate' : Gate} {current' : Compilation} (hgate : gate.config = gate'.config)
    (htrees : current.trees = current'.trees) :
    gate.run schedule differ previous current = gate'.run schedule differ previous current' := by
  rw [run_eq, run_eq, hgate, htrees]

/-! ## Histories -/

/-- One call of a gate. -/
structure Call where
  schedule : Schedule
  differ : Differ
  previous : Option Snapshot
  current : Compilation

/-- The run of a call. -/
def answer (gate : Gate) (call : Call) : GateRun :=
  gate.run call.schedule call.differ call.previous call.current

/-- The gate after some calls, one after the other. -/
def after (gate : Gate) (calls : List Call) : Gate :=
  calls.foldl (fun gate call => (gate.answer call).gate) gate

/-- No run changes the settings. -/
theorem config_answer (gate : Gate) (call : Call) : (gate.answer call).gate.config = gate.config := by
  unfold answer
  rw [run_eq]
  split <;> rfl

theorem config_after (gate : Gate) (calls : List Call) :
    (gate.after calls).config = gate.config := by
  unfold after
  induction calls generalizing gate with
  | nil => rfl
  | cons call calls ih => rw [List.foldl_cons, ih, config_answer]

/-- After any calls, a gate answers like one that has not run, whatever mark the compile has; and the
run gives up and leaves the trees as they were, or it commits. -/
theorem run_after_isAtomic (gate : Gate) (calls : List Call) (schedule : Schedule) (differ : Differ)
    (previous : Option Snapshot) (current : Compilation) :
    ((gate.after calls).run schedule differ previous current).IsAtomic current ∧
      (gate.after calls).run schedule differ previous current =
        (ofConfig gate.config).run schedule differ previous (.ofTrees current.trees) :=
  ⟨run_isAtomic _ _ _ _ _, run_eq_of_config (config_after gate calls) rfl⟩

end Gate

end HotReload
