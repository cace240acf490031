import HotReload.Generation.Pass

/-
  What the diagnostic of a failed pass says. Text without an opening brace is copied, and a placeholder
  becomes its argument, whatever this contains (`Template.substitute_text`,
  `Template.substitute_placeholder`). So the message of a crash ends in the text of the failure and its
  trace as they are (`Descriptor.format_generatorCrashed`), and the diagnostic has the text of every
  failed worker in it (`Generation.reported_crashDiagnostic`).
-/

namespace HotReload

namespace Template

variable {args : List String} {cs rest : List Char}

theorem substitute_text (h : '\x7b' ∉ cs) (rest : List Char) :
    substitute args (cs ++ rest) = cs ++ substitute args rest := by
  induction cs with
  | nil => rfl
  | cons c cs ih =>
    obtain ⟨hc, hcs⟩ := List.ne_and_not_mem_of_not_mem_cons h
    rw [List.cons_append, substitute, if_neg (Ne.symm hc), ih hcs, List.cons_append]

theorem substitute_placeholder {value : String} (h : placeholder? args cs = some (value, rest)) :
    substitute args ('\x7b' :: cs) = value.toList ++ substitute args rest := by
  rw [substitute, if_pos rfl]
  split
  · next value' rest' h' =>
    obtain ⟨rfl, rfl⟩ := Prod.mk.inj (Option.some.inj (h.symm.trans h'))
    rfl
  · next hnone => simp [h] at hnone

end Template

/-- What a crash message starts with. -/
def Descriptor.crashLead : String :=
  "source generator failed and generation was skipped for this compile: "

/-- The message of a crash is the failure and its trace, as they are. -/
theorem Descriptor.format_generatorCrashed (message trace : String) :
    generatorCrashed.format [message, trace] = crashLead ++ message ++ "\n" ++ trace := by
  have htemplate : generatorCrashed.template.toList = crashLead.toList ++
      '\x7b' :: ['0', '\x7d'] ++ ['\n'] ++ '\x7b' :: ['1', '\x7d'] := by decide
  have hlead : '\x7b' ∉ crashLead.toList := by decide
  have hbreak : '\x7b' ∉ ['\n'] := by decide
  have hfirst : ∀ rest, Template.placeholder? [message, trace] (['0', '\x7d'] ++ rest) =
      some (message, rest) := fun _ => rfl
  have hsecond : Template.placeholder? [message, trace] ['1', '\x7d'] = some (trace, []) := rfl
  have hend : Template.substitute [message, trace] [] = [] := by rw [Template.substitute]
  unfold format Template.format
  rw [htemplate, List.append_assoc, List.append_assoc, Template.substitute_text hlead,
    List.cons_append, Template.substitute_placeholder (hfirst _), Template.substitute_text hbreak,
    Template.substitute_placeholder hsecond, hend]
  apply String.toList_inj.1
  simp

/-! ## The report of a failed pass -/

/-- The report of a failure: one error, which has the text of every failed worker in it as it is, and
which is about a file if a single worker failed. -/
structure FanOutError.Reported (e : FanOutError) (d : Diagnostic) : Prop where
  code : d.code.text = "E9001"
  severity : d.severity = .error
  message : ∀ failure ∈ e.failures, failure.render.toList <:+: d.message.toList
  file : d.file = match e with
    | .single one => some one.path
    | .aggregate _ => none

theorem FanOutError.render_infix {e : FanOutError} {failure : WorkerError}
    (h : failure ∈ e.failures) : failure.render.toList <:+: e.render.toList := by
  cases e with
  | single one =>
    obtain rfl := List.mem_singleton.1 h
    exact List.infix_rfl
  | aggregate all =>
    obtain ⟨front, back, rfl⟩ := List.append_of_mem h
    let line := fun e : WorkerError => "\n  " ++ e.render
    let lead := s!"{(front ++ failure :: back).length} workers failed"
    refine ⟨(lead ++ String.join (front.map line) ++ "\n  ").toList,
      (String.join (back.map line)).toList, ?_⟩
    change _ = (lead ++ String.join ((front ++ failure :: back).map line)).toList
    simp [line]

theorem Diagnostic.message_crash (path : Option String) (message trace : String) :
    (crash path message trace).message =
      Descriptor.crashLead ++ message ++ "\n" ++ trimmedTrace trace := by
  rw [← Descriptor.format_generatorCrashed]
  cases path <;> rfl

theorem Generation.reported_crashDiagnostic (e : FanOutError) : e.Reported (crashDiagnostic e) := by
  have hmessage : ∃ trace, (crashDiagnostic e).message =
      Descriptor.crashLead ++ e.render ++ "\n" ++ trace := by
    cases e <;> exact ⟨_, Diagnostic.message_crash _ _ _⟩
  refine ⟨?_, ?_, ?_, ?_⟩
  · cases e <;> rfl
  · cases e <;> rfl
  · intro failure hfailure
    obtain ⟨trace, hmessage⟩ := hmessage
    refine (FanOutError.render_infix hfailure).trans ?_
    exact ⟨Descriptor.crashLead.toList, ("\n" ++ trace).toList, by simp [hmessage]⟩
  · cases e <;> rfl

end HotReload
