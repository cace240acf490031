import HotReload.Proofs.Gate.Paths
import HotReload.Proofs.Generation.Failed

/-
  The inputs of a pass in another order. With distinct paths the order by path is one order for both
  lists (`map_fst_pathOrder`), so the outputs of the workers are merged alike and failures are reported
  alike. All that is left of the order of the inputs are the symbols of the loose code, which are those of
  the first input. So what is generated does not depend on the order exactly if a worker fails, or
  nothing is emitted as loose code, or the loose code parses alike with the symbols of both first inputs
  (`Generation.run_shuffled_agree_iff`).
-/

namespace HotReload.Generation

variable {H : Type} {schedule schedule' : Schedule} {config : GenerationConfig} {parser : Parser}
  {generator : Generator H} {cx : GenerationContext H} {trees trees' : List Tree}
  {result : Tree → Except Failure GenerationOutput} {order order' : List (Tree × Nat)}
  {output : Tree → GenerationOutput} {t : Tree}

/-- Two passes over the same inputs, in different orders, have generated the same. -/
structure SameOutput (trees trees' : List Tree) (r r' : GenerationResult) : Prop where
  diagnostics : r.diagnostics = r'.diagnostics
  failure : r.failure = r'.failure
  /-- Behind the inputs stand the tree of the loose code and the added trees. -/
  generated : r.trees.drop trees.length = r'.trees.drop trees'.length
  /-- Inputs of one path have come to the same tree. -/
  final : ∀ (i j : Nat) (t t' : Tree), trees[i]? = some t → trees'[j]? = some t' → t.path = t'.path →
    r.trees[i]? = r'.trees[j]?

/-- What a worker asks for, if it does not fail. -/
def outputOr (result : Tree → Except Failure GenerationOutput) (t : Tree) : GenerationOutput :=
  match result t with
  | .ok output => output
  | .error _ => .nothing

/-- No worker fails. -/
def Succeeds (trees : List Tree) (result : Tree → Except Failure GenerationOutput) : Prop :=
  ∀ t ∈ trees, ∀ failure, result t ≠ .error failure

theorem outputOr_of_ok {output : GenerationOutput} (h : result t = .ok output) :
    outputOr result t = output := by
  unfold outputOr
  rw [h]

theorem Succeeds.result_eq (h : Succeeds trees result) (ht : t ∈ trees) :
    result t = .ok (outputOr result t) := by
  cases hresult : result t with
  | ok output => rw [outputOr_of_ok hresult]
  | error failure => exact absurd hresult (h t ht failure)

/-! ## The order by path -/

/-- The files in order of path do not depend on where they stood. -/
theorem map_fst_pathOrder (hdistinct : DistinctPaths trees) (hperm : trees.Perm trees')
    (horder : PathOrder trees order) (horder' : PathOrder trees' order') :
    order.map Prod.fst = order'.map Prod.fst := by
  have hfiles : (order.map Prod.fst).Perm trees := by
    have h := horder.perm.map Prod.fst
    rwa [List.zipIdx_map_fst] at h
  have hfiles' : (order'.map Prod.fst).Perm trees' := by
    have h := horder'.perm.map Prod.fst
    rwa [List.zipIdx_map_fst] at h
  have hsorted : ∀ {trees order}, PathOrder trees order →
      (order.map Prod.fst).Pairwise fun a b => a.path ≤ b.path := by
    intro trees order horder
    rw [List.pairwise_map]
    exact horder.ascending.imp fun h =>
      h.elim (fun hlt => String.not_lt.1 (String.lt_asymm hlt)) fun h => h.1 ▸ String.le_refl _
  refine (hfiles.trans (hperm.trans hfiles'.symm)).eq_of_pairwise ?_ (hsorted horder)
    (hsorted horder')
  intro a b ha hb hab hba
  have hmem := hperm.mem_iff.2 (hfiles'.mem_iff.1 hb)
  exact hdistinct.eq_of_path (hfiles.mem_iff.1 ha) hmem (String.le_antisymm hab hba)

/-- Inputs of one path are one tree. -/
theorem eq_of_getElem? (hdistinct : DistinctPaths trees) (hperm : trees.Perm trees') {i j : Nat}
    {t t' : Tree} (ht : trees[i]? = some t) (ht' : trees'[j]? = some t') (hpath : t.path = t'.path) :
    t = t' :=
  hdistinct.eq_of_path (List.mem_of_getElem? ht) (hperm.mem_iff.2 (List.mem_of_getElem? ht')) hpath

/-! ## A pass that fails -/

theorem sameOutput_of_error (hdistinct : DistinctPaths trees) (hperm : trees.Perm trees')
    (diagnostics : List Diagnostic) (failure : Option FanOutError) :
    SameOutput trees trees' ⟨trees, diagnostics, failure⟩ ⟨trees', diagnostics, failure⟩ where
  diagnostics := rfl
  failure := rfl
  generated := by rw [List.drop_length, List.drop_length]
  final i j t t' ht ht' hpath := by
    rw [ht, ht', eq_of_getElem? hdistinct hperm ht ht' hpath]

/-- A pass in which a worker fails is reported alike. -/
theorem sameOutput_of_failed (h : Answers generator cx trees result)
    (hdistinct : DistinctPaths trees) (hperm : trees.Perm trees')
    (hfailed : ∃ t ∈ trees, ∃ failure, result t = .error failure) :
    SameOutput trees trees' (run schedule config parser generator cx trees)
      (run schedule' config parser generator cx trees') := by
  have h' : Answers generator cx trees' result := fun t ht => h t (hperm.mem_iff.2 ht)
  obtain ⟨e, he⟩ := exists_failures hfailed schedule
  have hfinished : (finished schedule trees).Perm (finished schedule' trees') :=
    (finished_perm schedule trees).trans (hperm.trans (finished_perm schedule' trees').symm)
  have he' : FanOutError.ofFailures ((finished schedule' trees').filterMap (failureOf? result)) =
      some e := by
    rw [← he]
    refine (FanOutError.ofFailures_congr (hfinished.filterMap _) ?_).symm
    intro a ha b hb hpath
    obtain ⟨t, ht, hone⟩ := List.mem_filterMap.1 ha
    obtain ⟨u, hu, hone'⟩ := List.mem_filterMap.1 hb
    -- paths are distinct, so failures of one path are those of one file
    have hsame : t = u := by
      refine hdistinct.eq_of_path ((finished_perm schedule trees).mem_iff.1 ht)
        ((finished_perm schedule trees).mem_iff.1 hu) ?_
      rw [← (failureOf?_eq_some.1 hone).1, hpath, (failureOf?_eq_some.1 hone').1]
    exact Option.some.inj (hone.symm.trans (hsame ▸ hone'))
  rw [run_of_failures h he, run_of_failures h' he']
  exact sameOutput_of_error hdistinct hperm _ _

/-! ## A pass that succeeds -/

/-- The fragments of loose code, in order of path. -/
def fragments (order : List (Tree × Nat)) (output : Tree → GenerationOutput) : List String :=
  (order.map Prod.fst).filterMap fun t => (output t).looseCode

theorem run_of_succeeds (h : Answers generator cx trees result) (hok : Succeeds trees result)
    (horder : PathOrder trees order) :
    run schedule config parser generator cx trees =
      answer trees (merge config parser trees
        (order.map (outputOf fun job => outputOr result job.1))) := by
  apply run_of_outputs horder
  unfold outcomes
  rw [runJobs_arrange h]
  refine List.map_congr_left fun job hjob => ?_
  have hmem := List.fst_mem_of_mem_zipIdx ((schedule.perm _).mem_iff.1 hjob)
  unfold outcomeOf
  rw [hok.result_eq hmem]
  rfl

/-- What a pass comes to with its loose code: replacements in place, then everything by path. -/
theorem answer_of_looseCode (horder : PathOrder trees order) {loose : List Tree}
    (hloose : LooseCode config parser trees (fragments order output) loose) :
    answer trees (merge config parser trees (order.map (outputOf fun job => output job.1))) =
      { trees := (trees.map fun t => (output t).replacement.getD t) ++ (loose ++
          (order.map Prod.fst).flatMap fun t => (output t).added)
        diagnostics := (order.map Prod.fst).flatMap fun t => (output t).diagnostics
        failure := none } := by
  have hreplaced : (trees.zipIdx.map fun job => (output job.1).replacement.getD job.1) =
      trees.map fun t => (output t).replacement.getD t := by
    conv => rhs; rw [← List.zipIdx_map_fst 0 trees, List.map_map]
    rfl
  unfold fragments at hloose
  rw [List.filterMap_map] at hloose
  rw [merge_of_looseCode (by rw [List.filterMap_map]; exact hloose), replaceAll_outputs horder, hreplaced,
    List.append_assoc, List.flatMap_map, List.flatMap_map, List.flatMap_map, List.flatMap_map]
  rfl

/-! ## Loose code and the first input -/

theorem fragments_eq (hdistinct : DistinctPaths trees) (hperm : trees.Perm trees')
    (horder : PathOrder trees order) (horder' : PathOrder trees' order')
    (output : Tree → GenerationOutput) : fragments order output = fragments order' output := by
  unfold fragments
  rw [map_fst_pathOrder hdistinct hperm horder horder']

/-- What the parser makes of the loose code of the inputs. -/
def parsedLoose (config : GenerationConfig) (parser : Parser) (inputs : List Tree)
    (fragments : List String) : Except Failure Tree :=
  parser config.looseCodePath ("\n".intercalate fragments) (looseSymbols inputs)

/-- A pass with its loose code, as it was parsed. -/
def withLoose (config : GenerationConfig) (trees : List Tree) (order : List (Tree × Nat))
    (output : Tree → GenerationOutput) : Except Failure Tree → GenerationResult
  | .ok loose =>
    { trees := (trees.map fun t => (output t).replacement.getD t) ++ ([loose] ++
        (order.map Prod.fst).flatMap fun t => (output t).added)
      diagnostics := (order.map Prod.fst).flatMap fun t => (output t).diagnostics
      failure := none }
  | .error failure =>
    ⟨trees, [crashDiagnostic (.single ⟨config.looseCodePath, failure⟩)],
      some (.single ⟨config.looseCodePath, failure⟩)⟩

theorem answer_of_parsedLoose (horder : PathOrder trees order) (hne : fragments order output ≠ []) :
    answer trees (merge config parser trees (order.map (outputOf fun job => output job.1))) =
      withLoose config trees order output
        (parsedLoose config parser trees (fragments order output)) := by
  cases hparse : parsedLoose config parser trees (fragments order output) with
  | ok loose => exact answer_of_looseCode horder (.parsed hne hparse)
  | error failure =>
    unfold parsedLoose at hparse
    unfold fragments at hne hparse
    rw [List.filterMap_map] at hne hparse
    rw [merge_of_unparsed (by rw [List.filterMap_map]; exact hne)
      (by rw [List.filterMap_map]; exact hparse)]
    rfl

/-- What a pass has generated shows what its loose code was parsed to. -/
theorem eq_of_sameOutput_withLoose {parsed parsed' : Except Failure Tree}
    (h : SameOutput trees trees' (withLoose config trees order output parsed)
      (withLoose config trees' order' output parsed')) : parsed = parsed' := by
  cases parsed with
  | ok loose =>
    cases parsed' with
    | ok loose' =>
      have hgenerated := h.generated
      unfold withLoose at hgenerated
      dsimp only at hgenerated
      rw [List.drop_left' (List.length_map _), List.drop_left' (List.length_map _)] at hgenerated
      rw [(List.cons.inj hgenerated).1]
    | error failure' => cases h.failure
  | error failure =>
    cases parsed' with
    | ok loose' => cases h.failure
    | error failure' =>
      cases h.failure
      rfl

section Orders

variable (hdistinct : DistinctPaths trees) (hperm : trees.Perm trees')
  (horder : PathOrder trees order) (horder' : PathOrder trees' order')

include hdistinct hperm horder horder'

/-- With one and the same loose code the passes have generated the same. -/
theorem sameOutput_of_looseCode {loose : List Tree}
    (hloose : LooseCode config parser trees (fragments order output) loose)
    (hloose' : LooseCode config parser trees' (fragments order' output) loose) :
    SameOutput trees trees'
      (answer trees (merge config parser trees (order.map (outputOf fun job => output job.1))))
      (answer trees' (merge config parser trees' (order'.map (outputOf fun job => output job.1)))) := by
  have hfiles := map_fst_pathOrder hdistinct hperm horder horder'
  rw [answer_of_looseCode horder hloose, answer_of_looseCode horder' hloose', hfiles]
  refine ⟨rfl, rfl, ?_, fun i j t t' ht ht' hpath => ?_⟩
  · dsimp only
    rw [List.drop_left' (List.length_map _), List.drop_left' (List.length_map _)]
  · obtain rfl := eq_of_getElem? hdistinct hperm ht ht' hpath
    have hlt := (List.getElem?_eq_some_iff.1 ht).1
    have hlt' := (List.getElem?_eq_some_iff.1 ht').1
    dsimp only
    rw [List.getElem?_append_left (by rwa [List.length_map]),
      List.getElem?_append_left (by rwa [List.length_map]), List.getElem?_map, List.getElem?_map, ht, ht']

/-- Passes that succeed have generated the same exactly if their loose code was parsed alike. -/
theorem sameOutput_iff : SameOutput trees trees'
    (answer trees (merge config parser trees (order.map (outputOf fun job => output job.1))))
    (answer trees' (merge config parser trees' (order'.map (outputOf fun job => output job.1)))) ↔
      fragments order output = [] ∨
        parsedLoose config parser trees (fragments order output) =
          parsedLoose config parser trees' (fragments order output) := by
  have hfragments := fragments_eq hdistinct hperm horder horder' output
  by_cases hne : fragments order output = []
  · have hloose : LooseCode config parser trees (fragments order output) [] := hne ▸ .none
    have hloose' : LooseCode config parser trees' (fragments order' output) [] :=
      hfragments ▸ hne ▸ .none
    exact iff_of_true (sameOutput_of_looseCode hdistinct hperm horder horder' hloose hloose') (.inl hne)
  have hne' : fragments order' output ≠ [] := hfragments ▸ hne
  rw [or_iff_right hne]
  constructor
  · intro h
    rw [answer_of_parsedLoose horder hne, answer_of_parsedLoose horder' hne', ← hfragments] at h
    exact eq_of_sameOutput_withLoose h
  · intro hparsed
    cases hparse : parsedLoose config parser trees (fragments order output) with
    | ok loose =>
      have hloose' : LooseCode config parser trees' (fragments order' output) [loose] :=
        hfragments ▸ .parsed hne (hparsed.symm.trans hparse)
      exact sameOutput_of_looseCode hdistinct hperm horder horder' (.parsed hne hparse) hloose'
    | error failure =>
      rw [answer_of_parsedLoose horder hne, answer_of_parsedLoose horder' hne', ← hfragments,
        ← hparsed, hparse]
      exact sameOutput_of_error hdistinct hperm _ _

end Orders

/-- Passes over the same inputs in two orders have generated the same, whatever the schedules, exactly if
a worker fails, or there is no loose code, or it parses alike with the symbols of both first inputs. -/
theorem run_shuffled_agree_iff (config : GenerationConfig) (parser : Parser)
    (h : Answers generator cx trees result) (hdistinct : DistinctPaths trees)
    (hperm : trees.Perm trees') (horder : PathOrder trees order) :
    (∀ schedule schedule' : Schedule,
      SameOutput trees trees' (run schedule config parser generator cx trees)
        (run schedule' config parser generator cx trees')) ↔
      (∃ t ∈ trees, ∃ failure, result t = .error failure) ∨
      fragments order (outputOr result) = [] ∨
      parsedLoose config parser trees (fragments order (outputOr result)) =
        parsedLoose config parser trees' (fragments order (outputOr result)) := by
  by_cases hfailed : ∃ t ∈ trees, ∃ failure, result t = .error failure
  · exact iff_of_true (fun _ _ => sameOutput_of_failed h hdistinct hperm hfailed) (.inl hfailed)
  have hok : Succeeds trees result := fun t ht failure hfailure => hfailed ⟨t, ht, failure, hfailure⟩
  have h' : Answers generator cx trees' result := fun t ht => h t (hperm.mem_iff.2 ht)
  have hok' : Succeeds trees' result := fun t ht => hok t (hperm.mem_iff.2 ht)
  obtain ⟨order', horder'⟩ := exists_pathOrder trees'
  rw [or_iff_right hfailed, ← sameOutput_iff hdistinct hperm horder horder']
  constructor
  · intro hsame
    have hone := hsame .inOrder .inOrder
    rwa [run_of_succeeds h hok horder, run_of_succeeds h' hok' horder'] at hone
  · intro hsame schedule schedule'
    rwa [run_of_succeeds h hok horder, run_of_succeeds h' hok' horder']

theorem answers_copying (trees : List Tree) :
    Answers copying ⟨(), .empty⟩ trees
      fun t => .ok { GenerationOutput.nothing with added := [t], looseCode := some t.text } :=
  fun _ _ _ => rfl

/-- Two files with the same symbols. -/
def alike : List Tree := [plainFile "B.cs" "b", plainFile "A.cs" "a"]

theorem run_shuffled_agree_iff_alike :
    Answers copying ⟨(), .empty⟩ alike
        (fun t => .ok { GenerationOutput.nothing with added := [t], looseCode := some t.text }) ∧
      DistinctPaths alike ∧ alike.Perm alike.reverse ∧
      PathOrder alike [(plainFile "A.cs" "a", 1), (plainFile "B.cs" "b", 0)] ∧
      ∀ schedule schedule' : Schedule,
        SameOutput alike alike.reverse
          (run schedule .standard plainParser copying ⟨(), .empty⟩ alike)
          (run schedule' .standard plainParser copying ⟨(), .empty⟩ alike.reverse) := by
  have hanswers := answers_copying alike
  have hdistinct : DistinctPaths alike := by decide
  have hperm : alike.Perm alike.reverse := (List.reverse_perm alike).symm
  have horder : PathOrder alike [(plainFile "A.cs" "a", 1), (plainFile "B.cs" "b", 0)] := by
    constructor <;> decide
  exact ⟨hanswers, hdistinct, hperm, horder,
    (run_shuffled_agree_iff .standard plainParser hanswers hdistinct hperm horder).2 (.inr (.inr rfl))⟩

/-- A file for which a symbol is defined. -/
def defining (symbol path text : String) : Tree :=
  { plainFile path text with symbols := .ofList [symbol] }

/-- Two files with symbols of their own. -/
def unlike : List Tree := [defining "Y" "B.cs" "b", defining "X" "A.cs" "a"]

/-- The loose code of the same two files has the symbols of now one and now the other. -/
theorem run_shuffled_unlike_ne :
    Answers copying ⟨(), .empty⟩ unlike
        (fun t => .ok { GenerationOutput.nothing with added := [t], looseCode := some t.text }) ∧
      DistinctPaths unlike ∧ unlike.Perm unlike.reverse ∧
      (run .inOrder .standard plainParser copying ⟨(), .empty⟩ unlike).trees =
        unlike ++ ([defining "Y" looseCodePath "a\nb"] ++ unlike.reverse) ∧
      (run .inOrder .standard plainParser copying ⟨(), .empty⟩ unlike.reverse).trees =
        unlike.reverse ++ ([defining "X" looseCodePath "a\nb"] ++ unlike.reverse) ∧
      defining "Y" looseCodePath "a\nb" ≠ defining "X" looseCodePath "a\nb" := by
  have hok : ∀ trees : List Tree, Succeeds trees
      fun t => .ok { GenerationOutput.nothing with added := [t], looseCode := some t.text } :=
    fun _ _ _ _ h => nomatch h
  have horder : PathOrder unlike [(defining "X" "A.cs" "a", 1), (defining "Y" "B.cs" "b", 0)] := by
    constructor <;> decide
  have horder' : PathOrder unlike.reverse
      [(defining "X" "A.cs" "a", 0), (defining "Y" "B.cs" "b", 1)] := by
    constructor <;> decide
  refine ⟨answers_copying _, by decide, (List.reverse_perm unlike).symm, ?_, ?_, by decide⟩
  · rw [run_of_succeeds (answers_copying _) (hok _) horder,
      answer_of_looseCode horder (.parsed (by decide) rfl)]
    rfl
  · rw [run_of_succeeds (answers_copying _) (hok _) horder',
      answer_of_looseCode horder' (.parsed (by decide) rfl)]
    rfl

end HotReload.Generation
