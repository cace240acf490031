import HotReload.Generation.Pass
import HotReload.Proofs.Worker.Results
import Mathlib.Data.List.Nodup

/-
  The merge of a pass. The inputs have one order by path and then by position (`PathOrder`), and sorted
  outputs stand in it, in whichever order the workers finished (`mergeSort_outputs`). Replacements go
  by position, so each of them lands on the input of its own worker (`replaceAll_outputs`). If all
  workers succeed, then what a pass comes to is a matter of the fragments, the added trees and the
  diagnostics in this order (`run_of_outputs`): the loose code parses (`LooseCode`), or it is the one
  failure of the pass. Where the order of the workers does show, it is by the schedules that let some
  files come first (`favouring`).
-/

namespace HotReload.Generation

/-! ## The order of outputs -/

section Order

variable {a b c : WorkerOutput}

theorem outputLe_iff :
    outputLe a b = true ↔ a.path < b.path ∨ a.path = b.path ∧ a.index ≤ b.index := by
  have hlt : compare a.path b.path = .lt ↔ a.path < b.path := compareOfLessAndEq_eq_lt
  rw [outputLe, Ordering.isLE_then_iff_or, hlt, Std.compare_eq_iff_eq, Nat.isLE_compare]

theorem outputLe_trans (a b c : WorkerOutput) (hab : outputLe a b = true)
    (hbc : outputLe b c = true) : outputLe a c = true := by
  rw [outputLe_iff] at *
  rcases hab with hab | ⟨hab, hab'⟩
  · rcases hbc with hbc | ⟨hbc, -⟩
    · exact .inl (String.lt_trans hab hbc)
    · exact .inl (hbc ▸ hab)
  · rcases hbc with hbc | ⟨hbc, hbc'⟩
    · exact .inl (hab ▸ hbc)
    · exact .inr ⟨hab.trans hbc, Nat.le_trans hab' hbc'⟩

theorem outputLe_total (a b : WorkerOutput) : (outputLe a b || outputLe b a) = true := by
  rw [Bool.or_eq_true, outputLe_iff, outputLe_iff]
  by_cases hlt : a.path < b.path
  · exact .inl (.inl hlt)
  by_cases hgt : b.path < a.path
  · exact .inr (.inl hgt)
  have hpath : a.path = b.path := String.le_antisymm (String.not_lt.1 hgt) (String.not_lt.1 hlt)
  exact (Nat.le_total a.index b.index).imp (fun h => .inr ⟨hpath, h⟩) fun h => .inr ⟨hpath.symm, h⟩

theorem index_eq_of_outputLe (hab : outputLe a b = true) (hba : outputLe b a = true) :
    a.index = b.index := by
  rw [outputLe_iff] at *
  rcases hab with hab | ⟨hab, hab'⟩
  · rcases hba with hba | ⟨hba, -⟩
    · exact absurd hba (String.lt_asymm hab)
    · exact absurd hab (hba ▸ String.lt_irrefl _)
  · rcases hba with hba | ⟨-, hba'⟩
    · exact absurd hba (hab ▸ String.lt_irrefl _)
    · exact Nat.le_antisymm hab' hba'

end Order

/-- The inputs of a pass with their positions, in order of path and then of position. -/
structure PathOrder (trees : List Tree) (order : List (Tree × Nat)) : Prop where
  perm : order.Perm trees.zipIdx
  ascending : order.Pairwise fun a b =>
    a.1.path < b.1.path ∨ a.1.path = b.1.path ∧ a.2 < b.2

/-- The output of a worker on an input. -/
def outputOf (output : Tree × Nat → GenerationOutput) (job : Tree × Nat) : WorkerOutput :=
  ⟨job.1.path, job.2, output job⟩

variable {trees : List Tree} {order jobs : List (Tree × Nat)} {output : Tree × Nat → GenerationOutput}

/-- Positions tell inputs apart. -/
theorem eq_of_index {a b : Tree × Nat} (ha : a ∈ trees.zipIdx) (hb : b ∈ trees.zipIdx)
    (h : a.2 = b.2) : a = b := by
  obtain ⟨t, i⟩ := a
  obtain ⟨u, j⟩ := b
  obtain rfl : i = j := h
  rw [List.mk_mem_zipIdx_iff_getElem?] at ha hb
  rw [Option.some.inj (ha.symm.trans hb)]

theorem nodup_zipIdx (trees : List Tree) : trees.zipIdx.Nodup := by
  apply List.Nodup.of_map Prod.snd
  rw [List.zipIdx_map_snd]
  exact List.nodup_range'

theorem outputLe_outputOf {a b : Tree × Nat} :
    outputLe (outputOf output a) (outputOf output b) = true ↔
      a.1.path < b.1.path ∨ a.1.path = b.1.path ∧ a.2 ≤ b.2 :=
  outputLe_iff

/-- Sorted outputs stand in the order of their inputs, whichever worker finished first. -/
theorem mergeSort_outputs (horder : PathOrder trees order) (hjobs : jobs.Perm trees.zipIdx)
    (output : Tree × Nat → GenerationOutput) :
    (jobs.map (outputOf output)).mergeSort outputLe = order.map (outputOf output) := by
  have hperm : ((jobs.map (outputOf output)).mergeSort outputLe).Perm
      (order.map (outputOf output)) :=
    (List.mergeSort_perm _ _).trans ((hjobs.trans horder.perm.symm).map _)
  have hsorted := List.pairwise_mergeSort outputLe_trans outputLe_total (jobs.map (outputOf output))
  have hascending : (order.map (outputOf output)).Pairwise fun a b => outputLe a b = true := by
    rw [List.pairwise_map]
    refine horder.ascending.imp fun h => outputLe_outputOf.2 ?_
    exact h.imp_right fun ⟨hpath, hlt⟩ => ⟨hpath, Nat.le_of_lt hlt⟩
  refine hperm.eq_of_pairwise ?_ hsorted hascending
  intro a b ha hb hab hba
  obtain ⟨job, hjob, rfl⟩ := List.mem_map.1 (List.mem_mergeSort.1 ha)
  obtain ⟨job', hjob', rfl⟩ := List.mem_map.1 hb
  have hindex := index_eq_of_outputLe hab hba
  rw [eq_of_index (hjobs.mem_iff.1 hjob) (horder.perm.mem_iff.1 hjob') hindex]

theorem exists_pathOrder (trees : List Tree) : ∃ order, PathOrder trees order := by
  let blank := outputOf fun _ => .nothing
  have hperm := List.mergeSort_perm trees.zipIdx fun a b => outputLe (blank a) (blank b)
  refine ⟨_, hperm, ?_⟩
  have hsorted := List.pairwise_mergeSort (fun a b c => outputLe_trans (blank a) (blank b) (blank c))
    (fun a b => outputLe_total (blank a) (blank b)) trees.zipIdx
  have hnodup := hperm.nodup_iff.2 (nodup_zipIdx trees)
  refine (hsorted.and hnodup).imp_of_mem fun {a b} ha hb ⟨hle, hne⟩ => ?_
  refine (outputLe_outputOf.1 hle).imp_right fun ⟨hpath, hle⟩ => ⟨hpath, Nat.lt_of_le_of_ne hle ?_⟩
  exact fun h => hne (eq_of_index (hperm.mem_iff.1 ha) (hperm.mem_iff.1 hb) h)

/-- The order leaves no choice. -/
theorem PathOrder.unique {order' : List (Tree × Nat)} (h : PathOrder trees order)
    (h' : PathOrder trees order') : order = order' := by
  refine (h.perm.trans h'.perm.symm).eq_of_pairwise ?_ h.ascending h'.ascending
  rintro a b - - (hab | ⟨hab, hab'⟩) (hba | ⟨hba, hba'⟩)
  · exact absurd hba (String.lt_asymm hab)
  · exact absurd hab (hba ▸ String.lt_irrefl _)
  · exact absurd hba (hab ▸ String.lt_irrefl _)
  · omega

/-! ## Favoured files -/

/-- Some files come before all others. -/
def favouring (favoured : Nat → Bool) : Schedule where
  arrange l := (l.zipIdx.filter (fun x => favoured x.2) ++
    l.zipIdx.filter fun x => !favoured x.2).map Prod.fst
  perm l := by
    have hperm := (List.filter_append_perm (fun x => favoured x.2) l.zipIdx).map Prod.fst
    rwa [List.zipIdx_map_fst] at hperm

theorem arrange_favouring (favoured : Nat → Bool) (trees : List Tree) :
    (favouring favoured).arrange trees.zipIdx =
      trees.zipIdx.filter (fun job => favoured job.2) ++
        trees.zipIdx.filter fun job => !favoured job.2 := by
  have hindex : ∀ x ∈ trees.zipIdx.zipIdx, x.2 = x.1.2 := by
    rintro ⟨job, i⟩ hx
    have hjob := List.mk_mem_zipIdx_iff_getElem?.1 hx
    rw [List.getElem?_zipIdx, Nat.zero_add, Option.map_eq_some_iff] at hjob
    obtain ⟨t, -, rfl⟩ := hjob
    rfl
  have hfilter : ∀ p : Nat → Bool, (trees.zipIdx.zipIdx.filter fun x => p x.2).map Prod.fst =
      trees.zipIdx.filter fun job => p job.2 := by
    intro p
    have hcongr : ∀ x ∈ trees.zipIdx.zipIdx, p x.2 = p x.1.2 := fun x hx => by rw [hindex x hx]
    conv => rhs; rw [← List.zipIdx_map_fst 0 trees.zipIdx, List.filter_map]
    rw [List.filter_congr hcongr]
    rfl
  unfold favouring
  dsimp only
  rw [List.map_append, hfilter, hfilter fun i => !favoured i]

/-! ## Replacements -/

theorem replaceAll_cons (trees : List Tree) (o : WorkerOutput) (outputs : List WorkerOutput) :
    replaceAll trees (o :: outputs) =
      replaceAll (match o.output.replacement with
        | none => trees
        | some tree => trees.set o.index tree) outputs := rfl

/-- The output of a position replaces the input there. -/
theorem getElem?_replaceAll {outputs : List WorkerOutput}
    (hnodup : (outputs.map WorkerOutput.index).Nodup) (trees : List Tree) (i : Nat) :
    (replaceAll trees outputs)[i]? = trees[i]?.map fun t =>
      ((outputs.find? fun o => o.index = i).bind fun o => o.output.replacement).getD t := by
  induction outputs generalizing trees with
  | nil => exact Option.map_id'.symm
  | cons o outputs ih =>
    obtain ⟨hfresh, hrest⟩ := List.nodup_cons.1 hnodup
    rw [replaceAll_cons, ih hrest]
    by_cases hindex : o.index = i
    · -- no later output stands at the position
      have hnone : (outputs.find? fun o => o.index = i) = none := by
        rw [List.find?_eq_none]
        intro o' ho' hi
        exact hfresh (List.mem_map.2 ⟨o', ho', (of_decide_eq_true hi).trans hindex.symm⟩)
      rw [hnone, List.find?_cons_of_pos (by simpa using hindex), Option.bind_none, Option.bind_some]
      cases o.output.replacement with
      | none => rfl
      | some tree =>
        rw [← hindex, List.getElem?_set_self']
        cases trees[o.index]? <;> rfl
    · rw [List.find?_cons_of_neg (by simpa using hindex)]
      cases o.output.replacement with
      | none => rfl
      | some tree => rw [List.getElem?_set_ne hindex]

/-- Every input is replaced by what its own worker asked for. -/
theorem replaceAll_outputs (horder : PathOrder trees order)
    (output : Tree × Nat → GenerationOutput) :
    replaceAll trees (order.map (outputOf output)) =
      trees.zipIdx.map fun job => (output job).replacement.getD job.1 := by
  have hindices : (order.map (outputOf output)).map WorkerOutput.index = order.map Prod.snd := by
    rw [List.map_map]
    rfl
  have hnodup : ((order.map (outputOf output)).map WorkerOutput.index).Nodup := by
    rw [hindices, (horder.perm.map Prod.snd).nodup_iff, List.zipIdx_map_snd]
    exact List.nodup_range'
  apply List.ext_getElem?
  intro i
  rw [getElem?_replaceAll hnodup, List.getElem?_map, List.getElem?_zipIdx, Nat.zero_add, Option.map_map]
  cases ht : trees[i]? with
  | none => rfl
  | some t =>
    have hjob : (t, i) ∈ order := horder.perm.mem_iff.2 (List.mk_mem_zipIdx_iff_getElem?.2 ht)
    have hfind : (order.find? fun job => job.2 = i) = some (t, i) := by
      cases hfind : order.find? fun job => job.2 = i with
      | none => simpa using List.find?_eq_none.1 hfind _ hjob
      | some job =>
        have hmem := horder.perm.mem_iff.1 (List.mem_of_find?_eq_some hfind)
        have hfound := List.find?_some hfind
        rw [eq_of_index hmem (horder.perm.mem_iff.1 hjob) (of_decide_eq_true hfound)]
    rw [List.find?_map]
    change some (((((order.find? fun job => job.2 = i).map (outputOf output)).bind
      fun o => o.output.replacement)).getD t) = _
    rw [hfind]
    rfl

/-! ## Loose code -/

/-- Loose code has the symbols of the first input. -/
def looseSymbols : List Tree → Symbols
  | [] => .empty
  | first :: _ => first.symbols

variable {config : GenerationConfig} {parser : Parser} {outputs : List WorkerOutput}
  {fragments : List String} {loose : List Tree}

/-- The tree of some fragments of loose code: none if there is no fragment, and otherwise what the
parser makes of them, joined by line feeds. -/
inductive LooseCode (config : GenerationConfig) (parser : Parser) (inputs : List Tree) :
    List String → List Tree → Prop
  | none : LooseCode config parser inputs [] []
  | parsed {fragments : List String} {tree : Tree} (hne : fragments ≠ [])
      (hparse : parser config.looseCodePath ("\n".intercalate fragments) (looseSymbols inputs) =
        .ok tree) : LooseCode config parser inputs fragments [tree]

theorem looseTree_eq_parse (hne : (outputs.filterMap fun o => o.output.looseCode) ≠ []) :
    looseTree config parser trees outputs =
      match parser config.looseCodePath
        ("\n".intercalate (outputs.filterMap fun o => o.output.looseCode)) (looseSymbols trees) with
      | .ok tree => .ok [tree]
      | .error failure => .error (.single ⟨config.looseCodePath, failure⟩) := by
  unfold looseTree
  split
  · next hnil => exact absurd hnil hne
  · cases trees <;> rfl

theorem looseTree_of_looseCode
    (h : LooseCode config parser trees (outputs.filterMap fun o => o.output.looseCode) loose) :
    looseTree config parser trees outputs = .ok loose := by
  generalize hfragments : (outputs.filterMap fun o => o.output.looseCode) = fragments at h
  cases h with
  | none =>
    unfold looseTree
    rw [hfragments]
  | parsed hne hparse => rw [looseTree_eq_parse (hfragments ▸ hne), hfragments, hparse]

/-- A merge with its loose code. -/
theorem merge_of_looseCode
    (h : LooseCode config parser trees (outputs.filterMap fun o => o.output.looseCode) loose) :
    merge config parser trees outputs = .ok
      { trees := replaceAll trees outputs ++ loose ++ outputs.flatMap fun o => o.output.added
        diagnostics := outputs.flatMap fun o => o.output.diagnostics
        failure := none } := by
  unfold merge
  rw [looseTree_of_looseCode h]
  rfl

/-- A merge whose loose code does not parse. -/
theorem merge_of_unparsed {failure : Failure}
    (hne : (outputs.filterMap fun o => o.output.looseCode) ≠ [])
    (hparse : parser config.looseCodePath
      ("\n".intercalate (outputs.filterMap fun o => o.output.looseCode)) (looseSymbols trees) =
        .error failure) :
    merge config parser trees outputs = .error (.single ⟨config.looseCodePath, failure⟩) := by
  unfold merge
  rw [looseTree_eq_parse hne, hparse]
  rfl

/-- Loose code has its tree, or the parser failed on it. -/
theorem looseCode_or_error (config : GenerationConfig) (parser : Parser) (trees : List Tree)
    (fragments : List String) :
    (∃ loose, LooseCode config parser trees fragments loose) ∨
      fragments ≠ [] ∧ ∃ failure, parser config.looseCodePath ("\n".intercalate fragments)
        (looseSymbols trees) = .error failure := by
  by_cases hne : fragments = []
  · exact .inl ⟨[], hne ▸ .none⟩
  cases hparse : parser config.looseCodePath ("\n".intercalate fragments) (looseSymbols trees) with
  | ok tree => exact .inl ⟨[tree], .parsed hne hparse⟩
  | error failure => exact .inr ⟨hne, failure, rfl⟩

/-! ## The run -/

/-- What the workers came to, in the order in which they finished. -/
def outcomes {H : Type} (schedule : Schedule) (generator : Generator H) (cx : GenerationContext H)
    (trees : List Tree) : List (Outcome WorkerOutput) :=
  (runJobs generator cx (schedule.arrange trees.zipIdx) .empty).1

/-- What a pass answers when its merge has come to a result or a failure. -/
def answer (trees : List Tree) : Except FanOutError GenerationResult → GenerationResult
  | .ok result => result
  | .error failure => ⟨trees, [crashDiagnostic failure], some failure⟩

variable {H : Type} {schedule : Schedule} {generator : Generator H} {cx : GenerationContext H}

/-- A worker that succeeds, and then the others with the tags that it left. -/
theorem runJobs_cons_of_ok {job : Tree × Nat} {tags tags' : TagSet} {result : GenerationOutput}
    (h : (generator cx job.1).run tags = (.ok result, tags')) :
    runJobs generator cx (job :: jobs) tags =
      (⟨job.1.path, .ok ⟨job.1.path, job.2, result⟩⟩ :: (runJobs generator cx jobs tags').1,
        (runJobs generator cx jobs tags').2) := by
  rw [runJobs]
  unfold runJob
  rw [h]
  rfl

theorem run_of_failed {failure : FanOutError}
    (h : Outcome.join (outcomes schedule generator cx trees) = .error failure) :
    run schedule config parser generator cx trees =
      ⟨trees, [crashDiagnostic failure], some failure⟩ := by
  have hworkers : runWorkers schedule generator cx .empty trees = .error failure := by
    unfold runWorkers
    rw [← outcomes, h]
    rfl
  unfold run
  rw [hworkers]
  rfl

theorem run_of_joined (h : Outcome.join (outcomes schedule generator cx trees) = .ok outputs) :
    run schedule config parser generator cx trees =
      answer trees (merge config parser trees (outputs.mergeSort outputLe)) := by
  have hworkers : runWorkers schedule generator cx .empty trees =
      .ok (outputs.mergeSort outputLe) := by
    unfold runWorkers
    rw [← outcomes, h]
    rfl
  unfold run
  rw [hworkers]
  change (match merge config parser trees (outputs.mergeSort outputLe) with
    | .ok result => result
    | .error failure => ⟨trees, [crashDiagnostic failure], some failure⟩) = _
  cases merge config parser trees (outputs.mergeSort outputLe) <;> rfl

/-- If every worker has its output, then the outputs are merged in the order of the inputs. -/
theorem run_of_outputs (horder : PathOrder trees order)
    (h : outcomes schedule generator cx trees = (schedule.arrange trees.zipIdx).map fun job =>
      ⟨job.1.path, .ok (outputOf output job)⟩) :
    run schedule config parser generator cx trees =
      answer trees (merge config parser trees (order.map (outputOf output))) := by
  have hjoin : Outcome.join (outcomes schedule generator cx trees) =
      .ok ((schedule.arrange trees.zipIdx).map (outputOf output)) := by
    rw [h]
    exact Outcome.join_map fun _ _ => rfl
  rw [run_of_joined hjoin, mergeSort_outputs horder (schedule.perm _)]

end HotReload.Generation
