import HotReload.Proofs.Gate.Effect

/-
  What a commit does to the tree at each place of a compile, where paths may repeat. Look-up and
  replacement both take the first tree of a path, so only the first place of a path ever changes, and
  the intents that end up there may be those of any tree of this path (`PlaceEffect`). A tree that
  stands before all others of its path, none of which changed, gets what its own verdict asks for
  (`Gate.run_marks_leading`). A changed tree behind another one of its path stays without markers, and
  the other one is marked in its place (`Gate.later_edit_unmarked`).

  `Compilation.getElem?_replace` says what one replacement does to a place, and
  `Compilation.getElem?_foldl_replace` what all of them do.
-/

namespace HotReload

/-! ## Replacement by place -/

namespace Compilation

variable {trees : List Tree} {current : Compilation} {r t : Tree} {i : Nat}

/-- Only the first place of the path changes. -/
theorem getElem?_replaceFirst? (r : Tree) (trees : List Tree) (i : Nat) :
    ((replaceFirst? r trees).getD trees)[i]? = trees[i]?.map fun t =>
      if t.path = r.path ∧ t.path ∉ (trees.take i).map Tree.path then r else t := by
  induction trees generalizing i with
  | nil => rfl
  | cons u trees ih =>
    rw [replaceFirst?_cons_getD]
    cases i with
    | zero => by_cases hpath : u.path = r.path <;> simp [hpath]
    | succ i =>
      rw [List.getElem?_cons_succ, List.take_succ_cons, List.map_cons]
      by_cases hpath : u.path = r.path
      · -- the path stands in front of every later place
        rw [if_pos hpath, List.getElem?_cons_succ]
        cases trees[i]? with
        | none => rfl
        | some t =>
          rw [Option.map_some, if_neg]
          rintro ⟨ht, hfront⟩
          exact hfront (by rw [ht, hpath]; exact List.mem_cons_self)
      · rw [if_neg hpath, List.getElem?_cons_succ, ih]
        apply Option.map_congr
        intro t _
        have hne : t.path = r.path → t.path ≠ u.path := fun h heq => hpath (heq.symm.trans h)
        apply if_congr _ rfl rfl
        rw [List.mem_cons, not_or]
        exact and_congr_right fun h => (and_iff_right (hne h)).symm

theorem getElem?_replace (current : Compilation) (r : Tree) (i : Nat) :
    (current.replace r).trees[i]? = current.trees[i]?.map fun t =>
      if t.path = r.path ∧ t.path ∉ (current.trees.take i).map Tree.path then r else t := by
  rw [trees_replace_eq, getElem?_replaceFirst?]

/-- Of several replacements of a path the last one stays, at the first place of the path. -/
theorem getElem?_foldl_replace (replacements : List Tree) (current : Compilation) (i : Nat) :
    (replacements.foldl replace current).trees[i]? = current.trees[i]?.map fun t =>
      if t.path ∈ (current.trees.take i).map Tree.path then t
      else (replacements.reverse.find? fun r => r.path = t.path).getD t := by
  induction replacements generalizing current with
  | nil => simp
  | cons r replacements ih =>
    have hfront : ((current.replace r).trees.take i).map Tree.path =
        (current.trees.take i).map Tree.path := by
      rw [List.map_take, List.map_take, paths_replace]
    rw [List.foldl_cons, ih, getElem?_replace, hfront, Option.map_map, List.reverse_cons]
    apply Option.map_congr
    intro t _
    rw [Function.comp_apply]
    by_cases hmem : t.path ∈ (current.trees.take i).map Tree.path
    · have hkeep : ¬(t.path = r.path ∧ t.path ∉ (current.trees.take i).map Tree.path) :=
        fun h => h.2 hmem
      rw [if_neg hkeep, if_pos hmem, if_pos hmem]
    by_cases hpath : t.path = r.path
    · have htake : t.path = r.path ∧ t.path ∉ (current.trees.take i).map Tree.path := ⟨hpath, hmem⟩
      rw [if_pos htake, ← hpath, if_neg hmem, if_neg hmem, List.find?_append]
      have hlast : ([r].find? fun u => u.path = t.path) = some r := by simp [hpath]
      rw [hlast]
      cases replacements.reverse.find? fun u => u.path = t.path <;> rfl
    · have hkeep : ¬(t.path = r.path ∧ t.path ∉ (current.trees.take i).map Tree.path) :=
        fun h => hpath h.1
      have hlast : ([r].find? fun u => u.path = t.path) = none := by simp [Ne.symm hpath]
      rw [if_neg hkeep, List.find?_append, hlast, Option.or_none]

end Compilation

/-- Putting in the extra unit leaves the places of other paths. -/
theorem Commit.getElem?_apply {commit : Commit} {current : Compilation} {i : Nat} {t : Tree}
    (ht : (commit.replacements.foldl Compilation.replace current).trees[i]? = some t)
    (hpath : t.path ≠ commit.extraUnit.path) : (commit.apply current).trees[i]? = some t := by
  have hplace := Compilation.getElem?_replaceFirst? commit.extraUnit
    (commit.replacements.foldl Compilation.replace current).trees i
  unfold Commit.apply Compilation.replace?
  dsimp only
  cases hfirst : Compilation.replaceFirst? commit.extraUnit
      (commit.replacements.foldl Compilation.replace current).trees with
  | none =>
    rw [Option.map_none, Option.getD_none]
    exact List.getElem?_append_left (List.getElem?_eq_some_iff.1 ht).1 ▸ ht
  | some trees =>
    rw [hfirst, Option.getD_some, ht, Option.map_some, if_neg fun h => hpath h.1] at hplace
    exact hplace

/-- The first tree of a path is found. -/
theorem find?_path_first {trees : List Tree} {i : Nat} {t : Tree} (ht : trees[i]? = some t)
    (hfirst : t.path ∉ (trees.take i).map Tree.path) :
    (trees.find? fun u => u.path = t.path) = some t := by
  induction trees generalizing i with
  | nil => simp at ht
  | cons u trees ih =>
    cases i with
    | zero =>
      obtain rfl : u = t := by simpa using ht
      exact List.find?_cons_of_pos (by simp)
    | succ i =>
      rw [List.take_succ_cons, List.map_cons, List.mem_cons, not_or] at hfirst
      rw [List.find?_cons_of_neg (by simpa using Ne.symm hfirst.1)]
      exact ih (by simpa using ht) hfirst.2

namespace Gate

variable {differ : Differ} {config : ReloadConfig} {baseline old new trees : List Tree}
  {verdicts : List FileVerdict} {results : List (Option Tree)} {b r t : Tree}
  {intents : SortedSet Intent} {path : String} {i : Nat}

/-! ## Pairs and replacements -/

theorem find?_compared (trees : List Tree) (h : path ≠ config.extraUnitPath) :
    ((compared config trees).find? fun t => t.path = path) =
      trees.find? fun t => t.path = path := by
  unfold compared
  rw [List.find?_filter]
  congr 1
  funext t
  by_cases hpath : t.path = path <;> simp [hpath, h]

theorem baselineOf?_compared (baseline : List Tree) (h : path ≠ config.extraUnitPath) :
    baselineOf? (compared config baseline) path = baselineOf? baseline path := by
  have hreverse : (compared config baseline).reverse = compared config baseline.reverse :=
    List.filter_reverse.symm
  unfold baselineOf?
  rw [hreverse, find?_compared _ h]

/-- The verdicts about a path are those of its trees, against the baseline of the path. -/
theorem Judged.mem_iff_of_path (h : Judged differ config baseline trees verdicts) {v : FileVerdict}
    (hextra : path ≠ config.extraUnitPath) (hb : baselineOf? baseline path = some b) :
    v ∈ verdicts ∧ v.path = path ↔
      ∃ t ∈ trees, t.path = path ∧ v = ⟨path, Verdict.classifyBy differ config b t⟩ := by
  rw [← baselineOf?_compared baseline hextra] at hb
  rw [h.perm.mem_iff, List.mem_map]
  constructor
  · rintro ⟨⟨pair, hpair, rfl⟩, rfl⟩
    obtain ⟨hnew, hold⟩ := mem_pairs_iff.1 hpair
    obtain rfl : pair.old = b := Option.some.inj (hold.symm.trans hb)
    exact ⟨pair.new, (mem_compared.1 hnew).1, rfl, rfl⟩
  · rintro ⟨t, ht, rfl, rfl⟩
    exact ⟨⟨⟨b, t⟩, mem_pairs_iff.2 ⟨mem_compared.2 ⟨ht, hextra⟩, hb⟩, rfl⟩, rfl⟩

/-! ## The places of a commit -/

/-- What a commit makes of the tree at a place, whose path may stand at other places too. All trees
of the path are compared with the same baseline. -/
inductive PlaceEffect (differ : Differ) (config : ReloadConfig) (b : Tree) (trees : List Tree)
    (i : Nat) (t : Tree) : Tree → Prop
  /-- The first tree of a path takes the intents of a changed tree of this path. -/
  | annotated {u t' : Tree} {intents : SortedSet Intent}
      (hfirst : t.path ∉ (trees.take i).map Tree.path) (hu : u ∈ trees) (hpath : u.path = t.path)
      (hverdict : Verdict.classifyBy differ config b u = .bodyEdits intents)
      (hannotate : t.annotate intents = .ok t') : PlaceEffect differ config b trees i t t'
  /-- A tree behind another one of its path is left, whatever changed in it. -/
  | behind (hbehind : t.path ∈ (trees.take i).map Tree.path) :
      PlaceEffect differ config b trees i t t
  /-- No tree of the path changed. -/
  | kept (hkept : ∀ u ∈ trees, u.path = t.path → ∀ intents,
      Verdict.classifyBy differ config b u ≠ .bodyEdits intents) :
      PlaceEffect differ config b trees i t t

section Judged

variable (hjudged : Judged differ config baseline trees verdicts)
  (hresults : verdicts.mapM (replacement? (compared config trees)) = .ok results)
  (hfound : ((compared config trees).find? fun u => u.path = t.path) = some t)
  (hextra : t.path ≠ config.extraUnitPath) (hb : baselineOf? baseline t.path = some b)

include hjudged hresults hfound hextra hb

/-- A replacement is the first tree of its path with the intents of a changed one. -/
theorem exists_of_replacement (hr : r ∈ results.filterMap id) (hpath : r.path = t.path) :
    ∃ u ∈ trees, u.path = t.path ∧ ∃ intents,
      Verdict.classifyBy differ config b u = .bodyEdits intents ∧ t.annotate intents = .ok r := by
  obtain ⟨result, hresult, rfl⟩ := List.mem_filterMap.1 hr
  obtain ⟨v, hv, hstep⟩ := (mem_of_mapM hresults).1 hresult
  have hvpath : v.path = t.path := (path_of_replacement? hstep).symm.trans hpath
  obtain ⟨u, hu, hupath, rfl⟩ := (hjudged.mem_iff_of_path hextra hb).1 ⟨hv, hvpath⟩
  refine ⟨u, hu, hupath, ?_⟩
  cases hverdict : Verdict.classifyBy differ config b u with
  | bodyEdits intents =>
    rw [hverdict] at hstep
    obtain ⟨t', hannotate, heq⟩ := (replacement?_of_find? hfound).1 hstep
    obtain rfl := Option.some.inj heq
    exact ⟨intents, rfl, hannotate⟩
  | _ =>
    rw [hverdict, replacement?_of_ne (by simp)] at hstep
    simp at hstep

/-- A changed tree makes a replacement for its path. -/
theorem exists_replacement {u : Tree} (hu : u ∈ trees) (hpath : u.path = t.path)
    (hverdict : Verdict.classifyBy differ config b u = .bodyEdits intents) :
    ∃ r ∈ results.filterMap id, r.path = t.path := by
  obtain ⟨hv, -⟩ := (hjudged.mem_iff_of_path hextra hb).2 ⟨u, hu, hpath, rfl⟩
  obtain ⟨result, hresult, hstep⟩ := exists_of_mapM hresults hv
  rw [hverdict] at hstep
  obtain ⟨r, hannotate, rfl⟩ := (replacement?_of_find? hfound).1 hstep
  exact ⟨r, List.mem_filterMap.2 ⟨_, hresult, rfl⟩, Tree.path_annotate hannotate⟩

end Judged

/-- A tree keeps its path. -/
theorem PlaceEffect.path_eq {t' : Tree} (h : PlaceEffect differ config b trees i t t') :
    t'.path = t.path := by
  cases h with
  | annotated _ _ _ _ hannotate => exact Tree.path_annotate hannotate
  | behind => rfl
  | kept => rfl

theorem placeEffect_replaced (hjudged : Judged differ config baseline trees verdicts)
    (hresults : verdicts.mapM (replacement? (compared config trees)) = .ok results)
    (ht : trees[i]? = some t) (hextra : t.path ≠ config.extraUnitPath)
    (hb : baselineOf? baseline t.path = some b) :
    PlaceEffect differ config b trees i t
      (if t.path ∈ (trees.take i).map Tree.path then t
        else ((results.filterMap id).reverse.find? fun r => r.path = t.path).getD t) := by
  split
  · next hbehind => exact .behind hbehind
  next hfirst =>
  have hfound : ((compared config trees).find? fun u => u.path = t.path) = some t :=
    (find?_compared trees hextra).trans (find?_path_first ht hfirst)
  cases hfind : (results.filterMap id).reverse.find? fun r => r.path = t.path with
  | some r =>
    have hr := List.mem_reverse.1 (List.mem_of_find?_eq_some hfind)
    obtain ⟨u, hu, hpath, intents, hverdict, hannotate⟩ :=
      exists_of_replacement hjudged hresults hfound hextra hb hr (path_of_find? hfind)
    exact .annotated hfirst hu hpath hverdict hannotate
  | none =>
    refine .kept fun u hu hpath intents hverdict => ?_
    obtain ⟨r, hr, hrpath⟩ :=
      exists_replacement hjudged hresults hfound hextra hb hu hpath hverdict
    apply find?_path_eq_none.1 hfind
    exact List.mem_map.2 ⟨r, List.mem_reverse.2 hr, hrpath⟩

/-- The tree at a place stands before all others of its path, and none of these changed. -/
structure Leads (differ : Differ) (config : ReloadConfig) (b : Tree) (trees : List Tree) (i : Nat)
    (t : Tree) : Prop where
  first : t.path ∉ (trees.take i).map Tree.path
  others : ∀ u ∈ trees.drop (i + 1), u.path = t.path → ∀ intents,
    Verdict.classifyBy differ config b u ≠ .bodyEdits intents

/-- The tree has the markers that its own verdict asks for: it is annotated if bodies changed, and
otherwise left. -/
structure Marked (differ : Differ) (config : ReloadConfig) (b t t' : Tree) : Prop where
  edited : ∀ intents, Verdict.classifyBy differ config b t = .bodyEdits intents →
    t.annotate intents = .ok t'
  other : (∀ intents, Verdict.classifyBy differ config b t ≠ .bodyEdits intents) → t' = t

theorem Leads.eq_of_edited {u : Tree} (h : Leads differ config b trees i t)
    (ht : trees[i]? = some t) (hu : u ∈ trees) (hpath : u.path = t.path)
    (hverdict : Verdict.classifyBy differ config b u = .bodyEdits intents) : u = t := by
  obtain ⟨hi, rfl⟩ := List.getElem?_eq_some_iff.1 ht
  rw [← List.take_append_drop i trees, List.drop_eq_getElem_cons hi, List.mem_append,
    List.mem_cons] at hu
  rcases hu with hu | rfl | hu
  · exact absurd (List.mem_map.2 ⟨u, hu, hpath⟩) h.first
  · rfl
  · exact absurd hverdict (h.others u hu hpath intents)

theorem PlaceEffect.marked {t' : Tree} (h : PlaceEffect differ config b trees i t t')
    (ht : trees[i]? = some t) (hleads : Leads differ config b trees i t) :
    Marked differ config b t t' := by
  cases h with
  | annotated hfirst hu hpath hverdict hannotate =>
    obtain rfl := hleads.eq_of_edited ht hu hpath hverdict
    constructor
    · intro intents' hverdict'
      obtain rfl := Verdict.bodyEdits.inj (hverdict.symm.trans hverdict')
      exact hannotate
    · exact fun hother => absurd hverdict (hother _)
  | behind hbehind => exact absurd hbehind hleads.first
  | kept hkept =>
    have hmem : t ∈ trees := List.mem_of_getElem? ht
    exact ⟨fun intents hverdict => absurd hverdict (hkept t hmem rfl intents), fun _ => rfl⟩

variable {gate : Gate} {schedule : Schedule} {previous : Option Snapshot} {current : Compilation}
  {rewritten : List String}


/-- A commit makes of every place what `PlaceEffect` says. -/
theorem placeEffect_run (hcovers : differ.Covers)
    (h : (gate.run schedule differ previous current).outcome = .committed rewritten) :
    ∃ s baseline, previous = some s ∧ s.beforeProcessing = some baseline ∧
      ∀ i t, current.trees[i]? = some t → t.path ≠ gate.config.extraUnitPath →
        ∃ b t', baselineOf? baseline t.path = some b ∧
          (gate.run schedule differ previous current).compilation.trees[i]? = some t' ∧
          PlaceEffect differ gate.config b current.trees i t t' := by
  obtain ⟨commit, hcommit, -, htrees⟩ := exists_of_run h
  obtain ⟨s, baseline, verdicts, hs, hbase, hsame, hjudged, hsettle⟩ :=
    exists_of_plan hcovers hcommit
  obtain ⟨results, hresults, hreps, hunit⟩ := exists_of_settle hsettle
  refine ⟨s, baseline, hs, hbase, fun i t ht hextra => ?_⟩
  have hunitPath : commit.extraUnit.path = gate.config.extraUnitPath :=
    Tree.path_patching hunit fun t ht => path_of_find? ht
  obtain ⟨b, hb⟩ : ∃ b, baselineOf? baseline t.path = some b := by
    have hmem := (hsame t.path hextra).1 (List.mem_map_of_mem (List.mem_of_getElem? ht))
    rw [← Option.ne_none_iff_exists']
    unfold baselineOf?
    rw [Ne, find?_path_eq_none, not_not, List.map_reverse, List.mem_reverse]
    exact hmem
  have heffect := placeEffect_replaced hjudged hresults ht hextra hb
  refine ⟨b, _, hb, ?_, heffect⟩
  rw [htrees]
  apply Commit.getElem?_apply
  · rw [Compilation.getElem?_foldl_replace, Compilation.trees_ofTrees, ht, hreps]
    rfl
  · rw [heffect.path_eq, hunitPath]
    exact hextra

/-- A run that commits marks the tree at every place that leads its path as its own verdict says; the
trees at other places are left or take part as `PlaceEffect` says. -/
theorem run_marks_leading (hcovers : differ.Covers)
    (h : (gate.run schedule differ previous current).outcome = .committed rewritten) :
    ∃ s baseline, previous = some s ∧ s.beforeProcessing = some baseline ∧
      ∀ i t, current.trees[i]? = some t → t.path ≠ gate.config.extraUnitPath →
        ∃ b t', baselineOf? baseline t.path = some b ∧
          (gate.run schedule differ previous current).compilation.trees[i]? = some t' ∧
          PlaceEffect differ gate.config b current.trees i t t' ∧
          (Leads differ gate.config b current.trees i t → Marked differ gate.config b t t') := by
  obtain ⟨s, baseline, hs, hbase, hplaces⟩ := placeEffect_run hcovers h
  refine ⟨s, baseline, hs, hbase, fun i t ht hextra => ?_⟩
  obtain ⟨b, t', hb, ht', heffect⟩ := hplaces i t ht hextra
  exact ⟨b, t', hb, ht', heffect, heffect.marked ht⟩

/-! ## Two trees of one path -/

/-- Two versions of one file in one compile. -/
def copies (first second : String) : Compilation := .ofTrees [sampleFile first, sampleFile second]

/-- With `1` as the version before, either copy may be the changed one. -/
theorem exists_commit_copies (first second : String) (hfirst : first ∈ ["1", "2"])
    (hsecond : second ∈ ["1", "2"]) : ∃ rewritten,
      ((ofConfig .standard).run .inOrder .byLines sampleSnapshot (copies first second)).outcome =
        .committed rewritten := by
  have hmem : ∀ t ∈ (copies first second).trees, ∃ d ∈ ["1", "2"], t = sampleFile d := by
    intro t ht
    rcases List.mem_pair.1 ht with rfl | rfl
    · exact ⟨first, hfirst, rfl⟩
    · exact ⟨second, hsecond, rfl⟩
  have hsame : SameFiles .standard [sampleFile "1"] (copies first second).trees := by
    intro path _
    change path ∈ [(sampleFile first).path, (sampleFile second).path] ↔
      path ∈ [(sampleFile "1").path]
    simp [path_sampleFile]
  have hsound : ∀ d ∈ ["1", "2"], (sampleFile d).Sound := by
    intro d hd
    rcases List.mem_pair.1 hd with rfl | rfl
    · exact Tree.sound_of_built
        (rfl : Tree.ofEvents "A.cs" .empty (Verdict.sample "// a" "1" "1") = .ok (sampleFile "1"))
    · exact afterRounds_sampleFile.sound
  have hsize : ∀ d ∈ ["1", "2"], (sampleFile d).nodes.size = 9 := by decide
  have hverdict : ∀ d ∈ ["1", "2"],
      (Verdict.classifyBy .byLines .standard (sampleFile "1") (sampleFile d)).isDeclined =
        false := by
    decide +kernel
  have hsizes : ∀ t ∈ (copies first second).trees, t.nodes.size = 9 := by
    intro t ht
    obtain ⟨d, hd, rfl⟩ := hmem t ht
    exact hsize d hd
  have hnone : ∀ path reason, ¬HasVerdict .byLines .standard [sampleFile "1"]
      (copies first second).trees path (.declined reason) := by
    apply not_hasVerdict_declined
    intro t ht b hb _
    obtain ⟨d, hd, rfl⟩ := hmem t ht
    obtain rfl := List.mem_singleton.1 hb
    exact hverdict d hd
  obtain ⟨verdicts, hjudged, hplan⟩ :=
    plan_eq .inOrder (rfl : sampleSnapshot.beforeProcessing = some [sampleFile "1"])
      (fun pair _ => Differ.Covers.coversPair Differ.covers_byLines pair) hsame
  have htrees : ∀ t ∈ (copies first second).trees, t.Sound := by
    intro t ht
    obtain ⟨d, hd, rfl⟩ := hmem t ht
    exact hsound d hd
  obtain ⟨results, hresults⟩ := hjudged.exists_results
    (fun t ht u hu _ => (hsizes t ht).trans (hsizes u hu).symm) htrees
  obtain ⟨commit, hcommit⟩ := exists_settle (hjudged.firstDeclined?_of_not hnone) hresults htrees
    fun t ht _ hempty => by simpa [hempty] using hsizes t ht
  exact ⟨commit.paths, by rw [run_of_ok (hplan.trans hcommit)]⟩

/-- The only method of the changed file. -/
def sampleMethod : (sampleFile "2").Id := ⟨2, by decide⟩

/-- The body of the only method changed. -/
def sampleIntents : SortedSet Intent := .ofList [⟨2, .method⟩]

theorem classify_sampleFile :
    Verdict.classifyBy .byLines .standard (sampleFile "1") (sampleFile "1") = .unchanged ∧
      Verdict.classifyBy .byLines .standard (sampleFile "1") (sampleFile "2") =
        .bodyEdits sampleIntents := by
  decide +kernel

/-- The markers of the changed file are not there yet. -/
theorem annotate_sampleFile_ne : (sampleFile "2").annotate sampleIntents ≠ .ok (sampleFile "2") := by
  intro hannotate
  have hadm : (sampleFile "2").Admits (sampleIntents.toList.map Intent.request) := by
    decide +kernel
  obtain ⟨t', hadded, hrewritten, -⟩ := afterRounds_sampleFile.sound.addMarkers hadm
  unfold Tree.annotate at hannotate
  rw [mapError_eq_ok_iff, hadded] at hannotate
  obtain rfl := Except.ok.inj hannotate
  obtain ⟨span, fullSpan, hnode, -⟩ := hrewritten.node sampleMethod
  have hmarkers : (sampleFile "2").nodes[sampleMethod.1]?.map Node.markers =
      some (((sampleFile "2").node sampleMethod).markers ++
        (sampleFile "2").added (sampleIntents.toList.map Intent.request) sampleMethod) := by
    rw [hnode]
    rfl
  exact absurd hmarkers (by decide +kernel)

/-- The changed copy stands first, and the other one did not change. -/
theorem run_marks_leading_copies :
    ∃ rewritten,
      ((ofConfig .standard).run .inOrder .byLines sampleSnapshot (copies "2" "1")).outcome =
        .committed rewritten ∧
      (copies "2" "1").trees[0]? = some (sampleFile "2") ∧
      (sampleFile "2").path ≠ ReloadConfig.standard.extraUnitPath ∧
      Leads .byLines .standard (sampleFile "1") (copies "2" "1").trees 0 (sampleFile "2") ∧
      ∃ t', (sampleFile "2").annotate sampleIntents = .ok t' ∧
        ((ofConfig .standard).run .inOrder .byLines sampleSnapshot
          (copies "2" "1")).compilation.trees[0]? = some t' := by
  obtain ⟨rewritten, hcommitted⟩ := exists_commit_copies "2" "1" (by simp) (by simp)
  obtain ⟨s, baseline, hs, hbase, hplaces⟩ := run_marks_leading Differ.covers_byLines hcommitted
  obtain rfl := Option.some.inj hs
  obtain rfl := Option.some.inj hbase
  have hextra : (sampleFile "2").path ≠ ReloadConfig.standard.extraUnitPath := by decide
  obtain ⟨b, t', hb, ht', -, hmarked⟩ := hplaces 0 (sampleFile "2") rfl hextra
  obtain rfl : sampleFile "1" = b := Option.some.inj hb
  have hleads : Leads .byLines .standard (sampleFile "1") (copies "2" "1").trees 0
      (sampleFile "2") := by
    constructor
    · simp
    · intro u hu _ intents
      obtain rfl := List.mem_singleton.1 hu
      rw [classify_sampleFile.1]
      simp
  exact ⟨rewritten, hcommitted, rfl, hextra, hleads, t',
    (hmarked hleads).edited _ classify_sampleFile.2, ht'⟩

/-- A changed copy behind another one stays without its marker, and the copy that did not change is
marked in its place. -/
theorem later_edit_unmarked :
    Verdict.classifyBy .byLines .standard (sampleFile "1") (sampleFile "1") = .unchanged ∧
      Verdict.classifyBy .byLines .standard (sampleFile "1") (sampleFile "2") =
        .bodyEdits sampleIntents ∧
      (sampleFile "2").annotate sampleIntents ≠ .ok (sampleFile "2") ∧
      ∃ rewritten t', (sampleFile "1").annotate sampleIntents = .ok t' ∧
        ((ofConfig .standard).run .inOrder .byLines sampleSnapshot (copies "1" "2")).outcome =
          .committed rewritten ∧
        ((ofConfig .standard).run .inOrder .byLines sampleSnapshot
          (copies "1" "2")).compilation.trees[0]? = some t' ∧
        ((ofConfig .standard).run .inOrder .byLines sampleSnapshot
          (copies "1" "2")).compilation.trees[1]? = some (sampleFile "2") := by
  obtain ⟨rewritten, hcommitted⟩ := exists_commit_copies "1" "2" (by simp) (by simp)
  obtain ⟨s, baseline, hs, hbase, hplaces⟩ := placeEffect_run Differ.covers_byLines hcommitted
  obtain rfl := Option.some.inj hs
  obtain rfl := Option.some.inj hbase
  have hextra : ∀ d, (sampleFile d).path ≠ ReloadConfig.standard.extraUnitPath := by
    intro d
    rw [path_sampleFile]
    decide
  obtain ⟨b, t', hb, ht', heffect⟩ := hplaces 0 (sampleFile "1") rfl (hextra "1")
  obtain rfl : sampleFile "1" = b := Option.some.inj hb
  obtain ⟨b, t'', hb, ht'', heffect'⟩ := hplaces 1 (sampleFile "2") rfl (hextra "2")
  obtain rfl : sampleFile "1" = b := Option.some.inj hb
  have hannotate : (sampleFile "1").annotate sampleIntents = .ok t' := by
    cases heffect with
    | @annotated u _ intents _ hu _ hverdict hannotate =>
      rcases List.mem_pair.1 hu with rfl | rfl
      · exact absurd (classify_sampleFile.1.symm.trans hverdict) (by simp)
      · obtain rfl := Verdict.bodyEdits.inj (classify_sampleFile.2.symm.trans hverdict)
        exact hannotate
    | behind hbehind => simp at hbehind
    | kept hkept =>
      have hpath : (sampleFile "2").path = (sampleFile "1").path := by
        rw [path_sampleFile, path_sampleFile]
      exact absurd classify_sampleFile.2 (hkept (sampleFile "2") (by simp [copies]) hpath _)
  obtain rfl : sampleFile "2" = t'' := by
    cases heffect' with
    | annotated hfirst =>
      have hfront : (sampleFile "2").path ∈ [(sampleFile "1").path] := by
        rw [path_sampleFile, path_sampleFile]
        exact List.mem_singleton_self _
      exact absurd hfront hfirst
    | behind => rfl
    | kept => rfl
  exact ⟨classify_sampleFile.1, classify_sampleFile.2, annotate_sampleFile_ne, rewritten, t', hannotate,
    hcommitted, ht', ht''⟩

end Gate

end HotReload
