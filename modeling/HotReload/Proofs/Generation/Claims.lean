import HotReload.Proofs.Generation.Sequential
import HotReload.Proofs.Source.Accept

/-
  Tags decide what is generated once. A tag belongs to the first file that claims it, so which file
  generates for a tag is up to the schedule, and its text is merged where that file stands
  (`run_claiming`). Every tag comes once in any case (`nodup_mergedTags`, `mem_mergedTags`), but the
  order of the texts is that of the winners. All schedules agree exactly if the files of each tag follow
  one another by path (`run_claiming_agree_iff`).
-/

namespace HotReload

theorem TagSet.mem_claimed_claim {tag wanted : String} {tags : TagSet} :
    tag ∈ (tags.claim wanted).2.claimed ↔ tag = wanted ∨ tag ∈ tags.claimed := by
  unfold claim
  split
  · next h =>
    refine ⟨.inr, fun h' => h'.elim (fun heq => ?_) id⟩
    simpa [heq] using h
  · exact List.mem_cons

namespace Generation

/-- An output with at most loose code. -/
def loosely (code : Option String) : GenerationOutput :=
  { GenerationOutput.nothing with looseCode := code }

/-- Every file has a tag, and the first file of a tag emits its text. -/
def claiming {H : Type} (tagOf textOf : String → String) : Generator H := fun _ t => do
  let free ← Worker.claim (tagOf t.path)
  return loosely (if free then some (textOf (tagOf t.path)) else none)

/-- The file is the first one of its tag. -/
def Wins (tagOf : String → String) (jobs : List (Tree × Nat)) (job : Tree × Nat) : Prop :=
  jobs.find? (fun job' => tagOf job'.1.path = tagOf job.1.path) = some job

instance (tagOf : String → String) (jobs : List (Tree × Nat)) (job : Tree × Nat) :
    Decidable (Wins tagOf jobs job) :=
  inferInstanceAs (Decidable (_ = _))

/-- The tags in the order in which their texts are merged, if the workers run like this. -/
def mergedTags (tagOf : String → String) (jobs order : List (Tree × Nat)) : List String :=
  (order.filter fun job => Wins tagOf jobs job).map fun job => tagOf job.1.path

/-- No file of another tag stands between two files of one tag. -/
def Grouped (tagOf : String → String) (trees : List Tree) : Prop :=
  ∀ a ∈ trees, ∀ b ∈ trees, ∀ c ∈ trees, a.path ≤ b.path → b.path ≤ c.path →
    tagOf a.path = tagOf c.path → tagOf b.path = tagOf a.path

variable {H : Type} {tagOf textOf : String → String} {schedule schedule' : Schedule}
  {config : GenerationConfig} {parser : Parser} {cx : GenerationContext H} {trees loose : List Tree}
  {jobs order : List (Tree × Nat)} {job a b : Tree × Nat}

/-! ## First files -/

theorem Wins.mem (h : Wins tagOf jobs job) : job ∈ jobs := List.mem_of_find?_eq_some h

theorem Wins.unique (ha : Wins tagOf jobs a) (hb : Wins tagOf jobs b)
    (h : tagOf a.1.path = tagOf b.1.path) : a = b := by
  unfold Wins at ha hb
  rw [h, hb] at ha
  exact (Option.some.inj ha).symm

/-- Every tag has a first file. -/
theorem exists_wins (tagOf : String → String) (hjob : job ∈ jobs) :
    ∃ first, Wins tagOf jobs first ∧ tagOf first.1.path = tagOf job.1.path := by
  cases hfind : jobs.find? fun job' => tagOf job'.1.path = tagOf job.1.path with
  | none => simpa using List.find?_eq_none.1 hfind job hjob
  | some first =>
    have htag : tagOf first.1.path = tagOf job.1.path := by simpa using List.find?_some hfind
    refine ⟨first, ?_, htag⟩
    unfold Wins
    rw [htag, hfind]

theorem wins_cons_of_ne (h : tagOf a.1.path ≠ tagOf job.1.path) :
    Wins tagOf (a :: jobs) job ↔ Wins tagOf jobs job := by
  unfold Wins
  rw [List.find?_cons_of_neg (by simpa using h)]

theorem wins_cons_self : Wins tagOf (job :: jobs) job :=
  List.find?_cons_of_pos (decide_eq_true rfl)

theorem not_wins_cons (hne : a ≠ job) (h : tagOf a.1.path = tagOf job.1.path) :
    ¬ Wins tagOf (a :: jobs) job := by
  unfold Wins
  rw [List.find?_cons_of_pos (by simpa using h)]
  exact fun h => hne (Option.some.inj h)

/-! ## One pass -/

/-- What is emitted for a file: the text of its tag, if the tag was free and the file is the first one
of it. -/
def emitted (tagOf textOf : String → String) (tags : TagSet) (jobs : List (Tree × Nat))
    (job : Tree × Nat) : Option String :=
  if tagOf job.1.path ∉ tags.claimed ∧ Wins tagOf jobs job then some (textOf (tagOf job.1.path))
  else none

theorem run_worker_claiming (t : Tree) (tags : TagSet) :
    (claiming tagOf textOf cx t).run tags =
      (.ok (loosely (if (tags.claim (tagOf t.path)).1 then some (textOf (tagOf t.path)) else none)),
        (tags.claim (tagOf t.path)).2) := rfl

theorem emitted_self (tags : TagSet) (jobs : List (Tree × Nat)) :
    emitted tagOf textOf tags (job :: jobs) job =
      if (tags.claim (tagOf job.1.path)).1 then some (textOf (tagOf job.1.path)) else none := by
  unfold emitted TagSet.claim
  by_cases hclaimed : tagOf job.1.path ∈ tags.claimed <;> simp [hclaimed, wins_cons_self]

/-- Later files of a tag find it taken, and files of other tags notice nothing. -/
theorem emitted_claim (hne : a ≠ job) (tags : TagSet) (jobs : List (Tree × Nat)) :
    emitted tagOf textOf (tags.claim (tagOf a.1.path)).2 jobs job =
      emitted tagOf textOf tags (a :: jobs) job := by
  have hiff : tagOf job.1.path ∉ (tags.claim (tagOf a.1.path)).2.claimed ∧ Wins tagOf jobs job ↔
      tagOf job.1.path ∉ tags.claimed ∧ Wins tagOf (a :: jobs) job := by
    rw [TagSet.mem_claimed_claim]
    by_cases htag : tagOf a.1.path = tagOf job.1.path
    · exact iff_of_false (fun h => h.1 (.inl htag.symm)) fun h => not_wins_cons hne htag h.2
    · rw [wins_cons_of_ne htag, not_or, and_iff_right (Ne.symm htag)]
  unfold emitted
  exact if_congr hiff rfl rfl

theorem runJobs_claiming (hnodup : jobs.Nodup) (tags : TagSet) :
    (runJobs (claiming tagOf textOf) cx jobs tags).1 = jobs.map fun job =>
      ⟨job.1.path, .ok (outputOf (fun job => loosely (emitted tagOf textOf tags jobs job)) job)⟩ := by
  induction jobs generalizing tags with
  | nil => rfl
  | cons first jobs ih =>
    obtain ⟨hfresh, hrest⟩ := List.nodup_cons.1 hnodup
    have htail : ∀ job ∈ jobs, emitted tagOf textOf (tags.claim (tagOf first.1.path)).2 jobs job =
        emitted tagOf textOf tags (first :: jobs) job := by
      intro job hjob
      have hne : first ≠ job := fun h => hfresh (h ▸ hjob)
      exact emitted_claim hne tags jobs
    rw [runJobs_cons_of_ok (run_worker_claiming first.1 tags), ← emitted_self tags jobs]
    dsimp only
    rw [ih hrest, List.map_cons]
    refine congrArg₂ List.cons rfl (List.map_congr_left fun job hjob => ?_)
    dsimp only [outputOf]
    rw [htail job hjob]

/-- The output of a file in a pass. -/
def claimed (tagOf textOf : String → String) (jobs : List (Tree × Nat)) (job : Tree × Nat) :
    GenerationOutput :=
  loosely (emitted tagOf textOf .empty jobs job)

theorem outcomes_claiming (schedule : Schedule) (trees : List Tree) :
    outcomes schedule (claiming tagOf textOf) cx trees =
      (schedule.arrange trees.zipIdx).map fun job =>
        ⟨job.1.path, .ok (outputOf (claimed tagOf textOf (schedule.arrange trees.zipIdx)) job)⟩ :=
  runJobs_claiming ((schedule.perm trees.zipIdx).nodup_iff.2 (nodup_zipIdx trees)) .empty

theorem filterMap_claimed (jobs order : List (Tree × Nat)) :
    (order.map (outputOf (claimed tagOf textOf jobs))).filterMap (fun o => o.output.looseCode) =
      (mergedTags tagOf jobs order).map textOf := by
  unfold mergedTags
  rw [List.filterMap_map, List.map_map, ← List.filterMap_eq_map, List.filterMap_filter]
  refine List.filterMap_congr fun job _ => ?_
  by_cases hwins : Wins tagOf jobs job <;>
    simp [outputOf, claimed, loosely, emitted, TagSet.empty, hwins]

theorem merge_claimed (horder : PathOrder trees order) (jobs : List (Tree × Nat)) :
    merge config parser trees (order.map (outputOf (claimed tagOf textOf jobs))) =
      (looseTree config parser trees (order.map (outputOf (claimed tagOf textOf jobs)))).map
        fun loose => ⟨trees ++ loose, [], none⟩ := by
  have htrees : replaceAll trees (order.map (outputOf (claimed tagOf textOf jobs))) = trees := by
    rw [replaceAll_outputs horder]
    exact List.zipIdx_map_fst 0 trees
  have hnothing : ∀ {α : Type}, (order.flatMap fun _ => ([] : List α)) = [] :=
    List.flatMap_eq_nil_iff.2 fun _ _ => rfl
  unfold merge
  rw [htrees, List.flatMap_map, List.flatMap_map]
  simp [outputOf, claimed, loosely, GenerationOutput.nothing, hnothing]

/-- Only the texts of the tags are added, each of them once, in the order of the winners. -/
theorem run_claiming (horder : PathOrder trees order)
    (hloose : LooseCode config parser trees
      ((mergedTags tagOf (schedule.arrange trees.zipIdx) order).map textOf) loose) :
    run schedule config parser (claiming tagOf textOf) cx trees = ⟨trees ++ loose, [], none⟩ := by
  rw [← filterMap_claimed] at hloose
  rw [run_of_outputs horder (outcomes_claiming schedule trees), merge_claimed horder,
    looseTree_of_looseCode hloose]
  rfl

/-- What a pass answers is a matter of the order of the tags. -/
theorem run_claiming_congr (horder : PathOrder trees order)
    (h : mergedTags tagOf (schedule.arrange trees.zipIdx) order =
      mergedTags tagOf (schedule'.arrange trees.zipIdx) order) :
    run schedule config parser (claiming tagOf textOf) cx trees =
      run schedule' config parser (claiming tagOf textOf) cx trees := by
  have hloose : looseTree config parser trees
      (order.map (outputOf (claimed tagOf textOf (schedule.arrange trees.zipIdx)))) =
    looseTree config parser trees
      (order.map (outputOf (claimed tagOf textOf (schedule'.arrange trees.zipIdx)))) := by
    unfold looseTree
    rw [filterMap_claimed, filterMap_claimed, h]
  rw [run_of_outputs horder (outcomes_claiming schedule trees), merge_claimed horder, hloose,
    ← merge_claimed horder, ← run_of_outputs horder (outcomes_claiming schedule' trees)]

/-! ## The merged tags -/

/-- The first file of a tag stands before that of another tag. -/
def Before (tagOf : String → String) (jobs : List (Tree × Nat)) (x y : String) : Prop :=
  ∃ a b, Wins tagOf jobs a ∧ Wins tagOf jobs b ∧ tagOf a.1.path = x ∧ tagOf b.1.path = y ∧
    a.1.path < b.1.path

theorem mem_trees_of_wins (hjobs : jobs.Perm trees.zipIdx) (h : Wins tagOf jobs job) :
    job.1 ∈ trees :=
  List.fst_mem_of_mem_zipIdx (hjobs.mem_iff.1 h.mem)

/-- Every tag of a file is merged, whoever wins it. -/
theorem mem_mergedTags (hjobs : jobs.Perm trees.zipIdx) (horder : PathOrder trees order)
    {tag : String} : tag ∈ mergedTags tagOf jobs order ↔ ∃ t ∈ trees, tagOf t.path = tag := by
  unfold mergedTags
  constructor
  · intro h
    obtain ⟨job, hjob, htag⟩ := List.mem_map.1 h
    have hmem := horder.perm.mem_iff.1 (List.mem_of_mem_filter hjob)
    exact ⟨job.1, List.fst_mem_of_mem_zipIdx hmem, htag⟩
  · rintro ⟨t, ht, rfl⟩
    obtain ⟨i, hi⟩ := List.mem_iff_getElem?.1 ht
    have hmem : (t, i) ∈ jobs := hjobs.mem_iff.2 (List.mk_mem_zipIdx_iff_getElem?.2 hi)
    obtain ⟨first, hwins, htag⟩ := exists_wins tagOf hmem
    have hfirst := horder.perm.mem_iff.2 (hjobs.mem_iff.1 hwins.mem)
    exact List.mem_map.2 ⟨first, List.mem_filter.2 ⟨hfirst, decide_eq_true hwins⟩, htag⟩

/-- No tag is merged twice. -/
theorem nodup_mergedTags (horder : PathOrder trees order) : (mergedTags tagOf jobs order).Nodup := by
  have hnodup := horder.perm.nodup_iff.2 (nodup_zipIdx trees)
  refine (hnodup.filter _).map_on fun a ha b hb htag => ?_
  have hwinsa : Wins tagOf jobs a := of_decide_eq_true (List.mem_filter.1 ha).2
  have hwinsb : Wins tagOf jobs b := of_decide_eq_true (List.mem_filter.1 hb).2
  exact hwinsa.unique hwinsb htag

/-- The tags stand in the order of their winners. -/
theorem pairwise_mergedTags (horder : PathOrder trees order) :
    (mergedTags tagOf jobs order).Pairwise (Before tagOf jobs) := by
  unfold mergedTags
  rw [List.pairwise_map]
  refine (horder.ascending.filter _).imp_of_mem fun {a b} ha hb hlt => ?_
  have hwinsa : Wins tagOf jobs a := of_decide_eq_true (List.mem_filter.1 ha).2
  have hwinsb : Wins tagOf jobs b := of_decide_eq_true (List.mem_filter.1 hb).2
  refine ⟨a, b, hwinsa, hwinsb, rfl, rfl, hlt.resolve_right fun ⟨hpath, hindex⟩ => ?_⟩
  have hsame : a = b := hwinsa.unique hwinsb (congrArg tagOf hpath)
  exact absurd (hsame ▸ hindex) (Nat.lt_irrefl _)

/-! ## Grouped files -/

section Compared

variable {x y : String} {jobs' : List (Tree × Nat)}

theorem Before.ne (h : Before tagOf jobs x y) : x ≠ y := by
  obtain ⟨a, b, ha, hb, rfl, rfl, hlt⟩ := h
  intro htag
  obtain rfl := ha.unique hb htag
  exact String.lt_irrefl _ hlt

theorem Before.asymm (h : Before tagOf jobs x y) : ¬ Before tagOf jobs y x := by
  obtain ⟨a, b, ha, hb, rfl, rfl, hlt⟩ := h
  rintro ⟨b', a', hb', ha', hbtag, hatag, hlt'⟩
  obtain rfl := ha.unique ha' hatag.symm
  obtain rfl := hb.unique hb' hbtag.symm
  exact String.lt_asymm hlt hlt'

/-- Two groups stand in one order, whichever files of them come first. -/
theorem Grouped.before_asymm (hgrouped : Grouped tagOf trees) (hjobs : jobs.Perm trees.zipIdx)
    (hjobs' : jobs'.Perm trees.zipIdx) (h : Before tagOf jobs x y) :
    ¬ Before tagOf jobs' y x := by
  have hne := h.ne
  obtain ⟨a, b, ha, hb, rfl, rfl, hlt⟩ := h
  rintro ⟨b', a', hb', ha', hbtag, hatag, hlt'⟩
  have hmema := mem_trees_of_wins hjobs ha
  have hmemb := mem_trees_of_wins hjobs hb
  have hmema' := mem_trees_of_wins hjobs' ha'
  have hmemb' := mem_trees_of_wins hjobs' hb'
  rcases String.le_total b.1.path a'.1.path with hle | hle
  · -- `b` stands between `a` and `a'`
    exact hne (hgrouped _ hmema _ hmemb _ hmema' (String.not_lt.1 (String.lt_asymm hlt)) hle hatag.symm).symm
  · -- `a'` stands between `b'` and `b`
    have hmid := hgrouped _ hmemb' _ hmema' _ hmemb (String.not_lt.1 (String.lt_asymm hlt')) hle hbtag
    exact hne (hatag.symm.trans (hmid.trans hbtag))

theorem Grouped.mergedTags_eq (hgrouped : Grouped tagOf trees) (hjobs : jobs.Perm trees.zipIdx)
    (hjobs' : jobs'.Perm trees.zipIdx) (horder : PathOrder trees order) :
    mergedTags tagOf jobs order = mergedTags tagOf jobs' order := by
  have hperm : (mergedTags tagOf jobs order).Perm (mergedTags tagOf jobs' order) := by
    rw [List.perm_ext_iff_of_nodup (nodup_mergedTags horder) (nodup_mergedTags horder)]
    exact fun tag => (mem_mergedTags hjobs horder).trans (mem_mergedTags hjobs' horder).symm
  let le x y := Before tagOf jobs x y ∨ Before tagOf jobs' x y
  have hleft : (mergedTags tagOf jobs order).Pairwise le := (pairwise_mergedTags horder).imp .inl
  have hright : (mergedTags tagOf jobs' order).Pairwise le := (pairwise_mergedTags horder).imp .inr
  refine hperm.eq_of_pairwise ?_ hleft hright
  rintro x y - - (hxy | hxy) (hyx | hyx)
  · exact absurd hyx (hgrouped.before_asymm hjobs hjobs hxy)
  · exact absurd hyx (hgrouped.before_asymm hjobs hjobs' hxy)
  · exact absurd hyx (hgrouped.before_asymm hjobs' hjobs hxy)
  · exact absurd hyx (hgrouped.before_asymm hjobs' hjobs' hxy)

theorem run_claiming_of_grouped (hgrouped : Grouped tagOf trees) :
    run schedule config parser (claiming tagOf textOf) cx trees =
      run schedule' config parser (claiming tagOf textOf) cx trees := by
  obtain ⟨order, horder⟩ := exists_pathOrder trees
  exact run_claiming_congr horder
    (hgrouped.mergedTags_eq (schedule.perm _) (schedule'.perm _) horder)

end Compared

/-! ## Files of a tag that do not follow one another -/

/-- A favoured file wins its tag, if no other favoured file has it. -/
theorem wins_favouring {favoured : Nat → Bool} (hjob : job ∈ trees.zipIdx)
    (hfavoured : favoured job.2 = true)
    (hunique : ∀ job' ∈ trees.zipIdx, favoured job'.2 = true →
      tagOf job'.1.path = tagOf job.1.path → job' = job) :
    Wins tagOf ((favouring favoured).arrange trees.zipIdx) job := by
  have hmem : job ∈ trees.zipIdx.filter fun job => favoured job.2 :=
    List.mem_filter.2 ⟨hjob, hfavoured⟩
  obtain ⟨first, hwins, htag⟩ := exists_wins tagOf hmem
  obtain ⟨hfirst, hfirst'⟩ := List.mem_filter.1 hwins.mem
  obtain rfl := hunique first hfirst hfirst' htag
  unfold Wins at hwins ⊢
  rw [arrange_favouring, List.find?_append, hwins]
  rfl

/-- Any two files of different tags can be the first ones. -/
theorem exists_before (ha : a ∈ trees.zipIdx) (hb : b ∈ trees.zipIdx)
    (htag : tagOf a.1.path ≠ tagOf b.1.path) (hlt : a.1.path < b.1.path) :
    ∃ schedule : Schedule,
      Before tagOf (schedule.arrange trees.zipIdx) (tagOf a.1.path) (tagOf b.1.path) := by
  refine ⟨favouring fun i => decide (i = a.2 ∨ i = b.2), a, b, ?_, ?_, rfl, rfl, hlt⟩
  · refine wins_favouring ha (by simp) fun job hjob hfavoured heq => ?_
    rcases of_decide_eq_true hfavoured with hindex | hindex
    · exact eq_of_index hjob ha hindex
    · exact absurd (eq_of_index hjob hb hindex ▸ heq) htag.symm
  · refine wins_favouring hb (by simp) fun job hjob hfavoured heq => ?_
    rcases of_decide_eq_true hfavoured with hindex | hindex
    · exact absurd (eq_of_index hjob ha hindex ▸ heq) htag
    · exact eq_of_index hjob hb hindex

/-- A parser that keeps the text as one piece. -/
def verbatim : Parser := fun path text _ => .ok (plainFile path text)

theorem text_plainFile (path text : String) : (plainFile path text).text = text := by
  change (Builder.empty.run _).text = text
  rw [Builder.text_run_empty]
  simp [Event.written, Event.text]

/-- The letters of loose code, without the line feeds between its texts. -/
def letters (text : String) : List Char := text.toList.filter (· ≠ '\n')

theorem letters_intercalate (fragments : List String) :
    letters ("\n".intercalate fragments) = fragments.flatMap letters := by
  unfold letters
  rw [String.toList_intercalate]
  induction fragments with
  | nil => rfl
  | cons first rest ih =>
    cases rest with
    | nil => simp
    | cons second rest =>
      rw [List.map_cons, List.map_cons, List.intercalate_cons_cons, ← List.map_cons,
        List.filter_append, List.filter_append, ih, List.flatMap_cons]
      simp

/-- Two tags are merged in the order of their winners. -/
theorem filter_mergedTags {x y : String} (hjobs : jobs.Perm trees.zipIdx)
    (horder : PathOrder trees order) (h : Before tagOf jobs x y) :
    (mergedTags tagOf jobs order).filter (fun tag => tag = x ∨ tag = y) = [x, y] := by
  have hne := h.ne
  have hmem : ∀ tag, tag = x ∨ tag = y → tag ∈ mergedTags tagOf jobs order := by
    obtain ⟨a, b, ha, hb, rfl, rfl, -⟩ := h
    rintro tag (rfl | rfl)
    · exact (mem_mergedTags hjobs horder).2 ⟨a.1, mem_trees_of_wins hjobs ha, rfl⟩
    · exact (mem_mergedTags hjobs horder).2 ⟨b.1, mem_trees_of_wins hjobs hb, rfl⟩
  have hperm : ((mergedTags tagOf jobs order).filter fun tag => tag = x ∨ tag = y).Perm [x, y] := by
    rw [List.perm_ext_iff_of_nodup ((nodup_mergedTags horder).filter _) (by simp [hne])]
    intro tag
    rw [List.mem_filter, decide_eq_true_iff, and_iff_right_of_imp (hmem tag)]
    simp
  exact hperm.eq_of_pairwise (fun _ _ _ _ hle hge => absurd hge hle.asymm)
    ((pairwise_mergedTags horder).filter _) (List.pairwise_pair.2 h)

theorem letters_map_textOf {x y : String} (hother : ∀ tag, tag ≠ x → tag ≠ y → textOf tag = "")
    (tags : List String) :
    (tags.map textOf).flatMap letters =
      (tags.filter fun tag => tag = x ∨ tag = y).flatMap fun tag => letters (textOf tag) := by
  induction tags with
  | nil => rfl
  | cons tag tags ih =>
    rw [List.map_cons, List.flatMap_cons, ih]
    by_cases h : tag = x ∨ tag = y
    · rw [List.filter_cons_of_pos (by simpa using h), List.flatMap_cons]
    · obtain ⟨hx, hy⟩ := not_or.1 h
      rw [List.filter_cons_of_neg (by simpa using h), hother tag hx hy]
      rfl

/-- If only two tags have letters, then the loose code shows which of them was won by the file that
stands first. -/
theorem exists_letters_run (config : GenerationConfig) (cx : GenerationContext H) {x y : String}
    (h : Before tagOf (schedule.arrange trees.zipIdx) x y)
    (hother : ∀ tag, tag ≠ x → tag ≠ y → textOf tag = "") :
    ∃ text, letters text = letters (textOf x) ++ letters (textOf y) ∧
      (run schedule config verbatim (claiming tagOf textOf) cx trees).trees =
        trees ++ [plainFile config.looseCodePath text] := by
  obtain ⟨order, horder⟩ := exists_pathOrder trees
  have hfilter := filter_mergedTags (schedule.perm _) horder h
  have hne : (mergedTags tagOf (schedule.arrange trees.zipIdx) order).map textOf ≠ [] := by
    intro hnil
    rw [List.map_eq_nil_iff.1 hnil] at hfilter
    cases hfilter
  refine ⟨_, ?_, congrArg GenerationResult.trees (run_claiming horder (.parsed hne rfl))⟩
  rw [letters_intercalate, letters_map_textOf hother, hfilter]
  simp

/-- Otherwise some texts show which schedule it was. -/
theorem grouped_of_agree
    (hagree : ∀ (textOf : String → String) (schedule schedule' : Schedule),
      (run schedule config verbatim (claiming tagOf textOf) cx trees).trees =
        (run schedule' config verbatim (claiming tagOf textOf) cx trees).trees) :
    Grouped tagOf trees := by
  intro a ha b hb c hc hab hbc htag
  by_contra hne
  have hlt : ∀ {s t : String}, s ≤ t → tagOf s ≠ tagOf t → s < t := by
    intro s t hle hne
    by_contra h
    exact hne (congrArg tagOf (String.le_antisymm hle (String.not_lt.1 h)))
  have hbtag : tagOf b.path ≠ tagOf c.path := htag ▸ hne
  obtain ⟨i, hi⟩ := List.mem_iff_getElem?.1 ha
  obtain ⟨j, hj⟩ := List.mem_iff_getElem?.1 hb
  obtain ⟨k, hk⟩ := List.mem_iff_getElem?.1 hc
  have hmema : (a, i) ∈ trees.zipIdx := List.mk_mem_zipIdx_iff_getElem?.2 hi
  have hmemb : (b, j) ∈ trees.zipIdx := List.mk_mem_zipIdx_iff_getElem?.2 hj
  have hmemc : (c, k) ∈ trees.zipIdx := List.mk_mem_zipIdx_iff_getElem?.2 hk
  -- one schedule lets `a` win in front of `b`, and another one lets `c` win behind it
  obtain ⟨schedule, hfront⟩ := exists_before hmema hmemb (Ne.symm hne) (hlt hab (Ne.symm hne))
  obtain ⟨schedule', hbehind⟩ := exists_before hmemb hmemc hbtag (hlt hbc hbtag)
  rw [← htag] at hbehind
  let textOf := fun tag => if tag = tagOf a.path then "x" else if tag = tagOf b.path then "y" else ""
  have hother : ∀ tag, tag ≠ tagOf a.path → tag ≠ tagOf b.path → textOf tag = "" := by
    intro tag hx hy
    simp [textOf, hx, hy]
  obtain ⟨text, hletters, hrun⟩ := exists_letters_run config cx hfront hother
  obtain ⟨text', hletters', hrun'⟩ :=
    exists_letters_run config cx hbehind fun tag hy hx => hother tag hx hy
  have hloose : plainFile config.looseCodePath text = plainFile config.looseCodePath text' := by
    have hsame := hrun.symm.trans ((hagree textOf schedule schedule').trans hrun')
    exact List.singleton_inj.1 (List.append_cancel_left hsame)
  have htext : text = text' := by
    rw [← text_plainFile config.looseCodePath text, hloose, text_plainFile]
  rw [htext, hletters'] at hletters
  simp [textOf, hne, letters] at hletters

/-- All schedules answer alike, whatever the texts, exactly if the files of each tag follow one another
by path. -/
theorem run_claiming_agree_iff (tagOf : String → String) (config : GenerationConfig)
    (cx : GenerationContext H) (trees : List Tree) :
    (∀ (textOf : String → String) (parser : Parser) (schedule schedule' : Schedule),
      (run schedule config parser (claiming tagOf textOf) cx trees).trees =
        (run schedule' config parser (claiming tagOf textOf) cx trees).trees) ↔
      Grouped tagOf trees := by
  constructor
  · intro hagree
    exact grouped_of_agree fun textOf schedule schedule' => hagree textOf verbatim schedule schedule'
  · intro hgrouped textOf parser schedule schedule'
    exact congrArg GenerationResult.trees (run_claiming_of_grouped hgrouped)

/-- Three files, with a file of another tag between two files of one tag. -/
def split : List Tree := [plainFile "C.cs" "c", plainFile "B.cs" "b", plainFile "A.cs" "a"]

/-- The tag of each of the three files. -/
def splitTag (path : String) : String := if path = "B.cs" then "y" else "x"

/-- The files in order of path. -/
def splitOrder : List (Tree × Nat) :=
  [(plainFile "A.cs" "a", 2), (plainFile "B.cs" "b", 1), (plainFile "C.cs" "c", 0)]

/-- The first file of a tag is now `C.cs` and now `A.cs`, and the loose code is another one. -/
theorem run_claiming_split_ne :
    (run .inOrder .standard verbatim (claiming splitTag id) ⟨(), .empty⟩ split).trees =
        split ++ [plainFile looseCodePath "y\nx"] ∧
      (run .reversed .standard verbatim (claiming splitTag id) ⟨(), .empty⟩ split).trees =
        split ++ [plainFile looseCodePath "x\ny"] ∧
      split ++ [plainFile looseCodePath "y\nx"] ≠ split ++ [plainFile looseCodePath "x\ny"] := by
  have horder : PathOrder split splitOrder := by constructor <;> decide
  have hfirst : mergedTags splitTag (Schedule.inOrder.arrange split.zipIdx) splitOrder = ["y", "x"] := by
    decide
  have hlast : mergedTags splitTag (Schedule.reversed.arrange split.zipIdx) splitOrder = ["x", "y"] := by
    decide
  have hfirstLoose : LooseCode .standard verbatim split (["y", "x"].map id)
      [plainFile looseCodePath "y\nx"] := .parsed (by simp) rfl
  have hlastLoose : LooseCode .standard verbatim split (["x", "y"].map id)
      [plainFile looseCodePath "x\ny"] := .parsed (by simp) rfl
  refine ⟨?_, ?_, ?_⟩
  · rw [run_claiming horder (hfirst ▸ hfirstLoose)]
  · rw [run_claiming horder (hlast ▸ hlastLoose)]
  · intro h
    have hfile := List.singleton_inj.1 (List.append_cancel_left h)
    have htext := congrArg Tree.text hfile
    rw [text_plainFile, text_plainFile] at htext
    exact absurd htext (by decide)

end Generation

end HotReload
