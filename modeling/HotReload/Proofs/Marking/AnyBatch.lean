import HotReload.Proofs.Marking.Pushed
import HotReload.Proofs.Source.Encodings
import HotReload.Proofs.Text.Parts

/-
  Batches with any markers for any nodes, admissible or not. Spans need not stay in order under such a
  batch: a marker for a node without significant text lands where other nodes start, and two nodes may
  gain markers about the program. What does stay is all that the next batch relies on
  (`Tree.Markable`): nodes start where characters end, and the text is in reach of offsets. The step is
  one insertion (`Marking.exists_grown`, by induction on the insertions from the front), and
  `Tree.Made.markable` is the induction over the batches.

  So a batch fails on a node that the tree does not have, and on nothing else
  (`Tree.Markable.addMarkers_fails_iff`).
-/

namespace HotReload

namespace Marking

open Text

variable {ω : Type} {nodes : Array Node} {ins : Insertion} {l : List Insertion} {cs : List Char}

/-- Wherever the text goes, an insertion moves the start of a node or leaves it. -/
theorem exists_moves_start (nodes : Array Node) (ins : Insertion) (i : Nat) (n : Node)
    (hsize : n.span.start + Text.byteLength ins.text.toList ≤ Text.maxOffset) :
    ∃ moves : Bool,
      ins.Moves (moves = true) n.span.start (shiftNode nodes ins i n).span.start := by
  cases hplacement : ins.placement with
  | before =>
    refine ⟨startMoves nodes i ins.owner, ?_⟩
    rw [shiftNode_before hplacement]
    exact moves_adjust _ hsize
  | after =>
    refine ⟨false, ?_⟩
    have hstart : (shiftNode nodes ins i n).span.start =
        (Shift.insertion ins.position ins.length).adjust n.span.start (!false) := by
      unfold shiftNode
      simp only [hplacement]
      split <;> rfl
    rw [hstart]
    exact moves_adjust _ hsize

theorem Insertion.Moves.seam {moves : Prop} {as bs new : List (Text.Part ω)} {p p' : Nat}
    (h : ins.Moves moves p p') (has : byteLength (spell as) = ins.position)
    (hnew : spell new = ins.text.toList) (hp : Seam (as ++ bs) p) : Seam (as ++ new ++ bs) p' := by
  rcases h with ⟨rfl, h⟩ | ⟨rfl, h⟩
  · exact hp.insert_of_le (by omega)
  · rw [← hnew]
    exact hp.insert_of_ge (by omega)

/-- Parts that are put in at seams stay in one piece, and nodes still start at seams. What stands in
front of all insertions is kept part by part. -/
theorem exists_grown {new : Insertion → List (Text.Part ω)} {parts : List (Text.Part ω)}
    (hnew : ∀ ins ∈ l, spell (new ins) = ins.text.toList)
    (hsorted : l.Pairwise fun a b => a.position ≤ b.position)
    (hsolid : ∀ part ∈ parts, part.text ≠ []) (hseams : ∀ ins ∈ l, Seam parts ins.position)
    (hsize : byteLength (weave (Insertion.marks l) 0 (spell parts)) ≤ maxOffset)
    (hstarts : ∀ {i : Nat} {n : Node}, nodes[i]? = some n → Seam parts n.span.start) :
    ∃ parts', spell parts' = weave (Insertion.marks l) 0 (spell parts) ∧
      (∀ as bs, parts = as ++ bs → (∀ ins ∈ l, byteLength (spell as) ≤ ins.position) →
        ∃ cs, parts' = as ++ cs ∧ Interleaved bs (l.flatMap new) cs) ∧
      ∀ {i : Nat} {n : Node}, (l.foldr (fun ins arena => shiftAll arena ins) nodes)[i]? = some n →
        Seam parts' n.span.start := by
  induction l with
  | nil =>
    refine ⟨parts, (Insertion.weave_marks_nil 0 _).symm, ?_, hstarts⟩
    rintro as bs rfl -
    exact ⟨bs, rfl, Interleaved.left_only bs⟩
  | cons ins l ih =>
    obtain ⟨hle, hrest⟩ := List.pairwise_cons.1 hsorted
    obtain ⟨as, bs, rfl, has⟩ := hseams ins List.mem_cons_self
    have hposition : 0 + byteLength (spell as) = ins.position := by omega
    have hbehind : weave (Insertion.marks l) 0 (spell (as ++ bs)) =
        spell as ++ weave (Insertion.marks l) ins.position (spell bs) := by
      rw [← hposition, spell_append]
      exact Insertion.weave_marks_append (fun i hi => hposition ▸ hle i hi) _
    have hweave := Insertion.weave_marks_cons hposition hle (spell bs)
    rw [← spell_append] at hweave
    rw [hweave, byteLength_append, byteLength_append] at hsize
    obtain ⟨parts', hspell, hfronts, hstarts'⟩ := ih
      (fun i hi => hnew i (List.mem_cons_of_mem _ hi)) hrest
      (fun i hi => hseams i (List.mem_cons_of_mem _ hi))
      (by rw [hbehind, byteLength_append]; omega)
    obtain ⟨cs, rfl, hinterleaved⟩ := hfronts as bs rfl fun i hi => has ▸ hle i hi
    have hins := hnew ins List.mem_cons_self
    refine ⟨as ++ new ins ++ cs, ?_, ?_, ?_⟩
    · rw [hbehind, spell_append] at hspell
      rw [hweave, spell_append, spell_append, hins, List.append_cancel_left hspell]
    · intro as' bs' heq hfront
      have hle' := hfront ins List.mem_cons_self
      rcases List.append_eq_append_iff.1 heq with ⟨ms, rfl, rfl⟩ | ⟨ms, rfl, rfl⟩
      · -- no part is empty, so the front ends where the insertion is
        rw [spell_append, byteLength_append] at hle'
        obtain rfl : ms = [] := eq_nil_of_spell (fun part hpart =>
          hsolid part (List.mem_append_right _ (List.mem_append_left _ hpart)))
          (byteLength_eq_zero.1 (by omega))
        refine ⟨new ins ++ cs, by simp, ?_⟩
        exact (Interleaved.right_only (new ins)).append hinterleaved
      · refine ⟨ms ++ (new ins ++ cs), by simp, ?_⟩
        exact (Interleaved.left_only ms).append ((Interleaved.right_only (new ins)).append hinterleaved)
    · intro i n' hn'
      obtain ⟨n, hn, rfl⟩ := getElem?_shiftAll hn'
      have hstart := hstarts' hn
      have hreach := hstart.isCut.le_byteLength
      rw [hspell, hbehind, byteLength_append] at hreach
      obtain ⟨moves, hmoves⟩ := exists_moves_start
        (l.foldr (fun ins arena => shiftAll arena ins) nodes) ins i n (by omega)
      exact hmoves.seam has hins hstart

/-- Nodes that start where characters end do so after any insertions at such offsets. -/
theorem isCut_foldr_shiftAll (hsorted : l.Pairwise fun a b => a.position ≤ b.position)
    (hcuts : ∀ ins ∈ l, IsCut cs ins.position)
    (hsize : byteLength (weave (Insertion.marks l) 0 cs) ≤ maxOffset)
    (hstarts : ∀ {i : Nat} {n : Node}, nodes[i]? = some n → IsCut cs n.span.start) {i : Nat}
    {n : Node} (hn : (l.foldr (fun ins arena => shiftAll arena ins) nodes)[i]? = some n) :
    IsCut (weave (Insertion.marks l) 0 cs) n.span.start := by
  -- where every character is a part, all cuts are seams
  have hseam : ∀ {p : Nat}, IsCut cs p → Seam (singles () cs) p := by
    intro p hp
    refine Seam.of_isCut (fun part hpart => ?_) (by rwa [spell_singles])
    obtain ⟨c, -, rfl⟩ := mem_singles.1 hpart
    exact ⟨c, rfl⟩
  have hsolid : ∀ part ∈ singles () cs, part.text ≠ [] := by
    intro part hpart
    obtain ⟨c, -, rfl⟩ := mem_singles.1 hpart
    exact List.cons_ne_nil _ _
  obtain ⟨parts', hspell, -, hstarts'⟩ := exists_grown
    (fun ins _ => spell_singles () ins.text.toList) hsorted hsolid
    (fun ins hins => hseam (hcuts ins hins)) (by rwa [spell_singles])
    (fun hn => hseam (hstarts hn))
  rw [spell_singles] at hspell
  exact hspell ▸ (hstarts' hn).isCut

/-- The parent and the children of a node. -/
def links (n : Node) : Option Nat × ChildRange := (n.parent, n.children)

end Marking

namespace Tree

open Marking

variable {t t' : Tree} {requests : List Request}

theorem size_addMarkers (h : t.addMarkers requests = .ok t') : t'.size = t.size := by
  rw [size, (nodes_addMarkers h).1, size_foldr_shiftAll, attach, Array.size_mapFinIdx]
  rfl

/-- No batch changes what stands below what. -/
theorem links_addMarkers (h : t.addMarkers requests = .ok t') (i : Nat) :
    t'.nodes[i]?.map links = t.nodes[i]?.map links := by
  rw [(nodes_addMarkers h).1]
  induction insertions t requests with
  | nil =>
    rw [List.foldr_nil, getElem?_attach, Option.map_map]
    rfl
  | cons ins l ih =>
    rw [List.foldr_cons, ← ih, getElem?_shiftAll_eq, Option.map_map]
    rfl

/-- The position is the one of the first request that is about no node of the tree. -/
def FirstUnknown (t : Tree) (requests : List Request) (id : Nat) : Prop :=
  ∃ known marker rest, requests = known ++ (id, marker) :: rest ∧ (∀ r ∈ known, r.1 < t.size) ∧
    t.size ≤ id

theorem addMarkers_of_unknown (h : ∃ r ∈ requests, t.size ≤ r.1) :
    ∃ id, t.FirstUnknown requests id ∧
      t.addMarkers requests = .error (.unknownNode t.path id) := by
  obtain ⟨r, hr, hsize⟩ := h
  unfold Tree.addMarkers
  split
  · next id marker hfind =>
    obtain ⟨hid, known, rest, rfl, hknown⟩ := List.find?_eq_some_iff_append.1 hfind
    refine ⟨id, ⟨known, marker, rest, rfl, fun r hr => ?_, of_decide_eq_true hid⟩, rfl⟩
    have hnot := hknown r hr
    rw [Bool.not_eq_true', decide_eq_false_iff_not] at hnot
    exact Nat.lt_of_not_le hnot
  · next hfind => exact absurd (decide_eq_true hsize) (List.find?_eq_none.1 hfind r hr)

/-- A batch that has a result is about nodes. -/
theorem lt_of_addMarkers (h : t.addMarkers requests = .ok t') : ∀ r ∈ requests, r.1 < t.size := by
  refine fun r hr => Nat.lt_of_not_le fun hle => ?_
  obtain ⟨id, -, herror⟩ := addMarkers_of_unknown ⟨r, hr, hle⟩
  simp [h] at herror

/-- What a batch of any markers relies on, and what it leaves. -/
structure Markable (t : Tree) : Prop where
  size : t.text.utf8ByteSize ≤ Text.maxOffset
  starts : ∀ {i : Nat} {n : Node}, t.nodes[i]? = some n → Text.IsCut t.text.toList n.span.start
  children : ∀ {i j : Nat} {m n : Node}, t.nodes[i]? = some m → t.nodes[j]? = some n →
    (j ∈ m.children.slice t.childList ↔ n.parent = some i)

/-- The tree comes from events, by any batches of markers that leave a text in reach of offsets. -/
inductive Made : Tree → Prop
  | built {path : String} {symbols : Symbols} {events : List Event} {t : Tree}
      (built : Tree.ofEvents path symbols events = .ok t) : Made t
  | marked {t t' : Tree} {requests : List Request} (before : Made t)
      (added : t.addMarkers requests = .ok t') (size : t'.text.utf8ByteSize ≤ Text.maxOffset) :
      Made t'

theorem markable_of_built {path : String} {symbols : Symbols} {events : List Event}
    (hbuilt : Tree.ofEvents path symbols events = .ok t) : t.Markable where
  size := (sound_of_built hbuilt).size
  starts hn := ((sound_of_built hbuilt).laid.cuts hn).1
  children {i j m n} hm hn := by
    obtain ⟨-, -, ⟨hempty, -⟩ | ⟨r, rfl, hrows⟩⟩ := Tree.ofEvents_eq_ok hbuilt
    · simp [hempty] at hm
    · exact r.mem_children_iff hrows (Rooted.toList_childList hbuilt) hm hn

namespace Markable

/-- Insertions for any markers stand where characters end. -/
theorem isCut_position (h : t.Markable) :
    ∀ ins ∈ insertions t requests, Text.IsCut t.text.toList ins.position :=
  isCut_position_of_starts h.size fun id => h.starts (t.getElem?_node id)

theorem mem_children_iff (h : t.Markable) {id c : t.Id} :
    c ∈ t.children id ↔ t.parent? c = some id := by
  rw [Tree.mem_children_iff, parent?_eq_some_iff]
  exact h.children (t.getElem?_node id) (t.getElem?_node c)

/-- A batch about nodes has a result, and its text has the insertions woven in. -/
theorem exists_addMarkers (h : t.Markable) (hknown : ∀ r ∈ requests, r.1 < t.size) :
    ∃ t', t.addMarkers requests = .ok t' ∧ t'.text = String.ofList
      (Text.weave (Insertion.marks (insertions t requests)) 0 t.text.toList) :=
  ⟨_, addMarkers_eq_of_cuts hknown h.isCut_position, rfl⟩

/-- A batch fails exactly if one of its markers is about no node, and names the first such. -/
theorem addMarkers_fails_iff (h : t.Markable) (requests : List Request) :
    ((∃ e, t.addMarkers requests = .error e) ↔ ∃ r ∈ requests, t.size ≤ r.1) ∧
    ∀ e, t.addMarkers requests = .error e →
      ∃ id, t.FirstUnknown requests id ∧ e = .unknownNode t.path id := by
  by_cases hunknown : ∃ r ∈ requests, t.size ≤ r.1
  · obtain ⟨id, hfirst, herror⟩ := addMarkers_of_unknown hunknown
    refine ⟨iff_of_true ⟨_, herror⟩ hunknown, fun e he => ⟨id, hfirst, ?_⟩⟩
    exact Except.error.inj (he.symm.trans herror)
  · have hknown : ∀ r ∈ requests, r.1 < t.size :=
      fun r hr => Nat.lt_of_not_le fun hle => hunknown ⟨r, hr, hle⟩
    obtain ⟨t', hadded, -⟩ := h.exists_addMarkers hknown
    have hnone : ∀ e, t.addMarkers requests ≠ .error e := by simp [hadded]
    exact ⟨iff_of_false (fun ⟨e, he⟩ => hnone e he) hunknown, fun e he => absurd he (hnone e)⟩

/-- A further batch can be added to what a batch leaves. -/
theorem addMarkers (h : t.Markable) (hadded : t.addMarkers requests = .ok t')
    (hsize : t'.text.utf8ByteSize ≤ Text.maxOffset) : t'.Markable := by
  obtain ⟨t'', hadded', htext⟩ := h.exists_addMarkers (lt_of_addMarkers hadded)
  obtain rfl := Except.ok.inj (hadded.symm.trans hadded')
  have hlinks := links_addMarkers hadded
  refine ⟨hsize, fun {i n} hn => ?_, fun {i j m n} hm hn => ?_⟩
  · rw [Text.utf8ByteSize_eq_byteLength] at hsize
    rw [htext, String.toList_ofList] at hsize ⊢
    rw [(nodes_addMarkers hadded).1] at hn
    refine isCut_foldr_shiftAll insertions_position_le h.isCut_position hsize ?_ hn
    intro i n' hn'
    obtain ⟨n, hn, rfl⟩ := exists_of_getElem?_attach hn'
    have hstart : Text.IsCut t.text.toList n.span.start := h.starts hn
    exact hstart
  · obtain ⟨m', hm', hlinksM⟩ := Option.map_eq_some_iff.1
      ((hlinks i).symm.trans (congrArg (Option.map links) hm))
    obtain ⟨n', hn', hlinksN⟩ := Option.map_eq_some_iff.1
      ((hlinks j).symm.trans (congrArg (Option.map links) hn))
    obtain ⟨-, hchildren⟩ := Prod.mk.inj hlinksM
    obtain ⟨hparent, -⟩ := Prod.mk.inj hlinksN
    rw [← hchildren, ← hparent, childList_addMarkers hadded]
    exact h.children hm' hn'

end Markable

/-- Every tree that comes from events takes markers for any of its nodes, batch after batch. -/
theorem Made.markable (h : t.Made) : t.Markable := by
  induction h with
  | built hbuilt => exact markable_of_built hbuilt
  | marked _ hadded hsize ih => exact ih.addMarkers hadded hsize

end Tree

end HotReload
