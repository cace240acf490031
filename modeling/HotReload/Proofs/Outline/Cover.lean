import HotReload.Proofs.Outline.Roles

/-
  Every node and every significant piece of a plain file has a role. `Forest.Known` says so of the
  nodes and pieces that a forest makes; it goes from the parts of a line to the line, from the items
  in braces to what is around the braces (`BlockAt.known`), and by induction on the items to the
  whole file (`Items.known`).
-/

namespace HotReload

open Marked

/-- Everything that the forest makes at its place has a role. -/
structure Forest.Known (t : Tree) (all : Marked) (ps : List Piece) (parent id offset : Nat)
    (f : Forest) : Prop where
  nodes : ∀ (i : t.Id) (listed : Nat), f.Places (some parent) id offset listed i.1 (t.node i) →
    Outline.NodeRole t all ps i
  pieces : ∀ p ∈ f.pieces parent id offset, p.significant = true → Outline.PieceRole t all ps p

namespace Forest.Known

variable {t : Tree} {all : Marked} {ps : List Piece} {parent id offset : Nat}
  {text : String} {rest parts : Forest} {kind : NodeKind} {name : Option String}

theorem nil : (Forest.nil).Known t all ps parent id offset where
  nodes _ _ h := h.elim
  pieces _ h := absurd h List.not_mem_nil

theorem trivia (h : rest.Known t all ps parent id (offset + text.utf8ByteSize)) :
    (Forest.trivia text rest).Known t all ps parent id offset where
  nodes := h.nodes
  pieces p hp hsignificant := by
    rcases List.mem_cons.1 hp with rfl | hp
    · exact absurd hsignificant Bool.false_ne_true
    · exact h.pieces p hp hsignificant

theorem token (hpiece : Outline.PieceRole t all ps
      ⟨parent, true, offset, offset + text.utf8ByteSize⟩)
    (h : rest.Known t all ps parent id (offset + text.utf8ByteSize)) :
    (Forest.token text rest).Known t all ps parent id offset where
  nodes := h.nodes
  pieces p hp hsignificant := by
    rcases List.mem_cons.1 hp with rfl | hp
    · exact hpiece
    · exact h.pieces p hp hsignificant

theorem node (hnode : ∀ (i : t.Id) (listed : Nat), i.1 = id →
      t.node i = parts.row (some parent) id offset listed kind name → Outline.NodeRole t all ps i)
    (hparts : parts.Known t all ps id (id + 1) offset)
    (hrest : rest.Known t all ps parent (id + 1 + parts.size) (offset + parts.bytes)) :
    (Forest.node kind name parts rest).Known t all ps parent id offset where
  nodes i listed hi := by
    rcases hi with ⟨hid, hi⟩ | hi | hi
    · exact hnode i listed hid hi
    · exact hparts.nodes i listed hi
    · exact hrest.nodes i (listed + parts.size) hi
  pieces p hp hsignificant := by
    rcases List.mem_append.1 hp with hp | hp
    · exact hparts.pieces p hp hsignificant
    · exact hrest.pieces p hp hsignificant

/-- A node that is a part of a declaration. -/
theorem part (hkind : kind = .parameterList ∨ kind = .block ∨ kind = .arrowClause ∨
      kind = .expression)
    (hbytes : 0 < parts.bytes) (hparts : parts.Known t all ps id (id + 1) offset)
    (hrest : rest.Known t all ps parent (id + 1 + parts.size) (offset + parts.bytes)) :
    (Forest.node kind name parts rest).Known t all ps parent id offset := by
  refine node (fun i _ _ hi => ?_) hparts hrest
  have hrow : t.kind i = kind := by
    unfold Tree.kind
    rw [hi]
    rfl
  refine .part (hrow ▸ hkind) ?_
  rw [hi]
  exact Nat.lt_add_of_pos_right hbytes

end Forest.Known

namespace Outline

variable {t : Tree} {all : Marked} {ps : List Piece} {path : String} {symbols : Symbols}
  {events : List Event} {scope : Scope} {depth : Nat} {h : Head} {parent d w : t.Id}

/-! ## Lines -/

theorem known_line {parent id offset : Nat} {text : String} {rest : Forest}
    (hpiece : PieceRole t all ps
      ⟨parent, true, offset + 4 * depth, offset + 4 * depth + text.utf8ByteSize⟩)
    (hrest : rest.Known t all ps parent id (offset + 4 * depth + text.utf8ByteSize + 1)) :
    (Forest.line depth text rest).Known t all ps parent id offset := by
  unfold Forest.line
  refine .trivia ?_
  rw [utf8ByteSize_indent]
  exact .token hpiece (.trivia hrest)

/-- A line of punctuation. -/
theorem LineAt.known {owner id offset : Nat} {text : String} {rest : Forest}
    (hline : LineAt all ps owner depth offset text) (htext : isPunctuation text)
    (hrest : rest.Known t all ps owner id (offset + 4 * depth + text.utf8ByteSize + 1)) :
    (Forest.line depth text rest).Known t all ps owner id offset :=
  known_line (.punctuation text htext hline.code rfl) hrest

namespace Head

theorem known_parameters {owner id offset : Nat} {rest : Forest} (hplain : h.IsPlain)
    (hat : At all offset (code h.parameterText.toList))
    (hrest : rest.Known t all ps owner (id + h.listed) (offset + h.parameterText.utf8ByteSize)) :
    (h.parameters rest).Known t all ps owner id offset := by
  cases h with
  | method comments returns name parameters =>
    have htext : isPunctuation ("(" ++ parameters ++ ")") := by
      have hparameters : parameters = "" ∨ isName parameters = true := hplain.2.2.2
      simp [isPunctuation, hparameters]
    refine .part (Or.inl rfl) ?_ (.token (.punctuation _ htext hat rfl) .nil) hrest
    rw [Forest.bytes, String.utf8ByteSize_append, String.utf8ByteSize_append]
    have : "(".utf8ByteSize = 1 := rfl
    omega
  | type _ _ | property _ _ _ | getter | setter => exact hrest

/-- The line that opens a declaration. -/
theorem known_forest {offset : Nat} {rest : Forest} (hd : Declared t all ps scope depth h d)
    (hstart : (t.node d).span.start =
      offset + (commentLines depth h.comments).utf8ByteSize + 4 * depth)
    (hat : At all ((t.node d).span.start + h.text.utf8ByteSize) (code h.parameterText.toList))
    (hrest : rest.Known t all ps d.1 (d.1 + 1 + h.listed)
      ((t.node d).span.start + h.text.utf8ByteSize + h.parameterText.utf8ByteSize)) :
    (h.forest depth rest).Known t all ps d.1 (d.1 + 1) offset := by
  have hline : (Forest.trivia (indent depth) (.token h.text (h.parameters rest))).Known t all ps d.1
      (d.1 + 1) (offset + (commentLines depth h.comments).utf8ByteSize) := by
    refine .trivia ?_
    rw [utf8ByteSize_indent, ← hstart]
    exact .token (.head scope depth h d hd rfl) (known_parameters hd.plain hat hrest)
  cases h with
  | type _ _ | method _ _ _ _ | property _ _ _ => exact .trivia hline
  | getter | setter => exact hline

theorem within_wrap {d : t.Id} {id offset : Nat} {parts : Forest}
    (hw : (h.wrap parts).Within t all ps d.1 id offset) :
    ∃ (w : t.Id) (id' : Nat), Braces t h d w ∧ parts.Within t all ps w.1 id' offset ∧
      (0 < parts.bytes → parts.Known t all ps w.1 id' offset →
        (h.wrap parts).Known t all ps d.1 id offset) := by
  by_cases hscope : h.scope = .body
  · have hwrap : h.wrap parts = .node .block none parts .nil := by
      cases h with
      | method _ _ _ _ | getter | setter => rfl
      | type _ _ | property _ _ _ => cases hscope
    rw [hwrap] at hw ⊢
    obtain ⟨⟨w, rfl, _, hnode⟩, hparts, -⟩ := hw.node
    exact ⟨w, w.1 + 1, .block (Tree.parent?_eq_some_iff.2 (by rw [hnode]; rfl))
      (by unfold Tree.kind; rw [hnode]; rfl) hscope, hparts,
      fun hbytes hknown => .part (Or.inr (Or.inl rfl)) hbytes hknown .nil⟩
  · have hwrap : h.wrap parts = parts := by
      cases h with
      | method _ _ _ _ | getter | setter => exact absurd rfl hscope
      | type _ _ | property _ _ _ => rfl
    rw [hwrap] at hw ⊢
    exact ⟨d, id, .own rfl hscope, hw, fun _ hknown => hknown⟩

/-- Where the name of a declaration ends, if its comment lines start at an offset. -/
def stop (depth offset : Nat) (h : Head) : Nat :=
  offset + (commentLines depth h.comments).utf8ByteSize + 4 * depth + h.text.utf8ByteSize

/-- Where the items in the braces of a declaration start. -/
def bodyStart (depth offset : Nat) (h : Head) : Nat :=
  h.stop depth offset + h.parameterText.utf8ByteSize + 1 + (4 * depth + 2)

end Head

/-! ## Declarations -/

/-- A declaration with items in braces, at its place. -/
structure BlockAt (t : Tree) (all : Marked) (ps : List Piece) (scope : Scope) (depth : Nat)
    (h : Head) (body : Items) (offset : Nat) (d w : t.Id) (id' : Nat) : Prop where
  declared : Declared t all ps scope depth h d
  within : (body.forest (depth + 1) (.line depth "\x7d" .nil)).Within t all ps w.1 id'
    (h.bodyStart depth offset)
  inside : Inside t ps h.scope (depth + 1) w (h.bodyStart depth offset)
    (h.bodyStart depth offset + body.bytes (depth + 1))
  start : LineStart all (h.bodyStart depth offset)
  closes : LineAt all ps w depth (h.bodyStart depth offset + body.bytes (depth + 1)) "\x7d"
  known : (body.forest (depth + 1) (.line depth "\x7d" .nil)).Known t all ps w.1 id'
      (h.bodyStart depth offset) →
    (h.blockForest depth (body.forest (depth + 1) (.line depth "\x7d" .nil))).Known t all ps d.1
      (d.1 + 1) offset

theorem exists_blockAt (hbuilt : Tree.ofEvents path symbols events = .ok t)
    {id offset : Nat} {body : Items} {rest : Forest}
    (hplain : h.IsPlain) (hadmits : scope.admits h = true) (hstart : LineStart all offset)
    (hinside : Inside t ps scope depth parent offset
      (offset + (h.blockForest depth (body.forest (depth + 1) (.line depth "\x7d" .nil))).bytes))
    (hw : (Forest.node h.kind h.name
      (h.blockForest depth (body.forest (depth + 1) (.line depth "\x7d" .nil))) rest).Within t all
        ps parent.1 id offset) :
    ∃ (d w : t.Id) (id' : Nat), d.1 = id ∧ BlockAt t all ps scope depth h body offset d w id' ∧
      LineStart all (offset +
        (h.blockForest depth (body.forest (depth + 1) (.line depth "\x7d" .nil))).bytes) := by
  obtain ⟨d, rfl, hparent, hkind, hspan, hlist, hinner, -, hdeclared⟩ :=
    Head.declared_of_within rfl hplain hadmits hstart hinside hw
  obtain ⟨w, id', hbraces, hinner, hwrap⟩ := Head.within_wrap hinner
  obtain ⟨hopen, hbody⟩ := within_line hinner
  have hbodyStart : (t.node d).span.start + h.text.utf8ByteSize + h.parameterText.utf8ByteSize +
      "\n".utf8ByteSize + 4 * depth + "\x7b".utf8ByteSize + 1 = h.bodyStart depth offset := by
    simp only [Head.bodyStart, Head.stop, hspan, show "\n".utf8ByteSize = 1 from rfl,
      show "\x7b".utf8ByteSize = 1 from rfl]
    omega
  have hstartBody := lineStart_of_at hopen.next
  rw [hbodyStart] at hstartBody hbody
  obtain ⟨id'', hclose⟩ := Items.within_tail body hbody
  obtain ⟨hclose, -⟩ := within_line hclose
  have hbelow := hbraces.below hbuilt
  have hopenPiece := hopen.piece
  have hclosePiece := hclose.piece
  have hlast : h.bodyStart depth offset + body.bytes (depth + 1) + 4 * depth +
      "\x7d".utf8ByteSize + 1 = offset +
        (h.blockForest depth (body.forest (depth + 1) (.line depth "\x7d" .nil))).bytes := by
    rw [Head.bytes_blockForest, Items.bytes_forest, bytes_line]
    simp only [Head.bodyStart, Head.stop, Forest.bytes, show "\x7d".utf8ByteSize = 1 from rfl]
    omega
  have hnext := lineStart_of_at hclose.next
  rw [hlast] at hnext
  have hd := hdeclared ⟨w.1, _, _, hbelow.1, hbelow.2, hopenPiece, by omega,
    Nat.lt_add_of_pos_right (by decide)⟩
  have hinsideBody : Inside t ps h.scope (depth + 1) w (h.bodyStart depth offset)
      (h.bodyStart depth offset + body.bytes (depth + 1)) := by
    refine ⟨hbraces.holds hbuilt hkind hadmits hparent hinside.holds,
      by rw [hbraces.segments_eq, hd.length], Or.inr ⟨_, _, hopenPiece, ?_, ?_⟩,
      Or.inr ⟨_, _, hclosePiece, ?_, Nat.le_add_right _ _⟩⟩
    · exact Nat.lt_add_of_pos_right (by decide)
    · rw [← hbodyStart]
      exact Nat.le_add_right _ _
    · exact Nat.lt_add_of_pos_right (by decide)
  refine ⟨d, w, id', rfl, ⟨hd, hbody, hinsideBody, hstartBody, hclose, fun hknown => ?_⟩, hnext⟩
  refine Head.known_forest hd hspan hlist (.trivia (hwrap ?_ (hopen.known (Or.inl rfl) ?_)))
  · rw [bytes_line]
    omega
  · rw [hbodyStart]
    exact hknown

/-- Items after the first one stand in the same node. -/
theorem Inside.rest {offset first bytes : Nat}
    (hinside : Inside t ps scope depth parent offset (offset + (first + bytes))) :
    Inside t ps scope depth parent (offset + first) (offset + first + bytes) := by
  rw [← Nat.add_assoc] at hinside
  exact hinside.mono (Nat.le_add_right _ _) (Nat.le_refl _)

theorem Inside.first {offset first bytes : Nat}
    (hinside : Inside t ps scope depth parent offset (offset + (first + bytes))) :
    Inside t ps scope depth parent offset (offset + first) :=
  hinside.mono (Nat.le_refl _) (Nat.add_le_add_left (Nat.le_add_right _ _) _)

theorem exists_arrowAt (hbuilt : Tree.ofEvents path symbols events = .ok t)
    {id offset : Nat} {expression : String} {rest : Forest}
    (hplain : h.IsPlain) (hadmits : scope.admits h = true) (hdigit : isDigit expression = true)
    (hstart : LineStart all offset)
    (hinside : Inside t ps scope depth parent offset
      (offset + (h.arrowForest depth expression).bytes))
    (hw : (Forest.node h.kind h.name (h.arrowForest depth expression) rest).Within t all ps parent.1
      id offset) :
    ∃ d : t.Id, d.1 = id ∧ Declared t all ps scope depth h d ∧
      LineStart all (offset + (h.arrowForest depth expression).bytes) ∧
      (h.arrowForest depth expression).Known t all ps d.1 (d.1 + 1) offset := by
  obtain ⟨d, rfl, -, -, hspan, hlist, hinner, -, hdeclared⟩ :=
    Head.declared_of_within rfl hplain hadmits hstart hinside hw
  obtain ⟨-, hclause, hend⟩ := hinner.node
  obtain ⟨-, harrow, hclause⟩ := hclause.token
  obtain ⟨-, hexpression, -⟩ := hclause.node
  obtain ⟨-, hdigitAt, -⟩ := hexpression.token
  obtain ⟨hsemicolon, hsemicolonAt, hend⟩ := hend.token
  obtain ⟨-, hbreak, -⟩ := hend.trivia
  have hlast : (t.node d).span.start + h.text.utf8ByteSize + h.parameterText.utf8ByteSize +
      " ".utf8ByteSize +
      (Forest.token "=> " (.node .expression none (.token expression .nil) .nil)).bytes +
      ";".utf8ByteSize + 1 = offset + (h.arrowForest depth expression).bytes := by
    rw [Head.bytes_arrowForest, hspan]
    simp only [Forest.bytes, show " ".utf8ByteSize = 1 from rfl, show ";".utf8ByteSize = 1 from rfl,
      show "=> ".utf8ByteSize = 3 from rfl]
    omega
  have hnext := lineStart_of_at hbreak
  rw [hlast] at hnext
  have hd := hdeclared ⟨d.1, _, _, Nat.le_refl _, (Tree.lt_subtreeEnd hbuilt d).1, hsemicolon,
    by omega, Nat.lt_add_of_pos_right (by decide)⟩
  have hsize : 0 < expression.utf8ByteSize := by
    obtain ⟨c, hc, -⟩ := exists_of_isDigit hdigit
    rw [Text.utf8ByteSize_eq_byteLength, hc]
    exact c.utf8Size_pos
  have harrowText : isPunctuation "=> " := by simp [isPunctuation]
  have hdigitText : isPunctuation expression := by simp [isPunctuation, hdigit]
  have hendText : isPunctuation ";" := by simp [isPunctuation]
  refine ⟨d, rfl, hd, hnext, Head.known_forest hd hspan hlist (.trivia ?_)⟩
  refine .part (by simp) ?_ (.token (.punctuation _ harrowText harrow rfl) ?_)
    (.token (.punctuation _ hendText hsemicolonAt rfl) (.trivia .nil))
  · simp only [Forest.bytes, show "=> ".utf8ByteSize = 3 from rfl]
    omega
  · exact .part (by simp) hsize (.token (.punctuation _ hdigitText hdigitAt rfl) .nil) .nil

/-! ## Statements -/

theorem exists_statedAt {id offset : Nat} {comments : List String} {text : String} {rest : Forest}
    (htext : isAssignment text = true) (hstart : LineStart all offset)
    (hholds : t.Holds .body parent) (hdepth : (t.segments parent).length = depth)
    (hw : (Forest.node .statement none (.trivia (commentLines depth comments)
      (.line depth text .nil)) rest).Within t all ps parent.1 id offset) :
    ∃ s : t.Id, s.1 = id ∧ Stated t all ps depth text s ∧
      LineStart all (offset + (Forest.trivia (commentLines depth comments)
        (.line depth text .nil)).bytes) ∧
      (Forest.trivia (commentLines depth comments) (.line depth text .nil)).Known t all ps s.1
        (s.1 + 1) offset := by
  obtain ⟨⟨s, rfl, _, hnode⟩, hparts, -⟩ := hw.node
  obtain ⟨hlead, hcomments, hparts⟩ := hparts.trivia
  have hmarginPiece := hparts.trivia.1
  have hbreak := hparts.trivia.2.2.token.2.2.trivia.1
  obtain ⟨hline, -⟩ := within_line hparts
  rw [utf8ByteSize_indent] at hmarginPiece hbreak
  have hbytes : offset + (Forest.trivia (commentLines depth comments)
      (.line depth text .nil)).bytes = offset + (commentLines depth comments).utf8ByteSize +
        4 * depth + text.utf8ByteSize + 1 := by
    rw [Forest.bytes, bytes_line, Forest.bytes]
    omega
  have hspan : (t.node s).span = ⟨offset + (commentLines depth comments).utf8ByteSize + 4 * depth,
      offset + (commentLines depth comments).utf8ByteSize + 4 * depth + text.utf8ByteSize⟩ := by
    rw [hnode]
    simp only [Forest.row, Forest.cover, Forest.tokens, Forest.line, utf8ByteSize_indent]
    rfl
  have hfull : (t.node s).fullSpan = ⟨offset, offset + (Forest.trivia (commentLines depth comments)
      (.line depth text .nil)).bytes⟩ := by
    rw [hnode]
    rfl
  have hopens : Opens t all ps depth text false s := by
    constructor
    case line =>
      refine ⟨offset + (commentLines depth comments).utf8ByteSize, ?_,
        lineStart_commentLines hcomments hstart, hline.margin, by rw [hspan]⟩
      rw [hfull]
      exact Nat.le_add_right _ _
    case pos =>
      obtain ⟨name, digit, htoList, -⟩ := exists_of_isAssignment htext
      rw [Text.utf8ByteSize_eq_byteLength, htoList, Text.byteLength_append]
      exact Nat.lt_of_lt_of_le (by decide : 0 < ' '.utf8Size)
        (Nat.le_trans (Nat.le_add_right _ _) (Nat.le_add_left _ _))
    case written =>
      rw [hspan]
      exact hline.code
    case lead =>
      rw [hfull, hspan]
      exact (Piece.fill_of_mem hlead).trans (Piece.fill_of_mem hmarginPiece)
    case piece =>
      rw [hspan]
      exact hline.piece
    case next =>
      rw [hspan]
      exact ⟨'\n', hline.next, fun h => absurd h Bool.false_ne_true⟩
    case behind =>
      rw [hspan]
      exact fun _ => Piece.fill_of_mem hbreak
    case full =>
      rw [hspan, hfull, hbytes]
      dsimp only
      omega
  have hs : Stated t all ps depth text s := by
    refine ⟨hopens, htext, by unfold Tree.kind; rw [hnode]; rfl,
      ⟨parent, Tree.parent?_eq_some_iff.2 (by rw [hnode]; rfl), hholds, hdepth⟩, by rw [hspan]⟩
  refine ⟨s, rfl, hs, ?_, .trivia (known_line (.stated depth text s hs ?_) .nil)⟩
  · rw [hbytes]
    exact lineStart_of_at hline.next
  · rw [hspan]

/-! ## Items -/

/-- Everything that plain items make has a role, if what stands behind them has. -/
theorem Items.known (hbuilt : Tree.ofEvents path symbols events = .ok t)
    {id offset : Nat} {tail : Forest} (items : Items)
    (hplain : items.IsPlain scope)
    (hw : (items.forest depth tail).Within t all ps parent.1 id offset)
    (hinside : Inside t ps scope depth parent offset (offset + items.bytes depth))
    (hstart : LineStart all offset)
    (htail : ∀ id', tail.Known t all ps parent.1 id' (offset + items.bytes depth)) :
    (items.forest depth tail).Known t all ps parent.1 id offset := by
  induction items generalizing scope depth parent id offset tail with
  | nil => exact htail id
  | trailing comments => exact .trivia (htail id)
  | statement comments text rest ih =>
    obtain ⟨rfl, -, htext, hrestPlain⟩ := hplain
    obtain ⟨s, rfl, hs, hnext, hknown⟩ :=
      exists_statedAt htext hstart hinside.holds hinside.length hw
    refine .node (fun i _ hi _ => ?_) hknown
      (ih hrestPlain hw.node.2.2 hinside.rest hnext fun id' => ?_)
    · obtain rfl : i = s := Fin.ext hi
      exact .stated depth text hs
    · rw [Nat.add_assoc]
      exact htail id'
  | block head body rest ihBody ihRest =>
    obtain ⟨hadmits, hheadPlain, hbodyPlain, hrestPlain⟩ := hplain
    obtain ⟨d, w, id', rfl, hblock, hnext⟩ :=
      exists_blockAt hbuilt hheadPlain hadmits hstart hinside.first hw
    have hbody := ihBody hbodyPlain hblock.within hblock.inside hblock.start
      fun _ => hblock.closes.known (Or.inr (Or.inl rfl)) .nil
    refine .node (fun i _ hi _ => ?_) (hblock.known hbody)
      (ihRest hrestPlain hw.node.2.2 hinside.rest hnext fun id' => ?_)
    · obtain rfl : i = d := Fin.ext hi
      exact .declared scope depth head hblock.declared
    · rw [Nat.add_assoc]
      exact htail id'
  | arrow head expression rest ih =>
    obtain ⟨hadmits, hheadPlain, -, hdigit, hrestPlain⟩ := hplain
    obtain ⟨d, rfl, hd, hnext, hknown⟩ :=
      exists_arrowAt hbuilt hheadPlain hadmits hdigit hstart hinside.first hw
    refine .node (fun i _ hi _ => ?_) hknown
      (ih hrestPlain hw.node.2.2 hinside.rest hnext fun id' => ?_)
    · obtain rfl : i = d := Fin.ext hi
      exact .declared scope depth head hd
    · rw [Nat.add_assoc]
      exact htail id'

end Outline
end HotReload
