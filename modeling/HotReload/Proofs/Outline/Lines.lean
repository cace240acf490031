import HotReload.Proofs.Outline.Items
import HotReload.Proofs.Source.Within
import HotReload.Verdict.Classify

/-
  Where the lines of a plain file stand. The forests that `Items.forest` is made of are cut up at
  their place in the tree: what leads a line, the line, its parameters and its braces.
-/

namespace HotReload

open Marked

/-- The bytes from `start` up to `stop` are written straight into the node. -/
def Piece.Fill (ps : List Piece) (owner start stop : Nat) : Prop :=
  ∀ i, start ≤ i → i < stop → ∃ p ∈ ps, p.owner = owner ∧ p.span.start ≤ i ∧ i < p.span.stop

theorem Piece.Fill.trans {ps : List Piece} {owner a b c : Nat} (hab : Fill ps owner a b)
    (hbc : Fill ps owner b c) : Fill ps owner a c := by
  intro i ha hc
  by_cases hb : i < b
  · exact hab i ha hb
  · exact hbc i (Nat.le_of_not_lt hb) hc

theorem Piece.fill_of_mem {ps : List Piece} {owner a b : Nat} {significant : Bool}
    (h : ⟨owner, significant, a, b⟩ ∈ ps) : Fill ps owner a b := by
  intro i ha hb
  exact ⟨_, h, rfl, ha, hb⟩

theorem Marked.lineStart_of_at {all : Marked} {i : Nat} (h : At all i [('\n', false)]) :
    LineStart all (i + 1) := Or.inr ⟨i, rfl, h⟩

namespace Outline

theorem toList_indent (depth : Nat) : (indent depth).toList = List.replicate (4 * depth) ' ' :=
  String.toList_ofList

theorem utf8ByteSize_indent (depth : Nat) : (indent depth).utf8ByteSize = 4 * depth := by
  rw [Text.utf8ByteSize_eq_byteLength, toList_indent]
  induction 4 * depth with
  | zero => rfl
  | succ n ih =>
    rw [List.replicate_succ, Text.byteLength_cons, ih]
    exact Nat.add_comm 1 n

/-- The blanks in front of a line. -/
def margin (depth : Nat) : Marked := trivia (List.replicate (4 * depth) ' ')

theorem width_margin (depth : Nat) : width (margin depth) = 4 * depth := by
  rw [margin, width_trivia, ← toList_indent, ← Text.utf8ByteSize_eq_byteLength, utf8ByteSize_indent]

theorem at_margin {all : Marked} {depth l k : Nat} (h : At all l (margin depth))
    (hk : k < 4 * depth) : At all (l + k) [(' ', false)] := by
  have hmargin : ∀ n, trivia (List.replicate n ' ') = List.replicate n (' ', false) :=
    fun n => List.map_replicate
  have hsplit : margin depth = List.replicate k (' ', false) ++
      ([(' ', false)] ++ List.replicate (4 * depth - (k + 1)) (' ', false)) := by
    rw [margin, hmargin, List.singleton_append, ← List.replicate_succ, List.replicate_append_replicate]
    congr 1
    omega
  have hwidth : width (List.replicate k (' ', false)) = k := by
    clear hk hsplit
    induction k with
    | zero => rfl
    | succ k ih =>
      rw [List.replicate_succ, width_cons, ih]
      exact Nat.add_comm 1 k
  rw [hsplit] at h
  have hright := h.right.left
  rwa [hwidth] at hright

section

variable {t : Tree} {all : Marked} {ps : List Piece} {parent id offset depth : Nat}
  {rest parts : Forest} {h : Head}

/-- Comment lines end where a line starts. -/
theorem lineStart_commentLines {comments : List String} {i : Nat}
    (hat : At all i (trivia (commentLines depth comments).toList)) (hstart : LineStart all i) :
    LineStart all (i + (commentLines depth comments).utf8ByteSize) := by
  induction comments generalizing i with
  | nil => exact hstart
  | cons c comments ih =>
    simp only [commentLines, commentLine, String.toList_append, trivia, List.map_append] at hat
    have hbreak := hat.left.right
    have hnext := ih hat.right (by
      rw [width_append, ← Nat.add_assoc]
      exact lineStart_of_at hbreak)
    rw [commentLines, String.utf8ByteSize_append, ← Nat.add_assoc]
    rw [← List.map_append, ← List.map_append] at hnext
    change LineStart all (i + width (trivia _) + _) at hnext
    rwa [width_trivia, ← String.toList_append, ← String.toList_append,
      ← Text.utf8ByteSize_eq_byteLength] at hnext

theorem bytes_line (text : String) :
    (Forest.line depth text rest).bytes = 4 * depth + text.utf8ByteSize + 1 + rest.bytes := by
  simp only [Forest.line, Forest.bytes, utf8ByteSize_indent]
  have : "\n".utf8ByteSize = 1 := rfl
  omega

/-- A line with a token of its own. -/
structure LineAt (all : Marked) (ps : List Piece) (owner depth i : Nat) (text : String) : Prop where
  margin : At all i (margin depth)
  code : At all (i + 4 * depth) (code text.toList)
  piece : ⟨owner, true, i + 4 * depth, i + 4 * depth + text.utf8ByteSize⟩ ∈ ps
  next : At all (i + 4 * depth + text.utf8ByteSize) [('\n', false)]

theorem within_line {text : String}
    (hw : (Forest.line depth text rest).Within t all ps parent id offset) :
    LineAt all ps parent depth offset text ∧
      rest.Within t all ps parent id (offset + 4 * depth + text.utf8ByteSize + 1) := by
  obtain ⟨-, hmargin, hw⟩ := hw.trivia
  rw [utf8ByteSize_indent] at hw
  obtain ⟨hpiece, hcode, hw⟩ := hw.token
  obtain ⟨-, hbreak, hw⟩ := hw.trivia
  rw [toList_indent] at hmargin
  exact ⟨⟨hmargin, hcode, hpiece, hbreak⟩, hw⟩

namespace Head

/-- The text of the parameter list. -/
def parameterText : Head → String
  | method _ _ _ parameters => "(" ++ parameters ++ ")"
  | _ => ""

/-- The number of nodes of the parameter list. -/
def listed : Head → Nat
  | method .. => 1
  | _ => 0

theorem within_lead (hw : (h.lead depth rest).Within t all ps parent id offset)
    (hstart : LineStart all offset) :
    Piece.Fill ps parent offset (offset + (commentLines depth h.comments).utf8ByteSize) ∧
      LineStart all (offset + (commentLines depth h.comments).utf8ByteSize) ∧
      rest.Within t all ps parent id
        (offset + (commentLines depth h.comments).utf8ByteSize) := by
  cases h with
  | type comments name | method comments returns name parameters
  | property comments returns name =>
    obtain ⟨hpiece, hcomments, hw⟩ := Forest.Within.trivia hw
    exact ⟨Piece.fill_of_mem hpiece, lineStart_commentLines hcomments hstart, hw⟩
  | getter | setter =>
    exact ⟨fun i hle hlt => absurd hle (Nat.not_le_of_lt hlt), hstart, hw⟩

theorem within_parameters (hw : (h.parameters rest).Within t all ps parent id offset) :
    At all offset (code h.parameterText.toList) ∧
      rest.Within t all ps parent (id + h.listed) (offset + h.parameterText.utf8ByteSize) := by
  cases h with
  | method comments returns name parameters =>
    obtain ⟨-, hlist, hw⟩ := Forest.Within.node hw
    exact ⟨hlist.token.2.1, hw⟩
  | type _ _ | property _ _ _ | getter | setter =>
    refine ⟨?_, hw⟩
    obtain ⟨before, behind, hall, hwidth⟩ := hw.marks
    exact ⟨before, rest.marks ++ behind, by rw [hall]; simp [parameterText, parameters, code], hwidth⟩

theorem bytes_forest :
    (h.forest depth rest).bytes = (commentLines depth h.comments).utf8ByteSize + 4 * depth +
      h.text.utf8ByteSize + h.parameterText.utf8ByteSize + rest.bytes := by
  cases h <;> simp only [forest, lead, comments, commentLines, parameters, parameterText,
    Forest.bytes, utf8ByteSize_indent, String.utf8ByteSize_empty] <;> omega

theorem bytes_wrap : (h.wrap parts).bytes = parts.bytes := by
  cases h <;> rfl

theorem bytes_blockForest :
    (h.blockForest depth rest).bytes = (commentLines depth h.comments).utf8ByteSize + 4 * depth +
      h.text.utf8ByteSize + h.parameterText.utf8ByteSize + 1 + (4 * depth + 2) + rest.bytes := by
  have hbrace : "\x7b".utf8ByteSize = 1 := rfl
  have hbreak : "\n".utf8ByteSize = 1 := rfl
  rw [blockForest, bytes_forest, Forest.bytes, bytes_wrap, bytes_line]
  omega

theorem bytes_arrowForest (expression : String) :
    (h.arrowForest depth expression).bytes = (commentLines depth h.comments).utf8ByteSize +
      4 * depth + h.text.utf8ByteSize + h.parameterText.utf8ByteSize + 1 +
      (3 + expression.utf8ByteSize) + 2 := by
  have hblank : " ".utf8ByteSize = 1 := rfl
  have harrow : "=> ".utf8ByteSize = 3 := rfl
  have hend : ";".utf8ByteSize = 1 := rfl
  have hbreak : "\n".utf8ByteSize = 1 := rfl
  rw [arrowForest, bytes_forest]
  simp only [Forest.bytes]
  omega

theorem tokens_forest (start : Nat) :
    (h.forest depth rest).tokens start =
      ⟨start + (commentLines depth h.comments).utf8ByteSize + 4 * depth,
        start + (commentLines depth h.comments).utf8ByteSize + 4 * depth + h.text.utf8ByteSize⟩ ::
      (h.parameters rest).tokens
        (start + (commentLines depth h.comments).utf8ByteSize + 4 * depth + h.text.utf8ByteSize) := by
  cases h <;> simp only [forest, lead, comments, commentLines, Forest.tokens, utf8ByteSize_indent,
    String.utf8ByteSize_empty, Nat.add_zero]

/-- Braces are parts of a type or a property, and stand in a block of everything else. -/
inductive Braces (t : Tree) (h : Head) (d : t.Id) (w : t.Id) : Prop where
  | own (heq : w = d) (hscope : h.scope ≠ .body)
  | block (hparent : t.parent? w = some d) (hkind : t.kind w = .block) (hscope : h.scope = .body)

end Head

namespace Items

/-- The number of bytes of items. -/
def bytes (depth : Nat) (items : Items) : Nat := (items.forest depth .nil).bytes

theorem bytes_forest (items : Items) (depth : Nat) (tail : Forest) :
    (items.forest depth tail).bytes = items.bytes depth + tail.bytes := by
  unfold bytes
  induction items with
  | nil => simp [forest, Forest.bytes]
  | trailing comments => simp [forest, Forest.bytes]
  | statement comments text rest ih => simp only [forest, Forest.bytes, ih, Nat.add_assoc]
  | block head body rest _ ih => simp only [forest, Forest.bytes, ih, Nat.add_assoc]
  | arrow head expression rest ih => simp only [forest, Forest.bytes, ih, Nat.add_assoc]

/-- What ends the items stands behind them. -/
theorem within_tail (items : Items) {tail : Forest}
    (hw : (items.forest depth tail).Within t all ps parent id offset) :
    ∃ id', tail.Within t all ps parent id' (offset + items.bytes depth) := by
  unfold bytes
  induction items generalizing id offset with
  | nil => exact ⟨id, hw⟩
  | trailing comments => exact ⟨id, hw.trivia.2.2⟩
  | statement comments text rest ih =>
    obtain ⟨id', hw⟩ := ih hw.node.2.2
    rw [Nat.add_assoc] at hw
    exact ⟨id', hw⟩
  | block head body rest _ ih =>
    obtain ⟨id', hw⟩ := ih hw.node.2.2
    rw [Nat.add_assoc] at hw
    exact ⟨id', hw⟩
  | arrow head expression rest ih =>
    obtain ⟨id', hw⟩ := ih hw.node.2.2
    rw [Nat.add_assoc] at hw
    exact ⟨id', hw⟩

end Items

end

end Outline
end HotReload
