import HotReload.Proofs.Outline.Lines

/-
  What the nodes of a plain file are. A node is a declaration, a statement or a part of one
  (`NodeRole`), and of declarations and statements it is known where their lines stand, what is
  written straight into them and what stands around them (`Declared`, `Stated`). All of it is one
  induction on the items of the file (`Items.Builds.role`), with the node around the items as parameter
  (`Inside`).
-/

namespace HotReload

open Marked

namespace Tree

variable (t : Tree)

/-- The body of a method or an accessor that can be patched. -/
def isMemberBody (body : t.Id) : Bool := (t.kind body).isBody && (t.ownerOfBody? body).isSome

/-- The node holds items of a scope. -/
def Holds (scope : Outline.Scope) (p : t.Id) : Prop :=
  match scope with
  | .file => p.1 = 0
  | .type => t.kind p = .typeDecl
  | .property => t.kind p = .property ∧ t.isMember p = true
  | .body => t.kind p = .block ∧
    ∃ b, t.isMemberBody b = true ∧ b.1 ≤ p.1 ∧ p.1 < (t.node b).subtreeEnd

end Tree

namespace Outline

variable {t : Tree} {all : Marked} {ps : List Piece}

/-- The node around items from `start` to `stop`: its path has a segment for each level of depth, and
it has tokens in front of the items and behind them, unless it is the root. -/
structure Inside (t : Tree) (ps : List Piece) (scope : Scope) (depth : Nat) (parent : t.Id)
    (start stop : Nat) : Prop where
  holds : t.Holds scope parent
  length : (t.segments parent).length = depth
  before : parent.1 = 0 ∨ ∃ a b, ⟨parent.1, true, a, b⟩ ∈ ps ∧ a < b ∧ b ≤ start
  behind : parent.1 = 0 ∨ ∃ a b, ⟨parent.1, true, a, b⟩ ∈ ps ∧ a < b ∧ stop ≤ a

theorem Inside.mono {scope : Scope} {depth : Nat} {parent : t.Id} {start stop start' stop' : Nat}
    (h : Inside t ps scope depth parent start stop) (hstart : start ≤ start')
    (hstop : stop' ≤ stop) : Inside t ps scope depth parent start' stop' where
  holds := h.holds
  length := h.length
  before := h.before.imp_right fun ⟨a, b, hp, hab, hb⟩ => ⟨a, b, hp, hab, Nat.le_trans hb hstart⟩
  behind := h.behind.imp_right fun ⟨a, b, hp, hab, ha⟩ => ⟨a, b, hp, hab, Nat.le_trans hstop ha⟩

/-- Parameters follow the name. -/
def Head.hasList : Head → Bool
  | .method .. => true
  | _ => false

/-- A node with a line of its own. Comment lines and the blanks of its depth lead its text. Right
behind the text stands the list of parameters, if there is one, and trivia of the node otherwise. -/
structure Opens (t : Tree) (all : Marked) (ps : List Piece) (depth : Nat) (text : String)
    (list : Bool) (i : t.Id) : Prop where
  line : ∃ l, (t.node i).fullSpan.start ≤ l ∧ LineStart all l ∧ At all l (margin depth) ∧
    l + 4 * depth = (t.node i).span.start
  pos : 0 < text.utf8ByteSize
  written : At all (t.node i).span.start (code text.toList)
  lead : Piece.Fill ps i (t.node i).fullSpan.start (t.node i).span.start
  piece : ⟨i, true, (t.node i).span.start, (t.node i).span.start + text.utf8ByteSize⟩ ∈ ps
  next : ∃ c, At all ((t.node i).span.start + text.utf8ByteSize) [(c, list)] ∧
    (list = true → c = '(')
  behind : list = false → Piece.Fill ps i ((t.node i).span.start + text.utf8ByteSize)
    ((t.node i).span.start + text.utf8ByteSize + 1)
  full : (t.node i).span.start < (t.node i).fullSpan.stop

section

variable {depth : Nat} {text : String} {list : Bool} {i : t.Id}

theorem Opens.full_start_le (h : Opens t all ps depth text list i) :
    (t.node i).fullSpan.start ≤ (t.node i).span.start := by
  obtain ⟨l, hl, -, -, hspan⟩ := h.line
  omega

theorem Opens.full_pos (h : Opens t all ps depth text list i) :
    (t.node i).fullSpan.start < (t.node i).fullSpan.stop :=
  Nat.lt_of_le_of_lt h.full_start_le h.full

/-- Up to its end, the text is written straight into the node. -/
theorem Opens.fill (h : Opens t all ps depth text list i) : Piece.Fill ps i
    (t.node i).fullSpan.start ((t.node i).span.start + text.utf8ByteSize) :=
  h.lead.trans (Piece.fill_of_mem h.piece)

end

/-- A declaration and its line. -/
structure Declared (t : Tree) (all : Marked) (ps : List Piece) (scope : Scope) (depth : Nat)
    (h : Head) (d : t.Id) : Prop extends Opens t all ps depth h.text h.hasList d where
  plain : h.IsPlain
  admits : scope.admits h = true
  kind : t.kind d = h.kind
  name : (t.node d).name = h.name
  inside : ∃ p, t.parent? d = some p ∧
    Inside t ps scope depth p (t.node d).fullSpan.start (t.node d).fullSpan.stop
  later : ∃ w a b, d.1 ≤ w ∧ w < (t.node d).subtreeEnd ∧ ⟨w, true, a, b⟩ ∈ ps ∧
    (t.node d).span.start + h.text.utf8ByteSize ≤ a ∧ a < b

/-- A statement and its line. -/
structure Stated (t : Tree) (all : Marked) (ps : List Piece) (depth : Nat) (text : String)
    (s : t.Id) : Prop extends Opens t all ps depth text false s where
  plain : isAssignment text = true
  kind : t.kind s = .statement
  inside : ∃ p, t.parent? s = some p ∧ t.Holds .body p ∧ (t.segments p).length = depth
  stop : (t.node s).span.stop = (t.node s).span.start + text.utf8ByteSize

/-- What a node of a plain file is. -/
inductive NodeRole (t : Tree) (all : Marked) (ps : List Piece) (i : t.Id) : Prop where
  | declared (scope : Scope) (depth : Nat) (h : Head) (hd : Declared t all ps scope depth h i)
  | stated (depth : Nat) (text : String) (hs : Stated t all ps depth text i)
  | part (hkind : t.kind i = .parameterList ∨ t.kind i = .block ∨ t.kind i = .arrowClause ∨
        t.kind i = .expression)
      (hfull : (t.node i).fullSpan.start < (t.node i).fullSpan.stop)

/-- Code between names: braces, arrows, ends of lines, digits and parameters. -/
def isPunctuation (text : String) : Prop :=
  text = "\x7b" ∨ text = "\x7d" ∨ text = ";" ∨ text = "=> " ∨ isDigit text = true ∨
    ∃ name, text = "(" ++ name ++ ")" ∧ (name = "" ∨ isName name = true)

/-- What a significant piece of a plain file is. -/
inductive PieceRole (t : Tree) (all : Marked) (ps : List Piece) (p : Piece) : Prop where
  | head (scope : Scope) (depth : Nat) (h : Head) (d : t.Id)
      (hd : Declared t all ps scope depth h d)
      (heq : p = ⟨d, true, (t.node d).span.start, (t.node d).span.start + h.text.utf8ByteSize⟩)
  | stated (depth : Nat) (text : String) (s : t.Id) (hs : Stated t all ps depth text s)
      (heq : p = ⟨s, true, (t.node s).span.start, (t.node s).span.start + text.utf8ByteSize⟩)
  | punctuation (text : String) (htext : isPunctuation text)
      (hat : At all p.span.start (code text.toList))
      (hstop : p.span.stop = p.span.start + text.utf8ByteSize)

theorem Head.pathSegment?_eq {h : Head} {n : Node} (hkind : n.kind = h.kind)
    (hname : n.name = h.name) : n.pathSegment? = some h.segment := by
  unfold Node.pathSegment?
  rw [hkind, hname]
  cases h <;> rfl

theorem utf8ByteSize_text_pos (h : Head) : 0 < h.text.utf8ByteSize := by
  have hblank : " ".utf8ByteSize = 1 := rfl
  have hclass : "class ".utf8ByteSize = 6 := rfl
  cases h <;> simp only [Head.text, String.utf8ByteSize_append]
  · omega
  · omega
  · omega
  · decide
  · decide

section

variable {path : String} {symbols : Symbols} {events : List Event} {scope : Scope} {depth : Nat}
  {h : Head} {parent d w : t.Id}

theorem Declared.length (hd : Declared t all ps scope depth h d) :
    (t.segments d).length = depth + 1 := by
  obtain ⟨p, hp, hinside⟩ := hd.inside
  rw [Tree.segments_of_parent? hp, Head.pathSegment?_eq hd.kind hd.name, List.length_append,
    hinside.length]
  rfl

/-- Braces stand at their declaration or below it. -/
theorem Head.Braces.below (hbuilt : Tree.ofEvents path symbols events = .ok t)
    (hw : Head.Braces t h d w) : d.1 ≤ w.1 ∧ w.1 < (t.node d).subtreeEnd := by
  cases hw with
  | own heq _ =>
    rw [heq]
    exact ⟨Nat.le_refl _, (Tree.lt_subtreeEnd hbuilt d).1⟩
  | block hparent _ _ =>
    obtain ⟨hlt, hend⟩ := Tree.below_of_parent? hbuilt hparent (Nat.le_refl _)
      (Tree.lt_subtreeEnd hbuilt d).1
    exact ⟨Nat.le_of_lt hlt, hend⟩

/-- Braces have the path of their declaration. -/
theorem Head.Braces.segments_eq (hw : Head.Braces t h d w) : t.segments w = t.segments d := by
  cases hw with
  | own heq _ => rw [heq]
  | block hparent hkind _ =>
    have hnone : (t.node w).pathSegment? = none := by
      unfold Node.pathSegment?
      rw [show (t.node w).kind = .block from hkind]
      rfl
    rw [Tree.segments_of_parent? hparent, hnone]
    simp

/-- Braces hold what their declaration opens. -/
theorem Head.Braces.holds (hbuilt : Tree.ofEvents path symbols events = .ok t)
    (hw : Head.Braces t h d w) (hkind : t.kind d = h.kind) (hadmits : scope.admits h = true)
    (hparent : t.parent? d = some parent) (hholds : t.Holds scope parent) :
    t.Holds h.scope w := by
  have hbelow := hw.below hbuilt
  cases hw with
  | own heq hscope =>
    subst heq
    cases h with
    | type _ _ => exact hkind
    | property _ _ _ =>
      cases scope with
      | type =>
        refine ⟨hkind, ?_⟩
        unfold Tree.isMember
        rw [hparent, Option.any_some]
        exact decide_eq_true hholds
      | file | property | body => exact absurd hadmits Bool.false_ne_true
    | method _ _ _ _ | getter | setter => exact absurd rfl hscope
  | block hbrace hblock hscope =>
    rw [hscope]
    refine ⟨hblock, ?_⟩
    -- the block is a body of a member by itself, or it stands in one
    have hself : ∀ target owner, t.ownerOfBody? w = some (owner, target) →
        ∃ b, t.isMemberBody b = true ∧ b.1 ≤ w.1 ∧ w.1 < (t.node b).subtreeEnd := by
      intro target owner howner
      refine ⟨w, ?_, Nat.le_refl _, (Tree.lt_subtreeEnd hbuilt w).1⟩
      unfold Tree.isMemberBody
      rw [hblock, howner]
      rfl
    cases h with
    | type _ _ | property _ _ _ => cases hscope
    | method _ _ _ _ =>
      cases scope with
      | file | property => exact absurd hadmits Bool.false_ne_true
      | type =>
        apply hself .method d
        unfold Tree.ownerOfBody? Tree.isMember
        simp only [hbrace, hkind, kind, hparent, Option.any_some, Option.bind_eq_bind,
          Option.bind_some]
        rw [if_pos (decide_eq_true (show t.kind parent = .typeDecl from hholds))]
      | body =>
        obtain ⟨-, b, hb, hle, hlt⟩ := hholds
        obtain ⟨hle', hlt'⟩ := Tree.below_of_parent? hbuilt hparent hle hlt
        obtain ⟨hle'', hlt''⟩ := Tree.below_of_parent? hbuilt hbrace (Nat.le_of_lt hle') hlt'
        exact ⟨b, hb, Nat.le_of_lt hle'', hlt''⟩
    | getter | setter =>
      cases scope with
      | file | type | body => exact absurd hadmits Bool.false_ne_true
      | property =>
        have howner : ∃ a, t.ownerOfBody? w = some (parent, .accessor a) := by
          unfold Tree.ownerOfBody?
          simp only [hbrace, hkind, kind, hparent, hholds.1, hholds.2, Accessor.isGetOrSet,
            Option.bind_eq_bind, Option.bind_some, if_true, decide_true, Bool.and_self]
          exact ⟨_, rfl⟩
        obtain ⟨a, howner⟩ := howner
        exact hself _ _ howner

/-- Behind a name stands the list of parameters or the separator. -/
theorem Head.exists_next {q : Nat} {separator : String} {c : Char}
    (hseparator : separator.toList = [c]) (hlist : At all q (code h.parameterText.toList))
    (hbreak : At all (q + h.parameterText.utf8ByteSize) (Marked.trivia separator.toList)) :
    ∃ c, At all q [(c, h.hasList)] ∧ (h.hasList = true → c = '(') := by
  cases h with
  | method comments returns name parameters =>
    simp only [Head.parameterText, String.toList_append, code, List.map_append] at hlist
    exact ⟨'(', hlist.left.left, fun _ => rfl⟩
  | type _ _ | property _ _ _ | getter | setter =>
    rw [hseparator] at hbreak
    exact ⟨c, hbreak, fun h => absurd h Bool.false_ne_true⟩

/-- Without parameters, the separator is written straight into the declaration. -/
theorem Head.fill_behind {q i : Nat} {separator : String} {c : Char}
    (hseparator : separator.toList = [c])
    (hbreak : ⟨i, false, q + h.parameterText.utf8ByteSize,
      q + h.parameterText.utf8ByteSize + separator.utf8ByteSize⟩ ∈ ps) :
    h.hasList = false → Piece.Fill ps i q (q + 1) := by
  have hfill := Piece.fill_of_mem hbreak
  rw [Text.utf8ByteSize_eq_byteLength separator, hseparator] at hfill
  cases h with
  | method comments returns name parameters => exact fun h => absurd h.symm Bool.false_ne_true
  | type _ _ | property _ _ _ | getter | setter =>
    intro _ j hj hj'
    have hsize : q + 1 ≤ q + Text.byteLength [c] := by
      have := c.utf8Size_pos
      rw [Text.byteLength_cons]
      omega
    exact hfill j hj (Nat.lt_of_lt_of_le hj' hsize)

/-- What opens a declaration makes it one, once there is code behind its name. -/
theorem Head.declared_of_within {id offset : Nat} {separator : String} {c : Char}
    (hseparator : separator.toList = [c]) {inner rest : Forest} (hplain : h.IsPlain)
    (hadmits : scope.admits h = true) (hstart : LineStart all offset)
    (hinside : Inside t ps scope depth parent offset
      (offset + (h.forest depth (.trivia separator inner)).bytes))
    (hw : (Forest.node h.kind h.name (h.forest depth (.trivia separator inner)) rest).Within t all
      ps parent.1 id offset) :
    ∃ d : t.Id, d.1 = id ∧ t.parent? d = some parent ∧ t.kind d = h.kind ∧
      (t.node d).span.start = offset + (commentLines depth h.comments).utf8ByteSize + 4 * depth ∧
      At all ((t.node d).span.start + h.text.utf8ByteSize) (code h.parameterText.toList) ∧
      inner.Within t all ps d.1 (id + 1 + h.listed) ((t.node d).span.start + h.text.utf8ByteSize +
        h.parameterText.utf8ByteSize + separator.utf8ByteSize) ∧
      rest.Within t all ps parent.1 (id + 1 + (h.forest depth (.trivia separator inner)).size)
        (offset + (h.forest depth (.trivia separator inner)).bytes) ∧
      ((∃ w a b, d.1 ≤ w ∧ w < (t.node d).subtreeEnd ∧ ⟨w, true, a, b⟩ ∈ ps ∧
          (t.node d).span.start + h.text.utf8ByteSize ≤ a ∧ a < b) →
        Declared t all ps scope depth h d) := by
  obtain ⟨⟨d, rfl, _, hnode⟩, hparts, hrest⟩ := hw.node
  obtain ⟨hlead, hline, hparts⟩ := Head.within_lead hparts hstart
  obtain ⟨hindent, hmargin, hparts⟩ := hparts.trivia
  rw [utf8ByteSize_indent] at hindent hparts
  obtain ⟨hpiece, htext, hparts⟩ := hparts.token
  obtain ⟨hlist, hparts⟩ := Head.within_parameters hparts
  obtain ⟨hbreak, hbreakAt, hinner⟩ := hparts.trivia
  have hparent : t.parent? d = some parent := Tree.parent?_eq_some_iff.2 (by rw [hnode]; rfl)
  have hkind : t.kind d = h.kind := by
    unfold Tree.kind
    rw [hnode]
    rfl
  have hspan : (t.node d).span.start =
      offset + (commentLines depth h.comments).utf8ByteSize + 4 * depth := by
    rw [hnode]
    simp only [Forest.row, Forest.cover, Head.tokens_forest]
    rfl
  have hfull : (t.node d).fullSpan =
      ⟨offset, offset + (h.forest depth (.trivia separator inner)).bytes⟩ := by
    rw [hnode]
    rfl
  rw [← hspan] at htext hpiece hlist hbreak hbreakAt hinner
  refine ⟨d, rfl, hparent, hkind, hspan, hlist, hinner, hrest,
    fun hlater => ?_⟩
  rw [toList_indent] at hmargin
  have hopens : Opens t all ps depth h.text h.hasList d := by
    constructor
    case line =>
      refine ⟨offset + (commentLines depth h.comments).utf8ByteSize, ?_, hline, hmargin, hspan.symm⟩
      rw [hfull]
      exact Nat.le_add_right _ _
    case pos => exact utf8ByteSize_text_pos h
    case written => exact htext
    case lead =>
      rw [hfull, hspan]
      exact hlead.trans (Piece.fill_of_mem hindent)
    case piece => exact hpiece
    case next => exact Head.exists_next hseparator hlist hbreakAt
    case behind => exact Head.fill_behind hseparator hbreak
    case full =>
      rw [hfull, hspan, Head.bytes_forest]
      have := utf8ByteSize_text_pos h
      dsimp only
      omega
  exact ⟨hopens, hplain, hadmits, hkind, by rw [hnode]; rfl,
    ⟨parent, hparent, by rw [hfull]; exact hinside⟩, hlater⟩

end

end Outline
end HotReload
