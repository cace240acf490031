import HotReload.Proofs.Outline.Roles

/-
  How the lines of a plain file are spelled. A line that opens a declaration and a statement both
  start with a name and hold no parenthesis, and no other code of such a file starts with one
  (`first_of_isPunctuation`). The text of a declaration tells its kind and its name, once it is known
  whether parameters follow (`Head.eq_of_text_eq`). No statement reads like a declaration
  (`Head.text_ne`), and none goes on from the name of a method (`Head.not_prefix`).
-/

namespace HotReload.Outline

/-! ## Names -/

theorem exists_of_isName {text : String} (h : isName text = true) :
    ∃ c rest, text.toList = c :: rest ∧ isNameStart c = true ∧
      (∀ x ∈ text.toList, isNameChar x = true) ∧ text ≠ "class" := by
  unfold isName at h
  split at h
  · simp at h
  next c rest htext =>
    simp only [Bool.and_eq_true, decide_eq_true_eq] at h
    obtain ⟨⟨hstart, hrest⟩, hclass⟩ := h
    refine ⟨c, rest, htext, hstart, ?_, hclass⟩
    rw [htext, List.forall_mem_cons]
    unfold isNameStart at hstart
    rw [Bool.and_eq_true] at hstart
    exact ⟨hstart.1, List.all_eq_true.1 hrest⟩

theorem notMem_of_isName {text : String} (h : isName text = true) {c : Char}
    (hc : isNameChar c = false) : c ∉ text.toList := by
  obtain ⟨-, -, -, -, hall, -⟩ := exists_of_isName h
  intro hmem
  rw [hall c hmem] at hc
  exact absurd hc.symm Bool.false_ne_true

/-- A text is cut at its first blank in one way. -/
theorem append_blank_inj {a b x y : List Char} (ha : ' ' ∉ a) (hb : ' ' ∉ b)
    (h : a ++ ' ' :: x = b ++ ' ' :: y) : a = b ∧ x = y := by
  induction a generalizing b with
  | nil =>
    cases b with
    | nil => exact ⟨rfl, (List.cons.inj h).2⟩
    | cons d b =>
      obtain ⟨rfl, -⟩ := List.cons.inj h
      exact absurd List.mem_cons_self hb
  | cons c a ih =>
    cases b with
    | nil =>
      obtain ⟨rfl, -⟩ := List.cons.inj h
      exact absurd List.mem_cons_self ha
    | cons d b =>
      obtain ⟨rfl, htail⟩ := List.cons.inj h
      obtain ⟨rfl, hxy⟩ := ih (fun hc => ha (List.mem_cons_of_mem _ hc))
        (fun hd => hb (List.mem_cons_of_mem _ hd)) htail
      exact ⟨rfl, hxy⟩

/-! ## Statements -/

theorem notMem_of_isAssignment {text : String} (h : isAssignment text = true) :
    '(' ∉ text.toList ∧ '=' ∈ text.toList := by
  obtain ⟨name, digit, htext, hdigit, hname⟩ := exists_of_isAssignment h
  have hparen := notMem_of_isName hname (c := '(') (by decide)
  rw [String.toList_ofList] at hparen
  have hdigit' : '(' ≠ digit := by
    rintro rfl
    exact absurd hdigit (by decide)
  rw [htext]
  refine ⟨?_, by simp⟩
  simp [hparen, hdigit']

theorem first_of_isAssignment {text : String} (h : isAssignment text = true) :
    ∃ c rest, text.toList = c :: rest ∧ isNameStart c = true := by
  obtain ⟨name, digit, htext, -, hname⟩ := exists_of_isAssignment h
  obtain ⟨c, rest, hname, hstart, -⟩ := exists_of_isName hname
  rw [String.toList_ofList] at hname
  exact ⟨c, rest ++ [' ', '=', ' ', digit, ';'], by rw [htext, hname]; rfl, hstart⟩

theorem first_of_isPunctuation {text : String} (h : isPunctuation text) {c : Char}
    {rest : List Char} (htext : text.toList = c :: rest) : isNameStart c = false := by
  rcases h with rfl | rfl | rfl | rfl | hdigit | ⟨name, rfl, -⟩
  · obtain ⟨rfl, -⟩ := List.cons.inj htext
    decide
  · obtain ⟨rfl, -⟩ := List.cons.inj htext
    decide
  · obtain ⟨rfl, -⟩ := List.cons.inj htext
    decide
  · obtain ⟨rfl, -⟩ := List.cons.inj htext
    decide
  · obtain ⟨d, hd, hdigit⟩ := exists_of_isDigit hdigit
    obtain ⟨rfl, -⟩ := List.cons.inj (htext.symm.trans hd)
    simp [isNameStart, hdigit]
  · rw [String.toList_append, String.toList_append] at htext
    obtain ⟨rfl, -⟩ := List.cons.inj htext
    decide

/-! ## Declarations -/

namespace Head

variable {h h' : Head}

/-- What stands in front of the name of a declaration, and the name. An accessor is one word. -/
def words : Head → Option (String × String)
  | type _ name => some ("class", name)
  | method _ returns name _ | property _ returns name => some (returns, name)
  | getter | setter => none

theorem toList_text {a b : String} (hwords : h.words = some (a, b)) :
    h.text.toList = a.toList ++ ' ' :: b.toList := by
  cases h with
  | type _ name =>
    obtain ⟨rfl, rfl⟩ := Prod.mk.inj (Option.some.inj hwords)
    rw [text, String.toList_append]
    rfl
  | method _ returns name _ | property _ returns name =>
    obtain ⟨rfl, rfl⟩ := Prod.mk.inj (Option.some.inj hwords)
    rw [text, String.toList_append, String.toList_append, List.append_assoc]
    rfl
  | getter | setter => simp [words] at hwords

/-- Both words are made of the characters of names, and start with one that can start a name. -/
theorem isName_words (hplain : h.IsPlain) {a b : String} (hwords : h.words = some (a, b)) :
    (a = "class" ∨ isName a = true) ∧ isName b = true := by
  cases h with
  | type _ name =>
    obtain ⟨rfl, rfl⟩ := Prod.mk.inj (Option.some.inj hwords)
    exact ⟨Or.inl rfl, hplain.2⟩
  | method _ returns name _ =>
    obtain ⟨rfl, rfl⟩ := Prod.mk.inj (Option.some.inj hwords)
    exact ⟨Or.inr hplain.2.1, hplain.2.2.1⟩
  | property _ returns name =>
    obtain ⟨rfl, rfl⟩ := Prod.mk.inj (Option.some.inj hwords)
    exact ⟨Or.inr hplain.2.1, hplain.2.2⟩
  | getter | setter => simp [words] at hwords

/-- The text of an accessor is one of two words. -/
theorem text_of_words (hwords : h.words = none) : h.text = "get" ∨ h.text = "set" := by
  cases h <;> simp_all [words, text]

theorem isNameChar_of_first {a : String} (ha : a = "class" ∨ isName a = true) :
    (∃ c rest, a.toList = c :: rest ∧ isNameStart c = true) ∧
      ∀ x ∈ a.toList, isNameChar x = true := by
  rcases ha with rfl | ha
  · exact ⟨⟨'c', ['l', 'a', 's', 's'], rfl, by decide⟩,
      List.all_eq_true.1 (by decide : "class".toList.all isNameChar = true)⟩
  · obtain ⟨c, rest, htext, hstart, hall, -⟩ := exists_of_isName ha
    exact ⟨⟨c, rest, htext, hstart⟩, hall⟩

/-- A declaration is spelled with the characters of names and blanks. -/
theorem mem_text (hplain : h.IsPlain) {c : Char} (hc : c ∈ h.text.toList) :
    isNameChar c = true ∨ c = ' ' := by
  cases hwords : h.words with
  | none =>
    refine Or.inl ?_
    rcases text_of_words hwords with heq | heq
    · rw [heq] at hc
      exact List.all_eq_true.1 (by decide : "get".toList.all isNameChar = true) c hc
    · rw [heq] at hc
      exact List.all_eq_true.1 (by decide : "set".toList.all isNameChar = true) c hc
  | some words =>
    obtain ⟨a, b⟩ := words
    obtain ⟨ha, hb⟩ := isName_words hplain hwords
    rw [toList_text hwords, List.mem_append, List.mem_cons] at hc
    rcases hc with hc | rfl | hc
    · exact Or.inl ((isNameChar_of_first ha).2 c hc)
    · exact Or.inr rfl
    · exact Or.inl ((isNameChar_of_first (Or.inr hb)).2 c hc)

theorem exists_first (hplain : h.IsPlain) :
    ∃ c rest, h.text.toList = c :: rest ∧ isNameStart c = true := by
  cases hwords : h.words with
  | none =>
    rcases text_of_words hwords with heq | heq
    · exact ⟨'g', ['e', 't'], by rw [heq]; rfl, by decide⟩
    · exact ⟨'s', ['e', 't'], by rw [heq]; rfl, by decide⟩
  | some words =>
    obtain ⟨a, b⟩ := words
    obtain ⟨⟨c, rest, ha, hstart⟩, -⟩ := isNameChar_of_first (isName_words hplain hwords).1
    exact ⟨c, rest ++ ' ' :: b.toList, by rw [toList_text hwords, ha]; rfl, hstart⟩

/-- No statement reads like a declaration. -/
theorem text_ne (hplain : h.IsPlain) {text : String} (htext : isAssignment text = true) :
    h.text ≠ text := by
  rintro rfl
  rcases mem_text hplain (notMem_of_isAssignment htext).2 with hc | hc
  · exact absurd hc (by decide)
  · exact absurd hc (by decide)

/-- A statement has no name of its own behind its first blank, so it does not go on from two
words. -/
theorem not_prefix (hplain : h.IsPlain) (hlist : h.hasList = true) {text : String}
    (htext : isAssignment text = true) : ¬h.text.toList <+: text.toList := by
  rintro ⟨rest, hrest⟩
  obtain ⟨name, digit, htext, -, hname⟩ := exists_of_isAssignment htext
  have hwords : ∃ a b, h.words = some (a, b) := by
    cases h with
    | method _ returns name _ => exact ⟨_, _, rfl⟩
    | type _ _ | property _ _ _ | getter | setter => exact absurd hlist Bool.false_ne_true
  obtain ⟨a, b, hwords⟩ := hwords
  obtain ⟨ha, hb⟩ := isName_words hplain hwords
  have hblank : ' ' ∉ a.toList := fun hc =>
    absurd ((isNameChar_of_first ha).2 _ hc) (by decide)
  have hblank' := notMem_of_isName hname (c := ' ') (by decide)
  rw [String.toList_ofList] at hblank'
  rw [toList_text hwords, htext, List.append_assoc, List.cons_append] at hrest
  obtain ⟨-, hbehind⟩ := append_blank_inj hblank hblank' hrest
  obtain ⟨c, cs, hc, hstart, -⟩ := exists_of_isName hb
  rw [hc] at hbehind
  obtain ⟨rfl, -⟩ := List.cons.inj hbehind
  exact absurd hstart (by decide)

theorem words_eq (hplain : h.IsPlain) (hplain' : h'.IsPlain) (htext : h.text = h'.text) :
    h.words = h'.words := by
  have hblank : ∀ {g : Head}, g.words = none → ' ' ∉ g.text.toList := by
    intro g hg
    rcases text_of_words hg with heq | heq
    · rw [heq]
      decide
    · rw [heq]
      decide
  cases hwords : h.words with
  | none =>
    cases hwords' : h'.words with
    | none => rfl
    | some words' =>
      have hmem : ' ' ∈ h'.text.toList := by
        rw [toList_text hwords']
        simp
      exact absurd (htext ▸ hmem) (hblank hwords)
  | some words =>
    cases hwords' : h'.words with
    | none =>
      have hmem : ' ' ∈ h.text.toList := by
        rw [toList_text hwords]
        simp
      exact absurd (htext ▸ hmem) (hblank hwords')
    | some words' =>
      obtain ⟨a, b⟩ := words
      obtain ⟨a', b'⟩ := words'
      have hnone : ∀ {a : String}, a = "class" ∨ isName a = true → ' ' ∉ a.toList := fun ha hc =>
        absurd ((isNameChar_of_first ha).2 _ hc) (by decide)
      have hlist := congrArg String.toList htext
      rw [toList_text hwords, toList_text hwords'] at hlist
      obtain ⟨ha, hb⟩ := append_blank_inj (hnone (isName_words hplain hwords).1)
        (hnone (isName_words hplain' hwords').1) hlist
      rw [String.toList_inj.1 ha, String.toList_inj.1 hb]

/-- The text of a declaration tells its kind and its segment, once it is known whether parameters
follow. -/
theorem eq_of_text_eq (hplain : h.IsPlain) (hplain' : h'.IsPlain) (htext : h.text = h'.text)
    (hlist : h.hasList = h'.hasList) : h.kind = h'.kind ∧ h.segment = h'.segment := by
  have hwords := words_eq hplain hplain' htext
  have hclass : ¬isName "class" = true := by decide
  cases h <;> cases h' <;> simp_all [words, kind, segment, hasList, IsPlain, text]

end Head

/-! ## Lines -/

/-- The line of a declaration, up to its name, or of a statement. -/
inductive Opening (t : Tree) (all : Marked) (ps : List Piece) (depth : Nat) (text : String)
    (list : Bool) (i : t.Id) : Prop where
  | declared (scope : Scope) (h : Head) (hd : Declared t all ps scope depth h i)
      (htext : h.text = text) (hlist : h.hasList = list)
  | stated (hs : Stated t all ps depth text i) (hlist : list = false)

namespace Opening

variable {t : Tree} {all : Marked} {ps : List Piece} {depth : Nat} {text : String} {list : Bool}
  {i : t.Id}

theorem opens (h : Opening t all ps depth text list i) : Opens t all ps depth text list i := by
  cases h with
  | declared scope h hd htext hlist => exact htext ▸ hlist ▸ hd.toOpens
  | stated hs hlist => exact hlist ▸ hs.toOpens

theorem exists_first (h : Opening t all ps depth text list i) :
    ∃ c rest, text.toList = c :: rest ∧ isNameStart c = true := by
  cases h with
  | declared scope h hd htext hlist => exact htext ▸ Head.exists_first hd.plain
  | stated hs hlist => exact first_of_isAssignment hs.plain

theorem notMem_text (h : Opening t all ps depth text list i) : '(' ∉ text.toList := by
  cases h with
  | declared scope h hd htext hlist =>
    intro hmem
    rw [← htext] at hmem
    rcases Head.mem_text hd.plain hmem with hc | hc
    · exact absurd hc (by decide)
    · exact absurd hc (by decide)
  | stated hs hlist => exact (notMem_of_isAssignment hs.plain).1

end Opening

/-- Punctuation and a line do not start alike. -/
theorem Opening.not_isPunctuation {t : Tree} {all : Marked} {ps : List Piece} {depth : Nat}
    {text text' : String} {list : Bool} {i : t.Id} (h : Opening t all ps depth text list i)
    (hpos : 0 < text'.utf8ByteSize)
    (halike : text.toList <+: text'.toList ∨ text'.toList <+: text.toList) :
    ¬isPunctuation text' := by
  intro hpunctuation
  obtain ⟨first, rest, hfirst, hname⟩ := h.exists_first
  cases htext : text'.toList with
  | nil =>
    rw [Text.utf8ByteSize_eq_byteLength, htext, Text.byteLength_nil] at hpos
    exact absurd hpos (Nat.lt_irrefl _)
  | cons first' rest' =>
    have hname' := first_of_isPunctuation hpunctuation htext
    rw [hfirst, htext, List.cons_prefix_cons, List.cons_prefix_cons] at halike
    obtain rfl : first = first' := halike.elim (fun h => h.1) fun h => h.1.symm
    rw [hname] at hname'
    exact absurd hname'.symm Bool.false_ne_true

/-- A significant piece is a line that opens something, or it is punctuation. -/
theorem PieceRole.exists_text {t : Tree} {all : Marked} {ps : List Piece} {p : Piece}
    (h : PieceRole t all ps p) :
    ∃ text, Marked.At all p.span.start (Marked.code text.toList) ∧
      p.span.stop = p.span.start + text.utf8ByteSize ∧
      ((∃ depth list i, Opening t all ps depth text list i ∧ (t.node i).span.start = p.span.start) ∨
        isPunctuation text) := by
  cases h with
  | head scope depth h d hd heq =>
    subst heq
    exact ⟨h.text, hd.written, rfl, Or.inl ⟨depth, _, d, .declared scope h hd rfl rfl, rfl⟩⟩
  | stated depth text s hs heq =>
    subst heq
    exact ⟨text, hs.written, rfl, Or.inl ⟨depth, _, s, .stated hs rfl, rfl⟩⟩
  | punctuation text htext hat hstop => exact ⟨text, hat, hstop, Or.inr htext⟩

end HotReload.Outline
