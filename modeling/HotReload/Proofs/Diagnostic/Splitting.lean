import HotReload.Diagnostic.Descriptor
import Mathlib.Data.List.Induction
import Mathlib.Data.List.TakeWhile
import Mathlib.Data.Nat.Digits.Defs

/-
  Templates as literal text and placeholders. `Template.Splits` says how a template is split from left
  to right: a placeholder is taken wherever one stands at the front, and else one character as it is.
  It reads the template and the number of arguments, and no argument. There is one way to split a
  template (`Splits.unique`), and the message is the parts one after the other, with the texts of
  arguments for placeholders (`Descriptor.format_splits`). So nothing in an argument is read again.

  What links this to the scan is that a placeholder opens at a brace exactly if the scan finds its
  argument (`opens_iff`).
-/

namespace HotReload

namespace Template

/-- The text is a number of 64 bits: decimal digits, perhaps with a plus in front. -/
def Spells (text : List Char) (i : Nat) : Prop :=
  ∃ digits, (text = digits ∨ text = '+' :: digits) ∧ digits ≠ [] ∧
    (∀ c ∈ digits, '0' ≤ c ∧ c ≤ '9') ∧
    Nat.ofDigits 10 (digits.reverse.map fun c => c.toNat - '0'.toNat) = i ∧ i < 2 ^ 64

/-- A part of a template: a character that stays, or a placeholder with the text in its braces. -/
inductive Part where
  | literal (c : Char)
  | placeholder (inside : List Char) (index : Nat)
  deriving DecidableEq, Repr

/-- The part as it is written. -/
def Part.source : Part → List Char
  | literal c => [c]
  | placeholder inside _ => '\x7b' :: inside ++ ['\x7d']

/-- What the message has for the part. -/
def Part.text (args : List String) : Part → List Char
  | literal c => [c]
  | placeholder _ i => (args[i]?.getD "").toList

/-- The text in the braces, up to the next closing one, is the number of one of `count` arguments. -/
structure IsPlaceholder (count : Nat) (inside : List Char) (i : Nat) : Prop where
  closed : '\x7d' ∉ inside
  spells : Spells inside i
  known : i < count

/-- A placeholder stands at the front of the text. -/
def Opens (count : Nat) (cs : List Char) : Prop :=
  ∃ inside i rest, IsPlaceholder count inside i ∧ cs = (Part.placeholder inside i).source ++ rest

/-- The text is split from left to right. A character stays if no placeholder opens there, and the
text right behind it is split on. -/
inductive Splits (count : Nat) : List Char → List Part → Prop
  | nil : Splits count [] []
  | placeholder {inside rest : List Char} {i : Nat} {parts : List Part}
      (here : IsPlaceholder count inside i) (behind : Splits count rest parts) :
      Splits count ((Part.placeholder inside i).source ++ rest) (.placeholder inside i :: parts)
  | literal {c : Char} {rest : List Char} {parts : List Part}
      (here : ¬Opens count (c :: rest)) (behind : Splits count rest parts) :
      Splits count (c :: rest) (.literal c :: parts)

variable {args : List String} {count i j : Nat} {cs inside inside' rest rest' : List Char}
  {parts parts' : List Part}

/-! ## Numbers -/

theorem digitsValue_eq (digits : List Char) :
    digitsValue digits = Nat.ofDigits 10 (digits.reverse.map fun c => c.toNat - '0'.toNat) := by
  induction digits using List.reverseRecOn with
  | nil => rfl
  | append_singleton digits c ih =>
    have hsnoc : digitsValue (digits ++ [c]) =
        10 * digitsValue digits + (c.toNat - '0'.toNat) := by
      unfold digitsValue
      rw [List.foldl_append]
      rfl
    rw [hsnoc, ih, List.reverse_append, List.reverse_singleton, List.singleton_append, List.map_cons,
      Nat.ofDigits_cons]
    exact Nat.add_comm _ _

theorem isDigit_iff {c : Char} : c.isDigit = true ↔ '0' ≤ c ∧ c ≤ '9' := by
  unfold Char.isDigit
  rw [Bool.and_eq_true, decide_eq_true_eq, decide_eq_true_eq]
  rfl

theorem index?_eq_some_iff : index? inside = some i ↔ Spells inside i := by
  have hdigits : ∀ digits : List Char,
      (if !digits.isEmpty && digits.all Char.isDigit && digitsValue digits ≤ maxIndex then
        some (digitsValue digits) else none) = some i ↔
      digits ≠ [] ∧ (∀ c ∈ digits, '0' ≤ c ∧ c ≤ '9') ∧
        Nat.ofDigits 10 (digits.reverse.map fun c => c.toNat - '0'.toNat) = i ∧ i < 2 ^ 64 := by
    intro digits
    rw [← digitsValue_eq]
    have hmax : digitsValue digits ≤ maxIndex ↔ digitsValue digits < 2 ^ 64 := Nat.lt_succ_iff.symm
    simp only [Option.ite_none_right_eq_some, Option.some.injEq, Bool.and_eq_true, Bool.not_eq_true',
      List.isEmpty_eq_false_iff, List.all_eq_true, isDigit_iff, decide_eq_true_eq, hmax]
    constructor
    · rintro ⟨⟨⟨hne, hall⟩, hlt⟩, rfl⟩
      exact ⟨hne, hall, rfl, hlt⟩
    · rintro ⟨hne, hall, rfl, hlt⟩
      exact ⟨⟨⟨hne, hall⟩, hlt⟩, rfl⟩
  unfold index? Spells
  dsimp only
  rw [hdigits]
  split
  · next rest =>
    constructor
    · exact fun h => ⟨rest, Or.inr rfl, h⟩
    · rintro ⟨digits, rfl | hplus, h⟩
      · -- a plus is no digit
        exact absurd (h.2.1 '+' List.mem_cons_self).1 (by decide)
      · exact (List.cons.inj hplus).2 ▸ h
  · next hnot =>
    constructor
    · exact fun h => ⟨inside, Or.inl rfl, h⟩
    · rintro ⟨digits, rfl | rfl, h⟩
      · exact h
      · exact absurd rfl (hnot digits)

theorem Spells.unique (h : Spells inside i) (h' : Spells inside j) : i = j :=
  Option.some.inj ((index?_eq_some_iff.2 h).symm.trans (index?_eq_some_iff.2 h'))

/-! ## Placeholders -/

/-- The first closing brace ends the number. -/
theorem append_brace_inj (h : '\x7d' ∉ inside) (h' : '\x7d' ∉ inside')
    (heq : inside ++ '\x7d' :: rest = inside' ++ '\x7d' :: rest') :
    inside = inside' ∧ rest = rest' := by
  induction inside generalizing inside' with
  | nil =>
    cases inside' with
    | nil => exact ⟨rfl, (List.cons.inj heq).2⟩
    | cons c inside' => exact absurd ((List.cons.inj heq).1 ▸ List.mem_cons_self) h'
  | cons c inside ih =>
    cases inside' with
    | nil => exact absurd ((List.cons.inj heq).1 ▸ List.mem_cons_self) h
    | cons c' inside' =>
      obtain ⟨rfl, htail⟩ := List.cons.inj heq
      obtain ⟨rfl, hrest⟩ :=
        ih (List.not_mem_of_not_mem_cons h) (List.not_mem_of_not_mem_cons h') htail
      exact ⟨rfl, hrest⟩

theorem source_append (inside : List Char) (i : Nat) (rest : List Char) :
    (Part.placeholder inside i).source ++ rest = '\x7b' :: (inside ++ '\x7d' :: rest) := by
  simp [Part.source]

/-- The scan finds the argument of the placeholder that opens in front. -/
theorem placeholder?_eq_some_iff {value : String} :
    placeholder? args cs = some (value, rest) ↔
      ∃ inside i, IsPlaceholder args.length inside i ∧ cs = inside ++ '\x7d' :: rest ∧
        args[i]? = some value := by
  have hsplit : ∀ (rest : List Char) {inside : List Char}, '\x7d' ∉ inside →
      (inside ++ '\x7d' :: rest).takeWhile (· ≠ '\x7d') = inside ∧
        (inside ++ '\x7d' :: rest).dropWhile (· ≠ '\x7d') = '\x7d' :: rest := by
    intro rest inside hclosed
    have hall : ∀ c ∈ inside, decide (c ≠ '\x7d') = true := fun c hc =>
      decide_eq_true fun heq => hclosed (heq ▸ hc)
    rw [List.takeWhile_append_of_pos hall, List.dropWhile_append_of_pos hall]
    simp
  constructor
  · intro h
    unfold placeholder? at h
    split at h
    · simp at h
    · next c rest' hdrop =>
      simp only [Option.pure_def, Option.bind_eq_bind, Option.bind_eq_some_iff, Option.some.injEq,
        Prod.mk.injEq] at h
      obtain ⟨i, hi, value', hvalue, rfl, rfl⟩ := h
      have hclosed : '\x7d' ∉ cs.takeWhile (· ≠ '\x7d') := fun hmem =>
        absurd (List.mem_takeWhile_imp hmem) (by decide)
      have hbrace : c = '\x7d' := by
        have hhead := List.head?_dropWhile_not (· ≠ '\x7d') cs
        rw [hdrop] at hhead
        simpa using hhead
      have hcs : cs.takeWhile (· ≠ '\x7d') ++ cs.dropWhile (· ≠ '\x7d') = cs :=
        List.takeWhile_append_dropWhile
      rw [hdrop, hbrace] at hcs
      have hknown : i < args.length := (List.getElem?_eq_some_iff.1 hvalue).1
      exact ⟨_, i, ⟨hclosed, index?_eq_some_iff.1 hi, hknown⟩, hcs.symm, hvalue⟩
  · rintro ⟨inside, i, ⟨hclosed, hspells, -⟩, rfl, hvalue⟩
    obtain ⟨htake, hdrop⟩ := hsplit rest hclosed
    unfold placeholder?
    rw [htake, hdrop, index?_eq_some_iff.2 hspells]
    simp [hvalue]

/-- A placeholder opens at a brace if the scan finds its argument, and nowhere else. -/
theorem opens_iff {c : Char} : Opens args.length (c :: cs) ↔
    c = '\x7b' ∧ ∃ value rest, placeholder? args cs = some (value, rest) := by
  constructor
  · rintro ⟨inside, i, rest, hplaceholder, heq⟩
    rw [source_append] at heq
    obtain ⟨rfl, rfl⟩ := List.cons.inj heq
    exact ⟨rfl, args.get ⟨i, hplaceholder.known⟩, rest, placeholder?_eq_some_iff.2
      ⟨inside, i, hplaceholder, rfl, List.getElem?_eq_getElem hplaceholder.known⟩⟩
  · rintro ⟨rfl, value, rest, h⟩
    obtain ⟨inside, i, hplaceholder, rfl, -⟩ := placeholder?_eq_some_iff.1 h
    exact ⟨inside, i, rest, hplaceholder, (source_append inside i rest).symm⟩

/-! ## Splitting -/

namespace Splits

/-- Nothing of a template is lost. -/
theorem source_eq (h : Splits count cs parts) : parts.flatMap Part.source = cs := by
  induction h with
  | nil => rfl
  | placeholder here behind ih => rw [List.flatMap_cons, ih]
  | literal here behind ih =>
    rw [List.flatMap_cons, ih]
    rfl

/-- A template is split in one way. -/
theorem unique (h : Splits count cs parts) (h' : Splits count cs parts') : parts = parts' := by
  induction h generalizing parts' with
  | nil =>
    cases h' with
    | nil => rfl
  | @placeholder inside rest i parts here behind ih =>
    generalize hcs : (Part.placeholder inside i).source ++ rest = cs at h'
    cases h' with
    | nil => simp [Part.source] at hcs
    | literal here' behind' => exact absurd ⟨inside, i, rest, here, hcs.symm⟩ here'
    | @placeholder inside' rest' j parts' here' behind' =>
      rw [source_append, source_append] at hcs
      obtain ⟨rfl, rfl⟩ := append_brace_inj here.closed here'.closed (List.cons.inj hcs).2
      rw [here.spells.unique here'.spells, ih behind']
  | @literal c rest parts here behind ih =>
    generalize hcs : c :: rest = cs at h'
    cases h' with
    | nil => simp at hcs
    | placeholder here' behind' => exact absurd ⟨_, _, _, here', hcs⟩ here
    | literal here' behind' =>
      obtain ⟨rfl, rfl⟩ := List.cons.inj hcs
      rw [ih behind']

end Splits

/-- The scan splits the template as it goes. -/
theorem exists_splits (args : List String) (cs : List Char) :
    ∃ parts, Splits args.length cs parts ∧
      substitute args cs = parts.flatMap (Part.text args) := by
  fun_induction substitute args cs with
  | case1 => exact ⟨[], .nil, rfl⟩
  | case2 cs value rest hfound ih =>
    obtain ⟨parts, hsplits, hparts⟩ := ih
    obtain ⟨inside, i, hplaceholder, rfl, hvalue⟩ := placeholder?_eq_some_iff.1 hfound
    refine ⟨.placeholder inside i :: parts, ?_, ?_⟩
    · rw [← source_append inside i]
      exact .placeholder hplaceholder hsplits
    · rw [List.flatMap_cons, hparts, Part.text, hvalue, Option.getD_some]
  | case3 cs hnone ih =>
    obtain ⟨parts, hsplits, hparts⟩ := ih
    refine ⟨.literal _ :: parts, .literal (fun hopens => ?_) hsplits, congrArg _ hparts⟩
    obtain ⟨-, value, rest, hfound⟩ := opens_iff.1 hopens
    simp [hnone] at hfound
  | case4 c cs hbrace ih =>
    obtain ⟨parts, hsplits, hparts⟩ := ih
    exact ⟨.literal c :: parts, .literal (fun hopens => hbrace (opens_iff.1 hopens).1) hsplits,
      congrArg _ hparts⟩

end Template

/-- A message is the parts of its template one after the other. The template is split in one way, which
does not depend on what the arguments say; literal text stays as it is, and the text of an argument
stands for each placeholder. -/
theorem Descriptor.format_splits (d : Descriptor) (args : List String) :
    ∃ parts, (∀ parts', Template.Splits args.length d.template.toList parts' ↔ parts' = parts) ∧
      parts.flatMap Template.Part.source = d.template.toList ∧
      d.format args = String.ofList (parts.flatMap (Template.Part.text args)) := by
  obtain ⟨parts, hsplits, hparts⟩ := Template.exists_splits args d.template.toList
  refine ⟨parts, fun parts' => ⟨fun h => h.unique hsplits, fun h => h ▸ hsplits⟩,
    hsplits.source_eq, ?_⟩
  exact congrArg String.ofList hparts

-- an argument that looks like a placeholder, a name in braces and a brace that nothing closes
example : Template.format "\x7b1\x7d \x7bx\x7b0\x7d\x7b" ["\x7b1\x7d", "b"] =
    "b \x7bx\x7b1\x7d\x7b" := by cbv

end HotReload
