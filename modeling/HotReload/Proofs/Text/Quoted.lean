import HotReload.Proofs.Text.Lines
import HotReload.Text.Quoted

/-
  Quoted text reads back. `decode` goes through the text behind an opening quote one character at a
  time, up to the quote that closes it; `Reading` says how much of an escape is behind it. After the
  quoted form of a character the reader is where it was in front of it and has read the character
  (`decode_encodeChar`), so quoted text has its content, whatever stands behind it (`decode_encode`).

  Which characters show as themselves does not matter for any of this: a quote, a backslash and both
  line ends never do.
-/

namespace HotReload.Text

/-- How much of an escape a reader of quoted text has seen. -/
inductive Reading where
  /-- Nothing. -/
  | character
  /-- The backslash. -/
  | escape
  /-- The letter of an escape by number. -/
  | number
  /-- The brace, and the digits of this number. -/
  | digits (n : Nat)
  deriving DecidableEq, Repr

/-- The value of a hexadecimal digit. -/
def hexDigit? (c : Char) : Option Nat :=
  if '0' ≤ c ∧ c ≤ '9' then some (c.toNat - '0'.toNat)
  else if 'a' ≤ c ∧ c ≤ 'f' then some (c.toNat - 'a'.toNat + 10)
  else none

/-- What a letter behind a backslash stands for. -/
def escaped? : Char → Option Char
  | '"' => some '"'
  | '\\' => some '\\'
  | 't' => some '\t'
  | 'n' => some '\n'
  | 'r' => some '\r'
  | '0' => some '\x00'
  | _ => none

/-- One more character in front of what was read. -/
def readOn (c : Char) : List Char × List Char → List Char × List Char := Prod.map (c :: ·) id

/-- The content of quoted text up to the closing quote, and the text behind it. -/
def decode : Reading → List Char → Option (List Char × List Char)
  | _, [] => none
  | .character, c :: cs =>
    if c = '"' then some ([], cs)
    else if c = '\\' then decode .escape cs
    else (decode .character cs).map (readOn c)
  | .escape, c :: cs =>
    if c = 'u' then decode .number cs
    else (escaped? c).bind fun d => (decode .character cs).map (readOn d)
  | .number, c :: cs => if c = '\x7b' then decode (.digits 0) cs else none
  | .digits n, c :: cs =>
    if c = '\x7d' then
      if n.isValidChar then (decode .character cs).map (readOn (Char.ofNat n)) else none
    else (hexDigit? c).bind fun d => decode (.digits (16 * n + d)) cs

/-! ## Digits -/

theorem hexDigit?_digitChar {d : Nat} (h : d < 16) : hexDigit? d.digitChar = some d := by
  decide +revert

theorem decode_digitChar {d : Nat} (h : d < 16) (n : Nat) (rest : List Char) :
    decode (.digits n) (d.digitChar :: rest) = decode (.digits (16 * n + d)) rest := by
  have hdigit : d.digitChar ≠ '\x7d' := by decide +revert
  rw [decode, if_neg hdigit, hexDigit?_digitChar h, Option.bind_some]

/-- The digits of a number are read as the number. -/
theorem decode_toDigits (n : Nat) (rest : List Char) :
    decode (.digits 0) (Nat.toDigits 16 n ++ rest) = decode (.digits n) rest := by
  induction n using Nat.strongRecOn generalizing rest with
  | ind n ih =>
    rw [Nat.toDigits_eq_if (by decide)]
    split
    · next hlt =>
      rw [List.singleton_append, decode_digitChar hlt, Nat.mul_zero, Nat.zero_add]
    · next hge =>
      rw [List.append_assoc, List.singleton_append, ih (n / 16) (by omega),
        decode_digitChar (Nat.mod_lt n (by decide)), Nat.div_add_mod]

theorem unbroken_toDigits (n : Nat) : Unbroken (Nat.toDigits 16 n) := by
  have hdigit : ∀ d < 16, Unbroken [Nat.digitChar d] := by decide
  induction n using Nat.strongRecOn with
  | ind n ih =>
    rw [Nat.toDigits_eq_if (by decide)]
    split
    · next hlt => exact hdigit n hlt
    · next hge =>
      exact List.forall_mem_append.2
        ⟨ih (n / 16) (by omega), hdigit (n % 16) (Nat.mod_lt n (by decide))⟩

/-! ## Characters -/

/-- An escape by number is the character of that number. -/
theorem decode_codeEscape (c : Char) (rest : List Char) :
    decode .character (codeEscape c ++ rest) = (decode .character rest).map (readOn c) := by
  have hopened : decode .character (codeEscape c ++ rest) =
      decode (.digits 0) (Nat.toDigits 16 c.toNat ++ '\x7d' :: rest) := by
    simp [codeEscape, decode]
  have hvalid : c.toNat.isValidChar := c.valid
  rw [hopened, decode_toDigits, decode, if_pos rfl, if_pos hvalid, Char.ofNat_toNat]

/-- The quoted form of a character is read as the character. -/
theorem decode_encodeChar (c : Char) (rest : List Char) :
    decode .character (encodeChar c ++ rest) = (decode .character rest).map (readOn c) := by
  unfold encodeChar
  split_ifs with hquote hbackslash htab hfeed hreturn hzero hshows
  · rw [hquote]; rfl
  · rw [hbackslash]; rfl
  · rw [htab]; rfl
  · rw [hfeed]; rfl
  · rw [hreturn]; rfl
  · rw [hzero]; rfl
  · rw [List.singleton_append, decode, if_neg hquote, if_neg hbackslash]
  · exact decode_codeEscape c rest

theorem unbroken_codeEscape (c : Char) : Unbroken (codeEscape c) := by
  have hopening : Unbroken ['\\', 'u', '\x7b'] := by decide
  have hclosing : Unbroken ['\x7d'] := by decide
  exact List.forall_mem_append.2
    ⟨List.forall_mem_append.2 ⟨hopening, unbroken_toDigits c.toNat⟩, hclosing⟩

/-- The quoted form of a character is on one line, that of a line end too. -/
theorem unbroken_encodeChar (c : Char) : Unbroken (encodeChar c) := by
  unfold encodeChar
  split_ifs with hquote hbackslash htab hfeed hreturn hzero hshows
  · decide
  · decide
  · decide
  · decide
  · decide
  · decide
  · exact List.forall_mem_singleton.2 ⟨hfeed, hreturn⟩
  · exact unbroken_codeEscape c

/-! ## Texts -/

/-- Quoted text has its content, whatever stands behind it. -/
theorem decode_encode (cs rest : List Char) :
    decode .character (encode cs ++ '"' :: rest) = some (cs, rest) := by
  induction cs with
  | nil => rfl
  | cons c cs ih =>
    have hencode : encode (c :: cs) = encodeChar c ++ encode cs := List.flatMap_cons
    rw [hencode, List.append_assoc, decode_encodeChar, ih]
    rfl

-- an escape by letter, one by number, and text behind the closing quote
example : decode .character "a\\\"\\u\x7b7f\x7d\" b".toList = some ("a\"\x7f".toList, " b".toList) := by
  decide

theorem unbroken_encode (cs : List Char) : Unbroken (encode cs) := by
  intro c hc
  obtain ⟨d, -, hcd⟩ := List.mem_flatMap.1 hc
  exact unbroken_encodeChar d c hcd

end HotReload.Text
