import Mathlib.Data.List.Lex
import Mathlib.Data.String.Basic

/-
  Texts are ordered by their characters, and this is the order of their bytes in UTF-8
  (`Text.le_iff_bytes_le`). A longer encoding starts with a larger byte, and encodings of one length
  compare as the digits of the characters do (`Text.encode_append_lt`).
-/

namespace HotReload.Text

/-- The bytes of a text in UTF-8. -/
def bytes (s : String) : List UInt8 := s.toUTF8.data.toList

theorem bytes_eq_flatMap (s : String) : bytes s = s.toList.flatMap String.utf8EncodeChar := by
  have hencode : s.toUTF8 = s.toList.utf8Encode := by
    rw [← String.toByteArray_ofList, String.ofList_toList]
    rfl
  unfold bytes
  rw [hencode]
  exact List.toList_data_toByteArray

/-- The first byte that differs decides. -/
theorem cons_ofNat_lt {m n : Nat} {xs ys : List UInt8} (hn : n < 256)
    (h : m < n ∨ m = n ∧ xs < ys) : UInt8.ofNat m :: xs < UInt8.ofNat n :: ys := by
  rw [List.cons_lt_cons_iff]
  obtain h | ⟨rfl, h⟩ := h
  · left
    rw [UInt8.lt_iff_toNat_lt, UInt8.toNat_ofNat', UInt8.toNat_ofNat']
    omega
  · exact Or.inr ⟨rfl, h⟩

/-- So does the first digit that differs. -/
theorem cons_digit_lt {a b : Nat} {xs ys : List UInt8} (mark : Nat) (hb : b + mark < 256)
    (h : a < b ∨ a = b ∧ xs < ys) :
    UInt8.ofNat (a + mark) :: xs < UInt8.ofNat (b + mark) :: ys := by
  apply cons_ofNat_lt hb
  rw [Nat.add_lt_add_iff_right, Nat.add_right_cancel_iff]
  exact h

section Digits

variable {m n : Nat} {xs ys : List UInt8}

/-- The last byte of an encoding. -/
theorem last_digit_lt (h : m % 64 < n % 64) :
    UInt8.ofNat (m % 64 + 128) :: xs < UInt8.ofNat (n % 64 + 128) :: ys :=
  cons_digit_lt 128 (by omega) (Or.inl h)

/-- The last two bytes. -/
theorem last_two_digits_lt
    (h : m / 64 % 64 < n / 64 % 64 ∨ m / 64 % 64 = n / 64 % 64 ∧ m % 64 < n % 64) :
    UInt8.ofNat (m / 64 % 64 + 128) :: UInt8.ofNat (m % 64 + 128) :: xs <
      UInt8.ofNat (n / 64 % 64 + 128) :: UInt8.ofNat (n % 64 + 128) :: ys :=
  cons_digit_lt 128 (by omega) (h.imp_right (And.imp_right last_digit_lt))

/-- The last three bytes. -/
theorem last_three_digits_lt
    (h : m / 4096 % 64 < n / 4096 % 64 ∨ m / 4096 % 64 = n / 4096 % 64 ∧
      (m / 64 % 64 < n / 64 % 64 ∨ m / 64 % 64 = n / 64 % 64 ∧ m % 64 < n % 64)) :
    UInt8.ofNat (m / 4096 % 64 + 128) :: UInt8.ofNat (m / 64 % 64 + 128) ::
        UInt8.ofNat (m % 64 + 128) :: xs <
      UInt8.ofNat (n / 4096 % 64 + 128) :: UInt8.ofNat (n / 64 % 64 + 128) ::
        UInt8.ofNat (n % 64 + 128) :: ys :=
  cons_digit_lt 128 (by omega) (h.imp_right (And.imp_right last_two_digits_lt))

end Digits

/-- A smaller character has the smaller encoding, whatever follows. -/
theorem encode_append_lt {c d : Char} (h : c < d) (xs ys : List UInt8) :
    String.utf8EncodeChar c ++ xs < String.utf8EncodeChar d ++ ys := by
  have hval : c.val.toNat < d.val.toNat := h
  have hmax : d.val.toNat < 0x110000 := by
    obtain hsmall | ⟨-, hlarge⟩ := d.valid
    · exact Nat.lt_trans hsmall (by decide)
    · exact hlarge
  unfold String.utf8EncodeChar
  dsimp only
  generalize c.val.toNat = m at hval
  generalize d.val.toNat = n at hval hmax
  split_ifs
  all_goals simp only [List.cons_append, List.nil_append]
  -- a longer encoding belongs to a larger character
  all_goals try omega
  -- and starts with a larger byte, as a larger character of one byte does
  all_goals try exact cons_ofNat_lt (by omega) (Or.inl (by omega))
  · -- two bytes each
    have hdigits : m / 64 % 32 < n / 64 % 32 ∨
        m / 64 % 32 = n / 64 % 32 ∧ m % 64 < n % 64 := by
      omega
    exact cons_digit_lt _ (by omega) (hdigits.imp_right (And.imp_right last_digit_lt))
  · -- three bytes each
    have hdigits : m / 4096 % 16 < n / 4096 % 16 ∨ m / 4096 % 16 = n / 4096 % 16 ∧
        (m / 64 % 64 < n / 64 % 64 ∨ m / 64 % 64 = n / 64 % 64 ∧ m % 64 < n % 64) := by
      omega
    exact cons_digit_lt _ (by omega) (hdigits.imp_right (And.imp_right last_two_digits_lt))
  · -- four bytes each
    have hdigits : m / 262144 < n / 262144 ∨ m / 262144 = n / 262144 ∧
        (m / 4096 % 64 < n / 4096 % 64 ∨ m / 4096 % 64 = n / 4096 % 64 ∧
          (m / 64 % 64 < n / 64 % 64 ∨ m / 64 % 64 = n / 64 % 64 ∧ m % 64 < n % 64)) := by
      omega
    rw [Nat.mod_eq_of_lt (by omega : m / 262144 < 8), Nat.mod_eq_of_lt (by omega : n / 262144 < 8)]
    exact cons_digit_lt _ (by omega) (hdigits.imp_right (And.imp_right last_three_digits_lt))

/-- No encoding is empty. -/
theorem nil_lt_encode_append (c : Char) (xs : List UInt8) :
    [] < String.utf8EncodeChar c ++ xs := by
  have hlength := String.length_utf8EncodeChar c
  have hpos := c.utf8Size_pos
  cases hc : String.utf8EncodeChar c with
  | nil => simp [hc] at hlength; omega
  | cons b bs => exact List.nil_lt_cons _ _

/-- The encoding keeps the order of texts. -/
theorem flatMap_encode_lt {cs ds : List Char} (h : List.Lex (· < ·) cs ds) :
    cs.flatMap String.utf8EncodeChar < ds.flatMap String.utf8EncodeChar := by
  induction h with
  | nil => exact nil_lt_encode_append _ _
  | cons _ ih => exact List.append_left_lt ih
  | rel hcd => exact encode_append_lt hcd _ _

theorem bytes_lt_of_lt {s t : String} (h : s < t) : bytes s < bytes t := by
  rw [bytes_eq_flatMap, bytes_eq_flatMap]
  exact flatMap_encode_lt (String.lt_iff.1 h)

/-- Texts are ordered as their bytes are. -/
theorem le_iff_bytes_le {s t : String} : s ≤ t ↔ bytes s ≤ bytes t := by
  constructor
  · intro h hlt
    obtain hst | rfl := lt_or_eq_of_le h
    · exact List.lt_asymm hlt (bytes_lt_of_lt hst)
    · exact List.lt_irrefl _ hlt
  · intro h
    rw [← String.not_lt]
    intro hlt
    exact h (bytes_lt_of_lt hlt)

end HotReload.Text
