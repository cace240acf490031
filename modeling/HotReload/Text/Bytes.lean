/-!
Text measured in UTF-8 bytes. Positions in a text are byte offsets, as the spans of a tree store
them; the characters themselves stay a list. `splitAt?` cuts at a byte offset and has no answer
inside a character or beyond the end, and `splitAt?_eq_some_iff` says that it finds exactly the cut
of that length.
-/

namespace HotReload.Text

/-- The largest offset a span can store. -/
def maxOffset : Nat := 4294967295

/-- A length as an offset: what does not fit is the largest offset. -/
def offset (n : Nat) : Nat := min n maxOffset

/-- The number of bytes that the characters take. -/
def byteLength : List Char → Nat
  | [] => 0
  | c :: cs => c.utf8Size + byteLength cs

/-- Cut after `n` bytes; `none` inside a character and beyond the end. -/
def splitAt? (n : Nat) : List Char → Option (List Char × List Char)
  | [] => if n = 0 then some ([], []) else none
  | c :: cs =>
    if n = 0 then some ([], c :: cs)
    else if c.utf8Size ≤ n then
      (splitAt? (n - c.utf8Size) cs).map fun (a, b) => (c :: a, b)
    else none

/-- The characters before byte `n`. -/
def take? (n : Nat) (cs : List Char) : Option (List Char) := (splitAt? n cs).map (·.1)

/-- The characters from byte `n` on. -/
def drop? (n : Nat) (cs : List Char) : Option (List Char) := (splitAt? n cs).map (·.2)

/-- The characters of the bytes `start` to `stop`; `none` for a range that is inverted, out of
range or cuts a character. -/
def slice? (start stop : Nat) (cs : List Char) : Option (List Char) :=
  if start ≤ stop then drop? start cs >>= take? (stop - start) else none

/-! ## Laws -/

@[simp] theorem byteLength_nil : byteLength [] = 0 := rfl

@[simp] theorem byteLength_cons (c : Char) (cs : List Char) :
    byteLength (c :: cs) = c.utf8Size + byteLength cs := rfl

@[simp] theorem byteLength_append (a b : List Char) :
    byteLength (a ++ b) = byteLength a + byteLength b := by
  induction a with
  | nil => simp
  | cons c a ih => simp [ih, Nat.add_assoc]

theorem utf8ByteSize_eq_byteLength (s : String) : s.utf8ByteSize = byteLength s.toList := by
  have aux : ∀ cs : List Char, (String.ofList cs).utf8ByteSize = byteLength cs := by
    intro cs
    induction cs with
    | nil => rfl
    | cons c cs ih =>
      rw [show String.ofList (c :: cs) = String.singleton c ++ String.ofList cs by
        apply String.toList_inj.1; simp]
      simp [String.utf8ByteSize_append, ih]
  rw [← aux s.toList, String.ofList_toList]

theorem byteLength_eq_zero {cs : List Char} : byteLength cs = 0 ↔ cs = [] := by
  cases cs with
  | nil => simp
  | cons c cs => simp [Nat.ne_of_gt c.utf8Size_pos]

theorem splitAt?_byteLength_append (a b : List Char) :
    splitAt? (byteLength a) (a ++ b) = some (a, b) := by
  induction a with
  | nil => cases b <;> simp [splitAt?]
  | cons c a ih =>
    have := c.utf8Size_pos
    simp [splitAt?, Nat.ne_of_gt this, ih]

theorem eq_of_splitAt?_eq_some {n : Nat} {cs a b : List Char} (h : splitAt? n cs = some (a, b)) :
    cs = a ++ b ∧ byteLength a = n := by
  induction cs generalizing n a with
  | nil => simp_all [splitAt?]
  | cons c cs ih =>
    simp only [splitAt?] at h
    split at h
    · simp_all
    split at h
    · obtain ⟨⟨a', b'⟩, h', e⟩ := Option.map_eq_some_iff.1 h
      obtain ⟨rfl, rfl⟩ := Prod.mk.inj e
      obtain ⟨rfl, hn⟩ := ih h'
      refine ⟨rfl, ?_⟩
      simp only [byteLength_cons]
      omega
    · simp at h

/-- A cut exists exactly where some characters end, and it is the cut there. -/
theorem splitAt?_eq_some_iff {n : Nat} {cs a b : List Char} :
    splitAt? n cs = some (a, b) ↔ cs = a ++ b ∧ byteLength a = n :=
  ⟨eq_of_splitAt?_eq_some, fun ⟨hc, hn⟩ => by rw [hc, ← hn]; exact splitAt?_byteLength_append a b⟩

theorem slice?_append (a b c : List Char) :
    slice? (byteLength a) (byteLength a + byteLength b) (a ++ b ++ c) = some b := by
  simp [slice?, drop?, take?, List.append_assoc, splitAt?_byteLength_append]

end HotReload.Text
