/-!
Two ways to read a text as lines. Full lines keep their break, which is a carriage return with a line
feed, a lone carriage return or a line feed, so they concatenate to the text. Bare lines end at line
feeds only and lose the break; they are for display.
-/

namespace HotReload.Text

/-- Put a character in front of the first line, or start a line with it. -/
def consLine (c : Char) : List (List Char) → List (List Char)
  | [] => [[c]]
  | l :: ls => (c :: l) :: ls

/-- The lines with their breaks; an unfinished last line counts. -/
def fullLines : List Char → List (List Char)
  | [] => []
  | '\r' :: '\n' :: cs => ['\r', '\n'] :: fullLines cs
  | c :: cs => if c = '\r' ∨ c = '\n' then [c] :: fullLines cs else consLine c (fullLines cs)

/-- The lines without their breaks: each line feed ends a line and takes one carriage return
directly before it along. -/
def bareLines : List Char → List (List Char)
  | [] => []
  | '\n' :: cs => [] :: bareLines cs
  | '\r' :: '\n' :: cs => [] :: bareLines cs
  | c :: cs => consLine c (bareLines cs)

@[simp] theorem flatten_consLine (c : Char) (ls : List (List Char)) :
    (consLine c ls).flatten = c :: ls.flatten := by
  cases ls <;> simp [consLine]

/-- Nothing is lost between full lines. -/
theorem flatten_fullLines (cs : List Char) : (fullLines cs).flatten = cs := by
  fun_induction fullLines cs with
  | case1 => rfl
  | case2 cs ih => simp [ih]
  | case3 c cs _ _ ih => simp [ih]
  | case4 c cs _ _ ih => simp [ih]

theorem ne_nil_of_mem_fullLines {cs l : List Char} (h : l ∈ fullLines cs) : l ≠ [] := by
  fun_induction fullLines cs generalizing l with
  | case1 => simp at h
  | case2 cs ih =>
    rcases List.mem_cons.1 h with rfl | h
    · simp
    · exact ih h
  | case3 c cs _ _ ih =>
    rcases List.mem_cons.1 h with rfl | h
    · simp
    · exact ih h
  | case4 c cs _ _ ih =>
    cases hs : fullLines cs with
    | nil => simp_all [consLine]
    | cons m ms =>
      rw [hs, consLine] at h
      rcases List.mem_cons.1 h with rfl | h
      · simp
      · exact ih (hs ▸ List.mem_cons_of_mem _ h)

end HotReload.Text
