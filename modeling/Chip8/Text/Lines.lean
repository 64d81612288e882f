/-!
Lines of a text. A line ends at a line feed, which takes one carriage return before it away; what
follows the last line feed is a line if it is not empty.
-/

namespace Chip8.Text

def splitLines : List Char → List (List Char)
  | [] => []
  | c :: cs =>
    if c = '\n' then [] :: splitLines cs
    else if c = '\r' ∧ cs.head? = some '\n' then splitLines cs
    else match splitLines cs with
      | [] => [[c]]
      | l :: ls => (c :: l) :: ls

/-- The lines with a line feed between them and one at the end, also where there is no line. -/
def joinLines : List (List Char) → List Char
  | [] => ['\n']
  | [l] => l ++ ['\n']
  | l :: l' :: ls => l ++ '\n' :: joinLines (l' :: ls)

theorem head?_append_cons (cs rest : List Char) :
    (cs ++ '\n' :: rest).head? = (cs ++ ['\n']).head? := by
  cases cs <;> rfl

theorem length_splitLines_line (cs : List Char) :
    (splitLines (cs ++ ['\n'])).length = cs.count '\n' + 1 := by
  induction cs with
  | nil => simp [splitLines]
  | cons c cs ih =>
    rw [List.cons_append, splitLines]
    split
    · next hc => simp [hc, ih]
    · next hc =>
      rw [List.count_cons_of_ne hc]
      split
      · exact ih
      · cases hls : splitLines (cs ++ ['\n']) with
        | nil => simp [hls] at ih
        | cons l ls => rwa [hls] at ih

theorem splitLines_append_line (cs rest : List Char) :
    splitLines (cs ++ '\n' :: rest) = splitLines (cs ++ ['\n']) ++ splitLines rest := by
  induction cs with
  | nil => simp [splitLines]
  | cons c cs ih =>
    simp only [List.cons_append]
    rw [splitLines, splitLines, head?_append_cons, ih]
    split
    · rfl
    · split
      · rfl
      · have hlength := length_splitLines_line cs
        cases hls : splitLines (cs ++ ['\n']) with
        | nil => simp [hls] at hlength
        | cons l ls => rfl

theorem splitLines_line {l : List Char} (hl : ∀ c ∈ l, c ≠ '\n' ∧ c ≠ '\r') :
    splitLines (l ++ ['\n']) = [l] := by
  induction l with
  | nil => simp [splitLines]
  | cons c l ih =>
    obtain ⟨⟨hfeed, hreturn⟩, hrest⟩ := List.forall_mem_cons.mp hl
    rw [List.cons_append, splitLines, if_neg hfeed, if_neg fun hc => hreturn hc.1, ih hrest]

theorem splitLines_flatMap {ls : List (List Char)} (hls : ∀ l ∈ ls, ∀ c ∈ l, c ≠ '\n' ∧ c ≠ '\r') :
    splitLines (ls.flatMap (· ++ ['\n'])) = ls := by
  induction ls with
  | nil => rfl
  | cons l ls ih =>
    obtain ⟨hl, hrest⟩ := List.forall_mem_cons.mp hls
    have hsplit := splitLines_append_line l (ls.flatMap (· ++ ['\n']))
    rw [ih hrest, splitLines_line hl] at hsplit
    simpa using hsplit

end Chip8.Text
