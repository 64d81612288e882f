/-!
Blanks and words. A blank is a character with the White_Space property, of which there are
twenty-five; a word is a longest run of other characters.
-/

namespace Chip8.Text

def isBlank (c : Char) : Bool :=
  let n := c.toNat
  (0x9 ≤ n && n ≤ 0xD) || n == 0x20 || n == 0x85 || n == 0xA0 || n == 0x1680 ||
    (0x2000 ≤ n && n ≤ 0x200A) || n == 0x2028 || n == 0x2029 || n == 0x202F ||
    n == 0x205F || n == 0x3000

/-- The word that the first character belongs to, empty before a blank, and the words after it. -/
def scan : List Char → List Char × List (List Char)
  | [] => ([], [])
  | c :: cs =>
    let (w, ws) := scan cs
    if isBlank c then ([], if w = [] then ws else w :: ws) else (c :: w, ws)

def words (cs : List Char) : List (List Char) :=
  let (w, ws) := scan cs
  if w = [] then ws else w :: ws

def trim (cs : List Char) : List Char :=
  ((cs.dropWhile isBlank).reverse.dropWhile isBlank).reverse

theorem words_nil : words [] = [] := rfl

theorem words_cons_blank {c : Char} {cs : List Char} (h : isBlank c) :
    words (c :: cs) = words cs := by
  simp [words, scan, h]

theorem words_append_blank (w : List Char) {c : Char} {cs : List Char} (hc : isBlank c) :
    words (w ++ c :: cs) = words w ++ words cs := by
  have key : scan (w ++ c :: cs) = ((scan w).1, (scan w).2 ++ words cs) := by
    induction w with
    | nil => simp [scan, hc, words]
    | cons a w ih =>
      simp only [List.cons_append, scan, ih]
      by_cases ha : isBlank a
      · by_cases hw : (scan w).1 = [] <;> simp [ha, hw]
      · simp [ha]
  simp only [words, key]
  split <;> simp

theorem words_of_no_blank {w : List Char} (hw : w ≠ []) (h : ∀ c ∈ w, isBlank c = false) :
    words w = [w] := by
  have key : ∀ w : List Char, (∀ c ∈ w, isBlank c = false) → scan w = (w, []) := by
    intro w
    induction w with
    | nil => intro _; rfl
    | cons a w ih =>
      intro h
      simp [scan, ih fun c hc => h c (List.mem_cons_of_mem _ hc), h a List.mem_cons_self]
  simp [words, key w h, hw]

end Chip8.Text
