import Chip8.Text.Blank
import Chip8.Text.Case
import Mathlib.Data.List.Forall2

/-! Lower case beyond ASCII. `LowerCase` allows every character that is not known here any spelling
that reaches beyond ASCII, so the lower case of the Unicode tables is one of its spellings. All the
spellings of a text have the same words, up to words that no ASCII word can equal. -/

namespace Chip8.Text

def uncomma (c : Char) : Char := if c = ',' then ' ' else c

/-- The characters that are blanks or can have a lower case in ASCII. -/
def Known (c : Char) : Prop := c.toNat < 128 ∨ c.toNat = 0x212A ∨ isBlank c

inductive LowerCase : List Char → List Char → Prop
  | nil : LowerCase [] []
  | known {c : Char} {cs ds : List Char} : Known c → LowerCase cs ds →
      LowerCase (c :: cs) (lowerChar c :: ds)
  | other {c : Char} {es cs ds : List Char} : ¬Known c →
      (∀ e ∈ es, isBlank e = false ∧ e ≠ ',') → (∃ e ∈ es, 128 ≤ e.toNat) → LowerCase cs ds →
      LowerCase (c :: cs) (es ++ ds)

def Foreign (t : List Char) : Prop := ∃ c ∈ t, 128 ≤ c.toNat

instance (t : List Char) : Decidable (Foreign t) := List.decidableBEx (fun c : Char => 128 ≤ c.toNat) t

def Alike (t u : List Char) : Prop := t = u ∨ Foreign t ∧ Foreign u

theorem Foreign.ne_nil {t : List Char} (h : Foreign t) : t ≠ [] := by
  intro heq
  obtain rfl := heq
  obtain ⟨c, hc, -⟩ := h
  cases hc

theorem Alike.nil_iff {t u : List Char} (h : Alike t u) : t = [] ↔ u = [] := by
  rcases h with rfl | ⟨ht, hu⟩
  · rfl
  · exact iff_of_false ht.ne_nil hu.ne_nil

theorem Alike.cons {t u : List Char} (h : Alike t u) (c : Char) : Alike (c :: t) (c :: u) := by
  rcases h with rfl | ⟨⟨a, ha, hat⟩, b, hb, hbt⟩
  · exact .inl rfl
  · exact .inr ⟨⟨a, List.mem_cons_of_mem c ha, hat⟩, b, List.mem_cons_of_mem c hb, hbt⟩

theorem Alike.symm {t u : List Char} (h : Alike t u) : Alike u t := by
  rcases h with rfl | ⟨ht, hu⟩
  · exact .inl rfl
  · exact .inr ⟨hu, ht⟩

theorem scan_cons (c : Char) (cs : List Char) : scan (c :: cs) =
    if isBlank c then ([], words cs) else (c :: (scan cs).1, (scan cs).2) := rfl

theorem scan_append {es : List Char} (h : ∀ e ∈ es, isBlank e = false) (cs : List Char) :
    scan (es ++ cs) = (es ++ (scan cs).1, (scan cs).2) := by
  induction es with
  | nil => rfl
  | cons e es ih =>
    rw [List.cons_append, scan_cons, h e List.mem_cons_self,
      ih fun a ha => h a (List.mem_cons_of_mem e ha)]
    rfl

theorem words_alike {cs ds : List Char} (hw : Alike (scan cs).1 (scan ds).1)
    (hws : List.Forall₂ Alike (scan cs).2 (scan ds).2) :
    List.Forall₂ Alike (words cs) (words ds) := by
  change List.Forall₂ Alike (if (scan cs).1 = [] then _ else _) (if (scan ds).1 = [] then _ else _)
  by_cases h : (scan cs).1 = []
  · rwa [if_pos h, if_pos (hw.nil_iff.mp h)]
  · rw [if_neg h, if_neg (mt hw.nil_iff.mpr h)]
    exact .cons hw hws

theorem uncomma_of_ne {c : Char} (h : c ≠ ',') : uncomma c = c := if_neg h

theorem lowerChar_of_not_known {c : Char} (h : ¬Known c) : lowerChar c = c := by
  obtain ⟨ha, h⟩ := not_or.mp h
  exact lowerChar_eq_self (.inr (by omega)) (not_or.mp h).1

theorem scan_lowerCase {cs ds : List Char} (h : LowerCase cs ds) :
    Alike (scan (ds.map uncomma)).1 (scan ((lower cs).map uncomma)).1 ∧
      List.Forall₂ Alike (scan (ds.map uncomma)).2 (scan ((lower cs).map uncomma)).2 := by
  induction h with
  | nil => exact ⟨.inl rfl, .nil⟩
  | known hc _ ih =>
    rw [lower, List.map_cons, List.map_cons, List.map_cons, scan_cons, scan_cons]
    split
    · exact ⟨.inl rfl, words_alike ih.1 ih.2⟩
    · exact ⟨ih.1.cons _, ih.2⟩
  | @other c es cs ds hc hes hf _ ih =>
    have hlow : lowerChar c = c := lowerChar_of_not_known hc
    have hcomma : c ≠ ',' := by
      intro heq
      obtain rfl := heq
      exact hc (.inl (by decide))
    have hblank : isBlank c = false := by
      simpa using mt (fun hb => Or.inr (Or.inr hb)) hc
    have hun : es.map uncomma = es := by
      conv_rhs => rw [← List.map_id es]
      exact List.map_congr_left fun e he => uncomma_of_ne (hes e he).2
    have hfar : 128 ≤ c.toNat := Nat.le_of_not_lt fun h => hc (.inl h)
    rw [lower, List.map_cons, List.map_cons, hlow, uncomma_of_ne hcomma, scan_cons, hblank,
      List.map_append, hun, scan_append fun e he => (hes e he).1]
    refine ⟨.inr ⟨?_, c, List.mem_cons_self, hfar⟩, ih.2⟩
    obtain ⟨e, he, h128⟩ := hf
    exact ⟨e, List.mem_append_left _ he, h128⟩

theorem words_lowerCase {cs ds : List Char} (h : LowerCase cs ds) :
    List.Forall₂ Alike (words (ds.map uncomma)) (words ((lower cs).map uncomma)) :=
  words_alike (scan_lowerCase h).1 (scan_lowerCase h).2

theorem eq_of_alike {ts us : List (List Char)} (h : List.Forall₂ Alike ts us)
    (hn : ∀ t ∈ ts, ¬Foreign t) : ts = us := by
  induction h with
  | nil => rfl
  | cons ha _ ih =>
    have hne := hn _ List.mem_cons_self
    rw [ha.resolve_right fun hf => hne hf.1, ih fun t ht => hn t (List.mem_cons_of_mem _ ht)]

theorem lowerCase_lower (cs : List Char) : LowerCase cs (lower cs) := by
  induction cs with
  | nil => exact .nil
  | cons c cs ih =>
    by_cases hc : Known c
    · exact .known hc ih
    · rw [lower, List.map_cons, lowerChar_of_not_known hc]
      change LowerCase (c :: cs) ([c] ++ lower cs)
      refine .other hc ?_ ⟨c, by simp, Nat.le_of_not_lt fun h => hc (.inl h)⟩ ih
      intro e he
      obtain rfl := List.mem_singleton.mp he
      refine ⟨by simpa using mt (fun hb => Or.inr (Or.inr hb)) hc, ?_⟩
      intro heq
      obtain rfl := heq
      exact hc (.inl (by decide))

end Chip8.Text
