import Chip8.Text.Hex

/-! Hexadecimal numerals as a grammar, beside the reader that computes their values. A numeral is a
digit, or a numeral with one more digit behind it, so there may be any number of leading zeros. The
reader accepts the numerals up to its limit, behind at most one `0x`, and nothing else. -/

namespace Chip8.Text.Hex

def IsDigit (c : Char) (d : Nat) : Prop := d < 16 ∧ (c = lowerDigit d ∨ c = upperDigit d)

inductive Numeral : List Char → Nat → Prop
  | digit {c : Char} {d : Nat} : IsDigit c d → Numeral [c] d
  | snoc {cs : List Char} {n : Nat} {c : Char} {d : Nat} :
      Numeral cs n → IsDigit c d → Numeral (cs ++ [c]) (16 * n + d)

def Literal (limit : Nat) (cs : List Char) (n : Nat) : Prop :=
  n ≤ limit ∧ (Numeral cs n ∨
    ∃ b ds, (b = 'x' ∨ b = 'X') ∧ cs = '0' :: b :: ds ∧ Numeral ds n)

theorem digit?_eq_some_iff {c : Char} {d : Nat} : digit? c = some d ↔ IsDigit c d := by
  constructor
  · intro h
    have hc : c = Char.ofNat c.toNat := (Char.ofNat_toNat c).symm
    unfold digit? at h
    dsimp only at h
    split at h
    · next hr =>
      obtain rfl := Option.some.inj h
      refine ⟨by omega, .inl ?_⟩
      rw [lowerDigit, if_pos (by omega), show 48 + (c.toNat - 48) = c.toNat by omega]
      exact hc
    · split at h
      · next hr =>
        obtain rfl := Option.some.inj h
        refine ⟨by omega, .inl ?_⟩
        rw [lowerDigit, if_neg (by omega), show 87 + (c.toNat - 87) = c.toNat by omega]
        exact hc
      · split at h
        · next hr =>
          obtain rfl := Option.some.inj h
          refine ⟨by omega, .inr ?_⟩
          rw [upperDigit, if_neg (by omega), show 55 + (c.toNat - 55) = c.toNat by omega]
          exact hc
        · cases h
  · intro hgiven
    obtain ⟨hd, rfl | rfl⟩ := hgiven
    · exact digit?_lowerDigit hd
    · exact digit?_upperDigit hd

theorem Numeral.isDigit {cs : List Char} {n : Nat} (h : Numeral cs n) {c : Char} (hc : c ∈ cs) :
    ∃ d, IsDigit c d := by
  induction h with
  | digit hd =>
    obtain rfl := List.mem_singleton.mp hc
    exact ⟨_, hd⟩
  | snoc _ hd ih =>
    rcases List.mem_append.mp hc with hc | hc
    · exact ih hc
    · obtain rfl := List.mem_singleton.mp hc
      exact ⟨_, hd⟩

theorem Numeral.ne_nil {cs : List Char} {n : Nat} (h : Numeral cs n) : cs ≠ [] := by
  cases h <;> simp

theorem Numeral.value?_eq {cs : List Char} {n : Nat} (h : Numeral cs n) :
    value? 0 cs = some n := by
  induction h with
  | digit hd => simp [Hex.value?, digit?_eq_some_iff.mpr hd]
  | snoc _ hd ih => simp [value?_append, ih, Hex.value?, digit?_eq_some_iff.mpr hd]

theorem Numeral.append {as cs : List Char} {acc n : Nat} (ha : Numeral as acc)
    (h : Hex.value? acc cs = some n) : Numeral (as ++ cs) n := by
  induction cs generalizing as acc with
  | nil =>
    obtain rfl := Option.some.inj h
    rwa [List.append_nil]
  | cons c cs ih =>
    obtain ⟨d, hd, hv⟩ := Option.bind_eq_some_iff.mp h
    rw [show as ++ c :: cs = (as ++ [c]) ++ cs by simp]
    exact ih (ha.snoc (digit?_eq_some_iff.mp hd)) hv

theorem value?_eq_some_iff {c : Char} {cs : List Char} {n : Nat} :
    value? 0 (c :: cs) = some n ↔ Numeral (c :: cs) n := by
  constructor
  · intro h
    obtain ⟨d, hd, hv⟩ := Option.bind_eq_some_iff.mp h
    rw [Nat.mul_zero, Nat.zero_add] at hv
    exact (Numeral.digit (digit?_eq_some_iff.mp hd)).append hv
  · exact Numeral.value?_eq

theorem not_isDigit_of_digit?_eq_none {c : Char} (h : digit? c = none) (d : Nat) :
    ¬IsDigit c d := by
  intro hd
  rw [digit?_eq_some_iff.mpr hd] at h
  cases h

theorem Numeral.unmark {cs : List Char} {n : Nat} (h : Numeral cs n) : unmark cs = cs := by
  match cs, h with
  | [], _ | [_], _ => rfl
  | a :: b :: cs, h =>
    obtain ⟨d, hd⟩ := h.isDigit (c := b) (by simp)
    have hb : ¬(a = '0' ∧ (b = 'x' ∨ b = 'X')) := by
      intro hgiven
      obtain ⟨-, rfl | rfl⟩ := hgiven
      · exact not_isDigit_of_digit?_eq_none rfl d hd
      · exact not_isDigit_of_digit?_eq_none rfl d hd
    rw [Hex.unmark, if_neg hb]

theorem numeral_unmark_iff {cs : List Char} {n : Nat} : Numeral (unmark cs) n ↔
    Numeral cs n ∨ ∃ b ds, (b = 'x' ∨ b = 'X') ∧ cs = '0' :: b :: ds ∧ Numeral ds n := by
  constructor
  · intro h
    match cs with
    | [] | [_] => exact .inl h
    | a :: b :: ds =>
      by_cases hm : a = '0' ∧ (b = 'x' ∨ b = 'X')
      · rw [unmark, if_pos hm] at h
        exact .inr ⟨b, ds, hm.2, by rw [hm.1], h⟩
      · rw [unmark, if_neg hm] at h
        exact .inl h
  · intro hcase
    rcases hcase with h | ⟨b, ds, hb, rfl, h⟩
    · rwa [h.unmark]
    · rwa [unmark, if_pos ⟨rfl, hb⟩]

theorem literal?_eq_some_iff {limit n : Nat} {cs : List Char} :
    literal? limit cs = some n ↔ Literal limit cs n := by
  rw [Literal, ← numeral_unmark_iff, literal?]
  cases hu : unmark cs with
  | nil =>
    constructor
    · intro h
      cases h
    · intro hgiven
      obtain ⟨-, h⟩ := hgiven
      exact absurd rfl h.ne_nil
  | cons c ds =>
    rw [Option.filter_eq_some_iff, value?_eq_some_iff, decide_eq_true_eq]
    exact and_comm

end Chip8.Text.Hex
