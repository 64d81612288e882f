import Chip8.Cpu.Execute
import Mathlib.Algebra.GroupWithZero.Nat

/-! A word is the base of its operation together with its operand bits. This holds of every
instruction but the register comparisons, whose last digit is no operand and is ignored; `canonical`
clears it. Bitwise operations act on each digit of a word by itself, so these facts are shown digit
by digit. -/

namespace Chip8

namespace Word

theorem toNat_digits (w : Word) :
    w.toNat = 4096 * w.family.val + 256 * w.x.val + 16 * w.y.val + w.n.val := by
  have hw := w.toNat_lt
  simp only [family, x, y, n]
  omega

theorem ext_digits {a b : Word} (hf : a.family.val = b.family.val) (hx : a.x.val = b.x.val)
    (hy : a.y.val = b.y.val) (hn : a.n.val = b.n.val) : a = b := by
  apply UInt16.toNat_inj.mp
  rw [toNat_digits a, toNat_digits b, hf, hx, hy, hn]

def ofDigits (family x y n : Fin 16) : Word :=
  UInt16.ofNat (4096 * family.val + 256 * x.val + 16 * y.val + n.val)

theorem toNat_ofDigits (family x y n : Fin 16) :
    (ofDigits family x y n).toNat = 4096 * family.val + 256 * x.val + 16 * y.val + n.val := by
  rw [ofDigits, UInt16.toNat_ofNat']
  omega

theorem digits_ofDigits (family x y n : Fin 16) :
    (ofDigits family x y n).family = family ∧ (ofDigits family x y n).x = x ∧
      (ofDigits family x y n).y = y ∧ (ofDigits family x y n).n = n := by
  simp only [Word.family, Word.x, Word.y, Word.n, Fin.ext_iff, toNat_ofDigits]
  omega

theorem toNat_nn_ofDigits (family x y n : Fin 16) :
    (ofDigits family x y n).nn.toNat = 16 * y.val + n.val := by
  rw [toNat_nn, toNat_ofDigits]
  omega

theorem digit_or (k : Nat) (a b : Word) : (a ||| b).toNat / 2 ^ k % 2 ^ 4 =
    (a.toNat / 2 ^ k % 2 ^ 4) ||| (b.toNat / 2 ^ k % 2 ^ 4) := by
  rw [UInt16.toNat_or, Nat.or_div_two_pow, Nat.or_mod_two_pow]

theorem digit_and (k : Nat) (a b : Word) : (a &&& b).toNat / 2 ^ k % 2 ^ 4 =
    (a.toNat / 2 ^ k % 2 ^ 4) &&& (b.toNat / 2 ^ k % 2 ^ 4) := by
  rw [UInt16.toNat_and, Nat.and_div_two_pow, Nat.and_mod_two_pow]

theorem family_or (a b : Word) : (a ||| b).family.val = a.family.val ||| b.family.val :=
  digit_or 12 a b

theorem x_or (a b : Word) : (a ||| b).x.val = a.x.val ||| b.x.val := digit_or 8 a b

theorem y_or (a b : Word) : (a ||| b).y.val = a.y.val ||| b.y.val := digit_or 4 a b

theorem n_or (a b : Word) : (a ||| b).n.val = a.n.val ||| b.n.val := by
  have h := digit_or 0 a b
  rw [Nat.pow_zero, Nat.div_one, Nat.div_one, Nat.div_one] at h
  exact h

theorem family_and (a b : Word) : (a &&& b).family.val = a.family.val &&& b.family.val :=
  digit_and 12 a b

theorem x_and (a b : Word) : (a &&& b).x.val = a.x.val &&& b.x.val := digit_and 8 a b

theorem y_and (a b : Word) : (a &&& b).y.val = a.y.val &&& b.y.val := digit_and 4 a b

theorem n_and (a b : Word) : (a &&& b).n.val = a.n.val &&& b.n.val := by
  have h := digit_and 0 a b
  rw [Nat.pow_zero, Nat.div_one, Nat.div_one, Nat.div_one] at h
  exact h

theorem and_fifteen (d : Fin 16) : d.val &&& 15 = d.val := by
  revert d
  decide

theorem toNat_and_digits (w m : Word) : (w &&& m).toNat =
    4096 * (w.family.val &&& m.family.val) + 256 * (w.x.val &&& m.x.val) +
      16 * (w.y.val &&& m.y.val) + (w.n.val &&& m.n.val) := by
  rw [toNat_digits, family_and, x_and, y_and, n_and]

theorem and_or_distrib_left (a b c : Word) : a &&& (b ||| c) = (a &&& b) ||| (a &&& c) := by
  apply UInt16.toNat_inj.mp
  simp only [UInt16.toNat_and, UInt16.toNat_or, Nat.and_or_distrib_left]

theorem toNat_or_of_disjoint {a b : Word} (h : a &&& b = 0) :
    (a ||| b).toNat = a.toNat + b.toNat := by
  have hb : a.toBitVec &&& b.toBitVec = 0 := congrArg UInt16.toBitVec h
  change (a.toBitVec ||| b.toBitVec).toNat = a.toBitVec.toNat + b.toBitVec.toNat
  rw [← BitVec.add_eq_or_of_and_eq_zero _ _ hb, BitVec.toNat_add_of_and_eq_zero hb]

/-- The word without the digit that its instruction ignores. -/
def canonical (w : Word) : Word := if w.family.val = 5 ∨ w.family.val = 9 then w &&& 0xFFF0 else w

theorem family_canonical (w : Word) : w.canonical.family.val = w.family.val := by
  unfold canonical
  split
  · rw [family_and]
    exact and_fifteen _
  · rfl

theorem x_canonical (w : Word) : w.canonical.x.val = w.x.val := by
  unfold canonical
  split
  · rw [x_and]
    exact and_fifteen _
  · rfl

theorem y_canonical (w : Word) : w.canonical.y.val = w.y.val := by
  unfold canonical
  split
  · rw [y_and]
    exact and_fifteen _
  · rfl

theorem n_canonical (w : Word) :
    w.canonical.n.val = if w.family.val = 5 ∨ w.family.val = 9 then 0 else w.n.val := by
  unfold canonical
  split
  · rw [n_and]
    exact Nat.and_zero _
  · rfl

theorem canonical_eq_self_iff {w : Word} :
    w.canonical = w ↔ ¬((w.family.val = 5 ∨ w.family.val = 9) ∧ w.n.val ≠ 0) := by
  have hn := n_canonical w
  constructor
  · intro h hzero
    obtain ⟨hf, h0⟩ := hzero
    rw [h, if_pos hf] at hn
    exact h0 hn
  · intro h
    refine ext_digits (family_canonical w) (x_canonical w) (y_canonical w) ?_
    rw [hn]
    split
    · next hf =>
      have h0 : w.n.val = 0 := Classical.byContradiction fun hne => h ⟨hf, hne⟩
      rw [h0]
    · rfl

theorem digits_of_nn {a b : Word} (h : a.nn.toNat = b.nn.toNat) :
    a.y.val = b.y.val ∧ a.n.val = b.n.val := by
  rw [toNat_nn, toNat_nn] at h
  simp only [y, n]
  omega

end Word

namespace Instruction
variable (op : Opcode) (family x y n : Fin 16)

theorem x_ofDigits : (Instruction.mk op (.ofDigits family x y n)).x = x :=
  (Word.digits_ofDigits family x y n).2.1

theorem y_ofDigits : (Instruction.mk op (.ofDigits family x y n)).y = y :=
  (Word.digits_ofDigits family x y n).2.2.1

end Instruction

namespace Opcode
open Word

structure Selects (op : Opcode) (w : Word) : Prop where
  family : w.family.val = op.base.family.val
  x : op.mask.x.val = 15 ∨ w.x.val = op.base.x.val
  y : op.mask.y.val = 15 ∨ w.y.val = op.base.y.val
  n : op.mask.n.val = 15 ∨ w.n.val = op.base.n.val ∨ w.family.val = 5 ∨ w.family.val = 9

theorem selects_of_nn {op : Opcode} {w : Word} (hf : w.family.val = op.base.family.val)
    (hx : op.mask.x.val = 15) (hn : w.nn.toNat = op.base.nn.toNat) : op.Selects w := by
  obtain ⟨hy, hn⟩ := digits_of_nn hn
  exact ⟨hf, .inl hx, .inr hy, .inr (.inl hn)⟩

theorem selects_ofArithmetic {w : Word} (hf : w.family.val = 8)
    (h : ofArithmetic w.n.val ≠ .invalid) : (ofArithmetic w.n.val).Selects w := by
  revert h
  unfold ofArithmetic
  split <;> intro h
  all_goals first
    | exact absurd rfl h
    | exact ⟨hf, .inl rfl, .inl rfl, .inr (.inl ‹_›)⟩

theorem selects_ofKeyTest {w : Word} (hf : w.family.val = 14)
    (h : ofKeyTest w.nn.toNat ≠ .invalid) : (ofKeyTest w.nn.toNat).Selects w := by
  revert h
  unfold ofKeyTest
  split <;> intro h
  all_goals first
    | exact absurd rfl h
    | exact selects_of_nn hf rfl ‹_›

theorem selects_ofTransfer {w : Word} (hf : w.family.val = 15)
    (h : ofTransfer w.nn.toNat ≠ .invalid) : (ofTransfer w.nn.toNat).Selects w := by
  revert h
  unfold ofTransfer
  split <;> intro h
  all_goals first
    | exact absurd rfl h
    | exact selects_of_nn hf rfl ‹_›

theorem selects_decode {w : Word} (h : decode w ≠ .invalid) : (decode w).Selects w := by
  revert h
  unfold decode
  split <;> intro h
  case h_1 hf =>
    by_cases hc : w = 0x00E0
    · subst hc
      exact ⟨rfl, .inr rfl, .inr rfl, .inr (.inl rfl)⟩
    · by_cases hr : w = 0x00EE
      · subst hr
        exact ⟨rfl, .inr rfl, .inr rfl, .inr (.inl rfl)⟩
      · rw [if_neg hc, if_neg hr]
        exact ⟨hf, .inl rfl, .inl rfl, .inl rfl⟩
  case h_6 hf => exact ⟨hf, .inl rfl, .inl rfl, .inr (.inr (.inl hf))⟩
  case h_9 hf => exact selects_ofArithmetic hf h
  case h_10 hf => exact ⟨hf, .inl rfl, .inl rfl, .inr (.inr (.inr hf))⟩
  case h_15 hf => exact selects_ofKeyTest hf h
  case h_16 =>
    have hf : w.family.val = 15 := by
      have hlt := w.family.isLt
      simp only [imp_false] at *
      omega
    exact selects_ofTransfer hf h
  all_goals exact ⟨‹_›, .inl rfl, .inl rfl, .inl rfl⟩

/-- No operand digit of a base is set, and the digit that a comparison ignores is no operand. -/
theorem mask_digits (op : Opcode) : op.mask.family.val = 0 ∧
    (op.mask.x.val = 0 ∨ op.mask.x.val = 15 ∧ op.base.x.val = 0) ∧
    (op.mask.y.val = 0 ∨ op.mask.y.val = 15 ∧ op.base.y.val = 0) ∧
    (op.mask.n.val = 0 ∨ op.mask.n.val = 15 ∧ op.base.n.val = 0) ∧
    (op.base.family.val = 5 ∨ op.base.family.val = 9 → op.mask.n.val = 0 ∧ op.base.n.val = 0) := by
  cases op <;> decide

theorem digit_join {b m d : Nat} (hd : d < 16) (hm : m = 0 ∨ m = 15 ∧ b = 0)
    (h : m = 15 ∨ d = b) : b ||| (d &&& m) = d := by
  rcases hm with rfl | ⟨rfl, rfl⟩
  · have hdb : d = b := h.resolve_left (by decide)
    rw [hdb, Nat.and_zero, Nat.or_zero]
  · rw [Nat.zero_or]
    exact and_fifteen ⟨d, hd⟩

theorem Selects.base_or {op : Opcode} {w : Word} (h : op.Selects w) :
    op.base ||| (w &&& op.mask) = w.canonical := by
  obtain ⟨hmf, hmx, hmy, hmn, hcmp⟩ := mask_digits op
  apply ext_digits
  · rw [family_or, family_and, family_canonical, hmf, h.family, Nat.and_zero, Nat.or_zero]
  · rw [x_or, x_and, x_canonical]
    exact digit_join w.x.isLt hmx h.x
  · rw [y_or, y_and, y_canonical]
    exact digit_join w.y.isLt hmy h.y
  · rw [n_or, n_and, n_canonical]
    by_cases hf : w.family.val = 5 ∨ w.family.val = 9
    · obtain ⟨hm, h0⟩ := hcmp (by rwa [← h.family])
      rw [if_pos hf, hm, h0, Nat.and_zero, Nat.or_zero]
    · rw [if_neg hf]
      exact digit_join w.n.isLt hmn (h.n.imp_right fun hn => hn.resolve_right hf)

theorem base_or_operands {w : Word} (h : decode w ≠ .invalid) :
    (decode w).base ||| (w &&& (decode w).mask) = w.canonical :=
  (selects_decode h).base_or

theorem decode_of_family_five {w : Word} (h : w.family.val = 5) : decode w = .skipEq := by
  rw [decode, h]
  rfl

theorem decode_of_family_nine {w : Word} (h : w.family.val = 9) : decode w = .skipNe := by
  rw [decode, h]
  rfl

theorem decode_of_family_eight {w : Word} (h : w.family.val = 8) :
    decode w = ofArithmetic w.n.val := by
  simp only [decode, h]

theorem decode_of_family_fourteen {w : Word} (h : w.family.val = 14) :
    decode w = ofKeyTest w.nn.toNat := by
  simp only [decode, h]

theorem decode_of_family_fifteen {w : Word} (h : w.family.val = 15) :
    decode w = ofTransfer w.nn.toNat := by
  simp only [decode, h]

theorem decode_arithmetic (x y n : Fin 16) : decode (ofDigits 8 x y n) = ofArithmetic n.val := by
  obtain ⟨hfamily, -, -, hn⟩ := digits_ofDigits 8 x y n
  rw [decode_of_family_eight (congrArg Fin.val hfamily), hn]

theorem decode_transfer (x y n : Fin 16) :
    decode (ofDigits 15 x y n) = ofTransfer (16 * y.val + n.val) := by
  obtain ⟨hfamily, -, -, -⟩ := digits_ofDigits 15 x y n
  rw [decode_of_family_fifteen (congrArg Fin.val hfamily), toNat_nn_ofDigits]

theorem decode_canonical (w : Word) : decode w.canonical = decode w := by
  have hc := family_canonical w
  by_cases h5 : w.family.val = 5
  · rw [decode_of_family_five h5, decode_of_family_five (hc.trans h5)]
  · by_cases h9 : w.family.val = 9
    · rw [decode_of_family_nine h9, decode_of_family_nine (hc.trans h9)]
    · rw [canonical, if_neg (not_or.mpr ⟨h5, h9⟩)]

end Opcode

theorem Operand.sum_masked (w m : Word) (as : List Operand) (hm : ∀ a ∈ as, m &&& a.mask = 0)
    (has : as.Pairwise fun a b => a.mask &&& b.mask = 0) :
    (w &&& as.foldl (fun m a => m ||| a.mask) m).toNat =
      (w &&& m).toNat + (as.map fun a => (w &&& a.mask).toNat).sum := by
  induction as generalizing m with
  | nil => rfl
  | cons a as ih =>
    obtain ⟨ha, has⟩ := List.pairwise_cons.mp has
    have hor : ∀ b ∈ as, (m ||| a.mask) &&& b.mask = 0 := by
      intro b hb
      rw [UInt16.and_comm, Word.and_or_distrib_left, UInt16.and_comm, UInt16.and_comm b.mask,
        hm b (List.mem_cons_of_mem a hb), ha b hb, UInt16.or_zero]
    have hdis : (w &&& m) &&& (w &&& a.mask) = 0 := by
      rw [UInt16.and_assoc, ← UInt16.and_assoc m, UInt16.and_comm m, UInt16.and_assoc,
        hm a List.mem_cons_self, UInt16.and_zero, UInt16.and_zero]
    rw [List.foldl_cons, ih (m ||| a.mask) hor has, Word.and_or_distrib_left,
      Word.toNat_or_of_disjoint hdis, List.map_cons, List.sum_cons, Nat.add_assoc]

theorem Opcode.toNat_and_mask (op : Opcode) (w : Word) :
    (w &&& op.mask).toNat = (op.operands.map fun a => (w &&& a.mask).toNat).sum := by
  have has : op.operands.Pairwise fun a b => a.mask &&& b.mask = 0 := by
    cases op <;> decide
  rw [mask, Operand.sum_masked w 0 op.operands (fun a _ => UInt16.zero_and) has, UInt16.and_zero]
  exact Nat.zero_add _

/-- Executing a word never looks at the digit that `canonical` clears. -/
theorem Cpu.execute_canonical (random : UInt8) (w : Word) (s : Cpu) :
    s.execute random (.ofWord w.canonical) = s.execute random (.ofWord w) := by
  have hx : w.canonical.x = w.x := Fin.ext (Word.x_canonical w)
  have hy : w.canonical.y = w.y := Fin.ext (Word.y_canonical w)
  by_cases h5 : w.family.val = 5
  · rw [Instruction.ofWord, Instruction.ofWord, Opcode.decode_canonical,
      Opcode.decode_of_family_five h5]
    change skipIf (s.reg w.canonical.x == s.reg w.canonical.y) s = skipIf (s.reg w.x == s.reg w.y) s
    rw [hx, hy]
  · by_cases h9 : w.family.val = 9
    · rw [Instruction.ofWord, Instruction.ofWord, Opcode.decode_canonical,
        Opcode.decode_of_family_nine h9]
      change skipIf (s.reg w.canonical.x != s.reg w.canonical.y) s =
        skipIf (s.reg w.x != s.reg w.y) s
      rw [hx, hy]
    · rw [Word.canonical, if_neg (not_or.mpr ⟨h5, h9⟩)]

end Chip8
