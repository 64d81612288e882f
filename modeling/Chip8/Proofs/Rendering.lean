import Chip8.Instruction.Printer
import Chip8.Proofs.Encoding
import Chip8.Proofs.Grammar

/-! Rendered lines are lines of the grammar. The words of a rendered instruction are its mnemonic
and its operands in small letters, and they stand for the operation of the instruction with the
operand bits of its word. -/

namespace Chip8
open Text Text.Hex

namespace Text

def Solid (t : List Char) : Prop :=
  t ≠ [] ∧ ∀ c ∈ t, isBlank (lowerChar c) = false ∧ lowerChar c ≠ ','

instance (t : List Char) : Decidable (Solid t) :=
  @instDecidableAnd _ _ _ (List.decidableBAll _ t)

theorem toNat_lowerChar (c : Char) : (lowerChar c).toNat =
    if 65 ≤ c.toNat ∧ c.toNat ≤ 90 then c.toNat + 32
    else if c.toNat = 0x212A then 107 else c.toNat := by
  have hletter : ∀ n < 91, (Char.ofNat (n + 32)).toNat = n + 32 := by decide
  unfold lowerChar
  split
  · next hc => exact hletter c.toNat (by omega)
  · split <;> rfl

theorem lowerChar_of_isBlank {c : Char} (h : isBlank c) : lowerChar c = c := by
  simp only [isBlank, Bool.or_eq_true, Bool.and_eq_true, decide_eq_true_eq, beq_iff_eq] at h
  exact lowerChar_eq_self (by omega) (by omega)

theorem Solid.not_blank {t : List Char} (h : Solid t) : ∀ c ∈ t, isBlank c = false := by
  intro c hc
  refine Bool.eq_false_iff.mpr fun hb => ?_
  have hl := (h.2 c hc).1
  rw [lowerChar_of_isBlank hb, hb] at hl
  cases hl

theorem Solid.map_uncomma {t : List Char} (h : Solid t) : (lower t).map uncomma = lower t := by
  rw [lower, List.map_map]
  exact List.map_congr_left fun c hc => uncomma_of_ne (h.2 c hc).2

theorem Solid.words_lower {t : List Char} (h : Solid t) : words (lower t) = [lower t] := by
  refine words_of_no_blank (by simpa [lower] using h.1) fun c hc => ?_
  obtain ⟨a, ha, rfl⟩ := List.mem_map.mp hc
  exact (h.2 a ha).1

theorem tokens_of_solid {t : List Char} (h : Solid t) : Instruction.tokens t = [lower t] := by
  change words ((lower t).map uncomma) = [lower t]
  rw [h.map_uncomma, h.words_lower]

theorem tokens_append_gap {t cs : List Char} (h : Solid t) :
    Instruction.tokens (t ++ ' ' :: cs) = lower t :: Instruction.tokens cs := by
  have hl : (lower (t ++ ' ' :: cs)).map uncomma =
      lower t ++ ' ' :: (lower cs).map uncomma := by
    rw [lower, List.map_append, List.map_append, ← lower, h.map_uncomma]
    rfl
  change words ((lower (t ++ ' ' :: cs)).map uncomma) = lower t :: words ((lower cs).map uncomma)
  rw [hl, words_append_blank _ (by decide), h.words_lower]
  rfl

theorem tokens_append_comma {t cs : List Char} (h : Solid t) :
    Instruction.tokens (t ++ ',' :: ' ' :: cs) = lower t :: Instruction.tokens cs := by
  have hl : (lower (t ++ ',' :: ' ' :: cs)).map uncomma =
      lower t ++ ' ' :: ' ' :: (lower cs).map uncomma := by
    rw [lower, List.map_append, List.map_append, ← lower, h.map_uncomma]
    rfl
  change words ((lower (t ++ ',' :: ' ' :: cs)).map uncomma) =
    lower t :: words ((lower cs).map uncomma)
  rw [hl, words_append_blank _ (by decide), h.words_lower, words_cons_blank (by decide)]
  rfl

theorem tokens_separated {ts : List (List Char)} (h : ∀ t ∈ ts, Solid t) :
    Instruction.tokens (Instruction.separated ts) = ts.map lower := by
  match ts, h with
  | [], _ => rfl
  | [t], h => exact tokens_of_solid (h t List.mem_cons_self)
  | t :: u :: ts, h =>
    rw [Instruction.separated, tokens_append_comma (h t List.mem_cons_self),
      tokens_separated fun t ht => h t (List.mem_cons_of_mem _ ht)]
    rfl

/-- The only blank in it is the space, so nothing in it ends a line. -/
def OnLine (t : List Char) : Prop := ∀ c ∈ t, isBlank c → c = ' '

instance (t : List Char) : Decidable (OnLine t) := List.decidableBAll _ t

theorem OnLine.unbroken {t : List Char} (h : OnLine t) : ∀ c ∈ t, c ≠ '\n' ∧ c ≠ '\r' := by
  intro c hc
  refine ⟨?_, ?_⟩
  · rintro rfl
    exact absurd (h _ hc rfl) (by decide)
  · rintro rfl
    exact absurd (h _ hc rfl) (by decide)

theorem Solid.onLine {t : List Char} (h : Solid t) : OnLine t := by
  intro c hc hblank
  exact absurd hblank (Bool.eq_false_iff.mp (h.not_blank c hc))

theorem onLine_append {t u : List Char} : OnLine (t ++ u) ↔ OnLine t ∧ OnLine u :=
  List.forall_mem_append

theorem onLine_cons {c : Char} {t : List Char} (hc : isBlank c → c = ' ') (ht : OnLine t) :
    OnLine (c :: t) := List.forall_mem_cons.mpr ⟨hc, ht⟩

theorem onLine_intercalate {sep : List Char} {ts : List (List Char)} (hsep : OnLine sep)
    (hts : ∀ t ∈ ts, OnLine t) : OnLine (sep.intercalate ts) := by
  match ts, hts with
  | [], _ => exact List.forall_mem_nil _
  | [t], hts => simpa using hts
  | t :: u :: ts, hts =>
    obtain ⟨ht, hrest⟩ := List.forall_mem_cons.mp hts
    rw [List.intercalate_cons_cons, onLine_append, onLine_append]
    exact ⟨⟨ht, hsep⟩, onLine_intercalate hsep hrest⟩

namespace Hex

theorem lowerChar_upperDigit {d : Nat} (h : d < 16) : lowerChar (upperDigit d) = lowerDigit d := by
  revert d
  decide

theorem lowerChar_lowerDigit {d : Nat} (h : d < 16) : lowerChar (lowerDigit d) = lowerDigit d := by
  revert d
  decide

theorem IsDigit.lowerChar_eq {c : Char} {d : Nat} (h : IsDigit c d) :
    lowerChar c = lowerDigit d := by
  obtain ⟨hd, rfl | rfl⟩ := h
  · exact lowerChar_lowerDigit hd
  · exact lowerChar_upperDigit hd

theorem IsDigit.solid {c : Char} {d : Nat} (h : IsDigit c d) :
    isBlank (lowerChar c) = false ∧ lowerChar c ≠ ',' := by
  have hdigit : ∀ d < 16, isBlank (lowerDigit d) = false ∧ lowerDigit d ≠ ',' := by decide
  rw [h.lowerChar_eq]
  exact hdigit d h.1

theorem mem_fixed {c : Char} {width n : Nat} (h : c ∈ fixed width n) :
    ∃ d < 16, c = upperDigit d := by
  induction width generalizing n with
  | zero => cases h
  | succ width ih =>
    rcases List.mem_append.mp h with h | h
    · exact ih h
    · exact ⟨n % 16, Nat.mod_lt n (by decide), List.mem_singleton.mp h⟩

theorem solid_constant (width n : Nat) : Solid ('0' :: 'x' :: fixed width n) := by
  refine ⟨List.cons_ne_nil _ _, ?_⟩
  refine List.forall_mem_cons.mpr ⟨by decide, List.forall_mem_cons.mpr ⟨by decide, ?_⟩⟩
  intro c hc
  obtain ⟨d, hd, rfl⟩ := mem_fixed hc
  exact IsDigit.solid ⟨hd, .inr rfl⟩

theorem solid_register {d : Nat} (h : d < 16) : Solid ['v', lowerDigit d] := by
  refine ⟨List.cons_ne_nil _ _, List.forall_mem_cons.mpr ⟨by decide, ?_⟩⟩
  simpa using IsDigit.solid ⟨h, .inl rfl⟩

theorem numeral_fixed (width n : Nat) :
    Numeral (fixed (width + 1) n) (n % scale (width + 1)) := by
  have h := value?_fixed 0 (width + 1) n
  rw [Nat.zero_mul, Nat.zero_add] at h
  cases hf : fixed (width + 1) n with
  | nil =>
    have hl := length_fixed (width + 1) n
    rw [hf] at hl
    cases hl
  | cons c cs => rwa [hf, value?_eq_some_iff] at h

theorem literal_constant {limit width n : Nat} (hn : n < scale (width + 1))
    (hl : n ≤ limit) : Literal limit ('0' :: 'x' :: fixed (width + 1) n) n := by
  have h := numeral_fixed width n
  rw [Nat.mod_eq_of_lt hn] at h
  exact ⟨hl, .inr ⟨'x', _, .inl rfl, rfl, h⟩⟩

theorem digit?_lowerChar (c : Char) : digit? (lowerChar c) = digit? c := by
  simp only [digit?, toNat_lowerChar]
  grind

theorem value?_lower (acc : Nat) (cs : List Char) : value? acc (lower cs) = value? acc cs := by
  induction cs generalizing acc with
  | nil => rfl
  | cons c cs ih =>
    have hlower : lower (c :: cs) = lowerChar c :: lower cs := rfl
    simp only [hlower, value?, digit?_lowerChar, ih]

theorem unmark_lower (cs : List Char) : unmark (lower cs) = lower (unmark cs) := by
  match cs with
  | [] | [_] => rfl
  | a :: b :: cs =>
    have hlower : lower (a :: b :: cs) = lowerChar a :: lowerChar b :: lower cs := rfl
    have hmark : lowerChar a = '0' ∧ (lowerChar b = 'x' ∨ lowerChar b = 'X') ↔
        a = '0' ∧ (b = 'x' ∨ b = 'X') := by
      simp only [← Char.toNat_inj, toNat_lowerChar]
      grind
    simp only [hlower, unmark, hmark]
    split <;> rfl

theorem literal_lower_iff {limit n : Nat} {cs : List Char} :
    Literal limit (lower cs) n ↔ Literal limit cs n := by
  have hlower : literal? limit (lower cs) = literal? limit cs := by
    rw [literal?, literal?, unmark_lower]
    cases unmark cs with
    | nil => rfl
    | cons c ds => exact congrArg (Option.filter (· ≤ limit)) (value?_lower 0 (c :: ds))
  rw [← literal?_eq_some_iff, hlower, literal?_eq_some_iff]

end Hex
end Text

namespace Instruction

theorem solid_operandText (ins : Instruction) (a : Operand) : Solid (ins.operandText a) := by
  cases a with
  | vx | vxy => exact solid_register ins.x.isLt
  | vy => exact solid_register ins.y.isLt
  | v0 => exact (by decide : Solid ['v', '0'])
  | i => exact (by decide : Solid ['i'])
  | n | nn | nnn => exact solid_constant _ _

theorem lower_register {d : Nat} (h : d < 16) :
    lower ['v', lowerDigit d] = ['v', lowerDigit d] := by
  revert d
  decide

theorem masked_vx (w : Word) : (w &&& Operand.vx.mask).toNat = 256 * w.x.val := by
  have h := w.toNat_and_digits Operand.vx.mask
  change _ = 4096 * (w.family.val &&& 0) + 256 * (w.x.val &&& 15) + 16 * (w.y.val &&& 0) +
    (w.n.val &&& 0) at h
  simpa only [Nat.and_zero, Word.and_fifteen, Nat.mul_zero, Nat.zero_add, Nat.add_zero] using h

theorem masked_vy (w : Word) : (w &&& Operand.vy.mask).toNat = 16 * w.y.val := by
  have h := w.toNat_and_digits Operand.vy.mask
  change _ = 4096 * (w.family.val &&& 0) + 256 * (w.x.val &&& 0) + 16 * (w.y.val &&& 15) +
    (w.n.val &&& 0) at h
  simpa only [Nat.and_zero, Word.and_fifteen, Nat.mul_zero, Nat.zero_add, Nat.add_zero] using h

theorem masked_low (w : Word) : (w &&& Operand.n.mask).toNat = w.n.val := by
  exact Nat.and_two_pow_sub_one_eq_mod w.toNat 4

theorem masked_nn (w : Word) : (w &&& Operand.nn.mask).toNat = w.nn.toNat := by
  rw [Word.toNat_nn]
  exact Nat.and_two_pow_sub_one_eq_mod w.toNat 8

theorem masked_nnn (w : Word) : (w &&& Operand.nnn.mask).toNat = w.nnn.toNat := by
  rw [Word.toNat_nnn]
  exact Nat.and_two_pow_sub_one_eq_mod w.toNat 12

theorem spells_operandText (ins : Instruction) {a : Operand} (ha : a ≠ .vxy) :
    a.Spells (lower (ins.operandText a)) (ins.word &&& a.mask).toNat := by
  cases a with
  | vx =>
    rw [masked_vx, operandText, lower_register ins.x.isLt]
    exact .vx ⟨ins.x.isLt, .inl rfl⟩
  | vy =>
    rw [masked_vy, operandText, lower_register ins.y.isLt]
    exact .vy ⟨ins.y.isLt, .inl rfl⟩
  | v0 => exact UInt16.and_zero (a := ins.word) ▸ .v0
  | i => exact UInt16.and_zero (a := ins.word) ▸ .i
  | n =>
    rw [masked_low]
    exact .n (literal_lower_iff.mpr (literal_constant ins.n.isLt (Nat.le_of_lt_succ ins.n.isLt)))
  | nn =>
    have hlt := ins.nn.toNat_lt
    rw [masked_nn]
    exact .nn (literal_lower_iff.mpr (literal_constant hlt (Nat.le_of_lt_succ hlt)))
  | nnn =>
    have hlt : ins.word.nnn.toNat < 4096 := by
      rw [Word.toNat_nnn]
      exact Nat.mod_lt _ (by decide)
    rw [masked_nnn]
    exact .nnn (literal_lower_iff.mpr (literal_constant hlt (Nat.le_of_lt_succ hlt)))
  | vxy => exact absurd rfl ha

theorem spellAll_operandText (ins : Instruction) {as : List Operand} (h : .vxy ∉ as) :
    Operand.SpellAll as (as.map fun a => lower (ins.operandText a))
      (as.map fun a => (ins.word &&& a.mask).toNat).sum := by
  induction as with
  | nil => exact .nil
  | cons a as ih =>
    obtain ⟨ha, has⟩ := not_or.mp (mt List.mem_cons.mpr h)
    exact .cons (ins.spells_operandText (Ne.symm ha)) (ih has)

theorem takes_shown (ins : Instruction) :
    ins.opcode.Takes (ins.shown.map fun a => lower (ins.operandText a))
      (ins.word &&& ins.opcode.mask).toNat := by
  by_cases hs : (ins.opcode = .shiftRight ∨ ins.opcode = .shiftLeft) ∧ ins.x = ins.y
  · obtain ⟨hop, hxy⟩ := hs
    have hshown : ins.shown = [.vxy] := by
      rcases hop with h | h <;> simp only [shown, h, if_pos hxy]
    have hbits : (ins.word &&& ins.opcode.mask).toNat = 256 * ins.x.val + 16 * ins.x.val := by
      have hsum : (ins.word &&& ins.opcode.mask).toNat =
          (ins.word &&& Operand.vx.mask).toNat + (ins.word &&& Operand.vy.mask).toNat := by
        rw [Opcode.toNat_and_mask]
        rcases hop with h | h <;> rw [h] <;> rfl
      have hyx : ins.word.y = ins.word.x := hxy.symm
      rw [hsum, masked_vx, masked_vy, hyx]
      rfl
    rw [hshown, hbits, List.map_singleton, operandText, lower_register ins.x.isLt]
    exact .shift hop ⟨ins.x.isLt, .inl rfl⟩
  · have hshown : ins.shown = ins.opcode.operands := by
      unfold shown
      split
      · next h => rw [if_neg fun hxy => hs ⟨.inl h, hxy⟩, h]; rfl
      · next h => rw [if_neg fun hxy => hs ⟨.inr h, hxy⟩, h]; rfl
      · rfl
    rw [hshown, Opcode.toNat_and_mask]
    exact .operands (ins.spellAll_operandText ins.opcode.operands_ne_vxy)

theorem solid_mnemonic (op : Opcode) : Solid op.mnemonic.toList := by
  cases op <;> decide

theorem lower_mnemonic (op : Opcode) : lower op.mnemonic.toList = op.mnemonic.toList := by
  cases op <;> decide

theorem reads_chars {ins : Instruction} (h : ins.opcode ≠ .invalid) :
    ins.opcode.Reads (tokens ins.chars) (ins.word &&& ins.opcode.mask).toNat := by
  refine ⟨(Opcode.mem_all _).mpr h, _, ?_, ins.takes_shown⟩
  rw [chars, if_neg h]
  cases hs : ins.shown with
  | nil => exact (tokens_of_solid (solid_mnemonic _)).trans (by rw [lower_mnemonic]; rfl)
  | cons a as =>
    have hts : ∀ t ∈ (a :: as).map ins.operandText, Solid t := by
      intro t ht
      obtain ⟨b, -, rfl⟩ := List.mem_map.mp ht
      exact ins.solid_operandText b
    change tokens (ins.opcode.mnemonic.toList ++ ' ' :: separated _) = _
    rw [tokens_append_gap (solid_mnemonic _), tokens_separated hts, lower_mnemonic, List.map_map]
    rfl

theorem ofChars?_chars {ins : Instruction} (h : ins.opcode ≠ .invalid) :
    ofChars? ins.chars = some (encode ins.opcode ins.word) := by
  refine ofTokens?_eq_some_iff.mpr ⟨_, _, reads_chars h, ?_⟩
  rw [UInt16.ofNat_toNat, encode, encode, UInt16.and_assoc, UInt16.and_self]

/-! The only blank of a rendered line is the space, so nothing in it ends the line. -/

theorem separated_eq (ts : List (List Char)) : separated ts = [',', ' '].intercalate ts := by
  fun_induction separated ts with
  | case1 => rfl
  | case2 t => simp
  | case3 t u ts ih => simp [ih, List.intercalate_cons_cons]

theorem onLine_text (ins : Instruction) : OnLine ins.text.toList := by
  rw [text, String.toList_ofList, chars]
  split
  · exact (solid_constant 4 _).onLine
  · split
    · exact (solid_mnemonic _).onLine
    · next a as _ =>
      have hoperands : OnLine (separated ((a :: as).map ins.operandText)) := by
        rw [separated_eq]
        apply onLine_intercalate (by decide)
        intro t ht
        obtain ⟨b, -, rfl⟩ := List.mem_map.mp ht
        exact (ins.solid_operandText b).onLine
      rw [onLine_append]
      exact ⟨(solid_mnemonic ins.opcode).onLine, onLine_cons (fun _ => rfl) hoperands⟩

end Instruction
end Chip8
