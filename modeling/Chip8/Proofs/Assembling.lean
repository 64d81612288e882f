import Chip8.Proofs.Reassembly
import Mathlib.Data.List.Induction

/-! Assembling line by line. A line is an instruction, a constant, or neither, and never both: read
as an instruction a constant is a single word, and the only instructions of one word are `cls` and
`ret`, which are no numerals. Each line therefore gives its word, or its index among the failures,
for itself. -/

namespace Chip8
open Text Text.Hex

namespace Text

theorem Solid.cons {c : Char} {t : List Char} (hc : isBlank (lowerChar c) = false ∧ lowerChar c ≠ ',')
    (h : Solid t) : Solid (c :: t) :=
  ⟨List.cons_ne_nil c t, List.forall_mem_cons.mpr ⟨hc, h.2⟩⟩

namespace Hex
variable {limit n : Nat} {cs : List Char}

theorem Numeral.solid (h : Numeral cs n) : Solid cs := by
  refine ⟨h.ne_nil, fun c hc => ?_⟩
  obtain ⟨d, hd⟩ := h.isDigit hc
  exact hd.solid

theorem Literal.solid (h : Literal limit cs n) : Solid cs := by
  rcases h with ⟨-, h | ⟨b, ds, rfl | rfl, rfl, h⟩⟩
  · exact h.solid
  · exact .cons (by decide) (.cons (by decide) h.solid)
  · exact .cons (by decide) (.cons (by decide) h.solid)

end Hex
end Text

namespace Instruction
variable {c : Char} {limit n : Nat} {line : String} {ins : Instruction}

theorem uncomma_lowerChar_of_isBlank (h : isBlank c) : uncomma (lowerChar c) = c := by
  have hcomma : c ≠ ',' := by
    rintro rfl
    exact absurd h (by decide)
  rw [lowerChar_of_isBlank h, uncomma_of_ne hcomma]

theorem tokens_cons_blank (h : isBlank c) (cs : List Char) : tokens (c :: cs) = tokens cs := by
  change words (uncomma (lowerChar c) :: (lower cs).map uncomma) = _
  rw [uncomma_lowerChar_of_isBlank h, words_cons_blank h]
  rfl

theorem tokens_concat_blank (h : isBlank c) (cs : List Char) :
    tokens (cs ++ [c]) = tokens cs := by
  have hline : (lower (cs ++ [c])).map uncomma = (lower cs).map uncomma ++ [c] := by
    simp [lower, uncomma_lowerChar_of_isBlank h]
  change words ((lower (cs ++ [c])).map uncomma) = _
  rw [hline, words_append_blank _ h, words_nil, List.append_nil]
  rfl

theorem tokens_trim (cs : List Char) : tokens (trim cs) = tokens cs := by
  have hfront : tokens (cs.dropWhile isBlank) = tokens cs := by
    induction cs with
    | nil => rfl
    | cons c cs ih =>
      by_cases hc : isBlank c
      · rw [List.dropWhile_cons_of_pos hc, ih, tokens_cons_blank hc]
      · rw [List.dropWhile_cons_of_neg hc]
  have hback : ∀ ds : List Char, tokens (ds.reverse.dropWhile isBlank).reverse = tokens ds := by
    intro ds
    induction ds using List.reverseRecOn with
    | nil => rfl
    | append_singleton ds d ih =>
      rw [List.reverse_append, List.reverse_singleton, List.singleton_append]
      by_cases hd : isBlank d
      · rw [List.dropWhile_cons_of_pos hd, ih, tokens_concat_blank hd]
      · rw [List.dropWhile_cons_of_neg hd, List.reverse_cons, List.reverse_reverse]
  rw [trim, hback, hfront]

theorem word_of_reads_singleton {op : Opcode} {t : List Char} {bits : Nat}
    (h : op.Reads [t] bits) : t = "cls".toList ∨ t = "ret".toList := by
  obtain ⟨hop, ts, hw, ht⟩ := h
  obtain ⟨rfl, rfl⟩ := List.cons.inj hw
  cases ht with
  | operands h =>
    have hlength := h.length_eq
    revert hop hlength
    cases op <;> decide

theorem not_literal_of_parse (h : parse line = .ok ins) : ¬Literal limit (trim line.toList) n := by
  intro hliteral
  obtain ⟨op, bits, hr, -⟩ := ofTokens?_eq_some_iff.mp (parse_eq_ok_iff.mp h)
  rw [← tokens_trim, tokens_of_solid hliteral.solid] at hr
  have hlower := literal?_eq_some_iff.mpr (literal_lower_iff.mpr hliteral)
  rcases word_of_reads_singleton hr with ht | ht
  · rw [ht] at hlower
    cases hlower
  · rw [ht] at hlower
    cases hlower

end Instruction

/-! ## The word of a line -/

open Instruction

variable {line : String} {ins : Instruction} {n : Nat}

def Refused (line : String) : Prop :=
  (∀ ins, parse line ≠ .ok ins) ∧ ∀ n, ¬Literal 0xFFFF (trim line.toList) n

theorem lineWord?_of_parse (h : parse line = .ok ins) : lineWord? line.toList = some ins.word := by
  rw [lineWord?, parse_eq_ok_iff.mp h]

/-- An instruction is no constant, so constants might as well be tried first. -/
theorem lineWord?_eq_constant_first (line : String) : lineWord? line.toList =
    ((literal? 0xFFFF (trim line.toList)).map UInt16.ofNat).or
      ((ofChars? line.toList).map word) := by
  cases h : ofChars? line.toList with
  | none => simp [lineWord?, h]
  | some ins =>
    have hparse := parse_eq_ok_iff.mpr h
    have hnone : literal? 0xFFFF (trim line.toList) = none :=
      Option.eq_none_iff_forall_ne_some.mpr fun n hn =>
        not_literal_of_parse hparse (literal?_eq_some_iff.mp hn)
    rw [lineWord?_of_parse hparse, hnone]
    rfl

theorem lineWord?_of_literal (h : Literal 0xFFFF (trim line.toList) n) :
    lineWord? line.toList = some (UInt16.ofNat n) := by
  rw [lineWord?_eq_constant_first, literal?_eq_some_iff.mpr h]
  rfl

theorem lineWord?_eq_none_iff : lineWord? line.toList = none ↔ Refused line := by
  rw [lineWord?_eq_constant_first, Option.or_eq_none_iff, Option.map_eq_none_iff,
    Option.map_eq_none_iff, and_comm]
  simp only [Refused, Option.eq_none_iff_forall_ne_some, ne_eq, parse_eq_ok_iff,
    literal?_eq_some_iff]

theorem lineWord?_of_lower {digits : List Char} (h : lower (trim line.toList) = digits)
    (hn : literal? 0xFFFF digits = some n) : lineWord? line.toList = some (UInt16.ofNat n) := by
  rw [← h, literal?_eq_some_iff, literal_lower_iff] at hn
  exact lineWord?_of_literal hn

namespace Assembly

theorem getElem?_words (lines : List String) (k : Nat) :
    (ofLines lines).words[k]? = lines[k]?.map fun line => (lineWord? line.toList).getD 0 := by
  simp [ofLines]

theorem failuresFrom_eq_map (k : Nat) (lines : List String) :
    failuresFrom k lines = (failuresFrom 0 lines).map (k + ·) := by
  induction lines generalizing k with
  | nil => rfl
  | cons line lines ih =>
    have hrest : failuresFrom (k + 1) lines = (failuresFrom 1 lines).map (k + ·) := by
      rw [ih (k + 1), ih 1, List.map_map]
      exact List.map_congr_left fun j _ => Nat.add_assoc k 1 j
    simp only [failuresFrom, hrest]
    split <;> rfl

theorem ofLines_append (lines more : List String) : ofLines (lines ++ more) =
    ⟨(ofLines lines).words ++ (ofLines more).words,
      (ofLines lines).failures ++ (ofLines more).failures.map (lines.length + ·)⟩ := by
  simp only [ofLines, List.map_append, failuresFrom_append, Nat.zero_add,
    ← failuresFrom_eq_map lines.length more]

theorem failures_eq_filter (lines : List String) :
    (ofLines lines).failures = (List.range lines.length).filter fun k =>
      (lines[k]?.bind fun line => lineWord? line.toList).isNone := by
  induction lines with
  | nil => rfl
  | cons line lines ih =>
    have hrest : failuresFrom 1 lines = (ofLines lines).failures.map Nat.succ := by
      rw [failuresFrom_eq_map 1 lines]
      exact List.map_congr_left fun k _ => Nat.add_comm 1 k
    rw [ih] at hrest
    change failuresFrom 0 (line :: lines) = _
    rw [failuresFrom, hrest, List.length_cons, List.range_succ_eq_map, List.filter_cons,
      List.filter_map]
    rfl

theorem failures_ascending (lines : List String) :
    (ofLines lines).failures.Pairwise (· < ·) := by
  rw [failures_eq_filter]
  exact List.pairwise_lt_range.filter _

theorem mem_failures_iff {lines : List String} {k : Nat} :
    k ∈ (ofLines lines).failures ↔ ∃ line, lines[k]? = some line ∧ Refused line := by
  rw [failures_eq_filter, List.mem_filter, List.mem_range, Option.isNone_iff_eq_none]
  constructor
  · intro h
    obtain ⟨hk, hnone⟩ := h
    rw [List.getElem?_eq_getElem hk, Option.bind_some] at hnone
    exact ⟨lines[k], List.getElem?_eq_getElem hk, lineWord?_eq_none_iff.mp hnone⟩
  · intro h
    obtain ⟨line, hline, hrefused⟩ := h
    have hk := (List.getElem?_eq_some_iff.mp hline).1
    rw [hline, Option.bind_some]
    exact ⟨hk, lineWord?_eq_none_iff.mpr hrefused⟩

theorem getElem?_bytes {lines : List String} {k : Nat} {w : Word}
    (h : (ofLines lines).words[k]? = some w) :
    (ofLines lines).bytes[2 * k]? = some w.high ∧ (ofLines lines).bytes[2 * k + 1]? = some w.low := by
  have hjoin := Word.getElem?_join (ofLines lines).words k
  rw [h] at hjoin
  exact hjoin

/-- Every line gives its word or its failure for itself, and no line is in two ways readable. -/
theorem classifies_lines (lines : List String) :
    (ofLines lines).words.length = lines.length ∧
    (∀ (k : Nat) (line : String), lines[k]? = some line →
      (∀ ins, parse line = .ok ins → (ofLines lines).words[k]? = some ins.word) ∧
      (∀ n, Literal 0xFFFF (trim line.toList) n →
        (ofLines lines).words[k]?.map UInt16.toNat = some n) ∧
      (Refused line → (ofLines lines).words[k]? = some 0)) ∧
    (∀ k, k ∈ (ofLines lines).failures ↔ ∃ line, lines[k]? = some line ∧ Refused line) ∧
    (ofLines lines).failures.Pairwise (· < ·) ∧
    (∀ (line : String) ins n, parse line = .ok ins → ¬Literal 0xFFFF (trim line.toList) n) ∧
    (∀ line : String, lineWord? line.toList =
      ((literal? 0xFFFF (trim line.toList)).map UInt16.ofNat).or
        ((ofChars? line.toList).map word)) ∧
    (∀ line : String, lower (trim line.toList) = Opcode.add.mnemonic.toList →
      lineWord? line.toList = some 0x0ADD) ∧
    (∀ line : String, lower (trim line.toList) = Opcode.decimal.mnemonic.toList →
      lineWord? line.toList = some 0x0BCD) ∧
    (∀ more, ofLines (lines ++ more) = ⟨(ofLines lines).words ++ (ofLines more).words,
      (ofLines lines).failures ++ (ofLines more).failures.map (lines.length + ·)⟩) ∧
    (ofLines lines).bytes.length = 2 * lines.length ∧
    ∀ (k : Nat) (w : Word), (ofLines lines).words[k]? = some w →
      (ofLines lines).bytes[2 * k]?.map UInt8.toNat = some (w.toNat / 256) ∧
      (ofLines lines).bytes[2 * k + 1]?.map UInt8.toNat = some (w.toNat % 256) := by
  refine ⟨length_words lines, ?_, fun k => mem_failures_iff, failures_ascending lines,
    fun _ _ _ => not_literal_of_parse, lineWord?_eq_constant_first,
    fun _ h => lineWord?_of_lower h rfl, fun _ h => lineWord?_of_lower h rfl,
    ofLines_append lines, ?_, ?_⟩
  · intro k line hline
    simp only [getElem?_words, hline, Option.map_some]
    refine ⟨?_, ?_, ?_⟩
    · intro ins hins
      rw [lineWord?_of_parse hins]
      rfl
    · intro n hn
      rw [lineWord?_of_literal hn]
      exact congrArg some (UInt16.toNat_ofNat_of_lt (Nat.lt_succ_of_le hn.1))
    · intro hrefused
      rw [lineWord?_eq_none_iff.mpr hrefused]
      rfl
  · rw [bytes, Word.length_join, length_words]
  · intro k w hw
    obtain ⟨hhigh, hlow⟩ := getElem?_bytes hw
    rw [hhigh, hlow]
    exact ⟨congrArg some w.toNat_high, congrArg some w.toNat_low⟩

example : ofLines ["add", "0x", "BCD"] = ⟨[0x0ADD, 0, 0x0BCD], [1]⟩ := by decide +kernel

end Assembly
end Chip8
