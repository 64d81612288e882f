import Chip8.Proofs.Assembling

/-! Listing an assembled program. Encoding stamps the operand bits of an instruction beside the
digits that choose its operation, so decoding finds the operation again, unless a call of machine
code has the word of `cls` or `ret`. The listing then has the canonical line of every instruction,
however it was spelled, and these lines assemble to the words that were listed. -/

namespace Chip8
open Text

namespace Opcode
open Word

namespace Selects
variable {op : Opcode} {w : Word}

theorem n_eq (h : op.Selects w) (hn : op.mask.n.val ≠ 15)
    (hf : op.base.family.val ≠ 5 ∧ op.base.family.val ≠ 9) : w.n.val = op.base.n.val := by
  rw [← h.family] at hf
  exact (h.n.resolve_left hn).resolve_right (not_or.mpr hf)

theorem nn_eq (h : op.Selects w) (hy : op.mask.y.val ≠ 15) (hn : op.mask.n.val ≠ 15)
    (hf : op.base.family.val ≠ 5 ∧ op.base.family.val ≠ 9) :
    w.nn.toNat = op.base.nn.toNat := by
  have hyeq := h.y.resolve_left hy
  have hneq := h.n_eq hn hf
  simp only [Word.y, Word.n] at hyeq hneq
  rw [toNat_nn, toNat_nn]
  omega

theorem eq_base (h : op.Selects w) (hm : op.mask = 0)
    (hf : op.base.family.val ≠ 5 ∧ op.base.family.val ≠ 9) : w = op.base := by
  have hdigit : op.mask.x.val ≠ 15 ∧ op.mask.y.val ≠ 15 ∧ op.mask.n.val ≠ 15 := by
    rw [hm]
    decide
  exact ext_digits h.family (h.x.resolve_left hdigit.1) (h.y.resolve_left hdigit.2.1)
    (h.n_eq hdigit.2.2 hf)

/-- The choosing digits determine the operation, but `cls` and `ret` are words of `sys` as well. -/
theorem decode_eq (h : op.Selects w) (hop : op ≠ .invalid)
    (hsys : op = .sys → w ≠ 0x00E0 ∧ w ≠ 0x00EE) : decode w = op := by
  have hf := h.family
  cases op with
  | invalid => exact absurd rfl hop
  | sys =>
    obtain ⟨hclear, hret⟩ := hsys rfl
    have hzero : w.family.val = 0 := hf
    simp [decode, hzero, hclear, hret]
  | clear | ret =>
    rw [h.eq_base rfl (by decide)]
    exact decode_base _
  | set | or | and | xor | add | sub | shiftRight | subFrom | shiftLeft =>
    rw [decode_of_family_eight hf, h.n_eq (by decide) (by decide)]
    rfl
  | skipDown | skipUp =>
    rw [decode_of_family_fourteen hf, h.nn_eq (by decide) (by decide) (by decide)]
    rfl
  | readDelay | waitKey | setDelay | setSound | addIndex | glyph | decimal | store | load =>
    rw [decode_of_family_fifteen hf, h.nn_eq (by decide) (by decide) (by decide)]
    rfl
  | jump | call | skipEqByte | skipNeByte | skipEq | setByte | addByte | skipNe | setIndex
  | jumpFrom | random | draw =>
    rw [decode, hf]
    rfl

end Selects

theorem base_and_mask (op : Opcode) : op.base &&& op.mask = 0 := by
  cases op <;> decide

end Opcode

namespace Instruction
open Opcode Word

theorem selects_encode (op : Opcode) (bits : Word) : op.Selects (encode op bits).word := by
  obtain ⟨hmf, hmx, hmy, hmn, -⟩ := mask_digits op
  refine ⟨?_, hmx.symm.imp And.left ?_, hmy.symm.imp And.left ?_,
    hmn.symm.imp And.left fun h => .inl ?_⟩
  · rw [encode, family_or, family_and, hmf, Nat.and_zero, Nat.or_zero]
  · intro h
    rw [encode, x_or, x_and, h, Nat.and_zero, Nat.or_zero]
  · intro h
    rw [encode, y_or, y_and, h, Nat.and_zero, Nat.or_zero]
  · rw [encode, n_or, n_and, h, Nat.and_zero, Nat.or_zero]

theorem encode_encode (op : Opcode) (bits : Word) :
    encode op (encode op bits).word = encode op bits := by
  have hbits : (op.base ||| (bits &&& op.mask)) &&& op.mask = bits &&& op.mask := by
    rw [UInt16.and_comm, and_or_distrib_left, UInt16.and_comm op.mask, base_and_mask,
      UInt16.zero_or, UInt16.and_comm op.mask, UInt16.and_assoc, UInt16.and_self]
  simp only [encode, hbits]

/-- An instruction with no bits besides its operands. Every line that is read gives one. -/
def Encoded (ins : Instruction) : Prop :=
  ins.opcode ≠ .invalid ∧ ∃ bits, ins = encode ins.opcode bits

def listedText (ins : Instruction) : String :=
  if ins.opcode = .sys ∧ ins.nnn = 0x0E0 then "cls"
  else if ins.opcode = .sys ∧ ins.nnn = 0x0EE then "ret"
  else ins.text

theorem encoded_of_parse {line : String} {ins : Instruction} (h : parse line = .ok ins) :
    ins.Encoded := by
  obtain ⟨op, bits, hr, rfl⟩ := ofTokens?_eq_some_iff.mp (parse_eq_ok_iff.mp h)
  exact ⟨(mem_all op).mp hr.1, UInt16.ofNat bits, rfl⟩

namespace Encoded
variable {ins : Instruction}

theorem selects (h : ins.Encoded) : ins.opcode.Selects ins.word := by
  obtain ⟨-, bits, hins⟩ := h
  rw [hins]
  exact selects_encode _ bits

theorem encode_word (h : ins.Encoded) : encode ins.opcode ins.word = ins := by
  obtain ⟨-, bits, hins⟩ := h
  rw [hins]
  exact encode_encode _ bits

theorem canonical_word (h : ins.Encoded) : ins.word.canonical = ins.word := by
  rw [← h.selects.base_or]
  exact congrArg word h.encode_word

theorem nnn_eq_word (h : ins.Encoded) (hop : ins.opcode = .sys) : ins.nnn = ins.word := by
  have hfamily := h.selects.family
  have hzero : ins.word.family.val = 0 := by rwa [hop] at hfamily
  have hlt := ins.word.toNat_lt
  simp only [Word.family] at hzero
  apply UInt16.toNat_inj.mp
  rw [nnn, toNat_nnn]
  omega

theorem ofWord_word (h : ins.Encoded)
    (hsys : ins.opcode = .sys → ins.nnn ≠ 0x0E0 ∧ ins.nnn ≠ 0x0EE) : ofWord ins.word = ins := by
  have hdecode : decode ins.word = ins.opcode := by
    refine h.selects.decode_eq h.1 fun hop => ?_
    rw [← h.nnn_eq_word hop]
    exact hsys hop
  rw [ofWord, hdecode]

theorem text_ofWord (h : ins.Encoded) : (ofWord ins.word).text = ins.listedText := by
  unfold listedText
  split
  · next hclear =>
    rw [← h.nnn_eq_word hclear.1, hclear.2]
    rfl
  · next hclear =>
    split
    · next hret =>
      rw [← h.nnn_eq_word hret.1, hret.2]
      rfl
    · next hret =>
      rw [h.ofWord_word fun hop => ⟨fun hn => hclear ⟨hop, hn⟩, fun hn => hret ⟨hop, hn⟩⟩]

theorem decode_word_ne_invalid (h : ins.Encoded) : decode ins.word ≠ .invalid := by
  by_cases hclear : ins.word = 0x00E0
  · rw [hclear]
    decide
  · by_cases hret : ins.word = 0x00EE
    · rw [hret]
      decide
    · rw [h.selects.decode_eq h.1 fun _ => ⟨hclear, hret⟩]
      exact h.1

theorem parse_text (h : ins.Encoded) : parse ins.text = .ok ins := by
  have hread := ofChars?_chars h.1
  rw [h.encode_word] at hread
  exact parse_eq_ok_iff.mpr (by rwa [text, String.toList_ofList])

theorem parse_listedText (h : ins.Encoded) : parse ins.listedText = .ok (ofWord ins.word) := by
  have hread : ofChars? (ofWord ins.word).chars = some (encode (decode ins.word) ins.word) :=
    ofChars?_chars h.decode_word_ne_invalid
  rw [encode, base_or_operands h.decode_word_ne_invalid, h.canonical_word] at hread
  rw [← h.text_ofWord]
  exact parse_eq_ok_iff.mpr (by rwa [text, String.toList_ofList])

end Encoded
end Instruction

namespace Listing

theorem failuresFrom_eq_nil {ws : List Word} (h : ∀ w ∈ ws, Opcode.decode w ≠ .invalid) (k : Nat) :
    failuresFrom k ws = [] := by
  induction ws generalizing k with
  | nil => rfl
  | cons w ws ih =>
    obtain ⟨hw, hws⟩ := List.forall_mem_cons.mp h
    rw [failuresFrom, if_neg hw, ih hws]

theorem ofImage_join (ws : List Word) : ofImage (Word.join ws) =
    ⟨ws.map fun w => (Instruction.ofWord w).text, failuresFrom 0 ws⟩ := by
  simp [ofImage, Word.split_join]

end Listing

namespace Assembly
open Instruction

theorem ofLines_of_words {lines : List String} {ws : List Word}
    (h : lines.map (fun line => lineWord? line.toList) = ws.map some) :
    ofLines lines = ⟨ws, []⟩ := by
  have hsome : ∀ line ∈ lines, lineWord? line.toList ≠ none := by
    intro line hline hnone
    have hmem := List.mem_map_of_mem (f := fun line => lineWord? line.toList) hline
    simp [h, hnone] at hmem
  have hwords := congrArg (List.map (Option.getD · 0)) h
  simp only [List.map_map, Function.comp_def, Option.getD_some, List.map_id'] at hwords
  rw [ofLines, failuresFrom_eq_nil hsome, hwords]

theorem ofLines_ofImage_join (ws : List Word) :
    ofLines (Listing.ofImage (Word.join ws)).lines = ⟨ws.map Word.canonical, []⟩ := by
  apply ofLines_of_words
  rw [Listing.ofImage_join, List.map_map, List.map_map]
  refine List.map_congr_left fun w _ => ?_
  simp only [Function.comp_apply, text, String.toList_ofList, lineWord?_chars]

theorem ofLines_of_parse {lines : List String} {program : List Instruction}
    (h : lines.map parse = program.map .ok) : ofLines lines = ⟨program.map word, []⟩ := by
  have hword : ∀ line ∈ lines, lineWord? line.toList = (parse line).toOption.map word := by
    intro line hline
    have hmem : parse line ∈ program.map Except.ok := h ▸ List.mem_map_of_mem hline
    obtain ⟨ins, -, hins⟩ := List.mem_map.mp hmem
    rw [lineWord?_of_parse hins.symm, ← hins]
    rfl
  have hread := congrArg (List.map fun r => r.toOption.map word) h
  apply ofLines_of_words
  rw [List.map_congr_left hword]
  simpa [Function.comp_def, Except.toOption] using hread

end Assembly

/-- Listing an assembled program gives the canonical line of every instruction, and these lines
assemble to the same program. -/
theorem Listing.lists_assembled_program (lines : List String) (program : List Instruction)
    (h : lines.map Instruction.parse = program.map .ok) :
    (Assembly.ofLines lines).failures = [] ∧
    (Assembly.ofLines lines).words = program.map Instruction.word ∧
    (Listing.ofImage (Assembly.ofLines lines).bytes).failures = [] ∧
    (Listing.ofImage (Assembly.ofLines lines).bytes).lines =
      program.map Instruction.listedText ∧
    Assembly.ofLines (Listing.ofImage (Assembly.ofLines lines).bytes).lines =
      Assembly.ofLines lines ∧
    ∀ ins ∈ program, Instruction.parse ins.text = .ok ins ∧
      Instruction.parse ins.listedText = .ok (.ofWord ins.word) := by
  have hencoded : ∀ ins ∈ program, ins.Encoded := by
    intro ins hins
    have hparse : .ok ins ∈ lines.map Instruction.parse := h ▸ List.mem_map_of_mem hins
    obtain ⟨line, -, hline⟩ := List.mem_map.mp hparse
    exact Instruction.encoded_of_parse hline
  have hassembled := Assembly.ofLines_of_parse h
  have hbytes : (Assembly.ofLines lines).bytes = Word.join (program.map Instruction.word) := by
    rw [hassembled, Assembly.bytes]
  refine ⟨by rw [hassembled], by rw [hassembled], ?_, ?_, ?_, ?_⟩
  · rw [hbytes, Listing.ofImage_join]
    refine Listing.failuresFrom_eq_nil (List.forall_mem_map.mpr fun ins hins => ?_) 0
    exact (hencoded ins hins).decode_word_ne_invalid
  · rw [hbytes, Listing.ofImage_join, List.map_map]
    exact List.map_congr_left fun ins hins => (hencoded ins hins).text_ofWord
  · rw [hbytes, Assembly.ofLines_ofImage_join, List.map_map, hassembled]
    congr 1
    exact List.map_congr_left fun ins hins => (hencoded ins hins).canonical_word
  · intro ins hins
    exact ⟨(hencoded ins hins).parse_text, (hencoded ins hins).parse_listedText⟩

/-- A call of machine code at `0EE` comes back as `ret`, and the other lines in canonical form. -/
theorem Listing.lists_machine_code_as_return :
    (Listing.ofImage (Assembly.ofLines ["SHR v3", "sys 0ee", "add I,,va"]).bytes).lines =
      ["shr v3", "ret", "add i, va"] := by
  have hparse : ["SHR v3", "sys 0ee", "add I,,va"].map Instruction.parse =
      [⟨.shiftRight, 0x8336⟩, ⟨.sys, 0x00EE⟩, ⟨.addIndex, 0xFA1E⟩].map .ok := by
    decide +kernel
  exact (lists_assembled_program _ _ hparse).2.2.2.1

end Chip8
