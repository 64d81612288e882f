import Chip8.Assembly
import Chip8.Listing
import Chip8.Proofs.Rendering

/-! Assembling the listing of an image. Every listed line assembles, and the word it gives is the
canonical form of the listed one, so an image comes back unless it has an odd byte or sets a digit
that its instruction ignores. Constants are never taken for instructions, because no mnemonic begins
with a zero. -/

namespace Chip8
open Text Text.Hex

theorem Text.trim_of_no_blank {cs : List Char} (h : ∀ c ∈ cs, isBlank c = false) :
    trim cs = cs := by
  have drop : ∀ {l : List Char}, (∀ c ∈ l, isBlank c = false) → l.dropWhile isBlank = l := by
    intro l hl
    cases l with
    | nil => rfl
    | cons c l => rw [List.dropWhile_cons, hl c List.mem_cons_self, if_neg Bool.false_ne_true]
  rw [trim, drop h, drop fun c hc => h c (List.mem_reverse.mp hc), List.reverse_reverse]

theorem Instruction.ofChars?_constant (width n : Nat) :
    ofChars? ('0' :: 'x' :: fixed width n) = none := by
  refine Option.eq_none_iff_forall_ne_some.mpr fun ins h => ?_
  obtain ⟨op, bits, ⟨-, ts, hw, -⟩, -⟩ := ofTokens?_eq_some_iff.mp h
  rw [tokens_of_solid (solid_constant width n)] at hw
  have hhead : op.mnemonic.toList.head? = some '0' := by
    rw [← (List.cons.inj hw).1]
    rfl
  revert hhead
  cases op <;> decide

theorem lineWord?_constant {width n : Nat} (hn : n < scale (width + 1)) (hl : n ≤ 0xFFFF) :
    lineWord? ('0' :: 'x' :: fixed (width + 1) n) = some (UInt16.ofNat n) := by
  rw [lineWord?, Instruction.ofChars?_constant,
    trim_of_no_blank (solid_constant _ _).not_blank]
  dsimp only
  rw [literal?_eq_some_iff.mpr (literal_constant hn hl)]
  rfl

theorem lineWord?_byteText (b : UInt8) : lineWord? (Listing.byteText b) = some b.toUInt16 := by
  have hb := b.toNat_lt
  rw [Listing.byteText, lineWord?_constant hb (by omega), UInt16.ofNat_uInt8ToNat]

theorem lineWord?_chars (w : Word) :
    lineWord? (Instruction.ofWord w).chars = some w.canonical := by
  by_cases h : Opcode.decode w = .invalid
  · have hf : ¬(w.family.val = 5 ∨ w.family.val = 9) := by
      intro hcase
      rcases hcase with h5 | h9
      · rw [Opcode.decode_of_family_five h5] at h
        cases h
      · rw [Opcode.decode_of_family_nine h9] at h
        cases h
    have hw := w.toNat_lt
    have hc : (Instruction.ofWord w).chars = '0' :: 'x' :: fixed 4 w.toNat := if_pos h
    rw [hc, lineWord?_constant hw (by omega), UInt16.ofNat_toNat, Word.canonical, if_neg hf]
  · have hr : Instruction.ofChars? (Instruction.ofWord w).chars =
        some (.encode (Opcode.decode w) w) := Instruction.ofChars?_chars h
    rw [lineWord?, hr]
    exact congrArg some (Opcode.base_or_operands h)

namespace Assembly

theorem failuresFrom_eq_nil {lines : List String}
    (h : ∀ l ∈ lines, lineWord? l.toList ≠ none) (k : Nat) : failuresFrom k lines = [] := by
  induction lines generalizing k with
  | nil => rfl
  | cons l ls ih =>
    have hl : ¬(lineWord? l.toList).isNone := by
      rw [Option.isNone_iff_eq_none]
      exact h l List.mem_cons_self
    rw [failuresFrom, if_neg hl, ih fun m hm => h m (List.mem_cons_of_mem l hm)]

end Assembly

namespace Word

def wordAt (image : List UInt8) (k : Nat) : Word :=
  ofBytes (image.getD (2 * k) 0) (image.getD (2 * k + 1) 0)

theorem split_eq (image : List UInt8) : split image =
    ((List.range (image.length / 2)).map (wordAt image),
      if image.length % 2 = 1 then image.getLast? else none) := by
  fun_induction split image with
  | case1 => rfl
  | case2 b => simp
  | case3 h l rest ih =>
    have hlen : (h :: l :: rest).length / 2 = rest.length / 2 + 1 := by
      simp only [List.length_cons]
      omega
    have hodd : (h :: l :: rest).length % 2 = rest.length % 2 := by
      simp only [List.length_cons]
      omega
    have hlast : rest.length % 2 = 1 → (h :: l :: rest).getLast? = rest.getLast? := by
      intro ho
      cases rest with
      | nil => cases ho
      | cons b bs => rfl
    rw [ih, hlen, hodd, List.range_succ_eq_map, List.map_cons, List.map_map]
    refine Prod.ext rfl ?_
    dsimp only
    split
    · next ho => exact (hlast ho).symm
    · rfl

theorem join_split (image : List UInt8) (h : image.length % 2 = 0) :
    join (split image).1 = image := by
  fun_induction split image with
  | case1 => rfl
  | case2 b => cases h
  | case3 h' l rest ih =>
    have heven : rest.length % 2 = 0 := by
      simp only [List.length_cons] at h
      omega
    change bytes (ofBytes h' l) ++ join (split rest).1 = h' :: l :: rest
    rw [ih heven, bytes, high_ofBytes, low_ofBytes]
    rfl

theorem length_join (ws : List Word) : (join ws).length = 2 * ws.length := by
  induction ws with
  | nil => rfl
  | cons w ws ih =>
    change (high w :: low w :: join ws).length = _
    rw [List.length_cons, List.length_cons, ih, List.length_cons]
    omega

theorem join_injective {ws ws' : List Word} (h : join ws = join ws') : ws = ws' := by
  have hs := congrArg split h
  rw [split_join, split_join] at hs
  exact congrArg Prod.fst hs

end Word

namespace Listing

theorem failuresFrom_range (f : Nat → Word) (n k : Nat) :
    failuresFrom k ((List.range' k n).map f) =
      (List.range' k n).filter fun i => Opcode.decode (f i) = .invalid := by
  induction n generalizing k with
  | zero => rfl
  | succ n ih =>
    rw [List.range'_succ, List.map_cons, failuresFrom, ih, List.filter_cons]
    by_cases h : Opcode.decode (f k) = .invalid <;> simp [h]

theorem failures_ofImage (image : List UInt8) : (ofImage image).failures =
    (List.range (image.length / 2)).filter fun k =>
      Opcode.decode (Word.wordAt image k) = .invalid := by
  rw [ofImage, Word.split_eq, List.range_eq_range']
  exact failuresFrom_range _ _ 0

theorem lines_ofImage (image : List UInt8) : (ofImage image).lines =
    (List.range (image.length / 2)).map (fun k =>
      (Instruction.ofWord (Word.wordAt image k)).text) ++
    (if image.length % 2 = 1 then [String.ofList (byteText (image.getLastD 0))] else []) := by
  rw [ofImage, Word.split_eq, List.map_map, List.getLastD_eq_getLast?]
  dsimp only
  congr 1
  split
  · cases h : image.getLast? with
    | none =>
      obtain rfl := List.getLast?_eq_none_iff.mp h
      contradiction
    | some b => rfl
  · rfl

theorem length_lines (image : List UInt8) :
    (ofImage image).lines.length = (image.length + 1) / 2 := by
  rw [lines_ofImage, List.length_append, List.length_map, List.length_range]
  split
  · rw [List.length_singleton]
    omega
  · rw [List.length_nil]
    omega

theorem lineWord?_ne_none {image : List UInt8} :
    ∀ l ∈ (ofImage image).lines, lineWord? l.toList ≠ none := by
  intro l hl
  rw [lines_ofImage] at hl
  rcases List.mem_append.mp hl with hl | hl
  · obtain ⟨k, -, rfl⟩ := List.mem_map.mp hl
    rw [Instruction.text, String.toList_ofList, lineWord?_chars]
    exact Option.some_ne_none _
  · split at hl
    · obtain rfl := List.mem_singleton.mp hl
      rw [String.toList_ofList, lineWord?_byteText]
      exact Option.some_ne_none _
    · cases hl

theorem words_ofLines_ofImage (image : List UInt8) :
    (Assembly.ofLines (ofImage image).lines).words =
      (List.range (image.length / 2)).map (fun k => (Word.wordAt image k).canonical) ++
      (if image.length % 2 = 1 then [(image.getLastD 0).toUInt16] else []) := by
  rw [Assembly.ofLines, lines_ofImage, List.map_append, List.map_map]
  dsimp only
  congr 1
  · refine List.map_congr_left fun k _ => ?_
    rw [Function.comp_apply, Instruction.text, String.toList_ofList, lineWord?_chars,
      Option.getD_some]
  · split
    · rw [List.map_singleton, String.toList_ofList, lineWord?_byteText, Option.getD_some]
    · rfl

end Listing

theorem Assembly.bytes_eq_image_iff (image : List UInt8) :
    (Assembly.ofLines (Listing.ofImage image).lines).bytes = image ↔
      image.length % 2 = 0 ∧
        ∀ k < image.length / 2, (Word.wordAt image k).canonical = Word.wordAt image k := by
  rw [Assembly.bytes, Listing.words_ofLines_ofImage]
  constructor
  · intro h
    have heven : image.length % 2 = 0 := by
      rw [← h, Word.length_join]
      omega
    have hsplit := Word.join_split image heven
    rw [Word.split_eq] at hsplit
    rw [if_neg (by omega), List.append_nil] at h
    have hws := Word.join_injective (h.trans hsplit.symm)
    refine ⟨heven, fun k hk => ?_⟩
    exact List.map_inj_left.mp hws k (List.mem_range.mpr hk)
  · intro hgiven
    obtain ⟨heven, hc⟩ := hgiven
    have hsplit := Word.join_split image heven
    rw [Word.split_eq] at hsplit
    rw [if_neg (by omega), List.append_nil]
    rw [List.map_congr_left fun k hk => hc k (List.mem_range.mp hk)]
    exact hsplit

/-- Assembling the listing of an image gives its words back, each in canonical form. -/
theorem reassemble_listing (image : List UInt8) :
    (Listing.ofImage image).lines.length = (image.length + 1) / 2 ∧
    (Listing.ofImage image).failures = ((List.range (image.length / 2)).filter fun k =>
      Opcode.decode (Word.wordAt image k) = .invalid) ∧
    (Assembly.ofLines (Listing.ofImage image).lines).failures = [] ∧
    (Assembly.ofLines (Listing.ofImage image).lines).words =
      (List.range (image.length / 2)).map (fun k => (Word.wordAt image k).canonical) ++
      (if image.length % 2 = 1 then [(image.getLastD 0).toUInt16] else []) ∧
    ((Assembly.ofLines (Listing.ofImage image).lines).bytes = image ↔
      image.length % 2 = 0 ∧ ∀ k < image.length / 2,
        ¬(((Word.wordAt image k).family.val = 5 ∨ (Word.wordAt image k).family.val = 9) ∧
          (Word.wordAt image k).n.val ≠ 0)) ∧
    ∀ random w s, Cpu.execute random (.ofWord w.canonical) s =
      Cpu.execute random (.ofWord w) s := by
  refine ⟨Listing.length_lines image, Listing.failures_ofImage image,
    Assembly.failuresFrom_eq_nil Listing.lineWord?_ne_none 0,
    Listing.words_ofLines_ofImage image, ?_, Cpu.execute_canonical⟩
  simp only [Assembly.bytes_eq_image_iff, Word.canonical_eq_self_iff]

end Chip8
