import Chip8.Instruction.Parser
import Chip8.Proofs.LowerCase
import Chip8.Proofs.Numeral

/-! The grammar of a line: a mnemonic, and behind it one word for each operand of an operation that
has this mnemonic. The parser reads exactly the lines of the grammar. The first letter of a word
tells registers, the index and numbers apart, and no two operations with one mnemonic take words of
the same kinds, so the order in which the operations are tried is of no account. -/

namespace Chip8
open Text Text.Hex

inductive Operand.Spells : Operand → List Char → Nat → Prop
  | vx {c : Char} {d : Nat} : IsDigit c d → Spells .vx ['v', c] (256 * d)
  | vy {c : Char} {d : Nat} : IsDigit c d → Spells .vy ['v', c] (16 * d)
  | v0 : Spells .v0 ['v', '0'] 0
  | i : Spells .i ['i'] 0
  | n {t : List Char} {k : Nat} : Literal 0xF t k → Spells .n t k
  | nn {t : List Char} {k : Nat} : Literal 0xFF t k → Spells .nn t k
  | nnn {t : List Char} {k : Nat} : Literal 0xFFF t k → Spells .nnn t k

inductive Operand.SpellAll : List Operand → List (List Char) → Nat → Prop
  | nil : SpellAll [] [] 0
  | cons {a : Operand} {as : List Operand} {t : List Char} {ts : List (List Char)} {k ks : Nat} :
      a.Spells t k → SpellAll as ts ks → SpellAll (a :: as) (t :: ts) (k + ks)

/-- The words behind the mnemonic. A shift may name its register once, and a block transfer may
leave its fixed first register out. -/
inductive Opcode.Takes (op : Opcode) : List (List Char) → Nat → Prop
  | operands {ts : List (List Char)} {k : Nat} : Operand.SpellAll op.operands ts k → Takes op ts k
  | shift {c : Char} {d : Nat} : op = .shiftRight ∨ op = .shiftLeft → IsDigit c d →
      Takes op [['v', c]] (256 * d + 16 * d)
  | block {c : Char} {d : Nat} : op = .store ∨ op = .load → IsDigit c d →
      Takes op [['v', c]] (256 * d)

def Opcode.Reads (op : Opcode) (words : List (List Char)) (bits : Nat) : Prop :=
  op ∈ all ∧ ∃ ts, words = op.mnemonic.toList :: ts ∧ op.Takes ts bits

namespace Operand

theorem register?_eq_some_iff {t : List Char} {d : Nat} :
    register? t = some d ↔ ∃ c, t = ['v', c] ∧ IsDigit c d := by
  constructor
  · intro h
    unfold register? at h
    split at h
    · next v c =>
      split at h
      · next hv => exact ⟨c, by rw [hv], digit?_eq_some_iff.mp h⟩
      · cases h
    · cases h
  · intro hgiven
    obtain ⟨c, rfl, hd⟩ := hgiven
    exact digit?_eq_some_iff.mpr hd

theorem bits?_eq_some_iff {a : Operand} (ha : a ≠ .vxy) {t : List Char} {k : Nat} :
    a.bits? t = some k ↔ a.Spells t k := by
  constructor
  · intro h
    cases a with
    | vx =>
      obtain ⟨d, hd, rfl⟩ := Option.map_eq_some_iff.mp h
      obtain ⟨c, rfl, hc⟩ := register?_eq_some_iff.mp hd
      exact .vx hc
    | vy =>
      obtain ⟨d, hd, rfl⟩ := Option.map_eq_some_iff.mp h
      obtain ⟨c, rfl, hc⟩ := register?_eq_some_iff.mp hd
      exact .vy hc
    | v0 =>
      obtain ⟨rfl, rfl⟩ := (Option.ite_none_right_eq_some.mp h).imp_right Option.some.inj
      exact .v0
    | i =>
      obtain ⟨rfl, rfl⟩ := (Option.ite_none_right_eq_some.mp h).imp_right Option.some.inj
      exact .i
    | n => exact .n (literal?_eq_some_iff.mp h)
    | nn => exact .nn (literal?_eq_some_iff.mp h)
    | nnn => exact .nnn (literal?_eq_some_iff.mp h)
    | vxy => exact absurd rfl ha
  · intro h
    cases h with
    | vx hc => exact Option.map_eq_some_iff.mpr ⟨_, register?_eq_some_iff.mpr ⟨_, rfl, hc⟩, rfl⟩
    | vy hc => exact Option.map_eq_some_iff.mpr ⟨_, register?_eq_some_iff.mpr ⟨_, rfl, hc⟩, rfl⟩
    | v0 => rfl
    | i => rfl
    | n hk => exact literal?_eq_some_iff.mpr hk
    | nn hk => exact literal?_eq_some_iff.mpr hk
    | nnn hk => exact literal?_eq_some_iff.mpr hk

theorem allBits?_eq_some_iff {as : List Operand} (has : .vxy ∉ as) {ts : List (List Char)}
    {k : Nat} : allBits? as ts = some k ↔ SpellAll as ts k := by
  constructor
  · intro h
    induction as generalizing ts k with
    | nil =>
      cases ts with
      | nil =>
        obtain rfl := Option.some.inj h
        exact .nil
      | cons t ts => cases h
    | cons a as ih =>
      cases ts with
      | nil => cases h
      | cons t ts =>
        obtain ⟨ha, has⟩ := not_or.mp (mt List.mem_cons.mpr has)
        obtain ⟨k, hk, h⟩ := Option.bind_eq_some_iff.mp h
        obtain ⟨ks, hks, rfl⟩ := Option.map_eq_some_iff.mp h
        exact .cons ((bits?_eq_some_iff (Ne.symm ha)).mp hk) (ih has hks)
  · intro h
    induction h with
    | nil => rfl
    | cons hk _ ih =>
      obtain ⟨ha, has⟩ := not_or.mp (mt List.mem_cons.mpr has)
      simp [allBits?, (bits?_eq_some_iff (Ne.symm ha)).mpr hk, ih has]

theorem SpellAll.length_eq {as : List Operand} {ts : List (List Char)} {k : Nat}
    (h : SpellAll as ts k) : as.length = ts.length := by
  induction h with
  | nil => rfl
  | cons _ _ ih => rw [List.length_cons, List.length_cons, ih]

theorem allBits?_vx {ts : List (List Char)} {k : Nat} : allBits? [.vx] ts = some k ↔
    ∃ c d, IsDigit c d ∧ ts = [['v', c]] ∧ k = 256 * d := by
  rw [allBits?_eq_some_iff (by decide)]
  constructor
  · intro hcase
    rcases hcase with _ | ⟨⟨hd⟩, ⟨⟩⟩
    exact ⟨_, _, hd, rfl, rfl⟩
  · intro hgiven
    obtain ⟨c, d, hd, rfl, rfl⟩ := hgiven
    exact .cons (.vx hd) .nil

theorem allBits?_vxy {ts : List (List Char)} {k : Nat} : allBits? [.vxy] ts = some k ↔
    ∃ c d, IsDigit c d ∧ ts = [['v', c]] ∧ k = 256 * d + 16 * d := by
  constructor
  · intro h
    match ts with
    | [] => cases h
    | [t] =>
      obtain ⟨b, hb, hk⟩ := Option.bind_eq_some_iff.mp h
      obtain ⟨d, hd, rfl⟩ := Option.map_eq_some_iff.mp hb
      obtain ⟨c, rfl, hc⟩ := register?_eq_some_iff.mp hd
      obtain rfl := Option.some.inj hk
      refine ⟨c, d, hc, rfl, ?_⟩
      change 272 * d + 0 = 256 * d + 16 * d
      omega
    | _ :: _ :: _ =>
      obtain ⟨b, -, hk⟩ := Option.bind_eq_some_iff.mp h
      cases hk
  · intro hgiven
    obtain ⟨c, d, hd, rfl, rfl⟩ := hgiven
    have hb : bits? .vxy ['v', c] = some (272 * d) :=
      Option.map_eq_some_iff.mpr ⟨d, register?_eq_some_iff.mpr ⟨c, rfl, hd⟩, rfl⟩
    simp only [allBits?, hb, Option.bind_some, Option.map_some]
    congr 1
    omega

end Operand

namespace Opcode

theorem operands_ne_vxy (op : Opcode) : .vxy ∉ op.operands := by
  cases op <;> decide

theorem short?_eq_some_iff {op : Opcode} {as : List Operand} : op.short? = some as ↔
    (op = .shiftRight ∨ op = .shiftLeft) ∧ as = [.vxy] ∨ (op = .store ∨ op = .load) ∧ as = [.vx] := by
  cases op <;> simp [short?, eq_comm]

theorem length_operands_of_short {op : Opcode} {as : List Operand} (h : op.short? = some as) :
    op.operands.length = 2 := by
  rcases short?_eq_some_iff.mp h with ⟨rfl | rfl, -⟩ | ⟨rfl | rfl, -⟩ <;> rfl

theorem operandBits?_eq (op : Opcode) (ts : List (List Char)) : Instruction.operandBits? op ts =
    (Operand.allBits? op.operands ts).or (op.short?.bind fun as => Operand.allBits? as ts) := by
  rw [Instruction.operandBits?, forms, List.findSome?_cons]
  cases Operand.allBits? op.operands ts with
  | some k => rfl
  | none =>
    cases op.short? with
    | none => rfl
    | some as => simp

theorem operandBits?_of_short {op : Opcode} {as : List Operand} (h : op.short? = some as)
    {c : Char} {k : Nat} (hk : Operand.allBits? as [['v', c]] = some k) :
    Instruction.operandBits? op [['v', c]] = some k := by
  have hn : Operand.allBits? op.operands [['v', c]] = none := by
    refine Option.eq_none_iff_forall_ne_some.mpr fun j hj => ?_
    have hl := ((Operand.allBits?_eq_some_iff op.operands_ne_vxy).mp hj).length_eq
    rw [length_operands_of_short h] at hl
    cases hl
  rw [operandBits?_eq, hn, h]
  exact hk

theorem operandBits?_eq_some_iff {op : Opcode} {ts : List (List Char)} {k : Nat} :
    Instruction.operandBits? op ts = some k ↔ op.Takes ts k := by
  constructor
  · intro h
    rw [operandBits?_eq, Option.or_eq_some_iff] at h
    rcases h with h | ⟨-, h⟩
    · exact .operands ((Operand.allBits?_eq_some_iff op.operands_ne_vxy).mp h)
    · obtain ⟨as, hs, h⟩ := Option.bind_eq_some_iff.mp h
      rcases short?_eq_some_iff.mp hs with ⟨hop, rfl⟩ | ⟨hop, rfl⟩
      · obtain ⟨c, d, hd, rfl, rfl⟩ := Operand.allBits?_vxy.mp h
        exact .shift hop hd
      · obtain ⟨c, d, hd, rfl, rfl⟩ := Operand.allBits?_vx.mp h
        exact .block hop hd
  · intro h
    cases h with
    | operands h =>
      rw [operandBits?_eq, (Operand.allBits?_eq_some_iff op.operands_ne_vxy).mpr h]
      rfl
    | shift hop hd =>
      exact operandBits?_of_short (short?_eq_some_iff.mpr (.inl ⟨hop, rfl⟩))
        (Operand.allBits?_vxy.mpr ⟨_, _, hd, rfl, rfl⟩)
    | block hop hd =>
      exact operandBits?_of_short (short?_eq_some_iff.mpr (.inr ⟨hop, rfl⟩))
        (Operand.allBits?_vx.mpr ⟨_, _, hd, rfl, rfl⟩)

end Opcode

/-- What the first letter of a word says about the operands that it can stand for. -/
inductive Operand.Kind
  | register
  | index
  | number
deriving DecidableEq

namespace Operand

def kind : Operand → Kind
  | .vx | .vy | .v0 | .vxy => .register
  | .i => .index
  | .n | .nn | .nnn => .number

def Kind.ofWord (t : List Char) : Kind :=
  if t.head? = some 'v' then .register else if t.head? = some 'i' then .index else .number

theorem kind_ofWord_of_digit {c : Char} {d : Nat} {cs : List Char} (h : IsDigit c d) :
    Kind.ofWord (c :: cs) = .number := by
  have hv : c ≠ 'v' := by
    intro heq
    obtain rfl := heq
    exact not_isDigit_of_digit?_eq_none rfl d h
  have hi : c ≠ 'i' := by
    intro heq
    obtain rfl := heq
    exact not_isDigit_of_digit?_eq_none rfl d h
  simp [Kind.ofWord, hv, hi]

theorem kind_ofWord_of_literal {limit k : Nat} {t : List Char} (h : Literal limit t k) :
    Kind.ofWord t = .number := by
  rcases h with ⟨-, h | ⟨b, ds, -, rfl, -⟩⟩
  · cases t with
    | nil => rfl
    | cons c cs =>
      obtain ⟨d, hd⟩ := h.isDigit List.mem_cons_self
      exact kind_ofWord_of_digit hd
  · rfl

theorem Spells.kind_ofWord {a : Operand} {t : List Char} {k : Nat} (h : a.Spells t k) :
    Kind.ofWord t = a.kind := by
  cases h with
  | vx | vy | v0 | i => rfl
  | n hk | nn hk | nnn hk => exact kind_ofWord_of_literal hk

theorem SpellAll.kinds {as : List Operand} {ts : List (List Char)} {k : Nat}
    (h : SpellAll as ts k) : ts.map Kind.ofWord = as.map kind := by
  induction h with
  | nil => rfl
  | cons ha _ ih => rw [List.map_cons, List.map_cons, ha.kind_ofWord, ih]

end Operand

namespace Opcode

theorem Takes.kinds {op : Opcode} {ts : List (List Char)} {k : Nat} (h : op.Takes ts k) :
    ∃ as ∈ op.forms, ts.map Operand.Kind.ofWord = as.map Operand.kind := by
  cases h with
  | operands h => exact ⟨_, List.mem_cons_self, h.kinds⟩
  | shift hop _ => rcases hop with rfl | rfl <;> exact ⟨[.vxy], by decide, rfl⟩
  | block hop _ => rcases hop with rfl | rfl <;> exact ⟨[.vx], by decide, rfl⟩

theorem eq_of_mnemonic_of_kinds : ∀ op ∈ all, ∀ op' ∈ all, ∀ as ∈ op.forms, ∀ as' ∈ op'.forms,
    as.map Operand.kind = as'.map Operand.kind → op.mnemonic = op'.mnemonic → op = op' := by
  decide +kernel

theorem Reads.unique {op op' : Opcode} {words : List (List Char)} {k k' : Nat}
    (h : op.Reads words k) (h' : op'.Reads words k') : op = op' ∧ k = k' := by
  obtain ⟨hop, ts, rfl, ht⟩ := h
  obtain ⟨hop', ts', hw, ht'⟩ := h'
  obtain ⟨hm, rfl⟩ := List.cons.inj hw
  obtain ⟨as, has, hk⟩ := ht.kinds
  obtain ⟨as', has', hk'⟩ := ht'.kinds
  obtain rfl := eq_of_mnemonic_of_kinds op hop op' hop' as has as' has' (hk.symm.trans hk')
    (String.toList_inj.mp hm)
  rw [← operandBits?_eq_some_iff] at ht ht'
  exact ⟨rfl, Option.some.inj (ht.symm.trans ht')⟩

end Opcode

namespace Instruction

def firstOf (ops : List Opcode) : List (List Char) → Option Instruction
  | [] => none
  | m :: args => ops.findSome? fun op =>
    if op.mnemonic.toList = m then
      (operandBits? op args).map fun bits => encode op (UInt16.ofNat bits)
    else none

theorem ofTokens?_eq_firstOf (words : List (List Char)) :
    ofTokens? words = firstOf Opcode.all words := by
  cases words <;> rfl

theorem firstOf_eq_some_iff {ops : List Opcode} (hops : ∀ op, op ∈ ops ↔ op ∈ Opcode.all)
    {words : List (List Char)} {ins : Instruction} : firstOf ops words = some ins ↔
      ∃ op bits, op.Reads words bits ∧ ins = encode op (UInt16.ofNat bits) := by
  cases words with
  | nil =>
    constructor
    · intro h
      cases h
    · intro hgiven
      obtain ⟨op, bits, ⟨-, ts, h, -⟩, -⟩ := hgiven
      cases h
  | cons m args =>
    have reads : ∀ {op bits}, op.mnemonic.toList = m → op ∈ ops →
        operandBits? op args = some bits → op.Reads (m :: args) bits := by
      intro op bits hargs hop hb
      obtain rfl := hargs
      exact ⟨(hops op).mp hop, args, rfl, Opcode.operandBits?_eq_some_iff.mp hb⟩
    constructor
    · intro h
      obtain ⟨op, hop, h⟩ := List.exists_of_findSome?_eq_some h
      obtain ⟨hm, h⟩ := Option.ite_none_right_eq_some.mp h
      obtain ⟨bits, hb, rfl⟩ := Option.map_eq_some_iff.mp h
      exact ⟨op, bits, reads hm hop hb, rfl⟩
    · intro hgiven
      obtain ⟨op, bits, hr, rfl⟩ := hgiven
      obtain ⟨hop, ts, hw, ht⟩ := id hr
      obtain ⟨rfl, rfl⟩ := List.cons.inj hw
      cases hf : firstOf ops (op.mnemonic.toList :: args) with
      | none =>
        have hn := List.findSome?_eq_none_iff.mp hf op ((hops op).mpr hop)
        rw [if_pos rfl, Opcode.operandBits?_eq_some_iff.mpr ht] at hn
        cases hn
      | some ins =>
        obtain ⟨op', hop', h⟩ := List.exists_of_findSome?_eq_some hf
        obtain ⟨hm, h⟩ := Option.ite_none_right_eq_some.mp h
        obtain ⟨bits', hb, rfl⟩ := Option.map_eq_some_iff.mp h
        obtain ⟨rfl, rfl⟩ := hr.unique (reads hm hop' hb)
        rfl

theorem ofTokens?_eq_some_iff {words : List (List Char)} {ins : Instruction} :
    ofTokens? words = some ins ↔
      ∃ op bits, op.Reads words bits ∧ ins = encode op (UInt16.ofNat bits) := by
  rw [ofTokens?_eq_firstOf]
  exact firstOf_eq_some_iff fun op => Iff.rfl

end Instruction

/-! The grammar holds no character beyond ASCII, so it makes no difference which of its lower cases
a line is read in. -/

theorem Text.Hex.IsDigit.lt {c : Char} {d : Nat} (h : IsDigit c d) : c.toNat < 128 := by
  obtain ⟨hd, rfl | rfl⟩ := h <;> (revert d; decide)

theorem Text.Hex.Numeral.not_foreign {cs : List Char} {n : Nat} (h : Numeral cs n) :
    ¬Foreign cs := by
  intro hgiven
  obtain ⟨c, hc, h128⟩ := hgiven
  obtain ⟨d, hd⟩ := h.isDigit hc
  have hlt := hd.lt
  omega

theorem Text.not_foreign_cons {c : Char} {cs : List Char} (hc : c.toNat < 128)
    (h : ¬Foreign cs) : ¬Foreign (c :: cs) := by
  intro hgiven
  obtain ⟨a, ha, h128⟩ := hgiven
  rcases List.mem_cons.mp ha with rfl | ha
  · omega
  · exact h ⟨a, ha, h128⟩

theorem Text.Hex.Literal.not_foreign {limit n : Nat} {cs : List Char} (h : Literal limit cs n) :
    ¬Foreign cs := by
  rcases h with ⟨-, h | ⟨b, ds, rfl | rfl, rfl, h⟩⟩
  · exact h.not_foreign
  · exact not_foreign_cons (by decide) (not_foreign_cons (by decide) h.not_foreign)
  · exact not_foreign_cons (by decide) (not_foreign_cons (by decide) h.not_foreign)

theorem Text.not_foreign_register {c : Char} {d : Nat} (h : IsDigit c d) : ¬Foreign ['v', c] :=
  not_foreign_cons (by decide) (Numeral.digit h).not_foreign

theorem Operand.Spells.not_foreign {a : Operand} {t : List Char} {k : Nat} (h : a.Spells t k) :
    ¬Foreign t := by
  cases h with
  | vx hd | vy hd => exact not_foreign_register hd
  | v0 | i => decide
  | n hk | nn hk | nnn hk => exact hk.not_foreign

theorem Operand.SpellAll.not_foreign {as : List Operand} {ts : List (List Char)} {k : Nat}
    (h : SpellAll as ts k) : ∀ t ∈ ts, ¬Foreign t := by
  induction h with
  | nil => simp
  | cons ha _ ih => exact List.forall_mem_cons.mpr ⟨ha.not_foreign, ih⟩

theorem Opcode.Reads.not_foreign {op : Opcode} {words : List (List Char)} {k : Nat}
    (h : op.Reads words k) : ∀ t ∈ words, ¬Foreign t := by
  obtain ⟨-, ts, rfl, ht⟩ := h
  refine List.forall_mem_cons.mpr ⟨by cases op <;> decide, ?_⟩
  cases ht with
  | operands ht => exact ht.not_foreign
  | shift _ hd | block _ hd => simpa using not_foreign_register hd

theorem Opcode.reads_iff_of_alike {op : Opcode} {ts us : List (List Char)} {k : Nat}
    (h : List.Forall₂ Alike ts us) : op.Reads ts k ↔ op.Reads us k := by
  constructor
  · intro hr
    rwa [← eq_of_alike h hr.not_foreign]
  · intro hr
    have hs : List.Forall₂ Alike us ts := (h.imp fun _ _ => Alike.symm).flip
    rwa [← eq_of_alike hs hr.not_foreign]

namespace Instruction

theorem parse_eq_elim (line : String) :
    parse line = (ofTokens? (tokens line.toList)).elim (.error ⟨line⟩) .ok := by
  rw [parse, ofChars?]
  cases ofTokens? (tokens line.toList) <;> rfl

theorem parse_eq_ok_iff {line : String} {ins : Instruction} :
    parse line = .ok ins ↔ ofChars? line.toList = some ins := by
  unfold parse
  cases ofChars? line.toList <;> simp

theorem ofTokens?_iff_of_lowerCase {line : String} {text : List Char}
    (h : LowerCase line.toList text) (ins : Instruction) :
    ofTokens? (tokens line.toList) = some ins ↔
      ∃ op bits, op.Reads (words (text.map uncomma)) bits ∧
        ins = encode op (UInt16.ofNat bits) := by
  have alike := words_lowerCase h
  rw [ofTokens?_eq_some_iff]
  exact exists_congr fun op => exists_congr fun bits =>
    and_congr_left' (Opcode.reads_iff_of_alike alike).symm

theorem parse_eq_error_iff {line : String} {text : List Char} (h : LowerCase line.toList text)
    (e : ParseError) : parse line = .error e ↔
      (∀ op bits, ¬Opcode.Reads op (words (text.map uncomma)) bits) ∧ e = ⟨line⟩ := by
  have reads := ofTokens?_iff_of_lowerCase h
  rw [parse_eq_elim]
  cases ht : ofTokens? (tokens line.toList) with
  | none =>
    have hn : ∀ op bits, ¬Opcode.Reads op (words (text.map uncomma)) bits := by
      intro op bits hr
      have hs := (reads _).mpr ⟨op, bits, hr, rfl⟩
      rw [ht] at hs
      cases hs
    simp [hn, eq_comm]
  | some ins =>
    obtain ⟨op, bits, hr, -⟩ := (reads ins).mp ht
    constructor
    · intro he
      cases he
    · intro hgiven
      obtain ⟨hn, -⟩ := hgiven
      exact absurd hr (hn op bits)

/-- The parser reads the lines of the grammar and refuses all others, keeping the line. No words are
read in two ways, so searching the operations in any order finds the same instruction. -/
theorem parse_reads_grammar (line : String) (text : List Char)
    (h : LowerCase line.toList text) :
    (∀ ins, parse line = .ok ins ↔ ∃ op bits, op.Reads (words (text.map uncomma)) bits ∧
      ins = encode op (UInt16.ofNat bits)) ∧
    (∀ e, parse line = .error e ↔
      (∀ op bits, ¬Opcode.Reads op (words (text.map uncomma)) bits) ∧ e = ⟨line⟩) ∧
    (∀ ws op op' bits bits', Opcode.Reads op ws bits → Opcode.Reads op' ws bits' →
      op = op' ∧ bits = bits') ∧
    ∀ ops, (∀ op, op ∈ ops ↔ op ∈ Opcode.all) →
      parse line = (firstOf ops (words (text.map uncomma))).elim (.error ⟨line⟩) .ok := by
  have reads := ofTokens?_iff_of_lowerCase h
  refine ⟨?_, parse_eq_error_iff h, fun _ _ _ _ _ => Opcode.Reads.unique, ?_⟩
  · intro ins
    rw [← reads, parse_eq_elim]
    cases ofTokens? (tokens line.toList) <;> simp
  · intro ops hops
    have hf : firstOf ops (words (text.map uncomma)) = ofTokens? (tokens line.toList) := by
      apply Option.ext
      intro ins
      rw [firstOf_eq_some_iff hops, reads]
    rw [parse_eq_elim, hf]

/-- A Kelvin sign is a `k`, and an ideographic space is a blank. -/
theorem parse_reads_kelvin_sign :
    LowerCase "S\u212AP\u3000VA,".toList "skp\u3000va,".toList ∧
    parse "S\u212AP\u3000VA," = .ok ⟨.skipDown, 0xEA9E⟩ := by
  have h : LowerCase "S\u212AP\u3000VA,".toList "skp\u3000va,".toList := lowerCase_lower _
  have hd : IsDigit 'a' 10 := ⟨by decide, .inl rfl⟩
  have hr : Opcode.Reads .skipDown (words ("skp\u3000va,".toList.map uncomma)) 2560 :=
    ⟨by decide, [['v', 'a']], by decide, .operands (.cons (.vx hd) .nil)⟩
  exact ⟨h, ((parse_reads_grammar _ _ h).1 _).mpr ⟨_, _, hr, rfl⟩⟩

end Instruction

end Chip8
