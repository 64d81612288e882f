import Chip8.Memory
import Chip8.Proofs.Encoding
import Chip8.Time.Timers
import Mathlib.Tactic.IntervalCases

/-! Operations that can go wrong. An index beyond the end of a vector, a number that outgrows its
type, a shift by as many bits as there are, a duration that cannot be told and a clock that runs
backwards are faults. An instruction taken apart with such operations keeps its operands as plain
bytes. -/

namespace Chip8.Checked

inductive Fault
  | index
  | overflow
  | shift
  | duration
  | clock
deriving DecidableEq, Repr

@[simp] theorem ok_bind {α β : Type} (a : α) (f : α → Except Fault β) :
    Except.ok a >>= f = f a := rfl

section Vectors
variable {α : Type} {n : Nat}

def get (v : Vector α n) (k : Nat) : Except Fault α := if h : k < n then .ok v[k] else .error .index

def put (v : Vector α n) (k : Nat) (a : α) : Except Fault (Vector α n) :=
  if h : k < n then .ok (v.set k a) else .error .index

theorem get_eq (v : Vector α n) (k : Fin n) : get v k.val = .ok v[k] := dif_pos k.isLt

theorem put_eq (v : Vector α n) (k : Fin n) (a : α) : put v k.val a = .ok (v.set k a) :=
  dif_pos k.isLt

def front (k : Nat) (as : List α) : Except Fault (List α) :=
  if k ≤ as.length then .ok (as.take k) else .error .index

end Vectors

def addWord (a b : Word) : Except Fault Word :=
  if a.toNat + b.toNat < 2 ^ 16 then .ok (a + b) else .error .overflow

def mulWord (a b : Word) : Except Fault Word :=
  if a.toNat * b.toNat < 2 ^ 16 then .ok (a * b) else .error .overflow

def addSize (a b : Nat) : Except Fault Nat :=
  if a + b < 2 ^ 64 then .ok (a + b) else .error .overflow

def mulSize (a b : Nat) : Except Fault Nat :=
  if a * b < 2 ^ 64 then .ok (a * b) else .error .overflow

def shiftRightByte (b : UInt8) (k : Nat) : Except Fault UInt8 :=
  if k < 8 then .ok (b >>> UInt8.ofNat k) else .error .shift

def shiftLeftByte (b : UInt8) (k : Nat) : Except Fault UInt8 :=
  if k < 8 then .ok (b <<< UInt8.ofNat k) else .error .shift

def shiftRightWord (w : Word) (k : Nat) : Except Fault Word :=
  if k < 16 then .ok (w >>> UInt16.ofNat k) else .error .shift

def addDuration (a b : Nat) : Except Fault Nat :=
  if a + b ≤ Timers.longest then .ok (a + b) else .error .duration

def subDuration (a b : Nat) : Except Fault Nat := if b ≤ a then .ok (a - b) else .error .duration

def since (earlier now : Nat) : Except Fault Nat :=
  if earlier ≤ now then .ok (now - earlier) else .error .clock

/-- An instruction with its operands as they are cut out of its word. -/
structure Fields where
  opcode : Opcode
  x : UInt8
  y : UInt8
  n : UInt8
  nn : UInt8
  nnn : Word
  word : Word
deriving DecidableEq, Repr

def Fields.of (ins : Instruction) : Fields where
  opcode := ins.opcode
  x := UInt8.ofNat ins.x.val
  y := UInt8.ofNat ins.y.val
  n := UInt8.ofNat ins.n.val
  nn := ins.nn
  nnn := ins.nnn
  word := ins.word

def digit (w mask : Word) (k : Nat) : Except Fault UInt8 := do
  let d ← shiftRightWord (w &&& mask) k
  pure d.toUInt8

def ofDigits (family x y n : Nat) : Opcode :=
  match family, x, y, n with
  | 0x0, 0x0, 0xE, 0x0 => .clear
  | 0x0, 0x0, 0xE, 0xE => .ret
  | 0x0, _, _, _ => .sys
  | 0x1, _, _, _ => .jump
  | 0x2, _, _, _ => .call
  | 0x3, _, _, _ => .skipEqByte
  | 0x4, _, _, _ => .skipNeByte
  | 0x5, _, _, _ => .skipEq
  | 0x6, _, _, _ => .setByte
  | 0x7, _, _, _ => .addByte
  | 0x8, _, _, n => .ofArithmetic n
  | 0x9, _, _, _ => .skipNe
  | 0xA, _, _, _ => .setIndex
  | 0xB, _, _, _ => .jumpFrom
  | 0xC, _, _, _ => .random
  | 0xD, _, _, _ => .draw
  | 0xE, _, y, n => .ofKeyTest (16 * y + n)
  | _, _, y, n => .ofTransfer (16 * y + n)

def fields (w : Word) : Except Fault Fields := do
  let family ← digit w 0xF000 12
  let x ← digit w 0x0F00 8
  let y ← digit w 0x00F0 4
  pure {
    opcode := ofDigits family.toNat x.toNat y.toNat (w &&& 0x000F).toNat
    x := x
    y := y
    n := (w &&& 0x000F).toUInt8
    nn := (w &&& 0x00FF).toUInt8
    nnn := w &&& 0x0FFF
    word := w }

def shown (f : Fields) : Except Fault (List Operand) :=
  if (f.opcode = .shiftRight ∨ f.opcode = .shiftLeft) ∧ f.x = f.y then front 1 f.opcode.operands
  else pure f.opcode.operands

theorem toNat_digit_and (w : Nat) (k : Nat) :
    (w &&& 15 * 2 ^ k) >>> k = w / 2 ^ k % 16 := by
  have h15 : (15 * 2 ^ k) >>> k = 2 ^ 4 - 1 := by
    rw [Nat.shiftRight_eq_div_pow, Nat.mul_div_cancel _ (Nat.two_pow_pos k)]
    rfl
  rw [Nat.shiftRight_and_distrib, h15, Nat.and_two_pow_sub_one_eq_mod, Nat.shiftRight_eq_div_pow]

theorem digit_eq {w mask : Word} {k : Nat} (hk : k < 16) (hmask : mask.toNat = 15 * 2 ^ k) :
    digit w mask k = .ok (UInt8.ofNat (w.toNat / 2 ^ k % 16)) := by
  have hshift : ((w &&& mask) >>> UInt16.ofNat k).toNat = w.toNat / 2 ^ k % 16 := by
    rw [UInt16.toNat_shiftRight, UInt16.toNat_and, UInt16.toNat_ofNat', hmask,
      ← toNat_digit_and w.toNat k]
    congr 1
    omega
  have hbyte : ((w &&& mask) >>> UInt16.ofNat k).toUInt8 = UInt8.ofNat (w.toNat / 2 ^ k % 16) := by
    apply UInt8.toNat_inj.mp
    rw [UInt16.toNat_toUInt8, hshift, UInt8.toNat_ofNat']
  rw [digit, shiftRightWord, if_pos hk, ok_bind, hbyte]
  rfl

theorem eq_iff_digits {a b : Word} : a = b ↔ a.family.val = b.family.val ∧ a.x.val = b.x.val ∧
    a.y.val = b.y.val ∧ a.n.val = b.n.val := by
  constructor
  · rintro rfl
    exact ⟨rfl, rfl, rfl, rfl⟩
  · rintro ⟨hf, hx, hy, hn⟩
    exact Word.ext_digits hf hx hy hn

theorem ofDigits_eq_decode (w : Word) :
    ofDigits w.family.val w.x.val w.y.val w.n.val = .decode w := by
  have hclear : w = 0x00E0 ↔ w.family.val = 0 ∧ w.x.val = 0 ∧ w.y.val = 14 ∧ w.n.val = 0 :=
    eq_iff_digits
  have hret : w = 0x00EE ↔ w.family.val = 0 ∧ w.x.val = 0 ∧ w.y.val = 14 ∧ w.n.val = 14 :=
    eq_iff_digits
  have hnn : w.nn.toNat = 16 * w.y.val + w.n.val := by
    rw [Word.toNat_nn]
    simp only [Word.y, Word.n]
    omega
  have hfamily := w.family.isLt
  unfold Opcode.decode
  simp only [hnn, hclear, hret]
  generalize w.family.val = family at *
  interval_cases family
  case «0» =>
    simp only [ofDigits]
    split <;> grind
  all_goals rfl

theorem toNat_and_low {w mask : Word} {k : Nat} (hmask : mask.toNat = 2 ^ k - 1) :
    (w &&& mask).toNat = w.toNat % 2 ^ k := by
  rw [UInt16.toNat_and, hmask, Nat.and_two_pow_sub_one_eq_mod]

@[simp] theorem toNat_ofNat_digit (d : Fin 16) : (UInt8.ofNat d.val).toNat = d.val := by
  rw [UInt8.toNat_ofNat']
  exact Nat.mod_eq_of_lt (by omega)

theorem fields_eq (w : Word) : fields w = .ok (.of (.ofWord w)) := by
  have hfamily : digit w 0xF000 12 = .ok (UInt8.ofNat w.family.val) := digit_eq (by decide) rfl
  have hx : digit w 0x0F00 8 = .ok (UInt8.ofNat w.x.val) := digit_eq (by decide) rfl
  have hy : digit w 0x00F0 4 = .ok (UInt8.ofNat w.y.val) := digit_eq (by decide) rfl
  have hlow : (w &&& 0x000F).toNat = w.n.val := toNat_and_low (k := 4) rfl
  have hn : (w &&& 0x000F).toUInt8 = UInt8.ofNat w.n.val := by
    apply UInt8.toNat_inj.mp
    rw [UInt16.toNat_toUInt8, hlow, UInt8.toNat_ofNat']
  have hnn : (w &&& 0x00FF).toUInt8 = w.nn := by
    apply UInt8.toNat_inj.mp
    rw [UInt16.toNat_toUInt8, toNat_and_low (k := 8) rfl, Word.toNat_nn]
    exact Nat.mod_mod _ _
  have hnnn : w &&& 0x0FFF = w.nnn := by
    apply UInt16.toNat_inj.mp
    rw [Word.toNat_nnn]
    exact toNat_and_low (k := 12) rfl
  rw [fields, hfamily, ok_bind, hx, ok_bind, hy, ok_bind, hlow, hn, hnn, hnnn, toNat_ofNat_digit,
    toNat_ofNat_digit, toNat_ofNat_digit, ofDigits_eq_decode]
  rfl

theorem shown_of (ins : Instruction) : ∃ args, shown (.of ins) = .ok args := by
  obtain ⟨op, w⟩ := ins
  unfold shown
  split
  · next h =>
    rcases h.1 with hop | hop
    · obtain rfl : op = .shiftRight := hop
      exact ⟨_, rfl⟩
    · obtain rfl : op = .shiftLeft := hop
      exact ⟨_, rfl⟩
  · exact ⟨_, rfl⟩

end Chip8.Checked
