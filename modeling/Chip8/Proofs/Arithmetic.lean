import Chip8.Proofs.Encoding

/-! The arithmetic instructions against the integers. Each leaves a result and a flag, which are
those of exact arithmetic on its operands, the flag register among them or not. The operands are
read before anything is written. Where the result and the flag go to one register, the instruction
decides which of them stays. -/

namespace Chip8

inductive Arithmetic
  | add
  | sub
  | subFrom
  | shiftRight
  | shiftLeft
deriving DecidableEq, Repr

namespace Arithmetic

def digit : Arithmetic → Nat
  | .add => 0x4
  | .sub => 0x5
  | .shiftRight => 0x6
  | .subFrom => 0x7
  | .shiftLeft => 0xE

def opcode : Arithmetic → Opcode
  | .add => .add
  | .sub => .sub
  | .subFrom => .subFrom
  | .shiftRight => .shiftRight
  | .shiftLeft => .shiftLeft

def result (a b : Int) : Arithmetic → Int
  | .add => (a + b) % 256
  | .sub => (a - b) % 256
  | .subFrom => (b - a) % 256
  | .shiftRight => b / 2
  | .shiftLeft => 2 * b % 256

def flag (a b : Int) : Arithmetic → Int
  | .add => if 256 ≤ a + b then 1 else 0
  | .sub => if b < a then 1 else 0
  | .subFrom => if a < b then 1 else 0
  | .shiftRight => b % 2
  | .shiftLeft => if 128 ≤ b then 1 else 0

/-- Whether the flag, and not the result, stays in a register that is to hold both. -/
def FlagStays (op : Arithmetic) : Prop := op = .add ∨ op = .shiftRight ∨ op = .shiftLeft

instance (op : Arithmetic) : Decidable op.FlagStays := by
  unfold FlagStays
  infer_instance

def onBytes (a b : UInt8) : Arithmetic → UInt8 × Bool
  | .add => (a + b, 256 ≤ a.toNat + b.toNat)
  | .sub => (a - b, b < a)
  | .subFrom => (b - a, a < b)
  | .shiftRight => (b / 2, b % 2 == 1)
  | .shiftLeft => (2 * b, 128 ≤ b)

theorem onBytes_result (op : Arithmetic) (a b : UInt8) :
    (op.onBytes a b).1.toNat = op.result a.toNat b.toNat := by
  have ha := a.toNat_lt
  have hb := b.toNat_lt
  cases op with
  | add => simp only [onBytes, result, UInt8.toNat_add]; omega
  | sub => simp only [onBytes, result, UInt8.toNat_sub]; omega
  | subFrom => simp only [onBytes, result, UInt8.toNat_sub]; omega
  | shiftRight => simp only [onBytes, result, UInt8.toNat_div, UInt8.reduceToNat]; omega
  | shiftLeft => simp only [onBytes, result, UInt8.toNat_mul, UInt8.reduceToNat]; omega

theorem onBytes_flag (op : Arithmetic) (a b : UInt8) :
    (Cpu.bit (op.onBytes a b).2).toNat = op.flag a.toNat b.toNat := by
  rw [Cpu.toNat_bit]
  cases op with
  | add => simp only [onBytes, flag, decide_eq_true_eq]; split <;> omega
  | sub | subFrom | shiftLeft =>
    simp only [onBytes, flag, decide_eq_true_eq, UInt8.lt_iff_toNat_lt, UInt8.le_iff_toNat_le,
      UInt8.reduceToNat]
    split <;> omega
  | shiftRight =>
    simp only [onBytes, flag, beq_iff_eq, ← UInt8.toNat_inj, UInt8.toNat_mod, UInt8.reduceToNat]
    split <;> omega

end Arithmetic

namespace Cpu

def settle (op : Arithmetic) (x : Fin 16) (r : UInt8 × Bool) (s : Cpu) : Cpu :=
  if op.FlagStays then s.flagLast x r.1 r.2 else s.flagFirst x r.1 r.2

variable (random : UInt8) (s : Cpu) (op : Arithmetic) (x y : Fin 16)

theorem reg_settle_result (hx : x ≠ flag) (r : UInt8 × Bool) : (s.settle op x r).reg x = r.1 := by
  unfold settle
  split
  · rw [reg_flagLast, if_neg hx, if_pos rfl]
  · rw [reg_flagFirst, if_pos rfl]

theorem reg_settle_flag (hx : x ≠ flag) (r : UInt8 × Bool) :
    (s.settle op x r).reg flag = bit r.2 := by
  unfold settle
  split
  · rw [reg_flagLast, if_pos rfl]
  · rw [reg_flagFirst, if_neg hx.symm, if_pos rfl]

theorem reg_settle_shared (r : UInt8 × Bool) :
    (s.settle op flag r).reg flag = if op.FlagStays then bit r.2 else r.1 := by
  unfold settle
  split
  · rw [reg_flagLast, if_pos rfl]
  · rw [reg_flagFirst, if_pos rfl]

theorem reg_settle_of_ne {k : Fin 16} (hx : k ≠ x) (hflag : k ≠ flag) (r : UInt8 × Bool) :
    (s.settle op x r).reg k = s.reg k := by
  unfold settle
  split
  · rw [reg_flagLast, if_neg hflag, if_neg hx]
  · rw [reg_flagFirst, if_neg hx, if_neg hflag]

theorem i_settle (r : UInt8 × Bool) : (s.settle op x r).i = s.i := by
  unfold settle
  split <;> rfl

theorem execute_arithmetic : s.execute random (.ofWord (.ofDigits 8 x y (.ofNat 16 op.digit))) =
    next (s.settle op x (op.onBytes (s.reg x) (s.reg y))) := by
  have hop : Instruction.ofWord (.ofDigits 8 x y (.ofNat 16 op.digit)) =
      ⟨op.opcode, .ofDigits 8 x y (.ofNat 16 op.digit)⟩ := by
    have hdecode := Opcode.decode_arithmetic x y (.ofNat 16 op.digit)
    refine congrArg (Instruction.mk · _) (hdecode.trans ?_)
    cases op <;> rfl
  rw [hop]
  cases op <;> simp only [execute, Arithmetic.opcode, Instruction.x_ofDigits,
    Instruction.y_ofDigits] <;> rfl

theorem execute_addIndex : s.execute random (.ofWord (.ofDigits 15 x 1 14)) =
    next ({ s with i := s.i + (s.reg x).toUInt16 }.setReg flag
      (bit (65536 ≤ s.i.toNat + (s.reg x).toNat))) := by
  have hop : Instruction.ofWord (.ofDigits 15 x 1 14) = ⟨.addIndex, .ofDigits 15 x 1 14⟩ :=
    congrArg (Instruction.mk · _) (Opcode.decode_transfer x 1 14)
  rw [hop]
  simp only [execute, Instruction.x_ofDigits]

theorem reg_arithmetic (r : Fin 16) :
    (s.execute random (.ofWord (.ofDigits 8 x y (.ofNat 16 op.digit)))).1.reg r =
      (s.settle op x (op.onBytes (s.reg x) (s.reg y))).reg r := by
  rw [execute_arithmetic]
  rfl

theorem reg_addIndex (r : Fin 16) :
    (s.execute random (.ofWord (.ofDigits 15 x 1 14))).1.reg r =
      if r = flag then bit (65536 ≤ s.i.toNat + (s.reg x).toNat) else s.reg r := by
  rw [execute_addIndex]
  exact reg_setReg _ flag r _

theorem toNat_i_addIndex : (s.execute random (.ofWord (.ofDigits 15 x 1 14))).1.i.toNat =
    (s.i.toNat + (s.reg x).toNat) % 65536 := by
  rw [execute_addIndex, ← UInt8.toNat_toUInt16, ← UInt16.toNat_add]
  rfl

/-- The result and the flag are those of exact integer arithmetic on the operands as they were, for
any registers, and nothing but the target and the flag register changes. -/
theorem arithmetic_matches_integers :
    (∀ op : Arithmetic,
      let a := (s.reg x).toNat
      let b := (s.reg y).toNat
      let t := (s.execute random (.ofWord (.ofDigits 8 x y (.ofNat 16 op.digit)))).1
      (x ≠ flag → (t.reg x).toNat = op.result a b ∧ (t.reg flag).toNat = op.flag a b) ∧
      (x = flag → (t.reg flag).toNat = if op.FlagStays then op.flag a b else op.result a b) ∧
      (∀ r, r ≠ x → r ≠ flag → t.reg r = s.reg r) ∧ t.i = s.i) ∧
    let a := (s.reg x).toNat
    let t := (s.execute random (.ofWord (.ofDigits 0xF x 1 0xE))).1
    t.i.toNat = (s.i.toNat + a) % 65536 ∧
    (t.reg flag).toNat = (if 65536 ≤ s.i.toNat + a then 1 else 0) ∧
    ∀ r, r ≠ flag → t.reg r = s.reg r := by
  constructor
  · intro op a b t
    have hreg : ∀ r, t.reg r = (s.settle op x (op.onBytes (s.reg x) (s.reg y))).reg r :=
      reg_arithmetic random s op x y
    have hresult := op.onBytes_result (s.reg x) (s.reg y)
    have hflag := op.onBytes_flag (s.reg x) (s.reg y)
    refine ⟨?_, ?_, ?_, ?_⟩
    · intro hx
      rw [hreg, hreg, reg_settle_result s op x hx, reg_settle_flag s op x hx]
      exact ⟨hresult, hflag⟩
    · rintro rfl
      rw [hreg, reg_settle_shared]
      split
      · exact hflag
      · exact hresult
    · intro r hx hr
      rw [hreg, reg_settle_of_ne s op x hx hr]
    · have hi := congrArg (·.1.i) (execute_arithmetic random s op x y)
      exact hi.trans (i_settle s op x _)
  · intro a t
    have hreg : ∀ r, t.reg r = _ := reg_addIndex random s x
    refine ⟨toNat_i_addIndex random s x, ?_, ?_⟩
    · rw [hreg, if_pos rfl, toNat_bit]
      simp only [decide_eq_true_eq, a]
    · intro r hr
      rw [hreg, if_neg hr]

end Cpu
end Chip8
