import Chip8.Proofs.KeyWait

/-! Control stays in sight of the program. Only the instruction at the program counter is executed,
only inside the program, and it leads at most a short way out of it, so adding to the program
counter never wraps around; every return address lies inside. A machine that has left the program
does nothing more than pause. -/

namespace Chip8

theorem Word.toNat_add_two {w : Word} (h : w.toNat + 2 < 65536) : (w + 2).toNat = w.toNat + 2 := by
  rw [UInt16.toNat_add]
  exact Nat.mod_eq_of_lt h

namespace Cpu

def skips (ins : Instruction) (s : Cpu) : Bool :=
  match ins.opcode with
  | .skipEqByte => s.reg ins.x == ins.nn
  | .skipNeByte => s.reg ins.x != ins.nn
  | .skipEq => s.reg ins.x == s.reg ins.y
  | .skipNe => s.reg ins.x != s.reg ins.y
  | .skipDown => s.keypad.isDown (s.reg ins.x)
  | .skipUp => !s.keypad.isDown (s.reg ins.x)
  | _ => false

/-- The address an instruction leads to, in numbers that do not wrap around. -/
def target (ins : Instruction) (s : Cpu) : Nat :=
  match ins.opcode with
  | .jump | .call => ins.nnn.toNat
  | .jumpFrom => ins.nnn.toNat + (s.reg offset).toNat
  | .ret => s.stack.head?.elim s.pc.toNat fun a => a.toNat + 2
  | .waitKey | .invalid => s.pc.toNat
  | _ => s.pc.toNat + if s.skips ins then 4 else 2

def stackBehind (ins : Instruction) (s : Cpu) : List Word :=
  match ins.opcode with
  | .call => s.pc :: s.stack
  | .ret => s.stack.tail
  | _ => s.stack

variable {s : Cpu} {ins : Instruction} (random : UInt8)

theorem toNat_pc_skipIf {c : Bool} (h : s.pc.toNat + 4 < 65536) :
    (s.skipIf c).1.pc.toNat = s.pc.toNat + if c then 4 else 2 := by
  have h2 : (s.pc + 2).toNat = s.pc.toNat + 2 := Word.toNat_add_two (by omega)
  cases c with
  | false => exact h2
  | true =>
    have h4 : (s.pc + 2 + 2).toNat = (s.pc + 2).toNat + 2 := Word.toNat_add_two (by omega)
    exact h4.trans (by rw [h2, if_pos rfl])

theorem toNat_nnn_lt (ins : Instruction) : ins.nnn.toNat < 4096 := by
  rw [Instruction.nnn, Word.toNat_nnn]
  exact Nat.mod_lt _ (by omega)

theorem execute_load (s : Cpu) (w : Word) : s.execute random ⟨.load, w⟩ =
    next ((s.loadTo w.x).passBlock w.x) := rfl

theorem toNat_pc_execute (hpc : s.pc.toNat + 4 < 65536)
    (hstack : ∀ a ∈ s.stack, a.toNat + 2 < 65536) (ins : Instruction) :
    (s.execute random ins).1.pc.toNat = s.target ins := by
  obtain ⟨op, w⟩ := ins
  cases op with
  | ret =>
    obtain ⟨v, i, pc, stack, memory, screen, keypad, timers⟩ := s
    cases stack with
    | nil => rfl
    | cons a rest => exact Word.toNat_add_two (hstack a List.mem_cons_self)
  | jump | call | waitKey | invalid => rfl
  | jumpFrom =>
    change (w.nnn + (s.reg offset).toUInt16).toNat = w.nnn.toNat + (s.reg offset).toNat
    have hnnn : w.nnn.toNat < 4096 := toNat_nnn_lt ⟨.jumpFrom, w⟩
    have hreg := (s.reg offset).toNat_lt
    rw [UInt16.toNat_add, UInt8.toNat_toUInt16]
    exact Nat.mod_eq_of_lt (by omega)
  | skipEqByte | skipNeByte | skipEq | skipNe | skipDown | skipUp => exact toNat_pc_skipIf hpc
  | load =>
    rw [execute_load]
    simp only [next, advance, passBlock, loadTo]
    exact Word.toNat_add_two (by omega)
  | _ => exact Word.toNat_add_two (w := s.pc) (by omega)

theorem stack_skipIf (c : Bool) : (s.skipIf c).1.stack = s.stack := by
  cases c <;> rfl

theorem stack_execute (ins : Instruction) :
    (s.execute random ins).1.stack = s.stackBehind ins := by
  obtain ⟨op, w⟩ := ins
  cases op with
  | ret =>
    obtain ⟨v, i, pc, stack, memory, screen, keypad, timers⟩ := s
    cases stack <;> rfl
  | skipEqByte | skipNeByte | skipEq | skipNe | skipDown | skipUp => exact stack_skipIf _
  | load =>
    rw [execute_load]
    simp only [next, advance, passBlock, loadTo, stackBehind]
  | _ => rfl

theorem mem_stackBehind {a : Word} (h : a ∈ s.stackBehind ins) : a = s.pc ∨ a ∈ s.stack := by
  unfold stackBehind at h
  split at h
  · exact List.mem_cons.mp h
  · exact .inr (List.mem_of_mem_tail h)
  · exact .inr h

end Cpu

namespace Machine
variable {m : Machine} {now : Nat} {a : Action}

/-- The farthest address is that of a computed jump with the largest operand and register. -/
structure Confined (m : Machine) : Prop where
  romEnd_ge : Memory.romStart ≤ m.romEnd
  romEnd_le : m.romEnd ≤ 4096
  stack : ∀ a ∈ m.cpu.stack, Memory.romStart ≤ a.toNat ∧ a.toNat < m.romEnd
  pc_le : m.cpu.pc.toNat ≤ 0x10FE

theorem Fresh.confined (h : m.Fresh) : m.Confined := by
  refine ⟨h.romEnd_ge, h.romEnd_le, ?_, ?_⟩
  · intro a ha
    rw [h.stack] at ha
    exact absurd ha List.not_mem_nil
  · rw [h.pc]
    decide

theorem Confined.toNat_pc_execute (h : m.Confined) (random : UInt8) (ins : Instruction) :
    (m.cpu.execute random ins).1.pc.toNat = m.cpu.target ins := by
  have hpc := h.pc_le
  have hend := h.romEnd_le
  apply Cpu.toNat_pc_execute random
  · omega
  · intro a ha
    have hlt := (h.stack a ha).2
    omega

theorem Confined.target_le (h : m.Confined) (hrom : m.InRom) (ins : Instruction) :
    m.cpu.target ins ≤ 0x10FE := by
  have hnnn := Cpu.toNat_nnn_lt ins
  have hreg := (m.cpu.reg Cpu.offset).toNat_lt
  have hpc := hrom.2
  have hend := h.romEnd_le
  have hskip : (if m.cpu.skips ins then 4 else 2) ≤ 4 := by
    split <;> omega
  unfold Cpu.target
  split
  -- an operand of three digits and a register come to 4095 + 255 at most
  case h_1 | h_2 | h_3 => omega
  case h_4 =>
    cases hs : m.cpu.stack with
    | nil => exact h.pc_le
    | cons a rest =>
      have ha : a ∈ m.cpu.stack := hs ▸ List.mem_cons_self
      have hlt := (h.stack a ha).2
      change a.toNat + 2 ≤ 0x10FE
      omega
  case h_5 | h_6 => exact h.pc_le
  case h_7 => omega

theorem Confined.execute (h : m.Confined) (hrom : m.InRom) (random : UInt8) (ins : Instruction) :
    (m.act random (.execute ins)).Confined := by
  refine ⟨h.romEnd_ge, h.romEnd_le, ?_, ?_⟩
  · intro a ha
    change a ∈ (m.cpu.execute random ins).1.stack at ha
    rw [Cpu.stack_execute] at ha
    rcases Cpu.mem_stackBehind ha with rfl | ha
    · exact hrom
    · exact h.stack a ha
  · change (m.cpu.execute random ins).1.pc.toNat ≤ 0x10FE
    rw [h.toNat_pc_execute]
    exact h.target_le hrom ins

theorem Confined.act (h : m.Confined) (random : UInt8)
    (ha : ∀ ins, a = .execute ins → m.InRom) : (m.act random a).Confined := by
  cases a with
  | execute ins => exact h.execute (ha ins rfl) random ins
  | _ => exact ⟨h.romEnd_ge, h.romEnd_le, h.stack, h.pc_le⟩

theorem stack_setKey (m : Machine) (key : UInt8) (pressed : Bool) :
    (m.setKey key pressed).cpu.stack = m.cpu.stack := by
  unfold setKey
  cases m.cpu.keypad.press? key pressed <;> rfl

theorem WaitsAtKey.toNat_pc_setKey (h : m.WaitsAtKey) (key : UInt8) (pressed : Bool) :
    (m.setKey key pressed).cpu.pc.toNat =
      m.cpu.pc.toNat + if (m.cpu.keypad.press? key pressed).isSome then 2 else 0 := by
  cases hp : m.cpu.keypad.press? key pressed with
  | none =>
    rw [setKey_of_press?_none hp]
    rfl
  | some p =>
    have hadvance : (m.setKey key pressed).cpu.pc = m.cpu.pc + 2 := by
      rw [Machine.setKey, hp]
      rfl
    rw [hadvance]
    exact h.toNat_pc_add_two (Keypad.of_press?_eq_some hp).2

theorem Confined.setKey (h : m.Confined) (hw : m.WaitsAtKey) (key : UInt8) (pressed : Bool) :
    (m.setKey key pressed).Confined := by
  have hpc : (m.setKey key pressed).cpu.pc.toNat ≤ 0x10FE := by
    rw [hw.toNat_pc_setKey]
    cases hp : m.cpu.keypad.press? key pressed with
    | none => exact h.pc_le
    | some p =>
      obtain ⟨⟨-, hlt⟩, -⟩ := hw.at_key p.register (Keypad.of_press?_eq_some hp).2
      have hend := h.romEnd_le
      change m.cpu.pc.toNat + 2 ≤ 0x10FE
      omega
  refine ⟨?_, ?_, ?_, hpc⟩
  · rw [romEnd_setKey]
    exact h.romEnd_ge
  · rw [romEnd_setKey]
    exact h.romEnd_le
  · rw [stack_setKey, romEnd_setKey]
    exact h.stack

theorem Confined.after (h : m.Confined) (hw : m.WaitsAtKey) (now : Nat) (c : Call) :
    (m.after now c).Confined := by
  by_cases hres : c.Restarts now m
  · exact (fresh_of_restarts hres).confined
  · have ht : (m.tick now).Confined := ⟨h.romEnd_ge, h.romEnd_le, h.stack, h.pc_le⟩
    cases c with
    | reset => exact absurd (.inl rfl) hres
    | load | loadProgram | loadFile =>
      rw [after_of_failed_load rfl hres]
      exact h
    | cycle random => exact ht.act random fun ins hins => (cycleAction_execute hins).1
    | step random => exact ht.act random fun ins hins => (stepAction_execute hins).1
    | setKey key pressed => exact h.setKey hw key pressed
    | _ => exact ⟨h.romEnd_ge, h.romEnd_le, h.stack, h.pc_le⟩

theorem Reachable.confined (h : m.Reachable) : m.Confined := by
  induction h with
  | start now settings => exact (fresh_start now settings).confined
  | after hm now c ih => exact ih.after hm.waitsAtKey now c

theorem inRom_of_executed {c : Call} {ins : Instruction} (h : ins ∈ (c.action m).executed) :
    m.InRom ∧ ins = m.fetch := by
  cases c with
  | cycle random => exact cycleAction_execute (Action.mem_executed.mp h)
  | step random => exact stepAction_execute (Action.mem_executed.mp h)
  | _ => cases h

theorem cycle_of_not_inRom (h : ¬m.InRom) (random : UInt8) : m.cycle now random =
    { m with cpu := { m.cpu with timers := m.cpu.timers.tick now }, paused := true } := by
  rcases m.cycleAction_cases with ⟨hp, ha⟩ | ⟨-, -, ha⟩ | ⟨-, hrom, -, -⟩ | ⟨-, hrom, -, -⟩
  · rw [cycle, ha, ← hp]
    rfl
  · rw [cycle, ha]
    rfl
  · exact absurd hrom h
  · exact absurd hrom h

theorem step_of_not_inRom (h : ¬m.InRom) (random : UInt8) : m.step now random =
    { m with cpu := { m.cpu with timers := m.cpu.timers.tick now }, paused := true } := by
  rw [step, stepAction, if_neg h]
  rfl

/-- Return addresses lie in the program and the program counter is never far from it; nothing is
executed outside, and a machine that comes there pauses. -/
theorem Reachable.stays_in_program (h : m.Reachable) :
    (Memory.romStart ≤ m.romEnd ∧ m.romEnd ≤ 4096 ∧
      (∀ a ∈ m.cpu.stack, Memory.romStart ≤ a.toNat ∧ a.toNat < m.romEnd) ∧
      m.cpu.pc.toNat ≤ 0x10FE) ∧
    (∀ random ins, (m.cpu.execute random ins).1.pc.toNat = m.cpu.target ins) ∧
    (∀ key pressed, (m.setKey key pressed).cpu.pc.toNat =
      m.cpu.pc.toNat + if (m.cpu.keypad.press? key pressed).isSome then 2 else 0) ∧
    (∀ c : Call, ∀ ins ∈ (c.action m).executed,
      Memory.romStart ≤ m.cpu.pc.toNat ∧ m.cpu.pc.toNat < m.romEnd ∧ ins = m.fetch) ∧
    (¬(Memory.romStart ≤ m.cpu.pc.toNat ∧ m.cpu.pc.toNat < m.romEnd) → ∀ now random,
      m.cycle now random =
        { m with cpu := { m.cpu with timers := m.cpu.timers.tick now }, paused := true } ∧
      m.step now random =
        { m with cpu := { m.cpu with timers := m.cpu.timers.tick now }, paused := true }) := by
  have hc := h.confined
  refine ⟨⟨hc.romEnd_ge, hc.romEnd_le, hc.stack, hc.pc_le⟩, hc.toNat_pc_execute,
    h.waitsAtKey.toNat_pc_setKey, ?_, ?_⟩
  · intro c ins hins
    obtain ⟨⟨hge, hlt⟩, heq⟩ := inRom_of_executed hins
    exact ⟨hge, hlt, heq⟩
  · intro hout now random
    exact ⟨cycle_of_not_inRom hout random, step_of_not_inRom hout random⟩

def strayCall : Machine := (start 0 {}).after 0 (.load (Word.bytes 0x2300))

theorem strayCall_cycle : strayCall.after 0 (.cycle 0) =
    { strayCall with
      cpu := { strayCall.cpu.tick 0 with
        pc := Word.nnn 0x2300, stack := strayCall.cpu.pc :: strayCall.cpu.stack }
      passed := none } := by
  refine cycle_of_word rfl rfl ?_ (Memory.word_ofRom_bytes 0x2300) rfl
  change Memory.romStart ≤ Cpu.origin.toNat ∧ Cpu.origin.toNat < 0x202
  decide

theorem stays_in_program_behind_stray_call :
    (strayCall.after 0 (.cycle 0)).Reachable ∧
    (strayCall.after 0 (.cycle 0)).cpu.stack = [Cpu.origin] ∧
    (strayCall.after 0 (.cycle 0)).cpu.pc = 0x300 ∧
    (strayCall.after 0 (.cycle 0)).paused = false ∧
    (strayCall.after 0 (.cycle 0)).cycle 1 0 =
      { (strayCall.after 0 (.cycle 0)).tick 1 with paused := true } := by
  have hm : (strayCall.after 0 (.cycle 0)).Reachable := ((Reachable.start 0 {}).after 0 _).after 0 _
  have hstack : (strayCall.after 0 (.cycle 0)).cpu.stack = [Cpu.origin] := by
    rw [strayCall_cycle]
    rfl
  have hpc : (strayCall.after 0 (.cycle 0)).cpu.pc = 0x300 := by
    rw [strayCall_cycle]
    rfl
  have hend : (strayCall.after 0 (.cycle 0)).romEnd = 0x202 := by
    rw [strayCall_cycle]
    rfl
  have hrun : (strayCall.after 0 (.cycle 0)).paused = false := by
    rw [strayCall_cycle]
    rfl
  obtain ⟨-, -, -, -, hout⟩ := hm.stays_in_program
  refine ⟨hm, hstack, hpc, hrun, (hout ?_ 1 0).1⟩
  rw [hpc, hend]
  decide

end Machine
end Chip8
