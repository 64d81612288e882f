import Chip8.Proofs.Confinement
import Chip8.Proofs.Independence
import Chip8.Proofs.Timekeeping
import Mathlib.Tactic.IntervalCases

/-! What an instruction can change. The digits of a word tell its footprint: the registers, the
index, the memory, the screen and the counters that it may touch, where it leads, and what it leaves
on the call stack. Everything outside the footprint stays as it was. The words that stop the machine
change nothing but the pending wait. -/

namespace Chip8

structure Footprint where
  registers : List (Fin 16) := []
  index : Bool := false
  memory : Bool := false
  screen : Bool := false
  delay : Bool := false
  sound : Bool := false
  leadsTo : Cpu → Word := fun s => s.pc + 2
  stack : Cpu → List Word := Cpu.stack

def Footprint.test (holds : Cpu → Bool) : Footprint where
  leadsTo s := s.pc + if holds s then 4 else 2

def Opcode.footprint (w : Word) : Opcode → Footprint
  | .clear => { screen := true }
  | .ret => { leadsTo := fun s => s.stack.headD 0 + 2, stack := fun s => s.stack.tail }
  | .jump => { leadsTo := fun _ => w.nnn }
  | .call => { leadsTo := fun _ => w.nnn, stack := fun s => s.pc :: s.stack }
  | .jumpFrom => { leadsTo := fun s => w.nnn + (s.reg Cpu.offset).toUInt16 }
  | .skipEqByte => .test fun s => s.reg w.x == w.nn
  | .skipNeByte => .test fun s => s.reg w.x != w.nn
  | .skipEq => .test fun s => s.reg w.x == s.reg w.y
  | .skipNe => .test fun s => s.reg w.x != s.reg w.y
  | .skipDown => .test fun s => s.keypad.isDown (s.reg w.x)
  | .skipUp => .test fun s => !s.keypad.isDown (s.reg w.x)
  | .setByte | .addByte | .set | .or | .and | .xor | .random | .readDelay =>
    { registers := [w.x] }
  | .add | .sub | .subFrom | .shiftRight | .shiftLeft => { registers := [w.x, Cpu.flag] }
  | .setIndex | .glyph => { index := true }
  | .draw => { registers := [Cpu.flag], screen := true }
  | .setDelay => { delay := true }
  | .setSound => { sound := true }
  | .addIndex => { registers := [Cpu.flag], index := true }
  | .decimal => { memory := true }
  | .store => { index := true, memory := true }
  | .load => { registers := Cpu.registersTo w.x, index := true }
  | .sys | .waitKey | .invalid => {}

namespace Word

def footprint (w : Word) : Footprint :=
  match w.family.val with
  | 0x0 =>
    if w = 0x00E0 then { screen := true }
    else if w = 0x00EE then
      { leadsTo := fun s => s.stack.headD 0 + 2, stack := fun s => s.stack.tail }
    else {}
  | 0x1 => { leadsTo := fun _ => w.nnn }
  | 0x2 => { leadsTo := fun _ => w.nnn, stack := fun s => s.pc :: s.stack }
  | 0x3 => .test fun s => s.reg w.x == w.nn
  | 0x4 => .test fun s => s.reg w.x != w.nn
  | 0x5 => .test fun s => s.reg w.x == s.reg w.y
  | 0x6 | 0x7 | 0xC => { registers := [w.x] }
  | 0x8 => match w.n.val with
    | 0x0 | 0x1 | 0x2 | 0x3 => { registers := [w.x] }
    | 0x4 | 0x5 | 0x6 | 0x7 | 0xE => { registers := [w.x, Cpu.flag] }
    | _ => {}
  | 0x9 => .test fun s => s.reg w.x != s.reg w.y
  | 0xA => { index := true }
  | 0xB => { leadsTo := fun s => w.nnn + (s.reg Cpu.offset).toUInt16 }
  | 0xD => { registers := [Cpu.flag], screen := true }
  | 0xE => match w.nn.toNat with
    | 0x9E => .test fun s => s.keypad.isDown (s.reg w.x)
    | 0xA1 => .test fun s => !s.keypad.isDown (s.reg w.x)
    | _ => {}
  | _ => match w.nn.toNat with
    | 0x07 => { registers := [w.x] }
    | 0x15 => { delay := true }
    | 0x18 => { sound := true }
    | 0x1E => { registers := [Cpu.flag], index := true }
    | 0x29 => { index := true }
    | 0x33 => { memory := true }
    | 0x55 => { index := true, memory := true }
    | 0x65 => { registers := Cpu.registersTo w.x, index := true }
    | _ => {}

theorem footprint_decode (w : Word) : (Opcode.decode w).footprint w = w.footprint := by
  have hfamily := w.family.isLt
  unfold Opcode.decode footprint
  generalize w.family.val = family at *
  interval_cases family
  case «0» =>
    by_cases hc : w = 0x00E0
    · simp only [if_pos hc, Opcode.footprint]
    · by_cases hr : w = 0x00EE
      · simp only [if_neg hc, if_pos hr, Opcode.footprint]
      · simp only [if_neg hc, if_neg hr, Opcode.footprint]
  case «8» =>
    simp only
    generalize w.n.val = n
    fun_cases Opcode.ofArithmetic n
    case case10 => split <;> first | rfl | contradiction
    all_goals rfl
  case «14» =>
    simp only
    generalize w.nn.toNat = nn
    fun_cases Opcode.ofKeyTest nn
    case case3 => split <;> first | rfl | contradiction
    all_goals rfl
  case «15» =>
    simp only
    generalize w.nn.toNat = nn
    fun_cases Opcode.ofTransfer nn
    case case10 => split <;> first | rfl | contradiction
    all_goals rfl
  all_goals rfl

theorem decode_eq_ret_iff (w : Word) : Opcode.decode w = .ret ↔ w = 0x00EE := by
  constructor
  · intro h
    have hs : Opcode.ret.Selects w := h ▸ Opcode.selects_decode (by rw [h]; decide)
    have hf : w.family.val = 0 := hs.family
    have hn := (hs.n.resolve_left (by decide)).resolve_right (by omega)
    exact ext_digits hs.family (hs.x.resolve_left (by decide)) (hs.y.resolve_left (by decide)) hn
  · rintro rfl
    rfl

end Word

namespace Cpu
variable (random : UInt8) (s : Cpu) (w : Word) {ins : Instruction}

theorem skipIf_eq (c : Bool) :
    s.skipIf c = ({ s with pc := s.pc + if c then 4 else 2 }, .proceed) := by
  cases c with
  | false => rfl
  | true => exact congrArg (fun pc => ({ s with pc := pc }, Flow.proceed)) (UInt16.add_assoc ..)

theorem execute_load_eq (w : Word) : s.execute random ⟨.load, w⟩ =
    ({ s with v := (s.loadTo w.x).v, i := s.indexed (w.x.val + 1), pc := s.pc + 2 }, .proceed) := by
  rw [execute_load]
  unfold next advance passBlock loadTo indexed
  rfl

theorem flow_execute (ins : Instruction) : (s.execute random ins).2 = .pause ↔
    ins.opcode = .waitKey ∨ ins.opcode = .invalid ∨ ins.opcode = .ret ∧ s.stack = [] := by
  obtain ⟨op, word⟩ := ins
  cases op with
  | ret =>
    obtain ⟨v, i, pc, stack, memory, screen, keypad, timers⟩ := s
    cases stack <;> simp [execute, next]
  | skipEqByte | skipNeByte | skipEq | skipNe | skipDown | skipUp => simp [execute, skipIf, next]
  | _ => simp [execute, next]

theorem pc_execute (hflow : (s.execute random ins).2 = .proceed) :
    (s.execute random ins).1.pc = (ins.opcode.footprint ins.word).leadsTo s := by
  obtain ⟨op, word⟩ := ins
  cases op with
  | ret =>
    obtain ⟨v, i, pc, stack, memory, screen, keypad, timers⟩ := s
    cases stack with
    | nil => cases hflow
    | cons a rest => rfl
  | skipEqByte | skipNeByte | skipEq | skipNe | skipDown | skipUp =>
    exact congrArg (·.1.pc) (skipIf_eq s _)
  | waitKey | invalid => cases hflow
  | load => exact congrArg (·.1.pc) (execute_load_eq random s _)
  | _ => rfl

theorem execute_of_unknown (ins : Instruction)
    (h : ins.opcode = .invalid ∨ ins.opcode = .ret ∧ s.stack = []) :
    s.execute random ins = (s, .pause) := by
  obtain ⟨op, word⟩ := ins
  rcases h with hop | ⟨hop, hstack⟩
  · obtain rfl : op = .invalid := hop
    rfl
  · obtain rfl : op = .ret := hop
    simp only [execute, hstack]

theorem pc_of_pause (h : (s.execute random ins).2 = .pause) :
    (s.execute random ins).1.pc = s.pc := by
  rcases (flow_execute random s ins).mp h with hop | hop | hret
  · obtain ⟨op, word⟩ := ins
    obtain rfl : op = .waitKey := hop
    rfl
  · rw [execute_of_unknown random s ins (.inl hop)]
  · rw [execute_of_unknown random s ins (.inr hret)]

theorem stackBehind_eq_footprint (ins : Instruction) :
    s.stackBehind ins = (ins.opcode.footprint ins.word).stack s := by
  obtain ⟨op, word⟩ := ins
  cases op <;> rfl

section Registers
variable {s} {r x : Fin 16}

theorem reg_setReg_of_ne (h : r ≠ x) (value : UInt8) : (s.setReg x value).reg r = s.reg r := by
  rw [reg_setReg, if_neg h]

theorem reg_flagLast_of_not_mem (h : r ∉ [x, flag]) (result : UInt8) (c : Bool) :
    (s.flagLast x result c).reg r = s.reg r := by
  have hx : r ≠ x := List.ne_of_not_mem_cons h
  have hflag : r ≠ flag := List.ne_of_not_mem_cons (List.not_mem_of_not_mem_cons h)
  rw [reg_flagLast, if_neg hflag, if_neg hx]

theorem reg_flagFirst_of_not_mem (h : r ∉ [x, flag]) (result : UInt8) (c : Bool) :
    (s.flagFirst x result c).reg r = s.reg r := by
  have hx : r ≠ x := List.ne_of_not_mem_cons h
  have hflag : r ≠ flag := List.ne_of_not_mem_cons (List.not_mem_of_not_mem_cons h)
  rw [reg_flagFirst, if_neg hx, if_neg hflag]

theorem mem_registersTo : r ∈ registersTo x ↔ r ≤ x := by
  simp [registersTo]

theorem reg_loadTo (h : r ∉ registersTo x) : (s.loadTo x).reg r = s.reg r := by
  have hr : ¬r ≤ x := fun hle => h (mem_registersTo.mpr hle)
  simp [loadTo, reg, hr]

theorem reg_execute (h : r ∉ (ins.opcode.footprint ins.word).registers) :
    (s.execute random ins).1.reg r = s.reg r := by
  obtain ⟨op, word⟩ := ins
  cases op with
  | setByte | addByte | set | or | and | xor | random | readDelay | draw | addIndex =>
    exact reg_setReg_of_ne (List.ne_of_not_mem_cons h) _
  | add | shiftRight | shiftLeft => exact reg_flagLast_of_not_mem h _ _
  | sub | subFrom => exact reg_flagFirst_of_not_mem h _ _
  | load => exact (congrArg (·.1.reg r) (execute_load_eq random s word)).trans (reg_loadTo h)
  | ret =>
    obtain ⟨v, i, pc, stack, memory, screen, keypad, timers⟩ := s
    cases stack <;> rfl
  | skipEqByte | skipNeByte | skipEq | skipNe | skipDown | skipUp =>
    exact congrArg (·.1.reg r) (skipIf_eq s _)
  | _ => rfl

end Registers

theorem i_execute (h : (ins.opcode.footprint ins.word).index = false) :
    (s.execute random ins).1.i = s.i := by
  obtain ⟨op, word⟩ := ins
  cases op with
  | setIndex | addIndex | glyph | store | load => cases h
  | ret =>
    obtain ⟨v, i, pc, stack, memory, screen, keypad, timers⟩ := s
    cases stack <;> rfl
  | skipEqByte | skipNeByte | skipEq | skipNe | skipDown | skipUp =>
    exact congrArg (·.1.i) (skipIf_eq s _)
  | _ => rfl

theorem memory_execute (ins : Instruction) :
    (s.execute random ins).1.memory = (s.storeAll (s.writes ins)).memory := by
  obtain ⟨op, word⟩ := ins
  cases op with
  | ret =>
    obtain ⟨v, i, pc, stack, memory, screen, keypad, timers⟩ := s
    cases stack <;> rfl
  | skipEqByte | skipNeByte | skipEq | skipNe | skipDown | skipUp =>
    exact congrArg (·.1.memory) (skipIf_eq s _)
  | load => exact congrArg (·.1.memory) (execute_load_eq random s _)
  | _ => rfl

theorem writes_eq_nil (h : (ins.opcode.footprint ins.word).memory = false) : s.writes ins = [] := by
  obtain ⟨op, word⟩ := ins
  cases op with
  | decimal | store => cases h
  | _ => rfl

structure Keeps (f : Footprint) (s t : Cpu) : Prop where
  registers : ∀ r, r ∉ f.registers → t.reg r = s.reg r
  index : f.index = false → t.i = s.i
  memory : f.memory = false → t.memory = s.memory
  screen : f.screen = false → t.screen = s.screen
  delay : f.delay = false → t.timers.delay = s.timers.delay
  sound : f.sound = false → t.timers.sound = s.timers.sound
  leftover : t.timers.leftover = s.timers.leftover
  stopwatch : t.timers.stopwatch = s.timers.stopwatch
  down : t.keypad.down = s.keypad.down

theorem keeps_execute (ins : Instruction) :
    s.Keeps (ins.opcode.footprint ins.word) (s.execute random ins).1 where
  registers _ hr := reg_execute random hr
  index := i_execute random s
  memory hm := by
    rw [memory_execute, writes_eq_nil s hm]
    rfl
  screen hs := by
    apply screen_execute random s
    · intro hop
      rw [hop] at hs
      cases hs
    · intro hop
      rw [hop] at hs
      cases hs
  delay hd := by
    rw [timers_execute, timersBehind]
    split
    · next hop =>
      rw [hop] at hd
      cases hd
    · rfl
    · rfl
  sound hs := by
    rw [timers_execute, timersBehind]
    split
    · rfl
    · next hop =>
      rw [hop] at hs
      cases hs
    · rfl
  leftover := by
    rw [timers_execute, timersBehind]
    split <;> rfl
  stopwatch := stopwatch_execute random s ins
  down := by
    by_cases hop : ins.opcode = .waitKey
    · obtain ⟨op, word⟩ := ins
      obtain rfl : op = .waitKey := hop
      rfl
    · rw [keypad_execute random s hop]

/-- An instruction pauses exactly on a wait for a key, a word that is none and a return without a
call; otherwise it leads where the footprint of its word says. What the footprint does not name
stays as it was. -/
theorem execute_within_footprint :
    ((s.execute random (.ofWord w)).2 = .pause ↔
      Opcode.decode w = .waitKey ∨ Opcode.decode w = .invalid ∨ w = 0x00EE ∧ s.stack = []) ∧
    (Opcode.decode w = .invalid ∨ w = 0x00EE ∧ s.stack = [] →
      (s.execute random (.ofWord w)).1 = s) ∧
    (Opcode.decode w = .waitKey → (s.execute random (.ofWord w)).1 =
      { s with keypad := { s.keypad with waiting := some w.x } }) ∧
    ((s.execute random (.ofWord w)).2 = .proceed →
      (s.execute random (.ofWord w)).1.pc = w.footprint.leadsTo s ∧
      (s.execute random (.ofWord w)).1.keypad = s.keypad) ∧
    (s.execute random (.ofWord w)).1.stack = w.footprint.stack s ∧
    s.Keeps w.footprint (s.execute random (.ofWord w)).1 := by
  have hflow := flow_execute random s (.ofWord w)
  simp only [Instruction.opcode_ofWord, Word.decode_eq_ret_iff] at hflow
  rw [← Word.footprint_decode]
  refine ⟨hflow, ?_, ?_, ?_, ?_, keeps_execute random s (.ofWord w)⟩
  · intro h
    rw [← Word.decode_eq_ret_iff] at h
    exact congrArg Prod.fst (execute_of_unknown random s _ h)
  · intro h
    have hins : Instruction.ofWord w = ⟨.waitKey, w⟩ := congrArg (Instruction.mk · w) h
    rw [hins, execute_waitKey]
    rfl
  · intro h
    refine ⟨pc_execute random s h, keypad_execute random s ?_⟩
    intro hop
    cases h.symm.trans (hflow.mpr (.inl hop))
  · rw [stack_execute]
    exact stackBehind_eq_footprint s (.ofWord w)

end Cpu

namespace Machine

theorem memory_setKey (m : Machine) (key : UInt8) (pressed : Bool) :
    (m.setKey key pressed).cpu.memory = m.cpu.memory := by
  unfold setKey
  cases m.cpu.keypad.press? key pressed <;> rfl

theorem after_cases {now : Nat} {c : Call} {m : Machine} (h : ¬c.Restarts now m) :
    (∃ random, m.after now c = (m.tick now).act random (c.action m)) ∨
    c.action m = .idle ∧ (m.after now c).cpu.memory = m.cpu.memory ∧
      (m.after now c).cpu.stack = m.cpu.stack := by
  cases c with
  | reset => exact absurd (.inl rfl) h
  | load | loadProgram | loadFile =>
    rw [after_of_failed_load rfl h]
    exact .inr ⟨rfl, rfl, rfl⟩
  | cycle random => exact .inl ⟨random, rfl⟩
  | step random => exact .inl ⟨random, rfl⟩
  | setKey key pressed => exact .inr ⟨rfl, memory_setKey m key pressed, stack_setKey m key pressed⟩
  | _ => exact .inr ⟨rfl, rfl, rfl⟩

theorem after_of_executed {c : Call} {m : Machine} {ins : Instruction}
    (h : ins ∈ (c.action m).executed) (now : Nat) :
    ∃ random, m.after now c = (m.tick now).act random (.execute ins) := by
  have ha : c.action m = .execute ins := Action.mem_executed.mp h
  rw [← ha]
  cases c with
  | cycle random => exact ⟨random, rfl⟩
  | step random => exact ⟨random, rfl⟩
  | _ => cases ha

end Machine
end Chip8
