import Chip8.Machine.Call

/-! Histories of a machine. A call restarts the machine, or it lets an action happen, or it only
changes keys and settings; what holds at the start and is kept by every call holds in all reachable
machines. The instructions that a history executes are those of its cycles and steps, and only the
instruction at the program counter is ever executed, inside the program. -/

namespace Chip8

def Action.executed : Action → List Instruction
  | .execute ins => [ins]
  | _ => []

theorem Action.mem_executed {a : Action} {ins : Instruction} :
    ins ∈ a.executed ↔ a = .execute ins := by
  cases a <;> simp [executed, eq_comm]

namespace Call

def isLoad : Call → Bool
  | .load _ | .loadProgram _ | .loadFile .. => true
  | _ => false

def isPalette : Call → Bool
  | .setForeground _ | .setBackground _ => true
  | _ => false

def action (m : Machine) : Call → Action
  | .cycle _ => m.cycleAction
  | .step _ => m.stepAction
  | _ => .idle

/-- A reset, or a load that does not fail. -/
def Restarts (now : Nat) (m : Machine) (c : Call) : Prop :=
  c = .reset ∨ c.isLoad ∧ ∃ m', m.call now c = .ok m'

def Presses (m : Machine) (c : Call) : Prop :=
  ∃ key, c = .setKey key true ∧ m.cpu.keypad.down.get (Keypad.keyOf key) = false

end Call

namespace Machine

inductive Reachable : Machine → Prop
  | start (now : Nat) (settings : Settings) : Reachable (start now settings)
  | after {m : Machine} (h : Reachable m) (now : Nat) (c : Call) : Reachable (m.after now c)

theorem Reachable.afterAll {m : Machine} (h : m.Reachable) (history : List (Nat × Call)) :
    (m.afterAll history).Reachable := by
  induction history generalizing m with
  | nil => exact h
  | cons e history ih => exact ih (h.after e.1 e.2)

def executed (m : Machine) : List (Nat × Call) → List Instruction
  | [] => []
  | e :: h => (e.2.action m).executed ++ executed (m.after e.1 e.2) h

/-- Each call of a history satisfies `P` at its instant, in the machine it is made to. -/
def Throughout (P : Nat → Machine → Call → Prop) (m : Machine) : List (Nat × Call) → Prop
  | [] => True
  | e :: h => P e.1 m e.2 ∧ Throughout P (m.after e.1 e.2) h

theorem afterAll_nil (m : Machine) : m.afterAll [] = m := rfl

theorem afterAll_cons (m : Machine) (e : Nat × Call) (h : List (Nat × Call)) :
    m.afterAll (e :: h) = (m.after e.1 e.2).afterAll h := rfl

theorem afterAll_append (m : Machine) (h h' : List (Nat × Call)) :
    m.afterAll (h ++ h') = (m.afterAll h).afterAll h' := List.foldl_append

theorem throughout_append {P : Nat → Machine → Call → Prop} {m : Machine}
    {h h' : List (Nat × Call)} : m.Throughout P (h ++ h') ↔
      m.Throughout P h ∧ (m.afterAll h).Throughout P h' := by
  induction h generalizing m with
  | nil =>
    simp only [List.nil_append, Throughout, true_and]
    rfl
  | cons e h ih =>
    simp only [List.cons_append, Throughout, ih, and_assoc]
    rfl

theorem stepAction_execute {m : Machine} {ins : Instruction} (h : m.stepAction = .execute ins) :
    m.InRom ∧ ins = m.fetch := by
  unfold stepAction at h
  split at h
  · next hrom => exact ⟨hrom, (Action.execute.inj h).symm⟩
  · cases h

theorem cycleAction_cases (m : Machine) :
    (m.paused = true ∧ m.cycleAction = .idle) ∨
    (m.paused = false ∧ ¬m.InRom ∧ m.cycleAction = .leave) ∨
    (m.paused = false ∧ m.InRom ∧ m.AtBreakpoint ∧ m.cycleAction = .stop) ∨
    (m.paused = false ∧ m.InRom ∧ ¬m.AtBreakpoint ∧ m.cycleAction = .execute m.fetch) := by
  unfold cycleAction
  cases hp : m.paused
  · by_cases hrom : m.InRom
    · by_cases hb : m.AtBreakpoint
      · simp [hrom, hb]
      · simp [hrom, hb]
    · simp [hrom]
  · simp

theorem cycleAction_eq_stop_iff {m : Machine} :
    m.cycleAction = .stop ↔ m.paused = false ∧ m.InRom ∧ m.AtBreakpoint := by
  rcases m.cycleAction_cases with ⟨hp, ha⟩ | ⟨-, hrom, ha⟩ | ⟨hp, hrom, hb, ha⟩ | ⟨-, -, hb, ha⟩
  · simp [ha, hp]
  · simp [ha, hrom]
  · simp [ha, hp, hrom, hb]
  · simp [ha, hb]

theorem cycleAction_eq_execute_iff {m : Machine} {ins : Instruction} :
    m.cycleAction = .execute ins ↔
      m.paused = false ∧ m.InRom ∧ ¬m.AtBreakpoint ∧ ins = m.fetch := by
  rcases m.cycleAction_cases with ⟨hp, ha⟩ | ⟨-, hrom, ha⟩ | ⟨-, -, hb, ha⟩ | ⟨hp, hrom, hb, ha⟩
  · simp [ha, hp]
  · simp [ha, hrom]
  · simp [ha, hb]
  · simp [ha, hp, hrom, hb, eq_comm]

theorem cycleAction_execute {m : Machine} {ins : Instruction} (h : m.cycleAction = .execute ins) :
    m.InRom ∧ ins = m.fetch := by
  obtain ⟨-, hrom, -, heq⟩ := cycleAction_eq_execute_iff.mp h
  exact ⟨hrom, heq⟩

theorem cycleAction_of_ne_stop {m : Machine} (h : m.cycleAction ≠ .stop) :
    m.cycleAction = if m.paused then .idle else m.stepAction := by
  rcases m.cycleAction_cases with ⟨hp, ha⟩ | ⟨hp, hrom, ha⟩ | ⟨-, -, -, ha⟩ | ⟨hp, hrom, -, ha⟩
  · rw [ha, hp, if_pos rfl]
  · rw [ha, hp, if_neg Bool.false_ne_true, stepAction, if_neg hrom]
  · exact absurd ha h
  · rw [ha, hp, if_neg Bool.false_ne_true, stepAction, if_pos hrom]

theorem cycleAction_eq_stepAction {m : Machine} (hp : m.paused = false)
    (hs : m.cycleAction ≠ .stop) : m.cycleAction = m.stepAction := by
  rw [cycleAction_of_ne_stop hs, hp]
  rfl

theorem of_cycleAction_stop {m : Machine} (h : m.cycleAction = .stop) :
    m.paused = false ∧ m.AtBreakpoint := by
  obtain ⟨hp, -, hb⟩ := cycleAction_eq_stop_iff.mp h
  exact ⟨hp, hb⟩

theorem cycleAction_ne_stop {m : Machine} (h : ¬m.AtBreakpoint) : m.cycleAction ≠ .stop := by
  intro hs
  exact h (of_cycleAction_stop hs).2

theorem resume_cycle_of_stop {m : Machine} {now : Nat} (random : UInt8)
    (h : m.cycleAction = .stop) : (m.cycle now random).resume =
      { m.tick now with paused := false, passed := some m.cpu.pc } := by
  rw [cycle, h]
  rfl

theorem not_atBreakpoint_resume {m : Machine} {now : Nat} (random : UInt8)
    (h : m.cycleAction = .stop) : ¬(m.cycle now random).resume.AtBreakpoint := by
  rw [resume_cycle_of_stop random h]
  intro hb
  exact hb.2 rfl

theorem executes_or_pauses (now : Nat) (random : UInt8) (m : Machine) :
    (∃ ins, m.cycleAction = .execute ins) ∨ (m.cycle now random).paused := by
  rcases m.cycleAction_cases with ⟨hp, ha⟩ | ⟨-, -, ha⟩ | ⟨-, -, -, ha⟩ | ⟨-, -, -, ha⟩
  · right
    rw [cycle, ha]
    exact hp
  · right
    rw [cycle, ha]
    rfl
  · right
    rw [cycle, ha]
    rfl
  · left
    exact ⟨m.fetch, ha⟩

theorem act_of_proceed {m : Machine} {random : UInt8} {ins : Instruction} {s : Cpu}
    (h : m.cpu.execute random ins = (s, .proceed)) :
    m.act random (.execute ins) = { m with cpu := s, passed := none } := by
  rw [act, h]
  exact congrArg (Machine.mk _ · _ _ _ _ _ _) (Bool.or_false _)

theorem breakpoints_cycle (now : Nat) (random : UInt8) (m : Machine) :
    (m.cycle now random).breakpoints = m.breakpoints := by
  rw [cycle]
  cases m.cycleAction <;> rfl

theorem not_atBreakpoint_of_empty {m : Machine} (h : m.breakpoints = .empty) :
    ¬m.AtBreakpoint := by
  intro hb
  rw [AtBreakpoint, h] at hb
  exact List.not_mem_nil hb.1

theorem cycleAction_of_word {m : Machine} {w : Word} (hp : m.paused = false)
    (hb : m.breakpoints = .empty) (hrom : m.InRom) (hw : m.cpu.fetch = w) :
    m.cycleAction = .execute (.ofWord w) := by
  have hfetch : .ofWord w = m.fetch := congrArg Instruction.ofWord hw.symm
  exact cycleAction_eq_execute_iff.mpr ⟨hp, hrom, not_atBreakpoint_of_empty hb, hfetch⟩

theorem cycle_of_word {m : Machine} {now : Nat} {random : UInt8} {w : Word} {s : Cpu}
    (hp : m.paused = false) (hb : m.breakpoints = .empty) (hrom : m.InRom) (hw : m.cpu.fetch = w)
    (h : (m.cpu.tick now).execute random (.ofWord w) = (s, .proceed)) :
    m.cycle now random = { m with cpu := s, passed := none } := by
  rw [cycle, cycleAction_of_word hp hb hrom hw]
  exact act_of_proceed (m := m.tick now) h

structure Fresh (m : Machine) : Prop where
  keypad : m.cpu.keypad = .released
  stack : m.cpu.stack = []
  pc : m.cpu.pc = Cpu.origin
  passed : m.passed = none
  romEnd_ge : Memory.romStart ≤ m.romEnd
  romEnd_le : m.romEnd ≤ Memory.size

theorem romStart_le_size : Memory.romStart ≤ Memory.size := by decide

theorem fresh_start (now : Nat) (settings : Settings) : (start now settings).Fresh := by
  exact ⟨rfl, rfl, rfl, rfl, Nat.le_refl _, romStart_le_size⟩

theorem fresh_reset (now : Nat) (m : Machine) : (m.reset now).Fresh := by
  exact ⟨rfl, rfl, rfl, rfl, Nat.le_refl _, romStart_le_size⟩

def programmed (memory : Memory) (romEnd : Nat) (m : Machine) : Machine :=
  { m with cpu := { m.cpu with memory := memory }, romEnd := romEnd, paused := false }

theorem load_of_lt {now : Nat} {rom : List UInt8} {m : Machine}
    (h : Memory.romCapacity < rom.length) : m.load now rom = .error (.tooLarge rom.length) :=
  if_pos h

theorem load_of_not_lt {now : Nat} {rom : List UInt8} {m : Machine}
    (h : ¬Memory.romCapacity < rom.length) : m.load now rom =
      .ok ((m.reset now).programmed (.ofRom rom) (Memory.romStart + rom.length)) :=
  if_neg h

theorem call_loadFile_ok {now : Nat} {m : Machine} (path : String) (rom : List UInt8) :
    m.call now (.loadFile path (.ok rom)) =
      (m.call now (.load rom)).map fun m' => { m' with romPath := some path } := by
  simp only [call, loadFile]
  cases m.load now rom <;> rfl

theorem load_cases (now : Nat) (rom : List UInt8) :
    (∃ e, ∀ m : Machine, m.call now (.load rom) = .error e) ∨
    ∃ program romEnd, Memory.romStart ≤ romEnd ∧ romEnd ≤ Memory.size ∧
      ∀ m : Machine, m.call now (.load rom) =
        .ok ((m.reset now).programmed (.ofRom program) romEnd) := by
  by_cases hlen : Memory.romCapacity < rom.length
  · exact .inl ⟨_, fun _ => load_of_lt hlen⟩
  · have hcap : Memory.romCapacity = Memory.size - Memory.romStart := rfl
    have hsize := romStart_le_size
    refine .inr ⟨_, _, Nat.le_add_right _ _, ?_, fun _ => load_of_not_lt hlen⟩
    omega

theorem call_cases_of_isLoad (now : Nat) {c : Call} (hc : c.isLoad) :
    (∃ e, ∀ m : Machine, m.call now c = .error e) ∨
    ∃ program romEnd path, Memory.romStart ≤ romEnd ∧ romEnd ≤ Memory.size ∧
      ∀ m : Machine, m.call now c =
        .ok { (m.reset now).programmed (.ofRom program) romEnd with romPath := path } := by
  have hload (rom : List UInt8) : (∃ e, ∀ m : Machine, m.call now (.load rom) = .error e) ∨
      ∃ program romEnd path, Memory.romStart ≤ romEnd ∧ romEnd ≤ Memory.size ∧
        ∀ m : Machine, m.call now (.load rom) =
          .ok { (m.reset now).programmed (.ofRom program) romEnd with romPath := path } := by
    obtain ⟨e, herror⟩ | ⟨program, romEnd, hge, hle, hok⟩ := load_cases now rom
    · exact .inl ⟨e, herror⟩
    · exact .inr ⟨program, romEnd, none, hge, hle, hok⟩
  cases c with
  | load rom => exact hload rom
  | loadProgram words => exact hload (Word.join words)
  | loadFile path contents =>
    cases contents with
    | error cause => exact .inl ⟨_, fun _ => rfl⟩
    | ok rom =>
      obtain ⟨e, herror⟩ | ⟨program, romEnd, hge, hle, hok⟩ := load_cases now rom
      · refine .inl ⟨e, fun m => ?_⟩
        rw [call_loadFile_ok, herror]
        rfl
      · refine .inr ⟨program, romEnd, some path, hge, hle, fun m => ?_⟩
        rw [call_loadFile_ok, hok]
        rfl
  | _ => cases hc

theorem fresh_programmed {now : Nat} {m : Machine} {program : List UInt8} {romEnd : Nat}
    (hge : Memory.romStart ≤ romEnd) (hle : romEnd ≤ Memory.size) (path : Option String) :
    Fresh { (m.reset now).programmed (.ofRom program) romEnd with romPath := path } :=
  ⟨rfl, rfl, rfl, rfl, hge, hle⟩

theorem after_of_ok {now : Nat} {c : Call} {m m' : Machine} (h : m.call now c = .ok m') :
    m.after now c = m' := by
  rw [after, h]

theorem after_of_error {now : Nat} {c : Call} {m : Machine} {e : LoadError}
    (h : m.call now c = .error e) : m.after now c = m := by
  rw [after, h]

theorem fresh_of_restarts {now : Nat} {c : Call} {m : Machine} (h : c.Restarts now m) :
    (m.after now c).Fresh := by
  rcases h with rfl | ⟨hload, m', h⟩
  · exact fresh_reset now m
  · obtain ⟨e, herror⟩ | ⟨program, romEnd, path, hge, hle, hok⟩ := call_cases_of_isLoad now hload
    · cases (herror m).symm.trans h
    · rw [after_of_ok (hok m)]
      exact fresh_programmed hge hle path

theorem after_of_failed_load {now : Nat} {c : Call} {m : Machine} (hload : c.isLoad)
    (h : ¬c.Restarts now m) : m.after now c = m := by
  cases hc : m.call now c with
  | ok m' => exact absurd (.inr ⟨hload, m', hc⟩) h
  | error e => exact after_of_error hc

end Machine
end Chip8
