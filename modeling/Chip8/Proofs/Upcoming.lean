import Chip8.Proofs.Stops
import Chip8.Proofs.Storage

/-! What comes next. A debugger shows the words ahead of the program counter as instructions. While
every instruction leads to the next word and leaves the memory as it was, the machine executes the
instructions shown in their order, so what was shown beforehand tells what is fetched later on. -/

namespace Chip8

/-- The call executes an instruction, which leads to the next word and leaves the memory alone. -/
structure Call.GoesOn (now : Nat) (m : Machine) (c : Call) : Prop where
  executes : ∃ ins, c.action m = .execute ins
  pc : (m.after now c).cpu.pc = m.cpu.pc + 2
  memory : (m.after now c).cpu.memory = m.cpu.memory

namespace Machine
variable {m : Machine} {now : Nat} {c : Call} {history : List (Nat × Call)}

def ahead (m : Machine) (k : Nat) : Word × Instruction :=
  let address := m.cpu.pc + UInt16.ofNat k * 2
  (address, .ofWord (m.cpu.memory.word address))

structure Unhindered (m : Machine) : Prop where
  paused : m.paused = false
  breakpoints : m.breakpoints = .empty

section Upcoming
variable (m : Machine)

theorem toNat_ahead (k : Nat) : (m.ahead k).1.toNat = (m.cpu.pc.toNat + 2 * k) % 65536 := by
  rw [ahead, UInt16.toNat_add, UInt16.toNat_mul, UInt16.toNat_ofNat']
  change (m.cpu.pc.toNat + k % 65536 * 2 % 65536) % 65536 = _
  omega

theorem ahead_zero : m.ahead 0 = (m.cpu.pc, m.fetch) := by
  have haddress : m.cpu.pc + UInt16.ofNat 0 * 2 = m.cpu.pc := UInt16.add_zero _
  rw [ahead, haddress]
  rfl

theorem upcoming_eq_map (count : Nat) : m.upcoming count = (List.range count).map m.ahead := rfl

theorem length_upcoming (count : Nat) : (m.upcoming count).length = count := by
  rw [upcoming_eq_map, List.length_map, List.length_range]

theorem getElem?_upcoming {count k : Nat} (h : k < count) :
    (m.upcoming count)[k]? = some (m.ahead k) := by
  rw [upcoming_eq_map, List.getElem?_map, List.getElem?_range h]
  rfl

theorem upcoming_prefix {count longer : Nat} (h : count ≤ longer) :
    m.upcoming count <+: m.upcoming longer := by
  obtain ⟨more, rfl⟩ := Nat.exists_eq_add_of_le h
  rw [upcoming_eq_map, upcoming_eq_map, List.range_add, List.map_append]
  exact List.prefix_append _ _

end Upcoming

theorem Unhindered.cycleAction (h : m.Unhindered) :
    m.cycleAction = if m.InRom then .execute m.fetch else .leave :=
  cycleAction_eq_stepAction h.paused (cycleAction_ne_stop (not_atBreakpoint_of_empty h.breakpoints))

theorem executed_of_goesOn (h : c.GoesOn now m) : (c.action m).executed = [m.fetch] := by
  obtain ⟨ins, haction⟩ := h.executes
  have hfetch : ins = m.fetch := (inRom_of_executed (Action.mem_executed.mpr haction)).2
  rw [haction, hfetch]
  rfl

theorem after_of_goesOn (h : c.GoesOn now m) :
    ∃ s, m.after now c = { m with cpu := s, passed := none } := by
  obtain ⟨ins, haction⟩ := h.executes
  obtain ⟨random, hafter⟩ := after_of_executed (Action.mem_executed.mpr haction) now
  have hpc : ((m.tick now).cpu.execute random ins).1.pc = m.cpu.pc + 2 := by
    rw [← h.pc, hafter]
    rfl
  cases hflow : ((m.tick now).cpu.execute random ins).2 with
  | proceed =>
    refine ⟨((m.tick now).cpu.execute random ins).1, ?_⟩
    rw [hafter]
    exact act_of_proceed (Prod.ext rfl hflow)
  | pause =>
    have hstill : ((m.tick now).cpu.execute random ins).1.pc = m.cpu.pc :=
      Cpu.pc_of_pause random (m.tick now).cpu hflow
    exact absurd (hpc.symm.trans hstill) (Word.add_two_ne m.cpu.pc)

theorem Unhindered.after (hm : m.Unhindered) (h : c.GoesOn now m) : (m.after now c).Unhindered := by
  obtain ⟨s, hafter⟩ := after_of_goesOn h
  rw [hafter]
  exact ⟨hm.paused, hm.breakpoints⟩

theorem Unhindered.afterAll (hm : m.Unhindered) (h : m.Throughout Call.GoesOn history) :
    (m.afterAll history).Unhindered := by
  induction history generalizing m with
  | nil => exact hm
  | cons e history ih => exact ih (hm.after h.1) h.2

theorem ahead_after (h : c.GoesOn now m) (k : Nat) : (m.after now c).ahead k = m.ahead (k + 1) := by
  have haddress : m.cpu.pc + 2 + UInt16.ofNat k * 2 = m.cpu.pc + UInt16.ofNat (k + 1) * 2 := by
    rw [UInt16.ofNat_add, UInt16.add_mul, UInt16.add_comm (UInt16.ofNat k * 2), UInt16.add_assoc]
    rfl
  rw [ahead, ahead, h.pc, h.memory, haddress]

theorem ahead_afterAll (h : m.Throughout Call.GoesOn history) (k : Nat) :
    (m.afterAll history).ahead k = m.ahead (history.length + k) := by
  induction history generalizing m with
  | nil => exact congrArg m.ahead (Nat.zero_add k).symm
  | cons e history ih =>
    obtain ⟨hnext, hrest⟩ := h
    have hcount : history.length + k + 1 = (e :: history).length + k := by
      rw [List.length_cons]
      omega
    calc (m.afterAll (e :: history)).ahead k
        = (m.after e.1 e.2).ahead (history.length + k) := ih hrest
      _ = m.ahead (history.length + k + 1) := ahead_after hnext _
      _ = m.ahead ((e :: history).length + k) := by rw [hcount]

theorem upcoming_succ_of_goesOn (h : c.GoesOn now m) (count : Nat) : m.upcoming (count + 1) =
    (m.cpu.pc, m.fetch) :: (m.after now c).upcoming count := by
  have hnearer : (m.after now c).ahead = m.ahead ∘ Nat.succ := funext (ahead_after h)
  rw [upcoming_eq_map, upcoming_eq_map, List.range_succ_eq_map, List.map_cons, ahead_zero,
    List.map_map, hnearer]

theorem executed_eq_upcoming (h : m.Throughout Call.GoesOn history) :
    m.executed history = (m.upcoming history.length).map Prod.snd := by
  induction history generalizing m with
  | nil => rfl
  | cons e history ih =>
    obtain ⟨hnext, hrest⟩ := h
    rw [executed, executed_of_goesOn hnext, ih hrest, List.length_cons,
      upcoming_succ_of_goesOn hnext]
    rfl

/-- The upcoming instructions are those of the words ahead, at addresses that wrap around, and to
ask for more of them only adds to the end. While instructions lead to the next word and leave the
memory alone, the upcoming ones are executed in their order, and the next entry is fetched next. -/
theorem upcoming_foretells_execution (m : Machine) (count : Nat) :
    (m.upcoming count).length = count ∧
    (∀ k < count, ∃ address : Word, address.toNat = (m.cpu.pc.toNat + 2 * k) % 65536 ∧
      (m.upcoming count)[k]? = some (address, .ofWord (.ofBytes
        (m.cpu.memory.get (.ofNat 4096 address.toNat))
        (m.cpu.memory.get (.ofNat 4096 (address.toNat + 1)))))) ∧
    (∀ longer, count ≤ longer → m.upcoming count <+: m.upcoming longer) ∧
    ∀ history, m.Throughout Call.GoesOn history →
      let behind := m.afterAll history
      m.executed history = (m.upcoming history.length).map Prod.snd ∧
      (history.length < count →
        (m.upcoming count)[history.length]? = some (behind.cpu.pc, behind.fetch)) ∧
      (m.Unhindered →
        behind.cycleAction = if behind.InRom then .execute behind.fetch else .leave) := by
  refine ⟨m.length_upcoming count, ?_, fun _ => m.upcoming_prefix, ?_⟩
  · intro k hk
    refine ⟨(m.ahead k).1, m.toNat_ahead k, ?_⟩
    rw [m.getElem?_upcoming hk, ← Memory.word_eq_get]
    rfl
  · intro history hgoes behind
    refine ⟨executed_eq_upcoming hgoes, ?_, ?_⟩
    · intro hlength
      rw [m.getElem?_upcoming hlength, ← behind.ahead_zero]
      exact congrArg some (ahead_afterAll hgoes 0).symm
    · intro hm
      exact (hm.afterAll hgoes).cycleAction

def passingBy : Machine := (start 0 {}).after 0 (.loadProgram [0x3006, 0xF033, 0x00E0])

def pastTest : Machine :=
  { passingBy with cpu := { passingBy.cpu.tick 0 with pc := 0x202 }, passed := none }

theorem passingBy_word : passingBy.cpu.memory.word 0x200 = 0x3006 ∧
    passingBy.cpu.memory.word 0x202 = 0xF033 ∧ passingBy.cpu.memory.word 0x204 = 0x00E0 := by
  have hmemory : passingBy.cpu.memory = .ofRom (Word.join [0x3006, 0xF033, 0x00E0]) := rfl
  rw [hmemory]
  exact ⟨Memory.word_ofRom_join 0 rfl (by decide) (by decide),
    Memory.word_ofRom_join 1 rfl (by decide) (by decide),
    Memory.word_ofRom_join 2 rfl (by decide) (by decide)⟩

theorem passingBy_inRom : passingBy.InRom ∧ pastTest.InRom := by
  change (Memory.romStart ≤ Cpu.origin.toNat ∧ Cpu.origin.toNat < 0x206) ∧
    Memory.romStart ≤ 0x202 ∧ 0x202 < 0x206
  decide

theorem passingBy_cycle : passingBy.after 0 (.cycle 0) = pastTest :=
  cycle_of_word rfl rfl passingBy_inRom.1 passingBy_word.1 rfl

theorem pastTest_cycle : pastTest.after 0 (.cycle 0) =
    { pastTest with cpu := { pastTest.cpu.tick 0 with pc := 0x204 }, passed := none } := by
  let ws : List (Word × UInt8) := [(0, 0), (1, 0), (2, 0)]
  have hrun : (pastTest.cpu.tick 0).execute 0 (.ofWord 0xF033) =
      ({ pastTest.cpu.tick 0 with memory := pastTest.cpu.memory.store ws, pc := 0x204 },
        .proceed) := by
    have hwrites : (pastTest.cpu.tick 0).writes (.ofWord 0xF033) = ws := by decide
    rw [← hwrites]
    rfl
  have hfont : ∀ w ∈ ws, ¬Memory.Writable (Memory.cell w.1) := by
    simp only [ws, List.forall_mem_cons]
    exact ⟨by decide, by decide, by decide, nofun⟩
  rw [Memory.store_of_not_writable hfont] at hrun
  exact cycle_of_word rfl rfl passingBy_inRom.2 passingBy_word.2.1 hrun

theorem passingBy_goesOn : passingBy.Throughout Call.GoesOn [(0, .cycle 0), (0, .cycle 0)] := by
  have htest := cycleAction_of_word rfl rfl passingBy_inRom.1 passingBy_word.1
  have hstore := cycleAction_of_word rfl rfl passingBy_inRom.2 passingBy_word.2.1
  refine ⟨⟨⟨_, htest⟩, ?_, ?_⟩, ?_, trivial⟩
  · rw [passingBy_cycle]
    rfl
  · rw [passingBy_cycle]
    rfl
  · rw [passingBy_cycle]
    refine ⟨⟨_, hstore⟩, ?_, ?_⟩
    · rw [pastTest_cycle]
      rfl
    · rw [pastTest_cycle]
      rfl

theorem upcoming_foretells_clear :
    let history := [(0, .cycle 0), (0, .cycle 0)]
    (passingBy.Unhindered ∧ passingBy.Throughout Call.GoesOn history) ∧
      passingBy.executed history = [.ofWord 0x3006, .ofWord 0xF033] ∧
      (passingBy.upcoming 40000)[2]? = some (0x204, .ofWord 0x00E0) ∧
      (passingBy.upcoming 40000)[32770]? = some (0x204, .ofWord 0x00E0) ∧
      (passingBy.afterAll history).cycleAction = .execute (.ofWord 0x00E0) := by
  intro history
  have hm : passingBy.Unhindered := ⟨rfl, rfl⟩
  obtain ⟨-, hentry, -, hrun⟩ := upcoming_foretells_execution passingBy 40000
  obtain ⟨hexecuted, hnext, haction⟩ := hrun history passingBy_goesOn
  have hclear {k : Nat} (hk : k < 40000) (hlast : (0x200 + 2 * k) % 65536 = 0x204) :
      (passingBy.upcoming 40000)[k]? = some (0x204, .ofWord 0x00E0) := by
    obtain ⟨address, haddress, hlisted⟩ := hentry k hk
    obtain rfl : address = 0x204 := UInt16.toNat_inj.mp (haddress.trans hlast)
    rw [← Memory.word_eq_get, passingBy_word.2.2] at hlisted
    exact hlisted
  have hsecond : (passingBy.upcoming 40000)[2]? = some (0x204, .ofWord 0x00E0) :=
    hclear (by decide) (by decide)
  refine ⟨⟨hm, passingBy_goesOn⟩, ?_, hsecond, hclear (by decide) (by decide), ?_⟩
  · rw [hexecuted]
    change [Instruction.ofWord (passingBy.cpu.memory.word 0x200),
      .ofWord (passingBy.cpu.memory.word 0x202)] = _
    rw [passingBy_word.1, passingBy_word.2.1]
  · have hinside : (passingBy.afterAll [(0, .cycle 0), (0, .cycle 0)]).InRom := by
      rw [afterAll_cons, afterAll_cons, afterAll_nil, passingBy_cycle, pastTest_cycle]
      change Memory.romStart ≤ 0x204 ∧ 0x204 < 0x206
      decide
    have hfetch : (passingBy.afterAll history).fetch = .ofWord 0x00E0 :=
      (Prod.mk.inj (Option.some.inj ((hnext (by decide)).symm.trans hsecond))).2
    rw [haction hm, if_pos hinside, hfetch]

end Machine
end Chip8
