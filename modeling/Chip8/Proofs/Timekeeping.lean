import Chip8.Proofs.Countdown
import Chip8.Proofs.Execution
import Chip8.Proofs.History
import Mathlib.Data.List.Chain

/-! The counters of a machine keep the time of the clock. A machine never pauses its stopwatch, so
every cycle and every step collects all the time since the last of them; instructions can replace a
counter, but the leftover time and the stopwatch are out of their reach. -/

namespace Chip8

namespace Cpu

def timersBehind (ins : Instruction) (s : Cpu) : Timers :=
  match ins.opcode with
  | .setDelay => { s.timers with delay := s.reg ins.x }
  | .setSound => { s.timers with sound := s.reg ins.x }
  | _ => s.timers

theorem timers_skipIf (s : Cpu) (c : Bool) : (s.skipIf c).1.timers = s.timers := by
  cases c <;> rfl

theorem timers_execute (random : UInt8) (s : Cpu) (ins : Instruction) :
    (s.execute random ins).1.timers = s.timersBehind ins := by
  obtain ⟨op, w⟩ := ins
  cases op with
  | ret =>
    obtain ⟨v, i, pc, stack, memory, screen, keypad, timers⟩ := s
    cases stack <;> rfl
  | skipEqByte | skipNeByte | skipEq | skipNe | skipDown | skipUp => exact timers_skipIf s _
  | _ => rfl

end Cpu

namespace Timers
variable {a b c : Timers} {executed executed' : List Instruction}

/-- The timers `b` are those of `a` after the clock has gone on from the last tick of `a` to that of
`b`. The instructions executed meanwhile may have replaced a counter. -/
structure Elapsed (executed : List Instruction) (a b : Timers) : Prop where
  running : b.stopwatch.paused = false
  previous_le : a.stopwatch.previous ≤ b.stopwatch.previous
  leftover : b.leftover =
    (a.leftover + (b.stopwatch.previous - a.stopwatch.previous)) % period
  delay : (∀ ins ∈ executed, ins.opcode ≠ .setDelay) → b.delay.toNat = a.delay.toNat -
    (a.leftover + (b.stopwatch.previous - a.stopwatch.previous)) / period
  sound : (∀ ins ∈ executed, ins.opcode ≠ .setSound) → b.sound.toNat = a.sound.toNat -
    (a.leftover + (b.stopwatch.previous - a.stopwatch.previous)) / period

structure Ticking (t : Timers) : Prop where
  running : t.stopwatch.paused = false
  leftover_lt : t.leftover < period

theorem Ticking.start (now : Nat) : (Timers.start now).Ticking :=
  ⟨rfl, (by decide : 0 < period)⟩

theorem Elapsed.ticking (h : Elapsed executed a b) : b.Ticking := by
  refine ⟨h.running, ?_⟩
  rw [h.leftover]
  exact Nat.mod_lt _ (by decide)

theorem Elapsed.of_same_clock (h : a.Ticking) (hwatch : b.stopwatch = a.stopwatch)
    (hleft : b.leftover = a.leftover)
    (hdelay : (∀ ins ∈ executed, ins.opcode ≠ .setDelay) → b.delay = a.delay)
    (hsound : (∀ ins ∈ executed, ins.opcode ≠ .setSound) → b.sound = a.sound) :
    Elapsed executed a b := by
  have hnone : a.leftover + (b.stopwatch.previous - a.stopwatch.previous) = a.leftover := by
    simp [hwatch]
  refine ⟨?_, ?_, ?_, fun hexec => ?_, fun hexec => ?_⟩
  · simp [hwatch, h.running]
  · simp [hwatch]
  · rw [hnone, hleft, Nat.mod_eq_of_lt h.leftover_lt]
  · rw [hnone, hdelay hexec, Nat.div_eq_of_lt h.leftover_lt, Nat.sub_zero]
  · rw [hnone, hsound hexec, Nat.div_eq_of_lt h.leftover_lt, Nat.sub_zero]

theorem Elapsed.refl (h : a.Ticking) : Elapsed executed a a :=
  .of_same_clock h rfl rfl (fun _ => rfl) (fun _ => rfl)

theorem Elapsed.trans (h : Elapsed executed a b) (h' : Elapsed executed' b c) :
    Elapsed (executed ++ executed') a c := by
  have hab := h.previous_le
  have hbc := h'.previous_le
  have hsplit : a.leftover + (c.stopwatch.previous - a.stopwatch.previous) =
      a.leftover + (b.stopwatch.previous - a.stopwatch.previous) +
        (c.stopwatch.previous - b.stopwatch.previous) := by
    omega
  have hdiv := div_add_mod_add_div (a.leftover + (b.stopwatch.previous - a.stopwatch.previous))
    (c.stopwatch.previous - b.stopwatch.previous)
  refine ⟨h'.running, Nat.le_trans hab hbc, ?_, ?_, ?_⟩
  · rw [h'.leftover, h.leftover, Nat.mod_add_mod, hsplit]
  · intro hexec
    obtain ⟨hleft, hright⟩ := List.forall_mem_append.mp hexec
    rw [h'.delay hright, h.delay hleft, h.leftover, Nat.sub_sub, hdiv, hsplit]
  · intro hexec
    obtain ⟨hleft, hright⟩ := List.forall_mem_append.mp hexec
    rw [h'.sound hright, h.sound hleft, h.leftover, Nat.sub_sub, hdiv, hsplit]

theorem previous_tick (now : Nat) (t : Timers) : (t.tick now).stopwatch.previous = now :=
  congrArg Stopwatch.previous (stopwatch_collect _ _)

theorem Ticking.tick (h : a.Ticking) (now : Nat) : (a.tick now).Ticking := by
  refine ⟨?_, leftover_tick_lt now a⟩
  rw [stopwatch_tick]
  exact h.running

theorem Ticking.elapsed_tick (h : a.Ticking) {now : Nat} (hnow : a.stopwatch.previous ≤ now) :
    Elapsed [] a (a.tick now) := by
  have hsince : a.stopwatch.unticked now = now - a.stopwatch.previous := by
    simp [Stopwatch.unticked, h.running]
  refine ⟨(h.tick now).running, ?_, ?_, fun _ => ?_, fun _ => ?_⟩
  · rwa [previous_tick]
  · rw [previous_tick, ← hsince]
    exact leftover_collect _ _
  · rw [previous_tick, ← hsince]
    exact delay_collect _ _
  · rw [previous_tick, ← hsince]
    exact sound_collect _ _

end Timers

namespace Cpu

theorem elapsed_timersBehind {s : Cpu} (h : s.timers.Ticking) (ins : Instruction) :
    Timers.Elapsed [ins] s.timers (s.timersBehind ins) := by
  unfold timersBehind
  split
  · next hop => exact .of_same_clock h rfl rfl (fun hexec => by simp [hop] at hexec) fun _ => rfl
  · next hop => exact .of_same_clock h rfl rfl (fun _ => rfl) fun hexec => by simp [hop] at hexec
  · exact .refl h

end Cpu

namespace Machine
variable {m : Machine}

theorem elapsed_act (h : m.cpu.timers.Ticking) (random : UInt8) (a : Action) :
    Timers.Elapsed a.executed m.cpu.timers (m.act random a).cpu.timers := by
  cases a with
  | execute ins =>
    have hcpu : (m.act random (.execute ins)).cpu.timers = m.cpu.timersBehind ins :=
      m.cpu.timers_execute random ins
    rw [hcpu]
    exact Cpu.elapsed_timersBehind h ins
  | _ => exact .refl h

theorem timers_setKey (key : UInt8) (pressed : Bool) (m : Machine) :
    (m.setKey key pressed).cpu.timers = m.cpu.timers := by
  unfold setKey
  split <;> rfl

end Machine

namespace Call

def ticks : Call → Bool
  | .cycle _ | .step _ => true
  | _ => false

/-- A call at which the timers take note of the clock: they tick or start afresh. -/
def beats (now : Nat) (m : Machine) : Call → Bool
  | .cycle _ | .step _ | .reset => true
  | c => c.isLoad && (m.call now c).isOk

end Call

namespace Machine
variable {m : Machine} {now : Nat} {c : Call}

/-- The instant of the last beat of a history, or else `since`. -/
def lastBeat (since : Nat) (m : Machine) : List (Nat × Call) → Nat
  | [] => since
  | e :: h => lastBeat (if e.2.beats e.1 m then e.1 else since) (m.after e.1 e.2) h

theorem timers_after_cases (now : Nat) (c : Call) (m : Machine) :
    (c.Restarts now m ∧ c.beats now m ∧ (m.after now c).cpu.timers = .start now) ∨
    (c.beats now m ∧ ∃ random, m.after now c = (m.tick now).act random (c.action m)) ∨
    (c.beats now m = false ∧ c.action m = .idle ∧
      (m.after now c).cpu.timers = m.cpu.timers) := by
  have hload (hc : c.isLoad) (hbeats : c.beats now m = (m.call now c).isOk)
      (hact : c.action m = .idle) :
      (c.Restarts now m ∧ c.beats now m ∧ (m.after now c).cpu.timers = .start now) ∨
      (c.beats now m = false ∧ c.action m = .idle ∧
        (m.after now c).cpu.timers = m.cpu.timers) := by
    obtain ⟨e, herror⟩ | ⟨program, romEnd, path, -, -, hok⟩ := call_cases_of_isLoad now hc
    · right
      refine ⟨?_, hact, ?_⟩
      · rw [hbeats, herror]
        rfl
      · rw [after_of_error (herror m)]
    · left
      refine ⟨.inr ⟨hc, _, hok m⟩, ?_, ?_⟩
      · rw [hbeats, hok]
        rfl
      · rw [after_of_ok (hok m)]
        rfl
  cases c with
  | reset => exact .inl ⟨.inl rfl, rfl, rfl⟩
  | cycle random => exact .inr (.inl ⟨rfl, random, rfl⟩)
  | step random => exact .inr (.inl ⟨rfl, random, rfl⟩)
  | load | loadProgram | loadFile => exact (hload rfl rfl rfl).imp_right .inr
  | setKey key pressed => exact .inr (.inr ⟨rfl, rfl, timers_setKey key pressed m⟩)
  | _ => exact .inr (.inr ⟨rfl, rfl, rfl⟩)

theorem previous_after (now : Nat) (c : Call) (m : Machine) :
    (m.after now c).cpu.timers.stopwatch.previous =
      if c.beats now m then now else m.cpu.timers.stopwatch.previous := by
  obtain ⟨-, hbeats, htimers⟩ | ⟨hbeats, random, hafter⟩ | ⟨hbeats, -, htimers⟩ :=
    timers_after_cases now c m
  · rw [hbeats, htimers]
    rfl
  · have hwatch : ((m.tick now).act random (c.action m)).cpu.timers.stopwatch =
        (m.tick now).cpu.timers.stopwatch := by
      cases c.action m with
      | execute ins => exact Cpu.stopwatch_execute random _ ins
      | _ => rfl
    rw [hbeats, hafter, hwatch]
    exact Timers.previous_tick now m.cpu.timers
  · rw [hbeats, htimers]
    rfl

theorem previous_afterAll (m : Machine) (history : List (Nat × Call)) :
    (m.afterAll history).cpu.timers.stopwatch.previous =
      lastBeat m.cpu.timers.stopwatch.previous m history := by
  induction history generalizing m with
  | nil => rfl
  | cons e history ih =>
    refine (ih (m.after e.1 e.2)).trans ?_
    rw [previous_after]
    rfl

theorem ticking_after (h : m.cpu.timers.Ticking) (now : Nat) (c : Call) :
    (m.after now c).cpu.timers.Ticking := by
  obtain ⟨-, -, htimers⟩ | ⟨-, random, hafter⟩ | ⟨-, -, htimers⟩ := timers_after_cases now c m
  · rw [htimers]
    exact .start now
  · rw [hafter]
    exact (elapsed_act (m := m.tick now) (h.tick now) random (c.action m)).ticking
  · rwa [htimers]

theorem Reachable.ticking (h : m.Reachable) : m.cpu.timers.Ticking := by
  induction h with
  | start now settings => exact .start now
  | after _ now c ih => exact ticking_after ih now c

theorem elapsed_after (h : m.cpu.timers.Ticking) (hnow : m.cpu.timers.stopwatch.previous ≤ now)
    (hc : ¬c.Restarts now m) :
    Timers.Elapsed (c.action m).executed m.cpu.timers (m.after now c).cpu.timers := by
  obtain ⟨hrestarts, -⟩ | ⟨-, random, hafter⟩ | ⟨-, -, htimers⟩ := timers_after_cases now c m
  · exact absurd hrestarts hc
  · rw [hafter]
    exact (h.elapsed_tick hnow).trans (elapsed_act (m := m.tick now) (h.tick now) random _)
  · rw [htimers]
    exact .refl h

theorem elapsed_afterAll {history : List (Nat × Call)} (h : m.cpu.timers.Ticking)
    (hclock : (m.cpu.timers.stopwatch.previous :: history.map Prod.fst).IsChain (· ≤ ·))
    (hkeep : m.Throughout (fun now m c => ¬c.Restarts now m) history) :
    Timers.Elapsed (m.executed history) m.cpu.timers (m.afterAll history).cpu.timers := by
  induction history generalizing m with
  | nil => exact .refl h
  | cons e history ih =>
    obtain ⟨hnow, hlater⟩ := List.isChain_cons_cons.mp hclock
    have hstep := elapsed_after h hnow hkeep.1
    refine hstep.trans (ih hstep.ticking ?_ hkeep.2)
    -- the next call comes no earlier than this one, and so no earlier than the last beat
    have hbeat : (m.after e.1 e.2).cpu.timers.stopwatch.previous ≤ e.1 := by
      rw [previous_after]
      split
      · exact Nat.le_refl _
      · exact hnow
    rw [List.isChain_cons] at hlater ⊢
    refine ⟨fun next hnext => ?_, hlater.2⟩
    exact Nat.le_trans hbeat (hlater.1 next hnext)

theorem afterAll_concat (m : Machine) (history : List (Nat × Call)) (now : Nat) (c : Call) :
    m.afterAll (history ++ [(now, c)]) = (m.afterAll history).after now c :=
  m.afterAll_append history [(now, c)]

theorem previous_after_of_ticks (hc : c.ticks) (now : Nat) (m : Machine) :
    (m.after now c).cpu.timers.stopwatch.previous = now := by
  rw [previous_after]
  cases c with
  | cycle | step => rfl
  | _ => cases hc

theorem not_restarts_of_ticks (hc : c.ticks) : ¬c.Restarts now m := by
  cases c with
  | cycle | step => simp [Call.Restarts, Call.isLoad]
  | _ => cases hc

theorem counters_of_executed {ins : Instruction} (hins : ins ∈ (c.action m).executed) :
    (ins.opcode = .setDelay → (m.after now c).cpu.timers.delay = m.cpu.reg ins.x) ∧
    (ins.opcode = .setSound → (m.after now c).cpu.timers.sound = m.cpu.reg ins.x) := by
  have hact := Action.mem_executed.mp hins
  obtain ⟨hrestarts, -, -⟩ | ⟨-, random, hafter⟩ | ⟨-, hidle, -⟩ := timers_after_cases now c m
  · have hticks : c.ticks := by
      cases c with
      | cycle | step => rfl
      | _ => cases hact
    exact absurd hrestarts (not_restarts_of_ticks hticks)
  · have htimers : (m.after now c).cpu.timers = (m.cpu.tick now).timersBehind ins := by
      rw [hafter, hact]
      exact (m.cpu.tick now).timers_execute random ins
    rw [htimers]
    refine ⟨fun hop => ?_, fun hop => ?_⟩
    · rw [Cpu.timersBehind, hop]
      rfl
    · rw [Cpu.timersBehind, hop]
      rfl
  · cases hact.symm.trans hidle

/-- However a machine is driven, at a cycle or a step its counters have gone down by the whole
periods since the last beat, which is the instant of the last tick or restart. -/
theorem counters_keep_time (origin : Nat) (settings : Settings) (past future : List (Nat × Call))
    (now : Nat) (c : Call) (hc : c.ticks)
    (hclock : (lastBeat origin (start origin settings) past ::
      (future ++ [(now, c)]).map Prod.fst).IsChain (· ≤ ·))
    (hkeep : ((start origin settings).afterAll past).Throughout
      (fun now m c => ¬c.Restarts now m) future) :
    let m := (start origin settings).afterAll past
    let elapsed := m.cpu.timers.leftover + (now - lastBeat origin (start origin settings) past)
    let before := m.afterAll future
    let timers := (before.after now c).cpu.timers
    timers.leftover = elapsed % 16666666 ∧
    ((∀ ins ∈ m.executed (future ++ [(now, c)]), ins.opcode ≠ .setDelay) →
      timers.delay.toNat = m.cpu.timers.delay.toNat - elapsed / 16666666) ∧
    ((∀ ins ∈ m.executed (future ++ [(now, c)]), ins.opcode ≠ .setSound) →
      timers.sound.toNat = m.cpu.timers.sound.toNat - elapsed / 16666666) ∧
    ∀ ins ∈ (c.action before).executed,
      (ins.opcode = .setDelay → timers.delay = before.cpu.reg ins.x) ∧
      (ins.opcode = .setSound → timers.sound = before.cpu.reg ins.x) := by
  have hm : ((start origin settings).afterAll past).Reachable :=
    (Reachable.start origin settings).afterAll past
  have hbeat : ((start origin settings).afterAll past).cpu.timers.stopwatch.previous =
      lastBeat origin (start origin settings) past := previous_afterAll _ past
  generalize (start origin settings).afterAll past = m at *
  rw [← hbeat] at hclock ⊢
  have hkeep' : m.Throughout (fun now m c => ¬c.Restarts now m) (future ++ [(now, c)]) :=
    throughout_append.mpr ⟨hkeep, not_restarts_of_ticks hc, trivial⟩
  have helapsed := elapsed_afterAll hm.ticking hclock hkeep'
  have hlast := previous_after_of_ticks hc now (m.afterAll future)
  rw [afterAll_concat] at helapsed
  refine ⟨?_, ?_, ?_, fun ins hins => counters_of_executed hins⟩
  · have hleft := helapsed.leftover
    rwa [hlast] at hleft
  · have hdelay := helapsed.delay
    rwa [hlast] at hdelay
  · have hsound := helapsed.sound
    rwa [hlast] at hsound

def nineProgram : Machine := (start 0 {}).after 0 (.load [0x60, 0x09, 0xF0, 0x15])

theorem nineProgram_word : nineProgram.cpu.memory.word 0x200 = 0x6009 ∧
    nineProgram.cpu.memory.word 0x202 = 0xF015 := by
  have hmemory : nineProgram.cpu.memory = .ofRom [0x60, 0x09, 0xF0, 0x15] := rfl
  rw [hmemory, Memory.word, Memory.word]
  constructor
  · rw [Memory.read_ofRom _ (by decide) (by decide), Memory.read_ofRom _ (by decide) (by decide)]
    rfl
  · rw [Memory.read_ofRom _ (by decide) (by decide), Memory.read_ofRom _ (by decide) (by decide)]
    rfl

theorem nineProgram_cycle : nineProgram.after 0 (.cycle 0) =
    { nineProgram with
      cpu := { (nineProgram.cpu.tick 0).setReg 0 9 with pc := 0x202 }
      passed := none } := by
  refine cycle_of_word rfl rfl ?_ nineProgram_word.1 rfl
  change Memory.romStart ≤ Cpu.origin.toNat ∧ Cpu.origin.toNat < 0x204
  decide

theorem nineProgram_cycle_cycle : (nineProgram.after 0 (.cycle 0)).after 0 (.cycle 0) =
    { nineProgram with
      cpu := { ((nineProgram.cpu.tick 0).tick 0).setReg 0 9 with
        timers := { (nineProgram.cpu.timers.tick 0).tick 0 with delay := 9 }
        pc := 0x204 }
      passed := none } := by
  rw [nineProgram_cycle]
  refine cycle_of_word rfl rfl ?_ nineProgram_word.2 rfl
  change Memory.romStart ≤ 0x202 ∧ 0x202 < 0x204
  decide

theorem executed_of_not_inRom (h : ¬m.InRom) (pausing cycling resuming stepping : Nat) :
    m.executed [(pausing, .pause), (cycling, .cycle 0), (resuming, .resume),
      (stepping, .step 0)] = [] := by
  have hidle : (m.after pausing .pause).cycleAction = .idle := rfl
  have hleave : (((m.after pausing .pause).after cycling (.cycle 0)).after
      resuming .resume).stepAction = .leave := if_neg h
  simp [executed, Call.action, Action.executed, hidle, hleave]

def nineHistory : List (Nat × Call) :=
  [(0, .load [0x60, 0x09, 0xF0, 0x15]), (0, .cycle 0), (0, .cycle 0)]

theorem afterAll_nineHistory : (start 0 {}).afterAll nineHistory =
    (nineProgram.after 0 (.cycle 0)).after 0 (.cycle 0) := by
  rw [nineHistory, afterAll_cons, afterAll_cons, afterAll_cons, afterAll_nil]
  rfl

theorem three_periods_counted :
    let m := (start 0 {}).afterAll nineHistory
    let later := m.afterAll [(20000000, .pause), (20000000, .cycle 0), (30000000, .resume)]
    lastBeat 0 (start 0 {}) nineHistory = 0 ∧ m.cpu.timers.delay = 9 ∧
      (later.after 60000000 (.step 0)).cpu.timers.delay.toNat = 6 ∧
      (later.after 60000000 (.step 0)).cpu.timers.leftover = 10000002 := by
  have hbeat : lastBeat 0 (start 0 {}) nineHistory = 0 := by
    simp [lastBeat, nineHistory]
  have hdelay : ((start 0 {}).afterAll nineHistory).cpu.timers.delay = 9 := by
    rw [afterAll_nineHistory, nineProgram_cycle_cycle]
  have hleft : ((start 0 {}).afterAll nineHistory).cpu.timers.leftover = 0 := by
    rw [afterAll_nineHistory, nineProgram_cycle_cycle]
    have htick : ((nineProgram.cpu.timers.tick 0).tick 0).leftover = 0 := by
      rw [Timers.leftover_tick, Timers.leftover_tick, Timers.stopwatch_tick]
      rfl
    exact htick
  have hend : ¬((start 0 {}).afterAll nineHistory).InRom := by
    rw [afterAll_nineHistory, nineProgram_cycle_cycle]
    rintro ⟨-, hlt⟩
    exact Nat.lt_irrefl 0x204 hlt
  have hcounted := counters_keep_time 0 {} nineHistory
    [(20000000, .pause), (20000000, .cycle 0), (30000000, .resume)] 60000000 (.step 0) rfl
    (by simp [hbeat]) (by simp [Throughout, Call.Restarts, Call.isLoad])
  rw [hbeat] at hcounted
  generalize (start 0 {}).afterAll nineHistory = m at *
  obtain ⟨hleftover, hcount, -, -⟩ := hcounted
  have hnine : m.cpu.timers.delay.toNat = 9 := congrArg UInt8.toNat hdelay
  refine ⟨hbeat, hdelay, (hcount ?_).trans ?_, hleftover.trans ?_⟩
  · simp [executed_of_not_inRom hend]
  · omega
  · omega

end Machine
end Chip8
