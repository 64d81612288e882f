import Chip8.Proofs.Checked.Cpu
import Chip8.Proofs.Effects

/-! A machine run with operations that can go wrong. Of all that can be asked of a machine, only
telling the time depends on more than the machine itself: a clock that never runs backwards and
stays within sixty-four bits of nanoseconds keeps every duration in range. So no history on such a
clock reaches a fault, whatever its programs hold and however they change themselves. -/

namespace Chip8.Checked

section Time

def unticked (now : Nat) (w : Stopwatch) : Except Fault Nat :=
  if w.paused then pure 0 else since w.previous now

def tickStopwatch (now : Nat) (w : Stopwatch) : Except Fault Stopwatch := do
  let delta ← unticked now w
  let total ← addDuration w.total delta
  pure { w with previous := now, delta := delta, total := total }

def countDown (t : Timers) : Except Fault Timers :=
  if t.leftover < Timers.period then pure t
  else
    match _h : subDuration t.leftover Timers.period with
    | .error e => .error e
    | .ok leftover => countDown { t with
        leftover := leftover
        delay := Timers.lessOne t.delay
        sound := Timers.lessOne t.sound }
termination_by t.leftover
decreasing_by
  have hp : 0 < Timers.period := by decide
  unfold subDuration at _h
  split at _h
  · obtain rfl := Except.ok.inj _h
    omega
  · cases _h

def tick (now : Nat) (t : Timers) : Except Fault Timers := do
  let w ← tickStopwatch now t.stopwatch
  let leftover ← addDuration t.leftover w.delta
  countDown { t with stopwatch := w, leftover := leftover }

theorem countDown_eq (t : Timers) : countDown t = .ok t.countDown := by
  fun_induction Timers.countDown t with
  | case1 t h =>
    rw [countDown, if_pos h]
    rfl
  | case2 t h ih =>
    have hsub : subDuration t.leftover Timers.period = .ok (t.leftover - Timers.period) :=
      if_pos (Nat.le_of_not_lt h)
    rw [countDown, if_neg h]
    split
    · next e he =>
      rw [hsub] at he
      cases he
    · next leftover hleft =>
      rw [hsub] at hleft
      obtain rfl := Except.ok.inj hleft
      exact ih

/-- Timers that were last told the time between `origin` and `now`. -/
structure Clocked (origin now : Nat) (t : Timers) : Prop where
  previous_le : t.stopwatch.previous ≤ now
  total_le : origin + t.stopwatch.total ≤ t.stopwatch.previous
  leftover_lt : t.leftover < Timers.period

variable {origin now now' : Nat} {t t' : Timers}

theorem Clocked.later (h : Clocked origin now t) (hle : now ≤ now') : Clocked origin now' t :=
  ⟨Nat.le_trans h.previous_le hle, h.total_le, h.leftover_lt⟩

theorem clocked_start (h : origin ≤ now) : Clocked origin now (.start now) :=
  ⟨Nat.le_refl _, h, (by decide : 0 < Timers.period)⟩

theorem Clocked.congr (h : Clocked origin now t) (hwatch : t'.stopwatch = t.stopwatch)
    (hleft : t'.leftover = t.leftover) : Clocked origin now t' := by
  obtain ⟨hprevious, htotal, hlt⟩ := h
  exact ⟨by rwa [hwatch], by rwa [hwatch], by rwa [hleft]⟩

theorem Clocked.unticked_le (h : Clocked origin now t) :
    origin + t.stopwatch.total + t.stopwatch.unticked now ≤ now := by
  have hprevious := h.previous_le
  have htotal := h.total_le
  unfold Stopwatch.unticked
  split <;> omega

theorem Clocked.tickStopwatch_eq (h : Clocked origin now t) (hspan : now - origin < 2 ^ 64) :
    tickStopwatch now t.stopwatch = .ok (t.stopwatch.tick now) := by
  have hle := h.unticked_le
  have hlongest : 2 ^ 64 ≤ Timers.longest := by decide
  have hdelta : unticked now t.stopwatch = .ok (t.stopwatch.unticked now) := by
    unfold unticked Stopwatch.unticked
    split
    · rfl
    · exact if_pos h.previous_le
  have hadd : addDuration t.stopwatch.total (t.stopwatch.unticked now) =
      .ok (t.stopwatch.total + t.stopwatch.unticked now) := if_pos (by omega)
  rw [tickStopwatch, hdelta, ok_bind, hadd, ok_bind]
  rfl

theorem Clocked.tick_eq (h : Clocked origin now t) (hspan : now - origin < 2 ^ 64) :
    tick now t = .ok (t.tick now) := by
  have hle := h.unticked_le
  have hleft := h.leftover_lt
  have hlongest : Timers.period + 2 ^ 64 ≤ Timers.longest := by decide
  have hdelta : (t.stopwatch.tick now).delta = t.stopwatch.unticked now := rfl
  have hadd : addDuration t.leftover (t.stopwatch.tick now).delta =
      .ok (t.leftover + (t.stopwatch.tick now).delta) := if_pos (by rw [hdelta]; omega)
  rw [tick, h.tickStopwatch_eq hspan, ok_bind, hadd, ok_bind, countDown_eq]
  rfl

theorem Clocked.tick (h : Clocked origin now t) : Clocked origin now (t.tick now) := by
  have hle := h.unticked_le
  refine ⟨?_, ?_, Timers.leftover_tick_lt now t⟩
  · rw [Timers.previous_tick]
  · rw [Timers.previous_tick, Timers.stopwatch_tick]
    change origin + (t.stopwatch.total + t.stopwatch.unticked now) ≤ now
    omega

end Time

namespace Cpu

def start (now : Nat) : Except Fault Cpu := do
  let _ ← mulSize 64 32
  let memory ← cleared
  pure {
    v := Vector.replicate 16 0
    i := 0
    pc := Chip8.Cpu.origin
    stack := []
    memory := memory
    screen := .blank 64 32
    keypad := .released
    timers := .start now }

def reset (now : Nat) (s : Cpu) : Except Fault Cpu := do
  let memory ← cleared
  pure { s with
    v := Vector.replicate 16 0
    i := 0
    pc := Chip8.Cpu.origin
    stack := []
    memory := memory
    screen := s.screen.clear
    keypad := s.keypad.reset
    timers := s.timers.reset now }

def tick (now : Nat) (s : Cpu) : Except Fault Cpu := do
  let timers ← Checked.tick now s.timers
  pure { s with timers := timers }

def setKey (key : UInt8) (pressed : Bool) (s : Cpu) : Except Fault (Cpu × Bool) := do
  let was ← get s.keypad.down (key &&& 0xF).toNat
  let down ← put s.keypad.down (key &&& 0xF).toNat pressed
  if pressed ∧ was = false then
    match s.keypad.waiting with
    | none => pure ({ s with keypad := { down := down, waiting := none } }, false)
    | some register => do
      let s ← { s with keypad := { down := down, waiting := none } }.setReg register.toNat
        (key &&& 0xF)
      pure (s.advance, true)
  else pure ({ s with keypad := { s.keypad with down := down } }, false)

theorem start_eq (now : Nat) : start now = .ok (.of (.start now)) := by
  have hcells : mulSize 64 32 = .ok (64 * 32) := if_pos (by decide)
  rw [start, hcells, ok_bind, cleared_eq]
  rfl

theorem reset_of (now : Nat) (s : Chip8.Cpu) : (of s).reset now = .ok (.of (s.reset now)) := by
  rw [reset, cleared_eq]
  rfl

theorem tick_of {origin now : Nat} {s : Chip8.Cpu} (h : Clocked origin now s.timers)
    (hspan : now - origin < 2 ^ 64) : (of s).tick now = .ok (.of (s.tick now)) := by
  have htick : Checked.tick now (of s).timers = .ok (s.timers.tick now) := h.tick_eq hspan
  rw [tick, htick]
  rfl

theorem key_eq (key : UInt8) : key &&& 0xF = UInt8.ofNat (Keypad.keyOf key).val := by
  apply UInt8.toNat_inj.mp
  rw [toNat_ofNat_digit, UInt8.toNat_and]
  exact Nat.and_two_pow_sub_one_eq_mod key.toNat 4

def keyed (key : UInt8) (pressed : Bool) (s : Chip8.Cpu) : Chip8.Cpu × Bool :=
  match s.keypad.press? key pressed with
  | none => ({ s with keypad := s.keypad.setKey key pressed }, false)
  | some p => (({ s with keypad := s.keypad.setKey key pressed }.setReg p.register
      (UInt8.ofNat p.key.val)).advance, true)

theorem setKey_of (key : UInt8) (pressed : Bool) (s : Chip8.Cpu) : (of s).setKey key pressed =
    .ok (of (keyed key pressed s).1, (keyed key pressed s).2) := by
  have hget : get (of s).keypad.down (Keypad.keyOf key).val =
      .ok s.keypad.down[Keypad.keyOf key] := get_eq _ _
  have hput : put (of s).keypad.down (Keypad.keyOf key).val pressed =
      .ok (s.keypad.down.set (Keypad.keyOf key) pressed) := put_eq _ _ _
  rw [setKey, key_eq, toNat_ofNat_digit, hget, ok_bind, hput, ok_bind, keyed, Keypad.press?,
    Keypad.setKey]
  by_cases hrise : pressed = true ∧ s.keypad.down[Keypad.keyOf key] = false
  · have hwaiting : (of s).keypad.waiting = s.keypad.waiting.map fun r => UInt8.ofNat r.val := rfl
    rw [if_pos hrise, if_pos hrise, if_pos hrise, hwaiting]
    cases s.keypad.waiting with
    | none => rfl
    | some r =>
      simp only [Option.map_some, toNat_ofNat_digit, setReg_eq, ok_bind]
      rfl
  · simp only [if_neg hrise]
    rfl

end Cpu

structure Machine where
  cpu : Cpu
  paused : Bool
  legacy : Bool
  clockRate : UInt32
  breakpoints : Breakpoints
  passed : Option Word
  romEnd : Nat
  romPath : Option String
deriving DecidableEq

def Machine.of (m : Chip8.Machine) : Machine where
  cpu := .of m.cpu
  paused := m.paused
  legacy := m.legacy
  clockRate := m.clockRate
  breakpoints := m.breakpoints
  passed := m.passed
  romEnd := m.romEnd
  romPath := m.romPath

namespace Machine

def start (now : Nat) (settings : Settings) : Except Fault Machine := do
  let cpu ← Cpu.start now
  let screen := cpu.screen.setWrapping settings.wrapping
  let screen := screen.setForeground settings.foreground
  let screen := screen.setBackground settings.background
  pure {
    cpu := { cpu with screen := screen }
    paused := true
    legacy := settings.legacy
    clockRate := settings.clockRate
    breakpoints := .empty
    passed := none
    romEnd := Memory.romStart
    romPath := none }

def reset (now : Nat) (m : Machine) : Except Fault Machine := do
  let cpu ← m.cpu.reset now
  pure { m with
    cpu := cpu
    paused := true
    passed := none
    romEnd := Memory.romStart
    romPath := none }

def load (now : Nat) (rom : List UInt8) (m : Machine) :
    Except Fault (Except LoadError Machine) :=
  if Memory.romCapacity < rom.length then pure (.error (.tooLarge rom.length))
  else do
    let m ← m.reset now
    let memory ← copy m.cpu.memory Memory.romStart rom
    let romEnd ← addSize Memory.romStart rom.length
    pure (.ok { m with
      cpu := { m.cpu with memory := memory }
      romEnd := romEnd
      paused := false })

def loadFile (now : Nat) (path : String) (contents : Except ReadError (List UInt8))
    (m : Machine) : Except Fault (Except LoadError Machine) :=
  match contents with
  | .error cause => pure (.error (.unreadable path cause))
  | .ok rom => do
    let loaded ← m.load now rom
    pure (loaded.map fun m => { m with romPath := some path })

def executeNext (random : UInt8) (m : Machine) : Except Fault Machine := do
  let w ← word m.cpu.memory m.cpu.pc
  let f ← fields w
  let _ ← shown f
  let r ← m.cpu.execute random f
  pure { m with cpu := r.1, paused := m.paused || r.2 == .pause, passed := none }

def tick (now : Nat) (m : Machine) : Except Fault Machine := do
  let cpu ← m.cpu.tick now
  pure { m with cpu := cpu }

def step (now : Nat) (random : UInt8) (m : Machine) : Except Fault Machine := do
  let m ← m.tick now
  if Memory.romStart ≤ m.cpu.pc.toNat ∧ m.cpu.pc.toNat < m.romEnd then m.executeNext random
  else pure { m with paused := true }

def cycle (now : Nat) (random : UInt8) (m : Machine) : Except Fault Machine := do
  let m ← m.tick now
  if m.paused then pure m
  else if Memory.romStart ≤ m.cpu.pc.toNat ∧ m.cpu.pc.toNat < m.romEnd then
    if Chip8.Machine.indexOf m.cpu.pc ∈ m.breakpoints ∧ m.passed ≠ some m.cpu.pc then
      pure { m with paused := true, passed := some m.cpu.pc }
    else m.executeNext random
  else pure { m with paused := true }

def setKey (key : UInt8) (pressed : Bool) (m : Machine) : Except Fault Machine := do
  let r ← m.cpu.setKey key pressed
  pure { m with cpu := r.1, paused := if r.2 then false else m.paused }

def mapScreen (f : Screen 64 32 → Screen 64 32) (m : Machine) : Machine :=
  { m with cpu := { m.cpu with screen := f m.cpu.screen } }

def call (now : Nat) (c : Call) (m : Machine) : Except Fault (Except LoadError Machine) :=
  match c with
  | .reset => .ok <$> m.reset now
  | .load rom => m.load now rom
  | .loadProgram words => m.load now (Word.join words)
  | .loadFile path contents => m.loadFile now path contents
  | .pause => pure (.ok { m with paused := true })
  | .resume => pure (.ok { m with paused := false })
  | .cycle random => .ok <$> m.cycle now random
  | .step random => .ok <$> m.step now random
  | .setKey key pressed => .ok <$> m.setKey key pressed
  | .addBreakpoint k => pure (.ok { m with breakpoints := m.breakpoints.insert k })
  | .removeBreakpoint k => pure (.ok { m with breakpoints := m.breakpoints.erase k })
  | .clearBreakpoints => pure (.ok { m with breakpoints := .empty })
  | .setClockRate rate => pure (.ok { m with clockRate := rate })
  | .setLegacy on => pure (.ok { m with legacy := on })
  | .setWrapping on => pure (.ok (m.mapScreen (·.setWrapping on)))
  | .setForeground colour => pure (.ok (m.mapScreen (·.setForeground colour)))
  | .setBackground colour => pure (.ok (m.mapScreen (·.setBackground colour)))
  | .cleanScreen => pure (.ok (m.mapScreen (·.clean)))

/-- A call that fails leaves the machine as it was. -/
def after (now : Nat) (c : Call) (m : Machine) : Except Fault Machine := do
  match ← m.call now c with
  | .ok m' => pure m'
  | .error _ => pure m

def afterAll (history : List (Nat × Call)) (m : Machine) : Except Fault Machine :=
  history.foldlM (fun m e => m.after e.1 e.2) m

def upcoming (count : Nat) (m : Machine) : Except Fault (List (Word × Fields)) :=
  (List.range count).mapM fun k => do
    let address := m.cpu.pc + UInt16.ofNat k * 2
    let w ← word m.cpu.memory address
    let f ← fields w
    pure (address, f)

section Agreement
variable {origin now : Nat} {m : Chip8.Machine}

theorem start_eq (now : Nat) (settings : Settings) :
    start now settings = .ok (.of (.start now settings)) := by
  rw [start, Cpu.start_eq]
  rfl

theorem reset_of (now : Nat) (m : Chip8.Machine) : (of m).reset now = .ok (.of (m.reset now)) := by
  have hcpu : (of m).cpu.reset now = .ok (.of (m.cpu.reset now)) := Cpu.reset_of now m.cpu
  rw [reset, hcpu]
  rfl

theorem load_of (now : Nat) (rom : List UInt8) (m : Chip8.Machine) :
    (of m).load now rom = .ok ((m.load now rom).map of) := by
  unfold load Chip8.Machine.load
  by_cases hlen : Memory.romCapacity < rom.length
  · rw [if_pos hlen, if_pos hlen]
    rfl
  · have hcap : Memory.romCapacity = 3584 := rfl
    have hstart : Memory.romStart = 512 := rfl
    have hcopy : copy (of (m.reset now)).cpu.memory Memory.romStart rom = .ok (.ofRom rom) := by
      rw [← Memory.copy_empty]
      exact copy_eq (by omega) .empty
    have hadd : addSize Memory.romStart rom.length = .ok (Memory.romStart + rom.length) :=
      if_pos (by omega)
    rw [if_neg hlen, if_neg hlen, reset_of, ok_bind, hcopy, ok_bind, hadd]
    rfl

theorem loadFile_of (now : Nat) (path : String) (contents : Except ReadError (List UInt8))
    (m : Chip8.Machine) :
    (of m).loadFile now path contents = .ok ((m.loadFile now path contents).map of) := by
  cases contents with
  | error cause => rfl
  | ok rom =>
    rw [loadFile, load_of, ok_bind, Chip8.Machine.loadFile]
    cases m.load now rom <;> rfl

theorem executeNext_of (random : UInt8) (m : Chip8.Machine) :
    (of m).executeNext random = .ok (.of (m.act random (.execute m.fetch))) := by
  have hword : word (of m).cpu.memory (of m).cpu.pc = .ok m.cpu.fetch := word_eq _ _
  obtain ⟨args, hshown⟩ := shown_of m.fetch
  have hfields : fields m.cpu.fetch = .ok (.of m.fetch) := fields_eq _
  have hexecute : (of m).cpu.execute random (.of m.fetch) =
      .ok (Cpu.outcome (m.cpu.execute random m.fetch)) := Cpu.execute_of m.cpu m.fetch random
  rw [executeNext, hword, ok_bind, hfields, ok_bind, hshown, ok_bind, hexecute]
  rfl

theorem tick_of (h : Clocked origin now m.cpu.timers) (hspan : now - origin < 2 ^ 64) :
    (of m).tick now = .ok (.of (m.tick now)) := by
  have hcpu : (of m).cpu.tick now = .ok (.of (m.cpu.tick now)) := Cpu.tick_of h hspan
  rw [tick, hcpu]
  rfl

theorem step_of (h : Clocked origin now m.cpu.timers) (hspan : now - origin < 2 ^ 64)
    (random : UInt8) : (of m).step now random = .ok (.of (m.step now random)) := by
  rw [step, tick_of h hspan, ok_bind, Chip8.Machine.step, Chip8.Machine.stepAction]
  have hiff : Memory.romStart ≤ (of (m.tick now)).cpu.pc.toNat ∧
      (of (m.tick now)).cpu.pc.toNat < (of (m.tick now)).romEnd ↔ m.InRom := Iff.rfl
  by_cases hrom : m.InRom
  · rw [if_pos (hiff.mpr hrom), if_pos hrom]
    exact executeNext_of random (m.tick now)
  · rw [if_neg (hiff.not.mpr hrom), if_neg hrom]
    rfl

theorem cycle_of (h : Clocked origin now m.cpu.timers) (hspan : now - origin < 2 ^ 64)
    (random : UInt8) : (of m).cycle now random = .ok (.of (m.cycle now random)) := by
  have hpaused : (of (m.tick now)).paused = m.paused := rfl
  have hrom : Memory.romStart ≤ (of (m.tick now)).cpu.pc.toNat ∧
      (of (m.tick now)).cpu.pc.toNat < (of (m.tick now)).romEnd ↔ m.InRom := Iff.rfl
  have hbreak : Chip8.Machine.indexOf (of (m.tick now)).cpu.pc ∈ (of (m.tick now)).breakpoints ∧
      (of (m.tick now)).passed ≠ some (of (m.tick now)).cpu.pc ↔ m.AtBreakpoint := Iff.rfl
  rw [cycle, tick_of h hspan, ok_bind, Chip8.Machine.cycle]
  simp only [hpaused, hrom, hbreak]
  rcases m.cycleAction_cases with ⟨hp, ha⟩ | ⟨hp, hr, ha⟩ | ⟨hp, hr, hb, ha⟩ | ⟨hp, hr, hb, ha⟩
  · rw [if_pos hp, ha]
    rfl
  · rw [if_neg (by simp [hp]), if_neg hr, ha]
    rfl
  · rw [if_neg (by simp [hp]), if_pos hr, if_pos hb, ha]
    rfl
  · rw [if_neg (by simp [hp]), if_pos hr, if_neg hb, ha]
    exact executeNext_of random (m.tick now)

theorem setKey_of (key : UInt8) (pressed : Bool) (m : Chip8.Machine) :
    (of m).setKey key pressed = .ok (.of (m.setKey key pressed)) := by
  have hcpu : (of m).cpu.setKey key pressed =
      .ok (.of (Cpu.keyed key pressed m.cpu).1, (Cpu.keyed key pressed m.cpu).2) :=
    Cpu.setKey_of key pressed m.cpu
  rw [setKey, hcpu, ok_bind, Chip8.Machine.setKey, Cpu.keyed]
  cases m.cpu.keypad.press? key pressed <;> rfl

theorem call_of (h : Clocked origin now m.cpu.timers) (hspan : now - origin < 2 ^ 64) (c : Call) :
    (of m).call now c = .ok ((m.call now c).map of) := by
  cases c with
  | reset =>
    rw [call, reset_of]
    rfl
  | load rom => exact load_of now rom m
  | loadProgram words => exact load_of now (Word.join words) m
  | loadFile path contents => exact loadFile_of now path contents m
  | cycle random =>
    rw [call, cycle_of h hspan]
    rfl
  | step random =>
    rw [call, step_of h hspan]
    rfl
  | setKey key pressed =>
    rw [call, setKey_of]
    rfl
  | _ => rfl

theorem after_of (h : Clocked origin now m.cpu.timers) (hspan : now - origin < 2 ^ 64) (c : Call) :
    (of m).after now c = .ok (.of (m.after now c)) := by
  rw [after, call_of h hspan, ok_bind, Chip8.Machine.after]
  cases m.call now c <;> rfl

theorem clocked_after (h : Clocked origin now m.cpu.timers) (hle : origin ≤ now) (c : Call) :
    Clocked origin now (m.after now c).cpu.timers := by
  obtain ⟨-, -, htimers⟩ | ⟨-, random, hafter⟩ | ⟨-, -, htimers⟩ :=
    Chip8.Machine.timers_after_cases now c m
  · rw [htimers]
    exact clocked_start hle
  · rw [hafter]
    cases c.action m with
    | execute ins =>
      have hkeeps := (m.cpu.tick now).keeps_execute random ins
      exact h.tick.congr hkeeps.stopwatch hkeeps.leftover
    | _ => exact h.tick
  · rw [htimers]
    exact h

theorem afterAll_of {history : List (Nat × Call)} (h : Clocked origin now m.cpu.timers)
    (hle : origin ≤ now) (hclock : (now :: history.map Prod.fst).IsChain (· ≤ ·))
    (hspan : ∀ e ∈ history, e.1 - origin < 2 ^ 64) :
    (of m).afterAll history = .ok (.of (m.afterAll history)) := by
  induction history generalizing now m with
  | nil => rfl
  | cons e history ih =>
    obtain ⟨hnow, hclock⟩ := List.isChain_cons_cons.mp hclock
    have hlater := h.later hnow
    have hle' := Nat.le_trans hle hnow
    rw [afterAll, List.foldlM_cons, after_of hlater (hspan e List.mem_cons_self), ok_bind]
    exact ih (clocked_after hlater hle' e.2) hle' hclock fun e he =>
      hspan e (List.mem_cons_of_mem _ he)

theorem upcoming_of (m : Chip8.Machine) (count : Nat) :
    (of m).upcoming count = .ok ((m.upcoming count).map fun e => (e.1, .of e.2)) := by
  rw [Chip8.Machine.upcoming, List.map_map]
  apply mapM_eq
  intro k _
  simp only [word_eq, fields_eq, ok_bind]
  rfl

end Agreement
end Machine

/-- On a clock that never runs backwards and stays within sixty-four bits of nanoseconds, no history
reaches a fault, and neither does looking ahead in the program. -/
theorem history_without_fault (origin : Nat) (settings : Settings) (history : List (Nat × Call))
    (hclock : (origin :: history.map Prod.fst).IsChain (· ≤ ·))
    (hspan : ∀ e ∈ history, e.1 - origin < 2 ^ 64) :
    (Machine.start origin settings >>= Machine.afterAll history) =
      .ok (.of ((Chip8.Machine.start origin settings).afterAll history)) ∧
    ∀ count, (Machine.start origin settings >>= Machine.afterAll history >>=
        Machine.upcoming count) =
      .ok ((((Chip8.Machine.start origin settings).afterAll history).upcoming count).map
        fun e => (e.1, .of e.2)) := by
  have hstart : Clocked origin origin (Chip8.Machine.start origin settings).cpu.timers :=
    clocked_start (Nat.le_refl origin)
  have hrun : (Machine.start origin settings >>= Machine.afterAll history) =
      .ok (.of ((Chip8.Machine.start origin settings).afterAll history)) := by
    rw [Machine.start_eq, ok_bind]
    exact Machine.afterAll_of hstart (Nat.le_refl origin) hclock hspan
  refine ⟨hrun, ?_⟩
  intro count
  rw [hrun, ok_bind, Machine.upcoming_of]

def rewritingHistory : List (Nat × Call) :=
  [(0, .loadProgram [0xA200, 0xF033]), (10, .cycle 0), (2 ^ 40, .cycle 0),
    (2 ^ 40, .setKey 0xFF true), (2 ^ 40, .addBreakpoint (2 ^ 60)), (2 ^ 63, .step 0),
    (2 ^ 64 - 1, .reset)]

theorem rewriting_history_without_fault :
    (0 :: rewritingHistory.map Prod.fst).IsChain (· ≤ ·) ∧
    (∀ e ∈ rewritingHistory, e.1 - 0 < 2 ^ 64) ∧
    (Machine.start 0 {} >>= Machine.afterAll rewritingHistory) =
      .ok (.of ((Chip8.Machine.start 0 {}).afterAll rewritingHistory)) := by
  have hclock : (0 :: rewritingHistory.map Prod.fst).IsChain (· ≤ ·) := by
    simp [rewritingHistory]
  have hspan : ∀ e ∈ rewritingHistory, e.1 - 0 < 2 ^ 64 := by
    simp [rewritingHistory]
  exact ⟨hclock, hspan, (history_without_fault 0 {} rewritingHistory hclock hspan).1⟩

end Chip8.Checked
