import Chip8.Proofs.Execution
import Chip8.Proofs.History
import Chip8.Proofs.Picture

/-! Colours, the clock rate and the mark of a program never influence what a machine computes. Two
machines that show the same picture in colours of their own keep doing so through the same calls,
since an instruction reaches the screen only by toggling cells, by clearing it, and by asking whether
a toggled cell was on. -/

namespace Chip8

namespace Cpu
variable (random : UInt8) (s : Cpu) {ins : Instruction} {d : Screen 64 32}

def withScreen (d : Screen 64 32) (s : Cpu) : Cpu := { s with screen := d }

theorem skipIf_withScreen (c : Bool) (d : Screen 64 32) : (s.withScreen d).skipIf c =
    ((s.skipIf c).1.withScreen d, (s.skipIf c).2) := by
  cases c <;> rfl

theorem execute_withScreen (hclear : ins.opcode ≠ .clear) (hdraw : ins.opcode ≠ .draw)
    (d : Screen 64 32) : (s.withScreen d).execute random ins =
      ((s.execute random ins).1.withScreen d, (s.execute random ins).2) := by
  obtain ⟨op, w⟩ := ins
  cases op with
  | clear => exact absurd rfl hclear
  | draw => exact absurd rfl hdraw
  | ret =>
    obtain ⟨v, i, pc, stack, memory, screen, keypad, timers⟩ := s
    cases stack <;> rfl
  | skipEqByte | skipNeByte | skipEq | skipNe | skipDown | skipUp =>
    exact skipIf_withScreen s _ d
  | _ => rfl

theorem screen_execute (hclear : ins.opcode ≠ .clear) (hdraw : ins.opcode ≠ .draw) :
    (s.execute random ins).1.screen = s.screen := by
  have h := execute_withScreen random s hclear hdraw s.screen
  exact (congrArg (fun r => r.1.screen) h).trans rfl

theorem legible_execute (hs : s.screen.Legible) (ins : Instruction) :
    (s.execute random ins).1.screen.Legible := by
  by_cases hclear : ins.opcode = .clear
  · obtain ⟨op, w⟩ := ins
    obtain rfl : op = .clear := hclear
    exact hs.clear
  · by_cases hdraw : ins.opcode = .draw
    · obtain ⟨op, w⟩ := ins
      obtain rfl : op = .draw := hdraw
      exact hs.flipAll _
    · rw [screen_execute random s hclear hdraw]
      exact hs

theorem drawSprite_withScreen (x y n : Fin 16) (hp : s.screen.SamePicture d)
    (hs : s.screen.Legible) (hd : d.Legible) : ∃ d',
      (s.drawSprite x y n).screen.SamePicture d' ∧
      (s.withScreen d).drawSprite x y n = (s.drawSprite x y n).withScreen d' := by
  obtain ⟨hpicture, hhit⟩ :=
    hp.flipAll hs hd (s.spriteCells (s.reg x).toNat (s.reg y).toNat n.val)
  refine ⟨_, hpicture, ?_⟩
  have hdraw : (s.withScreen d).drawSprite x y n =
      (s.withScreen (d.flipAll (s.spriteCells (s.reg x).toNat (s.reg y).toNat n.val)).1).setReg
        flag (bit (d.flipAll (s.spriteCells (s.reg x).toNat (s.reg y).toNat n.val)).2) := rfl
  rw [hdraw, hhit]
  rfl

theorem execute_of_samePicture (hp : s.screen.SamePicture d) (hs : s.screen.Legible)
    (hd : d.Legible) (ins : Instruction) : ∃ d',
      (s.execute random ins).1.screen.SamePicture d' ∧
      (s.withScreen d).execute random ins =
        ((s.execute random ins).1.withScreen d', (s.execute random ins).2) := by
  by_cases hclear : ins.opcode = .clear
  · obtain ⟨op, w⟩ := ins
    obtain rfl : op = .clear := hclear
    exact ⟨d.clear, hp.clear, rfl⟩
  · by_cases hdraw : ins.opcode = .draw
    · obtain ⟨op, w⟩ := ins
      obtain rfl : op = .draw := hdraw
      obtain ⟨d', hpicture, heq⟩ := s.drawSprite_withScreen w.x w.y w.n hp hs hd
      refine ⟨d', hpicture, ?_⟩
      change next ((s.withScreen d).drawSprite w.x w.y w.n) = _
      rw [heq]
      rfl
    · refine ⟨d, ?_, execute_withScreen random s hclear hdraw d⟩
      rw [screen_execute random s hclear hdraw]
      exact hp

end Cpu

/-- A call that no program can notice. -/
def Call.isTuning : Call → Bool
  | .setClockRate _ | .setLegacy _ | .setForeground _ | .setBackground _ | .cleanScreen => true
  | _ => false

theorem Call.isTuning_of_isPalette {c : Call} (h : c.isPalette) : c.isTuning := by
  cases c with
  | setForeground | setBackground => rfl
  | _ => cases h

namespace Machine
variable {m m' m'' : Machine} {now : Nat} {c : Call}

def dressed (d : Screen 64 32) (rate : UInt32) (legacy : Bool) (m : Machine) : Machine :=
  { m with cpu := m.cpu.withScreen d, clockRate := rate, legacy := legacy }

/-- Machines that differ only in their settings, and in the colours of the same picture. -/
inductive Alike (m : Machine) : Machine → Prop
  | dress {d : Screen 64 32} (h : m.cpu.screen.SamePicture d) (rate : UInt32) (legacy : Bool) :
    Alike m (m.dressed d rate legacy)

theorem Alike.refl (m : Machine) : m.Alike m := .dress (.refl _) m.clockRate m.legacy

theorem Alike.symm (h : m.Alike m') : m'.Alike m := by
  cases h with
  | dress h rate legacy => exact .dress h.symm m.clockRate m.legacy

theorem Alike.trans (h : m.Alike m') (h' : m'.Alike m'') : m.Alike m'' := by
  cases h with
  | dress h rate legacy =>
    cases h' with
    | dress h' rate' legacy' => exact .dress (h.trans h') rate' legacy'

theorem alike_act {d : Screen 64 32} (hp : m.cpu.screen.SamePicture d)
    (hm : m.cpu.screen.Legible) (hd : d.Legible) (rate : UInt32) (legacy : Bool)
    (random : UInt8) (a : Action) :
    (m.act random a).Alike ((m.dressed d rate legacy).act random a) := by
  cases a with
  | execute ins =>
    obtain ⟨d', hpicture, hexec⟩ := m.cpu.execute_of_samePicture random hp hm hd ins
    have hcpu : (m.dressed d rate legacy).cpu.execute random ins =
        ((m.cpu.execute random ins).1.withScreen d', (m.cpu.execute random ins).2) := hexec
    have heq : (m.dressed d rate legacy).act random (.execute ins) =
        (m.act random (.execute ins)).dressed d' rate legacy := by
      simp only [act, hcpu]
      rfl
    rw [heq]
    exact .dress hpicture rate legacy
  | idle => exact .dress hp rate legacy
  | leave => exact .dress (m := m.act random .leave) hp rate legacy
  | stop => exact .dress (m := m.act random .stop) hp rate legacy

theorem alike_setKey {d : Screen 64 32} (hp : m.cpu.screen.SamePicture d) (rate : UInt32)
    (legacy : Bool) (key : UInt8) (pressed : Bool) :
    (m.setKey key pressed).Alike ((m.dressed d rate legacy).setKey key pressed) := by
  have hpress : (m.dressed d rate legacy).cpu.keypad.press? key pressed =
      m.cpu.keypad.press? key pressed := rfl
  have hscreen : (m.setKey key pressed).cpu.screen.SamePicture d := by
    unfold setKey
    cases m.cpu.keypad.press? key pressed <;> exact hp
  have heq : (m.dressed d rate legacy).setKey key pressed =
      (m.setKey key pressed).dressed d rate legacy := by
    rw [setKey, setKey, hpress]
    cases m.cpu.keypad.press? key pressed <;> rfl
  rw [heq]
  exact .dress hscreen rate legacy

theorem reset_dressed (d : Screen 64 32) (rate : UInt32) (legacy : Bool) :
    (m.dressed d rate legacy).reset now = (m.reset now).dressed d.clear rate legacy := rfl

theorem programmed_dressed (d : Screen 64 32) (rate : UInt32) (legacy : Bool) (memory : Memory)
    (romEnd : Nat) : (m.dressed d rate legacy).programmed memory romEnd =
      (m.programmed memory romEnd).dressed d rate legacy := rfl

theorem call_dressed (d : Screen 64 32) (rate : UInt32) (legacy : Bool) (hc : c.isLoad) :
    (m.dressed d rate legacy).call now c = (m.call now c).map (dressed d.clear rate legacy) := by
  obtain ⟨e, herror⟩ | ⟨program, romEnd, path, -, -, hok⟩ := call_cases_of_isLoad now hc
  · rw [herror, herror]
    rfl
  · rw [hok, hok, reset_dressed, programmed_dressed]
    rfl

theorem screen_call (hc : c.isLoad) (h : m.call now c = .ok m') :
    m'.cpu.screen = m.cpu.screen.clear := by
  obtain ⟨e, herror⟩ | ⟨program, romEnd, path, -, -, hok⟩ := call_cases_of_isLoad now hc
  · cases (herror m).symm.trans h
  · obtain rfl := Except.ok.inj ((hok m).symm.trans h)
    rfl

theorem legible_after_load (hm : m.cpu.screen.Legible) (hc : c.isLoad) :
    (m.after now c).cpu.screen.Legible := by
  cases hcall : m.call now c with
  | ok m' =>
    rw [after_of_ok hcall, screen_call hc hcall]
    exact hm.clear
  | error e =>
    rw [after_of_error hcall]
    exact hm

theorem legible_act (hm : m.cpu.screen.Legible) (random : UInt8) (a : Action) :
    (m.act random a).cpu.screen.Legible := by
  cases a with
  | execute ins => exact Cpu.legible_execute random m.cpu hm ins
  | _ => exact hm

theorem legible_after (hm : m.cpu.screen.Legible) (hc : c.isPalette →
    (m.after now c).cpu.screen.foreground ≠ (m.after now c).cpu.screen.background) :
    (m.after now c).cpu.screen.Legible := by
  cases c with
  | reset => exact hm.clear
  | load | loadProgram | loadFile => exact legible_after_load hm rfl
  | cycle random => exact legible_act (m := m.tick now) hm random m.cycleAction
  | step random => exact legible_act (m := m.tick now) hm random m.stepAction
  | setKey key pressed =>
    change (m.setKey key pressed).cpu.screen.Legible
    unfold setKey
    cases m.cpu.keypad.press? key pressed <;> exact hm
  | setForeground colour => exact ⟨hc rfl, hm.twoColoured.setForeground colour⟩
  | setBackground colour => exact ⟨hc rfl, hm.twoColoured.setBackground colour⟩
  | _ => exact ⟨hm.apart, hm.twoColoured⟩

theorem alike_load {d : Screen 64 32} (hp : m.cpu.screen.SamePicture d) (rate : UInt32)
    (legacy : Bool) (hc : c.isLoad) :
    (m.after now c).Alike ((m.dressed d rate legacy).after now c) := by
  rw [after, after, call_dressed d rate legacy hc]
  cases hcall : m.call now c with
  | error e => exact .dress hp rate legacy
  | ok m' =>
    refine Alike.dress (m := m') ?_ rate legacy
    rw [screen_call hc hcall]
    exact hp.clear

theorem Alike.after (h : m.Alike m') (hm : m.cpu.screen.Legible) (hm' : m'.cpu.screen.Legible)
    (hc : c.isTuning = false) : (m.after now c).Alike (m'.after now c) := by
  cases h with
  | @dress d hp rate legacy =>
    cases c with
    | reset => exact .dress (m := m.reset now) hp.clear rate legacy
    | load | loadProgram | loadFile => exact alike_load hp rate legacy rfl
    | cycle random => exact alike_act (m := m.tick now) hp hm hm' rate legacy random m.cycleAction
    | step random => exact alike_act (m := m.tick now) hp hm hm' rate legacy random m.stepAction
    | setKey key pressed => exact alike_setKey hp rate legacy key pressed
    | setWrapping on =>
      exact .dress (m := m.mapScreen (·.setWrapping on)) (hp.setWrapping on) rate legacy
    | pause => exact .dress (m := m.pause) hp rate legacy
    | resume => exact .dress (m := m.resume) hp rate legacy
    | addBreakpoint k => exact .dress (m := m.after now (.addBreakpoint k)) hp rate legacy
    | removeBreakpoint k => exact .dress (m := m.after now (.removeBreakpoint k)) hp rate legacy
    | clearBreakpoints => exact .dress (m := m.after now .clearBreakpoints) hp rate legacy
    | setClockRate | setLegacy | setForeground | setBackground | cleanScreen => cases hc

theorem alike_tuning (hm : m.cpu.screen.Legible) (hc : c.isTuning) (hcolours : c.isPalette →
    (m.after now c).cpu.screen.foreground ≠ (m.after now c).cpu.screen.background) :
    m.Alike (m.after now c) := by
  cases c with
  | setClockRate rate => exact .dress (.refl _) rate m.legacy
  | setLegacy on => exact .dress (.refl _) m.clockRate on
  | setForeground colour => exact .dress (.of_setForeground hm (hcolours rfl)) m.clockRate m.legacy
  | setBackground colour => exact .dress (.of_setBackground hm (hcolours rfl)) m.clockRate m.legacy
  | cleanScreen =>
    exact .dress (d := m.cpu.screen.clean) ⟨rfl, fun _ => rfl⟩ m.clockRate m.legacy
  | _ => cases hc

def KeepsColours (m : Machine) (history : List (Nat × Call)) : Prop :=
  m.Throughout (fun now m c => c.isPalette →
    (m.after now c).cpu.screen.foreground ≠ (m.after now c).cpu.screen.background) history

def shared (history : List (Nat × Call)) : List (Nat × Call) := history.filter (!·.2.isTuning)

theorem Alike.afterAll_shared {history : List (Nat × Call)} (h : m.Alike m')
    (hm : m.cpu.screen.Legible) (hm' : m'.cpu.screen.Legible) (hk : m.KeepsColours history) :
    (m.afterAll history).Alike (m'.afterAll (shared history)) := by
  induction history generalizing m m' with
  | nil => exact h
  | cons e history ih =>
    obtain ⟨hcolours, hk⟩ := hk
    have hnext := legible_after hm hcolours
    cases hc : e.2.isTuning with
    | true =>
      -- only the first machine is asked
      have hskip : shared (e :: history) = shared history := by
        rw [shared, List.filter_cons_of_neg (by simp [hc])]
        rfl
      rw [hskip]
      exact ih ((alike_tuning hm hc hcolours).symm.trans h) hnext hm' hk
    | false =>
      have hkeep : shared (e :: history) = e :: shared history := by
        rw [shared, List.filter_cons_of_pos (by simp [hc])]
        rfl
      have hpalette : ¬e.2.isPalette := by
        intro hpal
        cases hc.symm.trans (Call.isTuning_of_isPalette hpal)
      rw [hkeep]
      exact ih (h.after hm hm' hc) hnext (legible_after hm' fun hpal => absurd hpal hpalette) hk

theorem legible_start (now : Nat) {settings : Settings}
    (h : settings.foreground ≠ settings.background) :
    (start now settings).cpu.screen.Legible := by
  refine ⟨h, ?_⟩
  intro c
  right
  exact Screen.get_painted settings.wrapping settings.foreground settings.background c

theorem alike_start (now : Nat) {a b : Settings} (h : a.wrapping = b.wrapping) :
    (start now a).Alike (start now b) := by
  have hoff (settings : Settings) (c : Fin 64 × Fin 32) :
      (start now settings).cpu.screen.lit c = false := by
    have hget : (start now settings).cpu.screen.get c = settings.background :=
      Screen.get_painted settings.wrapping settings.foreground settings.background c
    rw [Screen.lit_eq, hget]
    exact bne_self_eq_false settings.background
  have hp : (start now a).cpu.screen.SamePicture (start now b).cpu.screen :=
    ⟨h.symm, fun c => (hoff b c).trans (hoff a c).symm⟩
  exact .dress hp b.clockRate b.legacy

structure Agrees (m m' : Machine) : Prop where
  v : m'.cpu.v = m.cpu.v
  i : m'.cpu.i = m.cpu.i
  pc : m'.cpu.pc = m.cpu.pc
  stack : m'.cpu.stack = m.cpu.stack
  memory : m'.cpu.memory = m.cpu.memory
  timers : m'.cpu.timers = m.cpu.timers
  keypad : m'.cpu.keypad = m.cpu.keypad
  paused : m'.paused = m.paused
  breakpoints : m'.breakpoints = m.breakpoints
  passed : m'.passed = m.passed
  romEnd : m'.romEnd = m.romEnd
  romPath : m'.romPath = m.romPath
  isOn : ∀ x y, m'.cpu.screen.isOn x y = m.cpu.screen.isOn x y

theorem Alike.agrees (h : m.Alike m') : m.Agrees m' := by
  cases h with
  | dress h rate legacy =>
    exact ⟨rfl, rfl, rfl, rfl, rfl, rfl, rfl, rfl, rfl, rfl, rfl, rfl, h.isOn⟩

theorem Alike.call_result (h : m.Alike m') (now : Nat) (c : Call) :
    (m'.call now c).map (fun _ => ()) = (m.call now c).map (fun _ => ()) := by
  cases h with
  | @dress d _ rate legacy =>
    cases hc : c.isLoad with
    | true =>
      rw [call_dressed d rate legacy hc]
      cases m.call now c <;> rfl
    | false =>
      cases c with
      | load | loadProgram | loadFile => cases hc
      | _ => rfl

/-- Two machines that are asked the same but for colours, clock rate and mark of a program compute
the same and give the same answers, while neither makes its two colours equal. -/
theorem tuning_never_influences_execution (now : Nat) {a b : Settings}
    (hwrapping : a.wrapping = b.wrapping) (ha : a.foreground ≠ a.background)
    (hb : b.foreground ≠ b.background) {h k : List (Nat × Call)} (hshared : shared h = shared k)
    (hh : (start now a).KeepsColours h) (hk : (start now b).KeepsColours k) :
    ((start now a).afterAll h).Agrees ((start now b).afterAll k) ∧
    ∀ t c, (((start now b).afterAll k).call t c).map (fun _ => ()) =
      (((start now a).afterAll h).call t c).map (fun _ => ()) := by
  have hla := legible_start now ha
  have hlb := legible_start now hb
  have hleft := (Alike.refl (start now a)).afterAll_shared hla hla hh
  have hright := (alike_start now hwrapping).symm.afterAll_shared hlb hla hk
  have halike : ((start now a).afterAll h).Alike ((start now b).afterAll k) := by
    rw [hshared] at hleft
    exact hleft.trans hright.symm
  exact ⟨halike.agrees, halike.call_result⟩

theorem background_start (now : Nat) (settings : Settings) :
    (start now settings).cpu.screen.background = settings.background := rfl

theorem apart_setForeground {colour : UInt32} (h : colour ≠ m.cpu.screen.background) :
    (m.after now (.setForeground colour)).cpu.screen.foreground ≠
      (m.after now (.setForeground colour)).cpu.screen.background := h

theorem tuning_never_influences_drawing :
    ((start 0 {}).afterAll
      [(0, .setForeground 7), (0, .load (Word.bytes 0xD005)), (1, .cycle 0)]).Agrees
    ((start 0 { clockRate := 700, legacy := false, foreground := 1, background := 2 }).afterAll
      [(0, .load (Word.bytes 0xD005)), (0, .setClockRate 900), (1, .cycle 0)]) := by
  refine (tuning_never_influences_execution 0 ?_ ?_ ?_ ?_ ?_ ?_).1
  · rfl
  · decide
  · decide
  · rfl
  · refine ⟨fun _ => apart_setForeground ?_, nofun, nofun, trivial⟩
    rw [background_start]
    decide
  · exact ⟨nofun, nofun, nofun, trivial⟩

end Machine
end Chip8
