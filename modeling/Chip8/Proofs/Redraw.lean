import Chip8.Proofs.Framebuffer
import Chip8.Proofs.Sprite

/-! What the flag of a screen tells. Every stroke that reaches a cell or a colour puts it up, and no
other does, so who takes it down and later finds it still down has missed nothing: the cells and the
two colours are what they were. -/

namespace Chip8

section Flag
variable {σ α δ : Type} {step : σ → α → σ} {Raises : σ → α → Prop} {l : List α}

def Raised (step : σ → α → σ) (Raises : σ → α → Prop) (s : σ) (l : List α) : Prop :=
  ∃ past a future, l = past ++ a :: future ∧ Raises (past.foldl step s) a

theorem not_raised_nil (s : σ) : ¬Raised step Raises s [] := by
  rintro ⟨past, a, future, hl, -⟩
  simp at hl

theorem raised_cons {s : σ} {a : α} :
    Raised step Raises s (a :: l) ↔ Raises s a ∨ Raised step Raises (step s a) l := by
  constructor
  · rintro ⟨past, b, future, hl, hraises⟩
    cases past with
    | nil =>
      obtain ⟨rfl, -⟩ := List.cons.inj hl
      exact .inl hraises
    | cons a' past =>
      obtain ⟨rfl, rfl⟩ := List.cons.inj hl
      exact .inr ⟨past, b, future, rfl, hraises⟩
  · rintro (hraises | ⟨past, b, future, rfl, hraises⟩)
    · exact ⟨[], a, l, rfl, hraises⟩
    · exact ⟨a :: past, b, future, rfl, hraises⟩

theorem flag_foldl (flag : σ → Bool) (s : σ)
    (hstep : ∀ a ∈ l, ∀ s, flag (step s a) = true ↔ flag s = true ∨ Raises s a) :
    flag (l.foldl step s) = true ↔ flag s = true ∨ Raised step Raises s l := by
  induction l generalizing s with
  | nil => simp [not_raised_nil]
  | cons a l ih =>
    obtain ⟨hfirst, hrest⟩ := List.forall_mem_cons.mp hstep
    rw [List.foldl_cons, ih (step s a) hrest, hfirst, raised_cons, or_assoc]

theorem data_foldl (data : σ → δ) {s : σ}
    (hkeep : ∀ s a, ¬Raises s a → data (step s a) = data s)
    (h : ¬Raised step Raises s l) : data (l.foldl step s) = data s := by
  induction l generalizing s with
  | nil => rfl
  | cons a l ih =>
    rw [raised_cons, not_or] at h
    rw [List.foldl_cons, ih h.2, hkeep s a h.1]

/-- From a state in which it is down, the flag tells of all that is done to the data. -/
theorem flag_tells (step : σ → α → σ) (Raises : σ → α → Prop) (flag : σ → Bool)
    (data : σ → δ) {s : σ} (hdown : flag s = false)
    (hstep : ∀ a ∈ l, ∀ s, flag (step s a) = true ↔ flag s = true ∨ Raises s a)
    (hkeep : ∀ s a, ¬Raises s a → data (step s a) = data s) :
    (flag (l.foldl step s) = true ↔ Raised step Raises s l) ∧
      (flag (l.foldl step s) = false → data (l.foldl step s) = data s) := by
  have hraised := flag_foldl flag s hstep
  simp only [hdown, Bool.false_eq_true, false_or] at hraised
  refine ⟨hraised, ?_⟩
  intro hstill
  apply data_foldl data hkeep
  rw [← hraised, hstill]
  exact Bool.false_ne_true

end Flag

namespace Screen
variable {w h : Nat} {d : Screen w h} {x y : Nat} {ps : List (Nat × Nat)}

/-- What a renderer reads: the colours of all cells and the two colours themselves. -/
def painting (d : Screen w h) : Vector UInt32 (w * h) × UInt32 × UInt32 :=
  (d.pixels, d.foreground, d.background)

/-- The coordinates are in range. A display that wraps takes any, if it has a cell at all. -/
def Reaches (d : Screen w h) (x y : Nat) : Prop :=
  if d.wrapping then 0 < w ∧ 0 < h else x < w ∧ y < h

def Dirties (d : Screen w h) : Stroke → Prop
  | .draw x y | .erase x y | .flip x y => d.Reaches x y
  | .clear | .setForeground _ | .setBackground _ => True
  | .setWrapping _ | .clean => False

theorem reaches_iff_exists_cell : d.Reaches x y ↔ ∃ c, d.cell? x y = some c := by
  have hx : x % w < w ↔ 0 < w := ⟨Nat.zero_lt_of_lt, Nat.mod_lt x⟩
  have hy : y % h < h ↔ 0 < h := ⟨Nat.zero_lt_of_lt, Nat.mod_lt y⟩
  rw [← Option.isSome_iff_exists, cell?, Reaches]
  by_cases hwrapping : d.wrapping = true <;> simp [hwrapping, hx, hy]

theorem reaches_iff_named : d.Reaches x y ↔ ∃ c, d.grid.Names x y c := by
  simp only [reaches_iff_exists_cell, cell?_eq_some_iff, Grid.mem_named]

theorem reaches_flip (d : Screen w h) (x y : Nat) : (d.flip x y).Reaches = d.Reaches := by
  funext x' y'
  simp [Reaches]

def putAt (d : Screen w h) (x y : Nat) (colour : Fin w × Fin h → UInt32) : Screen w h :=
  match d.cell? x y with
  | some c => d.put c (colour c)
  | none => d

theorem dirty_putAt (d : Screen w h) (x y : Nat) (colour : Fin w × Fin h → UInt32) :
    (d.putAt x y colour).dirty = true ↔ d.dirty = true ∨ d.Reaches x y := by
  rw [reaches_iff_exists_cell, putAt]
  cases d.cell? x y <;> simp [put]

theorem putAt_of_not_reaches (hout : ¬d.Reaches x y) (colour : Fin w × Fin h → UInt32) :
    d.putAt x y colour = d := by
  rw [reaches_iff_exists_cell] at hout
  rw [putAt]
  cases hcell : d.cell? x y with
  | none => rfl
  | some c => exact absurd ⟨c, hcell⟩ hout

theorem dirty_flip (d : Screen w h) (x y : Nat) :
    (d.flip x y).dirty = true ↔ d.dirty = true ∨ d.Reaches x y := d.dirty_putAt x y _

theorem flip_of_not_reaches (hout : ¬d.Reaches x y) : d.flip x y = d :=
  putAt_of_not_reaches hout _

theorem dirty_after (d : Screen w h) {s : Stroke} (hs : s ≠ .clean) :
    (d.after s).dirty = true ↔ d.dirty = true ∨ d.Dirties s := by
  cases s with
  | draw x y | erase x y => exact d.dirty_putAt x y _
  | flip x y => exact d.dirty_flip x y
  | clear | setForeground | setBackground =>
    simp [after, Dirties, clear, setForeground, setBackground, repaint]
  | setWrapping on => simp [after, Dirties, setWrapping]
  | clean => exact absurd rfl hs

theorem painting_after {s : Stroke} (hs : ¬d.Dirties s) : (d.after s).painting = d.painting := by
  cases s with
  | draw x y | erase x y => exact congrArg painting (putAt_of_not_reaches hs _)
  | flip x y => exact congrArg painting (flip_of_not_reaches hs)
  | clear | setForeground | setBackground => exact absurd trivial hs
  | setWrapping | clean => rfl

theorem dirty_flipAll (d : Screen w h) (ps : List (Nat × Nat)) :
    (d.flipAll ps).1.dirty = true ↔ d.dirty = true ∨ ∃ p ∈ ps, d.Reaches p.1 p.2 := by
  induction ps generalizing d with
  | nil => simp [flipAll]
  | cons p ps ih =>
    have hrest := ih (d.flip p.1 p.2)
    rw [reaches_flip, dirty_flip] at hrest
    simpa [flipAll, or_assoc] using hrest

theorem flipAll_of_not_reaches (hout : ∀ p ∈ ps, ¬d.Reaches p.1 p.2) :
    (d.flipAll ps).1 = d := by
  induction ps with
  | nil => rfl
  | cons p ps ih =>
    obtain ⟨hfirst, hrest⟩ := List.forall_mem_cons.mp hout
    rw [flipAll, flip_of_not_reaches hfirst]
    exact ih hrest

end Screen

namespace Cpu
variable (random : UInt8) {s : Cpu} {ins : Instruction}

def Dirties (s : Cpu) (ins : Instruction) : Prop :=
  ins.opcode = .clear ∨ ins.opcode = .draw ∧ ∃ c, s.Covers ins.x ins.y ins.n c

theorem exists_covers_iff {x y n : Fin 16} : (∃ c, s.Covers x y n c) ↔
    ∃ p ∈ s.spriteCells (s.reg x).toNat (s.reg y).toNat n.val, s.screen.Reaches p.1 p.2 := by
  simp only [covers_iff, Screen.reaches_iff_named]
  constructor
  · rintro ⟨c, p, hp, hc⟩
    exact ⟨p, hp, c, hc⟩
  · rintro ⟨p, hp, c, hc⟩
    exact ⟨c, p, hp, hc⟩

theorem screen_execute_draw (w : Word) : (s.execute random ⟨.draw, w⟩).1.screen =
    (s.screen.flipAll (s.spriteCells (s.reg w.x).toNat (s.reg w.y).toNat w.n.val)).1 := rfl

theorem dirty_execute (s : Cpu) (ins : Instruction) :
    (s.execute random ins).1.screen.dirty = true ↔ s.screen.dirty = true ∨ s.Dirties ins := by
  obtain ⟨op, w⟩ := ins
  by_cases hclear : op = .clear
  · subst hclear
    exact iff_of_true rfl (.inr (.inl rfl))
  · by_cases hdraw : op = .draw
    · subst hdraw
      rw [screen_execute_draw, Screen.dirty_flipAll, ← exists_covers_iff]
      simp [Dirties, Instruction.x, Instruction.y, Instruction.n]
    · rw [screen_execute random s hclear hdraw]
      simp [Dirties, hclear, hdraw]

theorem painting_execute (h : ¬s.Dirties ins) :
    (s.execute random ins).1.screen.painting = s.screen.painting := by
  obtain ⟨op, w⟩ := ins
  obtain ⟨hclear, hcovers⟩ := not_or.mp h
  by_cases hdraw : op = .draw
  · subst hdraw
    have hout : ¬∃ c, s.Covers w.x w.y w.n c := fun hc => hcovers ⟨rfl, hc⟩
    rw [exists_covers_iff] at hout
    rw [screen_execute_draw, Screen.flipAll_of_not_reaches]
    intro p hp hreaches
    exact hout ⟨p, hp, hreaches⟩
  · rw [screen_execute random s hclear hdraw]

end Cpu

namespace Machine
variable {m : Machine} {now : Nat} {c : Call}

/-- A call that a renderer has to hear of: one that starts the machine afresh, a change of a colour,
or one at which such an instruction is executed. -/
def Dirties (now : Nat) (m : Machine) (c : Call) : Prop :=
  c.Restarts now m ∨ c.isPalette ∨ ∃ ins ∈ (c.action m).executed, m.cpu.Dirties ins

theorem dirty_act (random : UInt8) (a : Action) (m : Machine) :
    (m.act random a).cpu.screen.dirty = true ↔
      m.cpu.screen.dirty = true ∨ ∃ ins ∈ a.executed, m.cpu.Dirties ins := by
  cases a with
  | execute ins => simpa [act, Action.executed] using m.cpu.dirty_execute random ins
  | _ => simp [act, Action.executed]

theorem painting_act (random : UInt8) {a : Action} (h : ¬∃ ins ∈ a.executed, m.cpu.Dirties ins) :
    (m.act random a).cpu.screen.painting = m.cpu.screen.painting := by
  cases a with
  | execute ins =>
    exact Cpu.painting_execute random fun hins => h ⟨ins, List.mem_cons_self, hins⟩
  | _ => rfl

theorem dirties_iff_of_isLoad (hc : c.isLoad) : m.Dirties now c ↔ c.Restarts now m := by
  cases c with
  | load | loadProgram | loadFile => simp [Dirties, Call.isPalette, Call.action, Action.executed]
  | _ => cases hc

theorem dirties_iff_executes (m : Machine) (now : Nat) (c : Call) (hload : c.isLoad = false)
    (hpalette : c.isPalette = false) (hreset : c ≠ .reset) : m.Dirties now c ↔
    ∃ ins ∈ (c.action m).executed, m.cpu.Dirties ins := by
  simp [Dirties, Call.Restarts, hload, hreset, hpalette]

theorem dirty_after_load (hc : c.isLoad) : (m.after now c).cpu.screen.dirty = true ↔
    m.cpu.screen.dirty = true ∨ m.Dirties now c := by
  rw [dirties_iff_of_isLoad hc]
  by_cases hres : c.Restarts now m
  · obtain rfl | ⟨-, m', hcall⟩ := hres
    · cases hc
    · rw [after_of_ok hcall, screen_call hc hcall]
      exact iff_of_true rfl (.inr (.inr ⟨hc, m', hcall⟩))
  · rw [after_of_failed_load hc hres]
    simp [hres]

theorem dirty_after (m : Machine) (now : Nat) {c : Call} (hc : c ≠ .cleanScreen) :
    (m.after now c).cpu.screen.dirty = true ↔ m.cpu.screen.dirty = true ∨ m.Dirties now c := by
  cases c with
  | reset => exact iff_of_true rfl (.inr (.inl (.inl rfl)))
  | load | loadProgram | loadFile => exact dirty_after_load rfl
  -- the timers, which catch up first, play no part in what an instruction does to the screen
  | cycle random =>
    rw [m.dirties_iff_executes now (.cycle random) rfl rfl nofun]
    exact (m.tick now).dirty_act random m.cycleAction
  | step random =>
    rw [m.dirties_iff_executes now (.step random) rfl rfl nofun]
    exact (m.tick now).dirty_act random m.stepAction
  | setForeground | setBackground => exact iff_of_true rfl (.inr (.inr (.inl rfl)))
  | cleanScreen => exact absurd rfl hc
  | setKey key pressed =>
    have hscreen : (m.after now (.setKey key pressed)).cpu.screen = m.cpu.screen :=
      screen_setKey key pressed m
    rw [hscreen, m.dirties_iff_executes now (.setKey key pressed) rfl rfl nofun]
    simp [Call.action, Action.executed]
  | _ =>
    refine (or_iff_left ?_).symm
    simp [Dirties, Call.Restarts, Call.isLoad, Call.isPalette, Call.action, Action.executed]

theorem painting_after (h : ¬m.Dirties now c) :
    (m.after now c).cpu.screen.painting = m.cpu.screen.painting := by
  cases c with
  | reset => exact absurd (.inl (.inl rfl)) h
  | load | loadProgram | loadFile =>
    rw [after_of_failed_load rfl fun hres => h (.inl hres)]
  | cycle random | step random =>
    exact painting_act (m := m.tick now) random fun hins => h (.inr (.inr hins))
  | setForeground | setBackground => exact absurd (.inr (.inl rfl)) h
  | setKey key pressed => exact congrArg Screen.painting (screen_setKey key pressed m)
  | _ => rfl

end Machine

/-- A flag that was taken down is up again exactly when something was done to the screen since, and
while it is down the renderer's picture is the one it has read. -/
theorem dirty_flag_misses_nothing :
    (∀ (w h : Nat) (d : Screen w h) (strokes : List Stroke), .clean ∉ strokes →
      let later := d.clean.afterAll strokes
      (later.dirty = true ↔ ∃ past s future, strokes = past ++ s :: future ∧
        (d.clean.afterAll past).Dirties s) ∧
      (later.dirty = false → later.pixels = d.pixels ∧ later.foreground = d.foreground ∧
        later.background = d.background)) ∧
    (∀ (m : Machine) (now : Nat) (history : List (Nat × Call)),
      (∀ e ∈ history, e.2 ≠ .cleanScreen) →
      let taken := m.after now .cleanScreen
      let later := (taken.afterAll history).cpu.screen
      (later.dirty = true ↔ ∃ past e future, history = past ++ e :: future ∧
        (taken.afterAll past).Dirties e.1 e.2) ∧
      (later.dirty = false → later.pixels = m.cpu.screen.pixels ∧
        later.foreground = m.cpu.screen.foreground ∧
        later.background = m.cpu.screen.background)) := by
  constructor
  · intro w h d strokes hstrokes later
    obtain ⟨hraised, hstill⟩ :=
      flag_tells Screen.after Screen.Dirties Screen.dirty Screen.painting (s := d.clean) rfl
        (fun s hs d => d.dirty_after (ne_of_mem_of_not_mem hs hstrokes))
        (fun _ _ => Screen.painting_after)
    refine ⟨hraised, ?_⟩
    intro hdown
    have hpainting : later.painting = d.painting := hstill hdown
    simpa [Screen.painting] using hpainting
  · intro m now history hhistory taken later
    obtain ⟨hraised, hstill⟩ :=
      flag_tells (fun m e => m.after e.1 e.2) (fun m e => m.Dirties e.1 e.2) (·.cpu.screen.dirty)
        (·.cpu.screen.painting) (s := taken) rfl (fun e he m => m.dirty_after e.1 (hhistory e he))
        (fun _ _ => Machine.painting_after)
    refine ⟨hraised, ?_⟩
    intro hdown
    have hpainting : later.painting = m.cpu.screen.painting := hstill hdown
    simpa [Screen.painting] using hpainting

theorem dirty_flag_of_clipped_draws :
    let clipped := (Screen.blank 3 5).setWrapping false
    let missed := clipped.clean.afterAll [.draw 7 0, .erase 0 5]
    let drawn := clipped.clean.afterAll [.draw 7 0, .setWrapping true, .draw 7 0]
    let taken := (Machine.start 0 {}).after 0 .cleanScreen
    let idle := taken.afterAll [(1, .step 0), (2, .setWrapping false)]
    let loaded := taken.afterAll [(1, .step 0), (2, .load [])]
    missed.dirty = false ∧ missed.pixels = clipped.pixels ∧ drawn.dirty = true ∧
      idle.cpu.screen.dirty = false ∧ loaded.cpu.screen.dirty = true := by
  intro clipped missed drawn taken idle loaded
  obtain ⟨hstrokes, hcalls⟩ := dirty_flag_misses_nothing
  have hmissed : missed.dirty = false := by decide
  refine ⟨hmissed, ?_, ?_, ?_, ?_⟩
  · exact ((hstrokes 3 5 clipped [.draw 7 0, .erase 0 5] (by decide)).2 hmissed).1
  · refine (hstrokes 3 5 clipped _ (by decide)).1.mpr
      ⟨[.draw 7 0, .setWrapping true], .draw 7 0, [], rfl, ?_⟩
    exact ⟨by decide, by decide⟩
  · rfl
  · refine (hcalls (Machine.start 0 {}) 0 _ (by simp)).1.mpr
      ⟨[(1, .step 0)], (2, .load []), [], rfl, ?_⟩
    exact .inl (.inr ⟨rfl, _, rfl⟩)

end Chip8
