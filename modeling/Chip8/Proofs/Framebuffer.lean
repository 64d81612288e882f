import Chip8.Proofs.Grid
import Chip8.Proofs.Independence
import Chip8.Proofs.Report

/-! What a screen shows. All that a machine does to its screen are strokes, so its screen stands for
a grid, and the rows of a report print that grid. -/

namespace Chip8

namespace Cpu

theorem screen_execute_strokes (random : UInt8) (s : Cpu) (ins : Instruction) :
    ∃ strokes, (s.execute random ins).1.screen = s.screen.afterAll strokes := by
  by_cases hclear : ins.opcode = .clear
  · obtain ⟨op, w⟩ := ins
    obtain rfl : op = .clear := hclear
    exact ⟨[.clear], rfl⟩
  · by_cases hdraw : ins.opcode = .draw
    · obtain ⟨op, w⟩ := ins
      obtain rfl : op = .draw := hdraw
      exact ⟨_, s.screen.flipAll_eq_afterAll _⟩
    · exact ⟨[], screen_execute random s hclear hdraw⟩

end Cpu

namespace Machine
variable {m : Machine}

theorem screen_act_strokes (random : UInt8) (a : Action) (m : Machine) :
    ∃ strokes, (m.act random a).cpu.screen = m.cpu.screen.afterAll strokes := by
  cases a with
  | execute ins => exact m.cpu.screen_execute_strokes random ins
  | _ => exact ⟨[], rfl⟩

theorem screen_setKey (key : UInt8) (pressed : Bool) (m : Machine) :
    (m.setKey key pressed).cpu.screen = m.cpu.screen := by
  unfold setKey
  split <;> rfl

theorem screen_after_strokes (now : Nat) (c : Call) (m : Machine) :
    ∃ strokes, (m.after now c).cpu.screen = m.cpu.screen.afterAll strokes := by
  have hload (hc : c.isLoad) :
      ∃ strokes, (m.after now c).cpu.screen = m.cpu.screen.afterAll strokes := by
    cases hcall : m.call now c with
    | ok m' =>
      rw [after_of_ok hcall, screen_call hc hcall]
      exact ⟨[.clear], rfl⟩
    | error e =>
      rw [after_of_error hcall]
      exact ⟨[], rfl⟩
  cases c with
  | reset => exact ⟨[.clear], rfl⟩
  | load | loadProgram | loadFile => exact hload rfl
  | cycle random => exact screen_act_strokes random m.cycleAction (m.tick now)
  | step random => exact screen_act_strokes random m.stepAction (m.tick now)
  | setKey key pressed => exact ⟨[], screen_setKey key pressed m⟩
  | setWrapping on => exact ⟨[.setWrapping on], rfl⟩
  | setForeground colour => exact ⟨[.setForeground colour], rfl⟩
  | setBackground colour => exact ⟨[.setBackground colour], rfl⟩
  | cleanScreen => exact ⟨[.clean], rfl⟩
  | _ => exact ⟨[], rfl⟩

theorem Reachable.screen_strokes (h : m.Reachable) :
    ∃ strokes, m.cpu.screen = (Screen.blank 64 32).afterAll strokes := by
  induction h with
  | start now settings =>
    exact ⟨[.setWrapping settings.wrapping, .setForeground settings.foreground,
      .setBackground settings.background], rfl⟩
  | @after m _ now c ih =>
    obtain ⟨strokes, hscreen⟩ := ih
    obtain ⟨more, hafter⟩ := screen_after_strokes now c m
    refine ⟨strokes ++ more, ?_⟩
    rw [hafter, hscreen, Screen.afterAll_append]

end Machine

namespace Screen
variable {w h : Nat} {d : Screen w h}

theorem isOn_cell (d : Screen w h) (c : Fin w × Fin h) : d.isOn c.1 c.2 = d.lit c := by
  have hcell : d.cell? c.1 c.2 = some c := by
    rw [cell?_eq_some_iff, Grid.mem_named, Grid.Names, Nat.mod_eq_of_lt c.1.isLt,
      Nat.mod_eq_of_lt c.2.isLt]
    simp
  rw [isOn, hcell]
  rfl

theorem rowText_eq {d : Screen 64 32} (hd : d.Legible) (y : Fin 32) : Machine.rowText d y =
    (List.finRange 64).map fun x => if d.isOn x.val y.val then '#' else '.' := by
  apply List.map_congr_left
  intro x _
  rw [isOn_cell d (x, y)]
  simp only [lit_iff_mem_grid hd, mem_grid]

end Screen

/-- A screen drawn on in whatever way holds two colours, and while they differ, its strokes act on
its grid; the screen of a machine is such a screen, and a report prints its grid. -/
theorem framebuffer_refines_grid {w h : Nat} (hw : 0 < w) (hh : 0 < h) (past : List Stroke) :
    let d := (Screen.blank w h).afterAll past
    (∀ c, d.get c = d.foreground ∨ d.get c = d.background) ∧
    (d.foreground ≠ d.background → ∀ x y, d.ActsAsGrid x y) ∧
    (∀ future, (∀ more, more <+: future →
        (d.afterAll more).foreground ≠ (d.afterAll more).background) →
      (d.afterAll future).grid = d.grid.afterAll future) ∧
    (d.wrapping = true → ∀ x y,
      d.grid.named x y = {(⟨x % w, Nat.mod_lt x hw⟩, ⟨y % h, Nat.mod_lt y hh⟩)}) ∧
    (d.wrapping = false → ∀ x y,
      (∀ (hx : x < w) (hy : y < h), d.grid.named x y = {(⟨x, hx⟩, ⟨y, hy⟩)}) ∧
      (¬(x < w ∧ y < h) → d.grid.named x y = ∅)) ∧
    (∀ m : Machine, m.Reachable →
      ∃ strokes, m.cpu.screen = (Screen.blank 64 32).afterAll strokes) ∧
    ∀ (m : Machine) (strokes : List Stroke),
      m.cpu.screen = (Screen.blank 64 32).afterAll strokes →
      m.cpu.screen.foreground ≠ m.cpu.screen.background →
      ∃ state : List (List Char), state.length = 8 ∧
        Text.splitLines m.report.toList = state ++ (List.finRange 32).map fun y =>
          (List.finRange 64).map fun x => if m.cpu.screen.isOn x.val y.val then '#' else '.' := by
  have htwo : ((Screen.blank w h).afterAll past).TwoColoured :=
    Screen.TwoColoured.blank.afterAll past
  refine ⟨htwo, ?_, ?_, ?_, ?_, fun m hm => hm.screen_strokes, ?_⟩
  · intro hapart x y
    exact Screen.Legible.actsAsGrid ⟨hapart, htwo⟩ x y
  · intro future hapart
    exact Screen.grid_afterAll htwo hapart
  · intro hwrap
    exact Grid.named_of_wrapping hwrap hw hh
  · intro hwrap x y
    exact ⟨Grid.named_of_inside hwrap, Grid.named_of_outside hwrap⟩
  · intro m strokes hscreen hapart
    have hlegible : m.cpu.screen.Legible := by
      refine ⟨hapart, ?_⟩
      rw [hscreen]
      exact Screen.TwoColoured.blank.afterAll strokes
    refine ⟨(m.stateLines m.cpu.timers).map String.toList, ?_, ?_⟩
    · rw [List.length_map, m.length_stateLines]
    · rw [m.lines_report, Machine.reportLines, funext (Screen.rowText_eq hlegible)]

theorem framebuffer_of_three_by_five :
    let d := (Screen.blank 3 5).afterAll [.draw 1 1]
    0 < 3 ∧ 0 < 5 ∧ d.foreground ≠ d.background ∧ d.grid.on = {(1, 1)} ∧
      d.flipAll [(4, 6)] = (d.flip 4 6, true) ∧ (d.flip 4 6).grid.on = ∅ := by
  have hapart : ((Screen.blank 3 5).afterAll [.draw 1 1]).foreground ≠
      ((Screen.blank 3 5).afterAll [.draw 1 1]).background := by decide
  have hone : ((Screen.blank 3 5).afterAll [.draw 1 1]).grid = ⟨{(1, 1)}, true⟩ := by decide
  obtain ⟨-, hacts, -⟩ :=
    framebuffer_refines_grid (w := 3) (h := 5) (by decide) (by decide) [.draw 1 1]
  have hat := hacts hapart 4 6
  refine ⟨by decide, by decide, hapart, congrArg Grid.on hone, ?_, ?_⟩
  · rw [hat.hit, hone]
    rfl
  · rw [hat.flip, hone]
    rfl

end Chip8
