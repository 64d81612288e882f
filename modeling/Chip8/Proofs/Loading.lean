import Chip8.Proofs.History
import Mathlib.Data.List.GetD
import Mathlib.Data.List.Sort

/-! Loading a program. A load made in place changes one part of the machine after another, and still
it changes nothing when it fails; when it succeeds, the machine is one built anew with the same
settings and breakpoints, whatever it did before. -/

namespace Chip8

theorem Breakpoints.ext_mem {b b' : Breakpoints} (h : ∀ k, k ∈ b ↔ k ∈ b') : b = b' :=
  Breakpoints.ext (b.ascending.eq_of_mem_iff b'.ascending h)

theorem Breakpoints.mem_foldl_insert {b : Breakpoints} {j : Nat} (ks : List Nat) :
    j ∈ ks.foldl insert b ↔ j ∈ ks ∨ j ∈ b := by
  induction ks generalizing b with
  | nil => simp
  | cons k ks ih =>
    rw [List.foldl_cons, ih, mem_insert, List.mem_cons]
    constructor
    · rintro (h | h | h) <;> simp [h]
    · rintro ((h | h) | h) <;> simp [h]

theorem Word.bytes_eq (w : Word) :
    w.bytes = [UInt8.ofNat (w.toNat / 256), UInt8.ofNat (w.toNat % 256)] := by
  have hw := w.toNat_lt
  have hhigh : w.high = UInt8.ofNat (w.toNat / 256) := by
    apply UInt8.toNat_inj.mp
    rw [toNat_high, UInt8.toNat_ofNat']
    exact (Nat.mod_eq_of_lt (by omega)).symm
  have hlow : w.low = UInt8.ofNat (w.toNat % 256) := by
    apply UInt8.toNat_inj.mp
    rw [toNat_low, UInt8.toNat_ofNat']
    exact (Nat.mod_eq_of_lt (by omega)).symm
  rw [bytes, hhigh, hlow]

namespace Memory

def copy (offset : Nat) (data : List UInt8) (m : Memory) : Memory :=
  ⟨Vector.ofFn fun c => if offset ≤ c.val ∧ c.val < offset + data.length then
    data.getD (c.val - offset) 0 else m.get c⟩

def clear (m : Memory) : Memory :=
  copy 0 Font.bytes.toList { m with bytes := Vector.replicate 4096 0 }

theorem get_copy (m : Memory) (offset : Nat) (data : List UInt8) (c : Fin 4096) :
    (m.copy offset data).get c = if offset ≤ c.val ∧ c.val < offset + data.length then
      data.getD (c.val - offset) 0 else m.get c :=
  Vector.getElem_ofFn ..

theorem get_clear (m : Memory) (c : Fin 4096) :
    m.clear.get c = if h : c.val < 80 then Font.bytes[c.val] else 0 := by
  have hlen : Font.bytes.toList.length = 80 := Vector.length_toList
  have hzero : ({ m with bytes := Vector.replicate 4096 0 } : Memory).get c = 0 :=
    Vector.getElem_replicate ..
  rw [clear, get_copy, hlen, hzero]
  by_cases h : c.val < 80
  · rw [if_pos (by omega), dif_pos h]
    simp [List.getD_eq_getElem?_getD, h]
  · rw [if_neg (by omega), dif_neg h]

theorem clear_eq_empty (m : Memory) : m.clear = empty := by
  apply ext_get
  intro c
  rw [get_clear, empty, get_ofRom]
  simp

theorem copy_empty (rom : List UInt8) : empty.copy romStart rom = ofRom rom := by
  apply ext_get
  intro c
  have h80 : 80 ≤ romStart := by decide
  rw [get_copy, empty, get_ofRom, get_ofRom]
  by_cases hlow : c.val < romStart
  · rw [if_neg (by omega), if_pos hlow, if_pos hlow]
  · rw [dif_neg (by omega), dif_neg (by omega), if_neg hlow, if_neg hlow]
    by_cases hin : c.val < romStart + rom.length
    · rw [if_pos (by omega)]
    · rw [if_neg (by omega), List.getD_nil]
      exact (List.getD_eq_default _ _ (by omega)).symm

theorem toList_ofRom {rom : List UInt8} (h : rom.length ≤ romCapacity) :
    (ofRom rom).bytes.toList = Font.bytes.toList ++ List.replicate 432 0 ++ rom ++
      List.replicate (romCapacity - rom.length) 0 := by
  have hfont : Font.bytes.toList.length = 80 := Vector.length_toList
  have hcap : romCapacity = 3584 := rfl
  have hstart : romStart = 512 := rfl
  apply List.ext_getElem
  · simp only [List.length_append, List.length_replicate, Vector.length_toList]
    omega
  · intro i hi _
    rw [Vector.length_toList] at hi
    have hget := get_ofRom rom ⟨i, hi⟩
    rw [Vector.getElem_toList]
    refine Eq.trans hget ?_
    simp only [List.getElem_append, List.length_append, List.length_replicate, hfont,
      List.getElem_replicate, Vector.getElem_toList, hstart]
    by_cases h1 : i < 80
    · rw [dif_pos h1, dif_pos (by omega), dif_pos (by omega), dif_pos h1]
    · rw [dif_neg h1]
      by_cases h2 : i < 512
      · rw [if_pos h2, dif_pos (by omega), dif_pos (by omega), dif_neg h1]
      · rw [if_neg h2]
        by_cases h3 : i < 512 + rom.length
        · rw [dif_pos (by omega), dif_neg (by omega)]
          exact List.getD_eq_getElem _ _ (by omega)
        · rw [dif_neg (by omega)]
          exact List.getD_eq_default _ _ (by omega)

end Memory

theorem Screen.clear_congr {w h : Nat} {d d' : Screen w h} (hf : d.foreground = d'.foreground)
    (hb : d.background = d'.background) (hw : d.wrapping = d'.wrapping) : d.clear = d'.clear := by
  rw [clear, clear, hf, hb, hw]

def Keypad.reset {Register : Type} (k : Keypad Register) : Keypad Register :=
  { k with down := Vector.replicate 16 false, waiting := none }

def Timers.reset (now : Nat) (t : Timers) : Timers :=
  { t with stopwatch := .start now, leftover := 0, delay := 0, sound := 0 }

def Cpu.resetParts (now : Nat) (s : Cpu) : Cpu :=
  { s with
    v := Vector.replicate 16 0
    i := 0
    pc := origin
    stack := []
    memory := s.memory.clear
    screen := s.screen.clear
    keypad := s.keypad.reset
    timers := s.timers.reset now }

theorem Cpu.resetParts_eq_reset (now : Nat) (s : Cpu) : s.resetParts now = s.reset now := by
  rw [resetParts, Memory.clear_eq_empty]
  rfl

namespace Machine
variable {m : Machine} {now : Nat} {c : Call}

/-- Changes to a machine made one after another, until one of them fails. Those made before a
failure stay made. -/
abbrev Edit := ExceptT LoadError (StateM Machine)

def resetting (now : Nat) : Edit Unit := do
  modify fun m => { m with cpu := m.cpu.resetParts now }
  modify fun m => { m with paused := true }
  modify fun m => { m with passed := none }
  modify fun m => { m with romEnd := Memory.romStart }
  modify fun m => { m with romPath := none }

def loading (now : Nat) (rom : List UInt8) : Edit Unit := do
  if Memory.romCapacity < rom.length then
    throw (.tooLarge rom.length)
  resetting now
  modify fun m => { m with cpu := { m.cpu with memory := m.cpu.memory.copy Memory.romStart rom } }
  modify fun m => { m with romEnd := Memory.romStart + rom.length }
  modify fun m => { m with paused := false }

def loadingFile (now : Nat) (path : String) (contents : Except ReadError (List UInt8)) :
    Edit Unit := do
  match contents with
  | .error cause => throw (.unreadable path cause)
  | .ok rom =>
    loading now rom
    modify fun m => { m with romPath := some path }

def edit (now : Nat) : Call → Edit Unit
  | .load rom => loading now rom
  | .loadProgram words => loading now (Word.join words)
  | .loadFile path contents => loadingFile now path contents
  | _ => pure ()

theorem run_resetting (now : Nat) (m : Machine) :
    (resetting now).run.run m = (.ok (), m.reset now) := by
  have hrun : (resetting now).run.run m = (.ok (),
    { m with
      cpu := m.cpu.resetParts now
      paused := true
      passed := none
      romEnd := Memory.romStart
      romPath := none }) := rfl
  rw [hrun, Cpu.resetParts_eq_reset]
  rfl

theorem run_loading_of_lt {rom : List UInt8} (h : Memory.romCapacity < rom.length) :
    (loading now rom).run.run m = (.error (.tooLarge rom.length), m) := by
  rw [loading, if_pos h]
  rfl

theorem run_bind_of_ok {x : Edit Unit} {m' : Machine} (h : x.run.run m = (.ok (), m'))
    (k : Unit → Edit Unit) : (x >>= k).run.run m = (k ()).run.run m' := by
  rw [ExceptT.run_bind, StateT.run_bind, h]
  rfl

theorem run_bind_of_error {x : Edit Unit} {m' : Machine} {e : LoadError}
    (h : x.run.run m = (.error e, m')) (k : Unit → Edit Unit) :
    (x >>= k).run.run m = (.error e, m') := by
  rw [ExceptT.run_bind, StateT.run_bind, h]
  rfl

theorem run_loading_of_not_lt {rom : List UInt8} (h : ¬Memory.romCapacity < rom.length) :
    (loading now rom).run.run m =
      (.ok (), (m.reset now).programmed (.ofRom rom) (Memory.romStart + rom.length)) := by
  have hloading : loading now rom = (do
      resetting now
      modify fun m =>
        { m with cpu := { m.cpu with memory := m.cpu.memory.copy Memory.romStart rom } }
      modify fun m => { m with romEnd := Memory.romStart + rom.length }
      modify fun m => { m with paused := false }) := by
    rw [loading, if_neg h]
  have hmemory : (m.reset now).cpu.memory = .empty := rfl
  rw [hloading, run_bind_of_ok (run_resetting now m), ← Memory.copy_empty, ← hmemory]
  rfl

theorem run_loading (now : Nat) (rom : List UInt8) (m : Machine) : (loading now rom).run.run m =
    ((m.call now (.load rom)).map fun _ => (), m.after now (.load rom)) := by
  by_cases h : Memory.romCapacity < rom.length
  · have hcall : m.call now (.load rom) = .error (.tooLarge rom.length) := load_of_lt h
    rw [run_loading_of_lt h, hcall, after_of_error hcall]
    rfl
  · have hcall : m.call now (.load rom) =
        .ok ((m.reset now).programmed (.ofRom rom) (Memory.romStart + rom.length)) :=
      load_of_not_lt h
    rw [run_loading_of_not_lt h, hcall, after_of_ok hcall]
    rfl

theorem run_loadingFile (now : Nat) (path : String) (rom : List UInt8) (m : Machine) :
    (loadingFile now path (.ok rom)).run.run m =
      ((m.call now (.loadFile path (.ok rom))).map fun _ => (),
        m.after now (.loadFile path (.ok rom))) := by
  have hfile : m.call now (.loadFile path (.ok rom)) =
      (m.call now (.load rom)).map fun m' => { m' with romPath := some path } :=
    call_loadFile_ok path rom
  have hrun := run_loading now rom m
  cases hcall : m.call now (.load rom) with
  | error e =>
    rw [hcall] at hfile
    rw [hcall, after_of_error hcall] at hrun
    rw [hfile, after_of_error hfile]
    exact run_bind_of_error hrun _
  | ok m' =>
    rw [hcall] at hfile
    rw [hcall, after_of_ok hcall] at hrun
    rw [hfile, after_of_ok hfile]
    exact run_bind_of_ok hrun _

theorem run_edit (now : Nat) (m : Machine) (hc : c.isLoad) :
    (edit now c).run.run m = ((m.call now c).map fun _ => (), m.after now c) := by
  cases c with
  | load rom => exact run_loading now rom m
  | loadProgram words => exact run_loading now (Word.join words) m
  | loadFile path contents =>
    cases contents with
    | error cause => rfl
    | ok rom => exact run_loadingFile now path rom m
  | _ => cases hc

def settings (m : Machine) : Settings where
  clockRate := m.clockRate
  legacy := m.legacy
  wrapping := m.cpu.screen.wrapping
  foreground := m.cpu.screen.foreground
  background := m.cpu.screen.background

/-- A new machine with the same settings and the given breakpoints. -/
def rebuilt (built : Nat) (ks : List Nat) (m : Machine) : Machine :=
  (start built m.settings).afterAll (ks.map fun k => (built, .addBreakpoint k))

theorem afterAll_addBreakpoints (m : Machine) (now : Nat) (ks : List Nat) :
    m.afterAll (ks.map fun k => (now, .addBreakpoint k)) =
      { m with breakpoints := ks.foldl Breakpoints.insert m.breakpoints } := by
  induction ks generalizing m with
  | nil => rfl
  | cons k ks ih => exact ih { m with breakpoints := m.breakpoints.insert k }

theorem rebuilt_eq {ks : List Nat} (built : Nat) (hks : ∀ k, k ∈ ks ↔ k ∈ m.breakpoints) :
    m.rebuilt built ks = { start built m.settings with breakpoints := m.breakpoints } := by
  -- the order and the repetitions in the list do not matter, as the breakpoints are kept sorted
  have hbreakpoints : ks.foldl Breakpoints.insert .empty = m.breakpoints := by
    apply Breakpoints.ext_mem
    intro k
    rw [Breakpoints.mem_foldl_insert, hks]
    exact or_iff_left List.not_mem_nil
  rw [rebuilt, afterAll_addBreakpoints, ← hbreakpoints]
  rfl

theorem reset_congr {m m' : Machine} (hs : m.settings = m'.settings)
    (hb : m.breakpoints = m'.breakpoints) : m.reset now = m'.reset now := by
  obtain ⟨hrate, hlegacy, hwrap, hfore, hback⟩ := Settings.mk.inj hs
  rw [reset, reset, Cpu.reset, Cpu.reset, Screen.clear_congr hfore hback hwrap, hrate, hlegacy, hb]

theorem settings_start (now : Nat) (settings : Settings) :
    (start now settings).settings = settings := rfl

theorem reset_rebuilt {ks : List Nat} (built : Nat) (hks : ∀ k, k ∈ ks ↔ k ∈ m.breakpoints) :
    (m.rebuilt built ks).reset now = m.reset now := by
  rw [rebuilt_eq built hks]
  exact reset_congr (settings_start built m.settings) rfl

theorem call_of_reset_eq {m m' : Machine} (h : m.reset now = m'.reset now) (hc : c.isLoad) :
    m.call now c = m'.call now c := by
  obtain ⟨e, herror⟩ | ⟨program, romEnd, path, -, -, hok⟩ := call_cases_of_isLoad now hc
  · rw [herror, herror]
  · rw [hok, hok, h]

/-- The machine has nothing in it but a program loaded at the given instant, and its settings. -/
structure Loaded (now : Nat) (rom : List UInt8) (m : Machine) : Prop extends Fresh m where
  registers : m.cpu.v = Vector.replicate 16 0
  index : m.cpu.i = 0
  memory : m.cpu.memory.bytes.toList = Font.bytes.toList ++ List.replicate 432 0 ++ rom ++
    List.replicate (3584 - rom.length) 0
  blank : ∀ c, m.cpu.screen.get c = m.cpu.screen.background
  timers : m.cpu.timers = .start now
  running : m.paused = false
  romEnd : m.romEnd = 512 + rom.length
  romPath : m.romPath = none

theorem load_eq_error {rom : List UInt8} {e : LoadError} :
    m.call now (.load rom) = .error e ↔ 3584 < rom.length ∧ e = .tooLarge rom.length := by
  by_cases h : Memory.romCapacity < rom.length
  · have hcall : m.call now (.load rom) = .error (.tooLarge rom.length) := load_of_lt h
    have hlen : 3584 < rom.length := h
    simp [hcall, hlen, eq_comm]
  · have hcall : m.load now rom =
        .ok ((m.reset now).programmed (.ofRom rom) (Memory.romStart + rom.length)) :=
      load_of_not_lt h
    have hlen : ¬3584 < rom.length := h
    simp [call, hcall, hlen]

theorem loadFile_eq_error {path : String} {contents : Except ReadError (List UInt8)}
    {e : LoadError} : m.call now (.loadFile path contents) = .error e ↔
      (∃ cause, contents = .error cause ∧ e = .unreadable path cause) ∨
      ∃ rom, contents = .ok rom ∧ 3584 < rom.length ∧ e = .tooLarge rom.length := by
  cases contents with
  | error cause => simp [call, loadFile, eq_comm]
  | ok rom =>
    have hload : (∃ rom', (.ok rom : Except ReadError (List UInt8)) = .ok rom' ∧
        3584 < rom'.length ∧ e = .tooLarge rom'.length) ↔ m.call now (.load rom) = .error e := by
      rw [load_eq_error]
      simp
    rw [hload, call_loadFile_ok]
    cases m.call now (.load rom) <;> simp [Except.map]

theorem loaded_of_load {rom : List UInt8} {m' : Machine} (h : m.load now rom = .ok m') :
    m'.Loaded now rom := by
  have hlen : ¬Memory.romCapacity < rom.length := by
    intro hlt
    rw [load_of_lt hlt] at h
    cases h
  rw [load_of_not_lt hlen] at h
  obtain rfl := Except.ok.inj h
  have hcap : Memory.romCapacity = Memory.size - Memory.romStart := rfl
  have hsize := romStart_le_size
  have hle : Memory.romStart + rom.length ≤ Memory.size := by omega
  exact ⟨fresh_programmed (Nat.le_add_right _ _) hle none, rfl, rfl,
    Memory.toList_ofRom (Nat.le_of_not_lt hlen), Screen.get_clear _, rfl, rfl, rfl, rfl⟩

/-- A load either changes nothing or leaves a machine that does not depend on its past. -/
theorem load_all_or_nothing (m : Machine) (now : Nat) :
    (∀ c, c.isLoad → ∀ e, m.call now c = .error e →
      m.after now c = m ∧ (edit now c).run.run m = (.error e, m)) ∧
    (∀ c, c.isLoad → ∀ m', m.call now c = .ok m' →
      (edit now c).run.run m = (.ok (), m') ∧
      ∀ built ks, (∀ k, k ∈ ks ↔ k ∈ m.breakpoints) →
        (m.rebuilt built ks).call now c = .ok m') ∧
    (∀ rom e, m.call now (.load rom) = .error e ↔ 3584 < rom.length ∧ e = .tooLarge rom.length) ∧
    (∀ path contents e, m.call now (.loadFile path contents) = .error e ↔
      (∃ cause, contents = .error cause ∧ e = .unreadable path cause) ∨
      ∃ rom, contents = .ok rom ∧ 3584 < rom.length ∧ e = .tooLarge rom.length) ∧
    (∀ rom m', m.call now (.load rom) = .ok m' → m'.Loaded now rom) ∧
    (∀ words, m.call now (.loadProgram words) = m.call now (.load (words.flatMap fun w =>
      [UInt8.ofNat (w.toNat / 256), UInt8.ofNat (w.toNat % 256)]))) ∧
    (∀ path rom, m.call now (.loadFile path (.ok rom)) =
      (m.call now (.load rom)).map fun m' => { m' with romPath := some path }) := by
  refine ⟨?_, ?_, fun _ _ => load_eq_error, fun _ _ _ => loadFile_eq_error,
    fun _ _ => loaded_of_load, ?_, call_loadFile_ok⟩
  · intro c hc e h
    have hrun := run_edit now m hc
    rw [h, after_of_error h] at hrun
    exact ⟨after_of_error h, hrun⟩
  · intro c hc m' h
    have hrun := run_edit now m hc
    rw [h, after_of_ok h] at hrun
    refine ⟨hrun, ?_⟩
    intro built ks hks
    rw [call_of_reset_eq (reset_rebuilt built hks) hc, h]
  · intro words
    change m.load now (words.flatMap Word.bytes) = m.load now _
    rw [funext Word.bytes_eq]

def keyHeld : Machine :=
  ((start 0 { foreground := 7 }).after 1 (.setKey 5 true)).after 2 (.addBreakpoint 3)

theorem load_forgets_held_key : keyHeld.call 9 (.load (Word.bytes 0x1200)) =
    ((start 9 { foreground := 7 }).after 9 (.addBreakpoint 3)).call 9
      (.load (Word.bytes 0x1200)) := by
  have hload : keyHeld.call 9 (.load (Word.bytes 0x1200)) = .ok
      ((keyHeld.reset 9).programmed (.ofRom (Word.bytes 0x1200)) (Memory.romStart + 2)) :=
    load_of_not_lt (by decide)
  have hbreak : ∀ k, k ∈ [3] ↔ k ∈ keyHeld.breakpoints := fun _ => Iff.rfl
  rw [hload]
  exact (((load_all_or_nothing keyHeld 9).2.1 _ rfl _ hload).2 9 [3] hbreak).symm

end Machine
end Chip8
