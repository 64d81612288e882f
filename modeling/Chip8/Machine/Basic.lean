import Chip8.Breakpoints
import Chip8.Machine.Settings
import Chip8.Cpu.Execute
import Chip8.Files

/-!
The machine: a processor, the extent of the program in its memory, and what a debugger needs. A
cycle first lets the timers catch up with the clock and then does at most one thing, which its
`Action` names; the action depends on nothing that the timers change. The present instant and the
random byte that an instruction may ask for are arguments. A reset keeps the breakpoints and the
settings, and loading a program begins with a reset unless the program is too large.
-/

namespace Chip8

structure Machine where
  cpu : Cpu
  paused : Bool
  legacy : Bool
  clockRate : UInt32
  breakpoints : Breakpoints
  /-- The address of the breakpoint that was hit last, until an instruction is executed. -/
  passed : Option Word
  /-- The address after the last byte of the program. -/
  romEnd : Nat
  romPath : Option String
deriving DecidableEq

inductive LoadError
  | tooLarge (size : Nat)
  | unreadable (path : String) (cause : ReadError)
deriving DecidableEq, Repr

def LoadError.message : LoadError → String
  | .tooLarge size => s!"ROM is too large ({size} bytes), max size is {Memory.romCapacity} bytes"
  | .unreadable path .missing => s!"ROM {path} does not exist"
  | .unreadable path cause => s!"unable to read ROM {path}: {cause.message}"

/-- What a cycle does: nothing while paused; pause because the program counter has left the
program or has come to a breakpoint; or execute an instruction. -/
inductive Action
  | idle
  | leave
  | stop
  | execute (ins : Instruction)
deriving DecidableEq, Repr

namespace Machine

def start (now : Nat) (settings : Settings) : Machine where
  cpu :=
    let blank := Screen.blank 64 32
    let screen := (blank.setWrapping settings.wrapping).setForeground settings.foreground
    { Cpu.start now with screen := screen.setBackground settings.background }
  paused := true
  legacy := settings.legacy
  clockRate := settings.clockRate
  breakpoints := .empty
  passed := none
  romEnd := Memory.romStart
  romPath := none

def reset (now : Nat) (m : Machine) : Machine :=
  { m with
    cpu := m.cpu.reset now
    paused := true
    passed := none
    romEnd := Memory.romStart
    romPath := none }

def load (now : Nat) (rom : List UInt8) (m : Machine) : Except LoadError Machine :=
  if Memory.romCapacity < rom.length then .error (.tooLarge rom.length)
  else
    let m := m.reset now
    .ok { m with
      cpu := { m.cpu with memory := .ofRom rom }
      romEnd := Memory.romStart + rom.length
      paused := false }

def loadFile (now : Nat) (path : String) (contents : Except ReadError (List UInt8))
    (m : Machine) : Except LoadError Machine :=
  match contents with
  | .error cause => .error (.unreadable path cause)
  | .ok rom => match m.load now rom with
    | .error e => .error e
    | .ok m => .ok { m with romPath := some path }

def InRom (m : Machine) : Prop :=
  Memory.romStart ≤ m.cpu.pc.toNat ∧ m.cpu.pc.toNat < m.romEnd

instance (m : Machine) : Decidable m.InRom := inferInstanceAs (Decidable (_ ∧ _))

def indexOf (pc : Word) : Nat := (pc.toNat - Memory.romStart) / 2

def AtBreakpoint (m : Machine) : Prop :=
  indexOf m.cpu.pc ∈ m.breakpoints ∧ m.passed ≠ some m.cpu.pc

instance (m : Machine) : Decidable m.AtBreakpoint := inferInstanceAs (Decidable (_ ∧ _))

def fetch (m : Machine) : Instruction := .ofWord m.cpu.fetch

def stepAction (m : Machine) : Action := if m.InRom then .execute m.fetch else .leave

def cycleAction (m : Machine) : Action :=
  if m.paused then .idle
  else if m.InRom then if m.AtBreakpoint then .stop else .execute m.fetch
  else .leave

def act (random : UInt8) (a : Action) (m : Machine) : Machine :=
  match a with
  | .idle => m
  | .leave => { m with paused := true }
  | .stop => { m with paused := true, passed := some m.cpu.pc }
  | .execute ins =>
    let r := m.cpu.execute random ins
    { m with cpu := r.1, paused := m.paused || r.2 == .pause, passed := none }

def tick (now : Nat) (m : Machine) : Machine := { m with cpu := m.cpu.tick now }

def cycle (now : Nat) (random : UInt8) (m : Machine) : Machine :=
  (m.tick now).act random m.cycleAction

/-- One instruction, whether or not the machine is paused, and past any breakpoint. -/
def step (now : Nat) (random : UInt8) (m : Machine) : Machine :=
  (m.tick now).act random m.stepAction

def pause (m : Machine) : Machine := { m with paused := true }
def resume (m : Machine) : Machine := { m with paused := false }

/-- A key press that ends a wait completes the waiting instruction: the key goes to its register,
and the machine goes on behind it. -/
def setKey (key : UInt8) (pressed : Bool) (m : Machine) : Machine :=
  let cpu := { m.cpu with keypad := m.cpu.keypad.setKey key pressed }
  match m.cpu.keypad.press? key pressed with
  | none => { m with cpu := cpu }
  | some p =>
    { m with cpu := (cpu.setReg p.register (UInt8.ofNat p.key.val)).advance, paused := false }

def mapScreen (f : Screen 64 32 → Screen 64 32) (m : Machine) : Machine :=
  { m with cpu := { m.cpu with screen := f m.cpu.screen } }

def upcoming (count : Nat) (m : Machine) : List (Word × Instruction) :=
  (List.range count).map fun k =>
    let address := m.cpu.pc + UInt16.ofNat k * 2
    (address, .ofWord (m.cpu.memory.word address))

def records (m : Machine) : Action → List Record
  | .idle => []
  | .leave => [.outsideRom m.cpu.pc Memory.romStart m.romEnd]
  | .stop => [.breakpointHit (indexOf m.cpu.pc) m.cpu.pc]
  | .execute ins => .executing ins m.cpu.v m.cpu.i m.cpu.pc :: m.cpu.records ins

end Machine
end Chip8
