import Chip8.Files
import Chip8.Journal
import Chip8.Machine.Basic

/-!
The commands as they are asked for, and how a command ends. `asm` and `disasm` turn listings into
images and back, and `run` runs an image to its end.
-/

namespace Chip8

structure RunArguments where
  rom : String
  clockRate : UInt32 := ({} : Settings).clockRate
  legacy : Bool := false
  noLegacy : Bool := false
  noWrap : Bool := false
  cycles : Option Nat := none
  breakpoints : List Nat := []
  fast : Bool := false

structure RunOptions where
  rom : String
  settings : Settings
  cycles : Option Nat
  breakpoints : List Nat
  fast : Bool

namespace RunArguments

def settings (a : RunArguments) : Settings where
  clockRate := a.clockRate
  legacy := a.legacy || !a.noLegacy
  wrapping := !a.noWrap

def options (a : RunArguments) : RunOptions :=
  ⟨a.rom, a.settings, a.cycles, a.breakpoints, a.fast⟩

end RunArguments

inductive Command
  | assemble (source output : String)
  | disassemble (rom : String) (output : Option String)
  | run (arguments : RunArguments)

def Command.input : Command → String
  | .assemble source _ => source
  | .disassemble rom _ => rom
  | .run arguments => arguments.rom

inductive Failure
  | unreadable (cause : ReadError)
  | notText
  | notLoaded (cause : LoadError)
  | unwritable
deriving DecidableEq, Repr

/-- The effects of a command whose input was usable. The closing records are made once the output
is written. -/
structure Result where
  records : List Record := []
  stdout : String := ""
  output : Option (String × List UInt8) := none
  closing : List Record := []

structure Ending where
  records : List Record
  stdout : String
  failure : Option Failure
  files : Files

def Ending.code (e : Ending) : Nat := if e.failure.isNone then 0 else 1

end Chip8
