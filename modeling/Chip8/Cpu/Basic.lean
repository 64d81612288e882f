import Chip8.Screen
import Chip8.Keypad
import Chip8.Memory
import Chip8.Time.Timers

/-!
The processor with everything its instructions reach. Return addresses are kept with the latest
first, and there may be any number of them.
-/

namespace Chip8

structure Cpu where
  v : Vector UInt8 16
  i : Word
  pc : Word
  stack : List Word
  memory : Memory
  screen : Screen 64 32
  keypad : Keypad (Fin 16)
  timers : Timers
deriving DecidableEq

namespace Cpu

def flag : Fin 16 := 15

def offset : Fin 16 := 0

def origin : Word := UInt16.ofNat Memory.romStart

def start (now : Nat) : Cpu where
  v := Vector.replicate 16 0
  i := 0
  pc := origin
  stack := []
  memory := .empty
  screen := .blank 64 32
  keypad := .released
  timers := .start now

def reset (now : Nat) (s : Cpu) : Cpu := { start now with screen := s.screen.clear }

def advance (s : Cpu) : Cpu := { s with pc := s.pc + 2 }

def fetch (s : Cpu) : Word := s.memory.word s.pc

def reg (s : Cpu) (x : Fin 16) : UInt8 := s.v[x]

def setReg (s : Cpu) (x : Fin 16) (value : UInt8) : Cpu := { s with v := s.v.set x value }

def indexed (s : Cpu) (k : Nat) : Word := s.i + UInt16.ofNat k

def place (s : Cpu) (k : Nat) : Fin 4096 := .ofNat 4096 (s.i.toNat + k)

def tick (now : Nat) (s : Cpu) : Cpu := { s with timers := s.timers.tick now }

theorem toNat_indexed (s : Cpu) (k : Nat) : (s.indexed k).toNat = (s.i.toNat + k) % 65536 :=
  Word.toNat_add_ofNat s.i k

theorem cell_indexed (s : Cpu) (k : Nat) : Memory.cell (s.indexed k) = s.place k :=
  Memory.cell_add_ofNat s.i k

theorem read_indexed (s : Cpu) (k : Nat) :
    s.memory.read (s.indexed k) = s.memory.get (s.place k) :=
  congrArg s.memory.get (cell_indexed s k)

theorem reg_setReg (s : Cpu) (x y : Fin 16) (value : UInt8) :
    (s.setReg x value).reg y = if y = x then value else s.reg y := by
  by_cases h : y = x
  · subst h
    simp [reg, setReg]
  · have hne : x.val ≠ y.val := fun he => h (Fin.ext he.symm)
    simp [reg, setReg, h, Vector.getElem_set_ne _ _ hne]

end Cpu
end Chip8
