import Chip8.Cpu.Basic
import Chip8.Journal

/-!
The effect of one instruction. Most instructions go on to the next word; a few set the program
counter themselves, and three stop the machine where it is: the wait for a key, a word that is no
instruction, and a return that no call precedes.
-/

namespace Chip8

inductive Flow
  | proceed
  | pause
deriving DecidableEq, Repr

namespace Cpu

def next (s : Cpu) : Cpu × Flow := (s.advance, .proceed)

def skipIf (c : Bool) (s : Cpu) : Cpu × Flow := next (if c then s.advance else s)

def bit (c : Bool) : UInt8 := if c then 1 else 0

theorem toNat_bit (c : Bool) : (bit c).toNat = if c then 1 else 0 := by
  cases c <;> rfl

/-- Writes a result and then its flag, so the flag survives in the flag register. -/
def flagLast (x : Fin 16) (result : UInt8) (c : Bool) (s : Cpu) : Cpu :=
  (s.setReg x result).setReg flag (bit c)

def flagFirst (x : Fin 16) (result : UInt8) (c : Bool) (s : Cpu) : Cpu :=
  (s.setReg flag (bit c)).setReg x result

theorem reg_flagLast (x r : Fin 16) (result : UInt8) (c : Bool) (s : Cpu) :
    (s.flagLast x result c).reg r =
      if r = flag then bit c else if r = x then result else s.reg r := by
  rw [flagLast, reg_setReg, reg_setReg]

theorem reg_flagFirst (x r : Fin 16) (result : UInt8) (c : Bool) (s : Cpu) :
    (s.flagFirst x result c).reg r =
      if r = x then result else if r = flag then bit c else s.reg r := by
  rw [flagFirst, reg_setReg, reg_setReg]

/-- The bits set in a row of a sprite, counted from the most significant one. -/
def litBits (row : UInt8) : List Nat := (List.range 8).filter fun k => row.toNat.testBit (7 - k)

def spriteCells (s : Cpu) (ox oy rows : Nat) : List (Nat × Nat) :=
  (List.range rows).flatMap fun row =>
    (litBits (s.memory.read (s.indexed row))).map fun k => (ox + k, oy + row)

def drawSprite (x y n : Fin 16) (s : Cpu) : Cpu :=
  let r := s.screen.flipAll (s.spriteCells (s.reg x).toNat (s.reg y).toNat n.val)
  { s with screen := r.1 }.setReg flag (bit r.2)

def registersTo (x : Fin 16) : List (Fin 16) := (List.finRange 16).filter (· ≤ x)

def writes (ins : Instruction) (s : Cpu) : List (Word × UInt8) :=
  match ins.opcode with
  | .decimal =>
    let value := s.reg ins.x
    [(s.indexed 0, value / 100), (s.indexed 1, value / 10 % 10), (s.indexed 2, value % 10)]
  | .store => (registersTo ins.x).map fun r => (s.indexed r.val, s.reg r)
  | _ => []

def storeAll (ws : List (Word × UInt8)) (s : Cpu) : Cpu :=
  { s with memory := ws.foldl (fun m w => m.write w.1 w.2) s.memory }

def loadTo (x : Fin 16) (s : Cpu) : Cpu :=
  { s with v := Vector.ofFn fun r => if r ≤ x then s.memory.read (s.indexed r.val) else s.reg r }

def passBlock (x : Fin 16) (s : Cpu) : Cpu := { s with i := s.indexed (x.val + 1) }

def execute (random : UInt8) (ins : Instruction) (s : Cpu) : Cpu × Flow :=
  let x := ins.x
  let vx := s.reg ins.x
  let vy := s.reg ins.y
  match ins.opcode with
  | .sys => next s
  | .clear => next { s with screen := s.screen.clear }
  | .ret => match s.stack with
    | [] => (s, .pause)
    | a :: rest => next { s with pc := a, stack := rest }
  | .jump => ({ s with pc := ins.nnn }, .proceed)
  | .call => ({ s with pc := ins.nnn, stack := s.pc :: s.stack }, .proceed)
  | .skipEqByte => skipIf (vx == ins.nn) s
  | .skipNeByte => skipIf (vx != ins.nn) s
  | .skipEq => skipIf (vx == vy) s
  | .skipNe => skipIf (vx != vy) s
  | .setByte => next (s.setReg x ins.nn)
  | .addByte => next (s.setReg x (vx + ins.nn))
  | .set => next (s.setReg x vy)
  | .or => next (s.setReg x (vx ||| vy))
  | .and => next (s.setReg x (vx &&& vy))
  | .xor => next (s.setReg x (vx ^^^ vy))
  | .add => next (s.flagLast x (vx + vy) (256 ≤ vx.toNat + vy.toNat))
  | .sub => next (s.flagFirst x (vx - vy) (vy < vx))
  | .subFrom => next (s.flagFirst x (vy - vx) (vx < vy))
  | .shiftRight => next (s.flagLast x (vy / 2) (vy % 2 == 1))
  | .shiftLeft => next (s.flagLast x (2 * vy) (128 ≤ vy))
  | .setIndex => next { s with i := ins.nnn }
  | .jumpFrom => ({ s with pc := ins.nnn + (s.reg offset).toUInt16 }, .proceed)
  | .random => next (s.setReg x (random &&& ins.nn))
  | .draw => next (s.drawSprite x ins.y ins.n)
  | .skipDown => skipIf (s.keypad.isDown vx) s
  | .skipUp => skipIf (!s.keypad.isDown vx) s
  | .readDelay => next (s.setReg x s.timers.delay)
  | .waitKey => ({ s with keypad := s.keypad.await x }, .pause)
  | .setDelay => next { s with timers := { s.timers with delay := vx } }
  | .setSound => next { s with timers := { s.timers with sound := vx } }
  | .addIndex =>
    next ({ s with i := s.i + vx.toUInt16 }.setReg flag (bit (65536 ≤ s.i.toNat + vx.toNat)))
  | .glyph => next { s with i := vx.toUInt16 * UInt16.ofNat Font.glyphSize }
  | .decimal => next (s.storeAll (s.writes ins))
  | .store => next ((s.storeAll (s.writes ins)).passBlock x)
  | .load => next ((s.loadTo x).passBlock x)
  | .invalid => (s, .pause)

def records (ins : Instruction) (s : Cpu) : List Record :=
  match ins.opcode with
  | .ret => if s.stack = [] then [.emptyReturn s.pc] else []
  | .invalid => [.invalidWord ins.word s.pc]
  | _ => (s.writes ins).filterMap fun (address, value) =>
    let c := Memory.cell address
    if Memory.Writable c then none else some (.writeRefused value c.val)

end Cpu
end Chip8
