import Chip8.Word

/-!
The thirty-five operations and the encoding of each: the word with its operand digits cleared,
the operands in the order they are written, and the mnemonic. Several operations share a mnemonic
and are told apart by their operands.
-/

namespace Chip8

inductive Operand
  | vx
  | vy
  | v0
  | i
  | n
  | nn
  | nnn
  /-- One register that fills the places of both `vx` and `vy`. -/
  | vxy
deriving DecidableEq, Repr

def Operand.mask : Operand → Word
  | .vx => 0x0F00
  | .vy => 0x00F0
  | .v0 | .i => 0
  | .n => 0x000F
  | .nn => 0x00FF
  | .nnn => 0x0FFF
  | .vxy => 0x0FF0

inductive Opcode
  | sys
  | clear
  | ret
  | jump
  | call
  | skipEqByte
  | skipNeByte
  | skipEq
  | setByte
  | addByte
  | set
  | or
  | and
  | xor
  | add
  | sub
  | shiftRight
  | subFrom
  | shiftLeft
  | skipNe
  | setIndex
  | jumpFrom
  | random
  | draw
  | skipDown
  | skipUp
  | readDelay
  | waitKey
  | setDelay
  | setSound
  | addIndex
  | glyph
  | decimal
  | store
  | load
  | invalid
deriving DecidableEq, Repr

namespace Opcode

def all : List Opcode :=
  [.sys, .clear, .ret, .jump, .call, .skipEqByte, .skipNeByte, .skipEq, .setByte, .addByte, .set,
    .or, .and, .xor, .add, .sub, .shiftRight, .subFrom, .shiftLeft, .skipNe, .setIndex, .jumpFrom,
    .random, .draw, .skipDown, .skipUp, .readDelay, .waitKey, .setDelay, .setSound, .addIndex,
    .glyph, .decimal, .store, .load]

theorem mem_all (op : Opcode) : op ∈ all ↔ op ≠ .invalid := by
  cases op <;> decide

def base : Opcode → Word
  | .sys => 0x0000
  | .clear => 0x00E0
  | .ret => 0x00EE
  | .jump => 0x1000
  | .call => 0x2000
  | .skipEqByte => 0x3000
  | .skipNeByte => 0x4000
  | .skipEq => 0x5000
  | .setByte => 0x6000
  | .addByte => 0x7000
  | .set => 0x8000
  | .or => 0x8001
  | .and => 0x8002
  | .xor => 0x8003
  | .add => 0x8004
  | .sub => 0x8005
  | .shiftRight => 0x8006
  | .subFrom => 0x8007
  | .shiftLeft => 0x800E
  | .skipNe => 0x9000
  | .setIndex => 0xA000
  | .jumpFrom => 0xB000
  | .random => 0xC000
  | .draw => 0xD000
  | .skipDown => 0xE09E
  | .skipUp => 0xE0A1
  | .readDelay => 0xF007
  | .waitKey => 0xF00A
  | .setDelay => 0xF015
  | .setSound => 0xF018
  | .addIndex => 0xF01E
  | .glyph => 0xF029
  | .decimal => 0xF033
  | .store => 0xF055
  | .load => 0xF065
  | .invalid => 0xFFFF

def mnemonic : Opcode → String
  | .sys => "sys"
  | .clear => "cls"
  | .ret => "ret"
  | .jump | .jumpFrom => "jmp"
  | .call => "call"
  | .skipEqByte | .skipEq => "se"
  | .skipNeByte | .skipNe => "sne"
  | .setByte | .set | .setIndex => "mov"
  | .addByte | .add | .addIndex => "add"
  | .or => "or"
  | .and => "and"
  | .xor => "xor"
  | .sub => "sub"
  | .shiftRight => "shr"
  | .subFrom => "subn"
  | .shiftLeft => "shl"
  | .random => "rnd"
  | .draw => "drw"
  | .skipDown => "skp"
  | .skipUp => "sknp"
  | .readDelay => "gdly"
  | .waitKey => "key"
  | .setDelay => "sdly"
  | .setSound => "ssnd"
  | .glyph => "font"
  | .decimal => "bcd"
  | .store => "str"
  | .load => "ld"
  | .invalid => "invalid"

def operands : Opcode → List Operand
  | .clear | .ret | .invalid => []
  | .sys | .jump | .call => [.nnn]
  | .skipEqByte | .skipNeByte | .setByte | .addByte | .random => [.vx, .nn]
  | .skipEq | .skipNe | .set | .or | .and | .xor | .add | .sub | .shiftRight | .subFrom
  | .shiftLeft => [.vx, .vy]
  | .setIndex => [.i, .nnn]
  | .jumpFrom => [.v0, .nnn]
  | .draw => [.vx, .vy, .n]
  | .skipDown | .skipUp | .readDelay | .waitKey | .setDelay | .setSound | .glyph
  | .decimal => [.vx]
  | .addIndex => [.i, .vx]
  | .store | .load => [.v0, .vx]

/-- The shorter operand list that some operations may also be written with: a shift that takes
its source from its target, and a block transfer without its fixed first register. -/
def short? : Opcode → Option (List Operand)
  | .shiftRight | .shiftLeft => some [.vxy]
  | .store | .load => some [.vx]
  | _ => none

def forms (op : Opcode) : List (List Operand) := op.operands :: op.short?.toList

def mask (op : Opcode) : Word := op.operands.foldl (fun m a => m ||| a.mask) 0

def isValid (op : Opcode) : Bool := op != .invalid

def ofArithmetic : Nat → Opcode
  | 0x0 => .set
  | 0x1 => .or
  | 0x2 => .and
  | 0x3 => .xor
  | 0x4 => .add
  | 0x5 => .sub
  | 0x6 => .shiftRight
  | 0x7 => .subFrom
  | 0xE => .shiftLeft
  | _ => .invalid

def ofKeyTest : Nat → Opcode
  | 0x9E => .skipDown
  | 0xA1 => .skipUp
  | _ => .invalid

def ofTransfer : Nat → Opcode
  | 0x07 => .readDelay
  | 0x0A => .waitKey
  | 0x15 => .setDelay
  | 0x18 => .setSound
  | 0x1E => .addIndex
  | 0x29 => .glyph
  | 0x33 => .decimal
  | 0x55 => .store
  | 0x65 => .load
  | _ => .invalid

/-- The operation a word stands for. The last digit of a register comparison is ignored. -/
def decode (w : Word) : Opcode :=
  match w.family.val with
  | 0x0 => if w = 0x00E0 then .clear else if w = 0x00EE then .ret else .sys
  | 0x1 => .jump
  | 0x2 => .call
  | 0x3 => .skipEqByte
  | 0x4 => .skipNeByte
  | 0x5 => .skipEq
  | 0x6 => .setByte
  | 0x7 => .addByte
  | 0x8 => ofArithmetic w.n.val
  | 0x9 => .skipNe
  | 0xA => .setIndex
  | 0xB => .jumpFrom
  | 0xC => .random
  | 0xD => .draw
  | 0xE => ofKeyTest w.nn.toNat
  | _ => ofTransfer w.nn.toNat

theorem decode_base (op : Opcode) : decode op.base = op := by
  cases op <;> decide

end Opcode
end Chip8
