import Chip8.Instruction.Opcode

/-!
An instruction is an operation together with the word that carries its operands. The two are kept
apart because a line of assembly fixes the operation, while its word may stand for another one:
`sys` with the operand of a bare `cls` is the only such pair beside `ret`.
-/

namespace Chip8

structure Instruction where
  opcode : Opcode
  word : Word
deriving DecidableEq, Repr

namespace Instruction

def x (ins : Instruction) : Fin 16 := ins.word.x
def y (ins : Instruction) : Fin 16 := ins.word.y
def n (ins : Instruction) : Fin 16 := ins.word.n
def nn (ins : Instruction) : UInt8 := ins.word.nn
def nnn (ins : Instruction) : Word := ins.word.nnn

def ofWord (w : Word) : Instruction := ⟨.decode w, w⟩

/-- Packs operand bits under an operation. Bits outside its operands are dropped. -/
def encode (op : Opcode) (bits : Word) : Instruction := ⟨op, op.base ||| (bits &&& op.mask)⟩

theorem opcode_ofWord (w : Word) : (ofWord w).opcode = .decode w := rfl
theorem word_ofWord (w : Word) : (ofWord w).word = w := rfl

end Instruction
end Chip8
