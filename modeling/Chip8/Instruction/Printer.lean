import Chip8.Instruction.Basic
import Chip8.Text.Hex

/-!
The canonical line of an instruction. Registers are written in small letters and numbers in
capitals of fixed width. A shift whose two registers agree is written with one, and a word that
is no instruction is written as the constant it is.
-/

namespace Chip8.Instruction
open Text

def operandText (ins : Instruction) : Operand → List Char
  | .vx | .vxy => ['v', Hex.lowerDigit ins.x.val]
  | .vy => ['v', Hex.lowerDigit ins.y.val]
  | .v0 => ['v', '0']
  | .i => ['i']
  | .n => '0' :: 'x' :: Hex.fixed 1 ins.n.val
  | .nn => '0' :: 'x' :: Hex.fixed 2 ins.nn.toNat
  | .nnn => '0' :: 'x' :: Hex.fixed 3 ins.nnn.toNat

def shown (ins : Instruction) : List Operand :=
  match ins.opcode with
  | .shiftRight | .shiftLeft => if ins.x = ins.y then [.vxy] else [.vx, .vy]
  | op => op.operands

def separated : List (List Char) → List Char
  | [] => []
  | [t] => t
  | t :: u :: ts => t ++ ',' :: ' ' :: separated (u :: ts)

def constantText (w : Word) : List Char := '0' :: 'x' :: Hex.fixed 4 w.toNat

def chars (ins : Instruction) : List Char :=
  if ins.opcode = .invalid then constantText ins.word
  else match ins.shown with
    | [] => ins.opcode.mnemonic.toList
    | a :: as =>
      ins.opcode.mnemonic.toList ++ ' ' :: separated ((a :: as).map ins.operandText)

def text (ins : Instruction) : String := String.ofList ins.chars

end Chip8.Instruction
