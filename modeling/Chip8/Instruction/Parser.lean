import Chip8.Instruction.Basic
import Chip8.Text.Blank
import Chip8.Text.Case
import Chip8.Text.Hex

/-!
Reading a line of assembly. Letter case does not matter and commas are blanks; the first word is
the mnemonic and the others are its operands, in one of the forms of the operation.
-/

namespace Chip8

namespace Operand
open Text

def register? : List Char → Option Nat
  | [v, d] => if v = 'v' then Hex.digit? d else none
  | _ => none

def bits? (a : Operand) (token : List Char) : Option Nat :=
  match a with
  | .vx => (register? token).map (256 * ·)
  | .vy => (register? token).map (16 * ·)
  | .vxy => (register? token).map (272 * ·)
  | .v0 => if token = ['v', '0'] then some 0 else none
  | .i => if token = ['i'] then some 0 else none
  | .n => Hex.literal? 0xF token
  | .nn => Hex.literal? 0xFF token
  | .nnn => Hex.literal? 0xFFF token

/-- The bits of a whole operand list, one word for each operand. The operands of one form occupy
different bits, so their bits add up. -/
def allBits? : List Operand → List (List Char) → Option Nat
  | [], [] => some 0
  | a :: as, t :: ts => (a.bits? t).bind fun b => (allBits? as ts).map (b + ·)
  | _, _ => none

end Operand

namespace Instruction
open Text

structure ParseError where
  line : String
deriving DecidableEq, Repr

def ParseError.message (e : ParseError) : String := s!"unrecognized instruction `{e.line}`"

def tokens (line : List Char) : List (List Char) :=
  words ((lower line).map fun c => if c = ',' then ' ' else c)

def operandBits? (op : Opcode) (args : List (List Char)) : Option Nat :=
  op.forms.findSome? fun form => Operand.allBits? form args

def ofTokens? : List (List Char) → Option Instruction
  | [] => none
  | m :: args => Opcode.all.findSome? fun op =>
    if op.mnemonic.toList = m then
      (operandBits? op args).map fun bits => encode op (UInt16.ofNat bits)
    else none

def ofChars? (line : List Char) : Option Instruction := ofTokens? (tokens line)

def parse (line : String) : Except ParseError Instruction :=
  match ofChars? line.toList with
  | some ins => .ok ins
  | none => .error ⟨line⟩

end Instruction
end Chip8
