import Chip8.Instruction.Printer

/-!
What the library and its command line report while they work. A record holds the facts, `level`
tells how much they matter, and `message` words them.
-/

namespace Chip8

inductive Level
  | error
  | warn
  | info
  | debug
  | trace
deriving DecidableEq, Repr

inductive Record
  | lineRefused (index : Nat) (line : String)
  | wordUnknown (index : Nat) (word : Word)
  | writeRefused (value : UInt8) (address : Nat)
  | emptyReturn (pc : Word)
  | invalidWord (word pc : Word)
  | outsideRom (pc : Word) (start stop : Nat)
  | breakpointHit (index : Nat) (pc : Word)
  | executing (ins : Instruction) (v : Vector UInt8 16) (i pc : Word)
  | reset
  | loaded (size : Nat)
  | unassembled (path : String) (number : Nat) (line : String)
  | assembled (count : Nat) (path : String) (failed : Nat)
  | unlisted (address : Nat) (line : String)
  | running (path : String)
  | awaitingKey (register : Fin 16)
  | stopped (cycles : Nat)

namespace Record
open Text

def leftAligned (width : Nat) (s : String) : String :=
  s ++ String.ofList (List.replicate (width - s.length) ' ')

def level : Record → Level
  | .lineRefused .. | .wordUnknown .. => .debug
  | .writeRefused .. | .outsideRom .. | .breakpointHit .. | .unassembled .. | .unlisted .. => .warn
  | .emptyReturn .. | .invalidWord .. => .error
  | .executing .. => .trace
  | .reset | .loaded .. | .assembled .. | .running .. | .awaitingKey .. | .stopped .. => .info

def message : Record → String
  | .lineRefused index line => s!"line {index}: unable to compile `{line}`"
  | .wordUnknown index word => s!"word {index}: 0x{Hex.text 4 word.toNat} is not an instruction"
  | .writeRefused value address =>
    s!"refused write of 0x{Hex.text 2 value.toNat} to font memory at 0x{Hex.text 3 address}"
  | .emptyReturn pc => s!"ret with an empty stack at 0x{Hex.text 3 pc.toNat}"
  | .invalidWord word pc => s!"invalid instruction 0x{Hex.text 4 word.toNat} at 0x{Hex.text 3 pc.toNat}"
  | .outsideRom pc start stop =>
    s!"pc 0x{Hex.text 3 pc.toNat} is outside the ROM (0x{Hex.text 3 start}..0x{Hex.text 3 stop}), pausing"
  | .breakpointHit index pc => s!"hit breakpoint {index} at 0x{Hex.text 3 pc.toNat}"
  | .executing ins v i pc =>
    s!"{Hex.text 4 ins.word.toNat} {leftAligned 16 ins.text} v{Hex.listText 2 (v.toList.map UInt8.toNat)} " ++
      s!"i{Hex.text 4 i.toNat} pc{Hex.text 4 pc.toNat}"
  | .reset => "reset"
  | .loaded size => s!"loaded {size} byte ROM"
  | .unassembled path number line => s!"{path}:{number}: unable to assemble `{line}`"
  | .assembled count path failed => s!"wrote {count} instructions to {path} ({failed} failed)"
  | .unlisted address line => s!"0x{Hex.text 3 address}: {line} is not an instruction"
  | .running path => s!"running {path}"
  | .awaitingKey register =>
    s!"stopped waiting for a key press into v{Hex.lowerDigit register.val}"
  | .stopped cycles => s!"stopped after {cycles} cycles"

end Record
end Chip8
