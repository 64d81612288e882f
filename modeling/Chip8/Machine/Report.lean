import Chip8.Machine.Basic

/-!
The state of a machine as text: the registers in two lines, the index and the counters, the call
stack with the oldest address first, the next four instructions, and the screen with a mark for
each cell that holds the foreground colour.
-/

namespace Chip8.Machine
open Text

def registerText (s : Cpu) (r : Fin 16) : String :=
  s!"v{Hex.lowerDigit r.val}={Hex.text 2 (s.reg r).toNat}" ++ (if r.val % 8 = 7 then "\n" else " ")

def rowText (d : Screen 64 32) (y : Fin 32) : List Char :=
  (List.finRange 64).map fun x => if d.get (x, y) = d.foreground then '#' else '.'

def report (m : Machine) : String :=
  let s := m.cpu
  let registers := (List.finRange 16).map (registerText s)
  let counters :=
    s!"i={Hex.text 4 s.i.toNat} pc={Hex.text 4 s.pc.toNat} " ++
      s!"delay={Hex.text 2 s.timers.delay.toNat} sound={Hex.text 2 s.timers.sound.toNat}\n"
  let stack := s!"stack={Hex.listText 4 (s.stack.reverse.map UInt16.toNat)}\n"
  let code := (m.upcoming 4).map fun (address, ins) =>
    s!"{Hex.text 4 address.toNat}  {ins.text}\n"
  let rows := (List.finRange 32).map fun y => String.ofList (rowText s.screen y) ++ "\n"
  String.join (registers ++ [counters, stack] ++ code ++ rows)

end Chip8.Machine
