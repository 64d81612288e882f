import Chip8.Screen

/-!
The settings a machine starts with. The clock rate, in cycles for each second, and the mark of a
program for the first generation of machines are kept for whoever drives the machine; executing
an instruction never looks at them.
-/

namespace Chip8

structure Settings where
  clockRate : UInt32 := 500
  legacy : Bool := true
  wrapping : Bool := true
  foreground : UInt32 := Screen.defaultForeground
  background : UInt32 := Screen.defaultBackground
deriving DecidableEq, Repr

end Chip8
