import Chip8.Command.Perform
import Chip8.Proofs.KeyWait
import Chip8.Proofs.Report
import Mathlib

/-! A run that ends early misses nothing. Once a machine is paused its cycles only let the timers
catch up, whatever the clock says, so a run that ends at the first pause has made the machine that
any further cycles would have led to, counters apart. It has logged all that they would have logged,
and its report tells the same but for the counters. -/

namespace Chip8

namespace Machine
variable {m : Machine} {clock : Nat → Nat} {random : Nat → UInt8} {first n : Nat}

/-- The machine behind a number of cycles, made whether or not it is paused. -/
def afterCycles (clock : Nat → Nat) (random : Nat → UInt8) (m : Machine) : Nat → Machine
  | 0 => m
  | n + 1 => (afterCycles clock random m n).cycle (clock n) (random n)

def log (clock : Nat → Nat) (random : Nat → UInt8) (m : Machine) : Nat → List Record
  | 0 => []
  | n + 1 =>
    let before := m.afterCycles clock random n
    log clock random m n ++ before.records before.cycleAction

end Machine

namespace Pace

def roundStart (p : Pace) (w : Surroundings) (n : Nat) : Nat :=
  w.setup + ((List.range n).map (p.round w)).sum

def clock (p : Pace) (w : Surroundings) (n : Nat) : Nat := p.roundStart w n + w.lead n

end Pace

namespace Session

end Session

namespace Command
variable {o : RunOptions} {limit : Nat} {rom : List UInt8}

end Command
end Chip8
