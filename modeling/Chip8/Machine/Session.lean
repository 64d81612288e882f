import Chip8.Machine.Call

/-!
A paced run. Cycles follow one another while the machine is not paused, up to a limit. Each round
makes a cycle and sleeps for what is left of the time a cycle should take. How long everything
really takes is not up to the program, so it is handed to the run, as its random bytes are.
-/

namespace Chip8

/-- What a run meets, round by round. A round takes the time `lead` until its cycle reads the clock,
then `busy` until the sleep, and `late` on top of the sleep. -/
structure Surroundings where
  random : Nat → UInt8
  lead : Nat → Nat
  busy : Nat → Nat
  late : Nat → Nat
  /-- The time between the loading of the program and the first round. -/
  setup : Nat

structure Pace where
  cycleTime : Nat
  fast : Bool

namespace Pace

def sleep (p : Pace) (elapsed : Nat) : Nat := if p.fast then 0 else p.cycleTime - elapsed

def round (p : Pace) (w : Surroundings) (k : Nat) : Nat :=
  let elapsed := w.lead k + w.busy k
  elapsed + p.sleep elapsed + w.late k

end Pace

structure Session where
  machine : Machine
  now : Nat
  cycles : Nat
  /-- The records made so far, the latest first. -/
  records : List Record

namespace Session

def cycle (p : Pace) (w : Surroundings) (s : Session) : Session where
  machine := s.machine.cycle (s.now + w.lead s.cycles) (w.random s.cycles)
  now := s.now + p.round w s.cycles
  cycles := s.cycles + 1
  records := (s.machine.records s.machine.cycleAction).reverse ++ s.records

def drive (p : Pace) (w : Surroundings) : Nat → Session → Session
  | 0, s => s
  | limit + 1, s => if s.machine.paused then s else drive p w limit (s.cycle p w)

def start (now : Nat) (m : Machine) : Session := ⟨m, now, 0, []⟩

end Session
end Chip8
