/-!
A stopwatch that can be paused. Instants and durations are natural numbers of nanoseconds, and the
present instant is passed to every operation that reads the clock.
-/

namespace Chip8

structure Stopwatch where
  previous : Nat
  /-- The time between the last two ticks, zero while paused. -/
  delta : Nat
  total : Nat
  paused : Bool
deriving DecidableEq, Repr

namespace Stopwatch

def start (now : Nat) : Stopwatch := ⟨now, 0, 0, false⟩

def tick (now : Nat) (s : Stopwatch) : Stopwatch :=
  let delta := if s.paused then 0 else now - s.previous
  { s with previous := now, delta := delta, total := s.total + delta }

def pause (now : Nat) (s : Stopwatch) : Stopwatch :=
  if s.paused then s else { s.tick now with paused := true }

def resume (now : Nat) (s : Stopwatch) : Stopwatch :=
  if s.paused then { s with previous := now, delta := 0, paused := false } else s

end Stopwatch
end Chip8
