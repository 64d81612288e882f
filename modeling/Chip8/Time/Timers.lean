import Chip8.Time.Stopwatch

/-!
The delay and sound counters. Both go down together, once for each whole period of running time
and never below zero; time short of a period is left over for the next tick.
-/

namespace Chip8

structure Timers where
  stopwatch : Stopwatch
  leftover : Nat
  delay : UInt8
  sound : UInt8
deriving DecidableEq, Repr

namespace Timers

def frequency : Nat := 60

def period : Nat := 1000000000 / frequency

/-- The longest duration that can be measured, in nanoseconds: its seconds fill a word of
sixty-four bits. -/
def longest : Nat := 18446744073709551615 * 1000000000 + 999999999

def start (now : Nat) : Timers := ⟨.start now, 0, 0, 0⟩

def lessOne (b : UInt8) : UInt8 := if b = 0 then 0 else b - 1

def countDown (t : Timers) : Timers :=
  if t.leftover < period then t
  else countDown
    { t with leftover := t.leftover - period, delay := lessOne t.delay, sound := lessOne t.sound }
termination_by t.leftover
decreasing_by
  have : period = 16666666 := rfl
  omega

def collect (t : Timers) (elapsed : Nat) : Timers :=
  countDown { t with leftover := t.leftover + elapsed }

inductive AdvanceError
  | tooLong
deriving DecidableEq, Repr

def AdvanceError.message : AdvanceError → String
  | .tooLong => "overflow when adding durations"

def advance (t : Timers) (elapsed : Nat) : Except AdvanceError Timers :=
  if t.leftover + elapsed ≤ longest then .ok (t.collect elapsed) else .error .tooLong

def tick (now : Nat) (t : Timers) : Timers :=
  let s := t.stopwatch.tick now
  collect { t with stopwatch := s } s.delta

def pause (now : Nat) (t : Timers) : Timers := { t with stopwatch := t.stopwatch.pause now }
def resume (now : Nat) (t : Timers) : Timers := { t with stopwatch := t.stopwatch.resume now }

def isSound (t : Timers) : Bool := t.sound != 0

theorem stopwatch_countDown (t : Timers) : t.countDown.stopwatch = t.stopwatch := by
  fun_induction countDown t with
  | case1 => rfl
  | case2 t _ ih => exact ih

theorem leftover_countDown (t : Timers) : t.countDown.leftover = t.leftover % period := by
  fun_induction countDown t with
  | case1 t h => exact (Nat.mod_eq_of_lt h).symm
  | case2 t h ih => rw [ih]; exact (Nat.mod_eq_sub_mod (Nat.le_of_not_lt h)).symm

theorem toNat_lessOne (b : UInt8) : (lessOne b).toNat = b.toNat - 1 := by
  unfold lessOne
  split
  · subst b; rfl
  · have hb : 1 ≤ b.toNat := by
      rcases Nat.eq_zero_or_pos b.toNat with h | h
      · exact absurd (UInt8.toNat_inj.mp h) (by assumption)
      · exact h
    exact UInt8.toNat_sub_of_le _ _ (UInt8.le_iff_toNat_le.mpr hb)

theorem delay_countDown (t : Timers) :
    t.countDown.delay.toNat = t.delay.toNat - t.leftover / period := by
  fun_induction countDown t with
  | case1 t h => simp [Nat.div_eq_of_lt h]
  | case2 t h ih =>
    have hp : 0 < period := by decide
    rw [ih, Nat.div_eq_sub_div hp (Nat.le_of_not_lt h)]
    simp only [toNat_lessOne]
    omega

theorem sound_countDown (t : Timers) :
    t.countDown.sound.toNat = t.sound.toNat - t.leftover / period := by
  fun_induction countDown t with
  | case1 t h => simp [Nat.div_eq_of_lt h]
  | case2 t h ih =>
    have hp : 0 < period := by decide
    rw [ih, Nat.div_eq_sub_div hp (Nat.le_of_not_lt h)]
    simp only [toNat_lessOne]
    omega

theorem stopwatch_collect (t : Timers) (a : Nat) : (t.collect a).stopwatch = t.stopwatch :=
  stopwatch_countDown _

theorem leftover_collect (t : Timers) (a : Nat) :
    (t.collect a).leftover = (t.leftover + a) % period := leftover_countDown _

theorem delay_collect (t : Timers) (a : Nat) :
    (t.collect a).delay.toNat = t.delay.toNat - (t.leftover + a) / period := delay_countDown _

theorem sound_collect (t : Timers) (a : Nat) :
    (t.collect a).sound.toNat = t.sound.toNat - (t.leftover + a) / period := sound_countDown _

theorem leftover_collect_lt (t : Timers) (a : Nat) : (t.collect a).leftover < period := by
  rw [leftover_collect]
  exact Nat.mod_lt _ (by decide)

theorem stopwatch_tick (now : Nat) (t : Timers) :
    (t.tick now).stopwatch = t.stopwatch.tick now := stopwatch_collect _ _

theorem leftover_tick_lt (now : Nat) (t : Timers) : (t.tick now).leftover < period :=
  leftover_collect_lt _ _

end Timers
end Chip8
