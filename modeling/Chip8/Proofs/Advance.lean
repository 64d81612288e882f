import Chip8.Proofs.Countdown
import Mathlib.Algebra.GroupWithZero.Nat

/-! Advancing a timer. The leftover of a timer is always short of a period, because whatever adds to
it takes the whole periods away again. So an advance is a division with remainder, and advancing by
many durations is advancing by their sum, in whatever order they come. -/

namespace Chip8.Timers

inductive Operation
  | advance (elapsed : Nat)
  | tick
  | pause
  | resume
  | setDelay (value : UInt8)
  | setSound (value : UInt8)
  | reset
deriving DecidableEq, Repr

def after (now : Nat) (t : Timers) : Operation → Except AdvanceError Timers
  | .advance elapsed => t.advance elapsed
  | .tick => .ok (t.tick now)
  | .pause => .ok (t.pause now)
  | .resume => .ok (t.resume now)
  | .setDelay value => .ok { t with delay := value }
  | .setSound value => .ok { t with sound := value }
  | .reset => .ok (start now)

inductive Reachable : Timers → Prop
  | start (now : Nat) : Reachable (start now)
  | after {t t' : Timers} (h : Reachable t) (now : Nat) (o : Operation) :
      t.after now o = .ok t' → Reachable t'

def advanceAll (t : Timers) (durations : List Nat) : Except AdvanceError Timers :=
  durations.foldlM advance t

variable {t t' : Timers} {a : Nat}

theorem advance_of_le (h : t.leftover + a ≤ longest) : t.advance a = .ok (t.collect a) := if_pos h

theorem advance_eq_error_iff {e : AdvanceError} :
    t.advance a = .error e ↔ longest < t.leftover + a := by
  unfold advance
  split <;> simp_all

theorem leftover_advance_lt (h : t.advance a = .ok t') : t'.leftover < period := by
  unfold advance at h
  split at h
  · obtain rfl := Except.ok.inj h
    exact leftover_collect_lt t a
  · cases h

theorem leftover_after_lt {now : Nat} {o : Operation} (hl : t.leftover < period)
    (h : t.after now o = .ok t') : t'.leftover < period := by
  cases o with
  | advance elapsed => exact leftover_advance_lt h
  | tick =>
    obtain rfl := Except.ok.inj h
    exact leftover_tick_lt now t
  | pause | resume | setDelay value | setSound value =>
    obtain rfl := Except.ok.inj h
    exact hl
  | reset =>
    obtain rfl := Except.ok.inj h
    exact (by decide : 0 < period)

theorem Reachable.leftover_lt (h : t.Reachable) : t.leftover < period := by
  induction h with
  | start now => exact (by decide : 0 < period)
  | after _ now o ho ih => exact leftover_after_lt ih ho

theorem advanceAll_eq_collect (hl : t.leftover < period) (durations : List Nat)
    (h : t.leftover + durations.sum ≤ longest) :
    t.advanceAll durations = .ok (t.collect durations.sum) := by
  induction durations generalizing t with
  | nil => exact congrArg Except.ok (collect_zero hl).symm
  | cons a durations ih =>
    rw [List.sum_cons] at h ⊢
    have hrest : (t.collect a).leftover + durations.sum ≤ longest := by
      have hmod := Nat.mod_le (t.leftover + a) period
      rw [leftover_collect]
      omega
    have hstep : t.advanceAll (a :: durations) = (t.collect a).advanceAll durations := by
      simp only [advanceAll, List.foldlM_cons, advance_of_le (show t.leftover + a ≤ longest by omega)]
      rfl
    rw [hstep, ih (leftover_collect_lt t a) hrest, collect_collect]

/-- An advance divides the time by the period, and the order of several advances is of no account. -/
theorem Reachable.advance_divides (h : t.Reachable) :
    t.leftover < 16666666 ∧
    (∀ a, t.advance a = .error .tooLong ↔ (2 ^ 64 - 1) * 10 ^ 9 + 999999999 < t.leftover + a) ∧
    (∀ a, t.leftover + a ≤ (2 ^ 64 - 1) * 10 ^ 9 + 999999999 → ∃ t', t.advance a = .ok t' ∧
      t'.delay.toNat = t.delay.toNat - (t.leftover + a) / 16666666 ∧
      t'.sound.toNat = t.sound.toNat - (t.leftover + a) / 16666666 ∧
      t'.leftover = (t.leftover + a) % 16666666 ∧ t'.stopwatch = t.stopwatch) ∧
    ∀ durations durations' : List Nat, durations.Perm durations' →
      t.leftover + durations.sum ≤ (2 ^ 64 - 1) * 10 ^ 9 + 999999999 →
      ∃ t', t.advance durations.sum = .ok t' ∧ t.advanceAll durations' = .ok t' := by
  have hlongest : (2 ^ 64 - 1) * 10 ^ 9 + 999999999 = longest := rfl
  rw [hlongest]
  refine ⟨h.leftover_lt, fun a => advance_eq_error_iff, ?_, ?_⟩
  · intro a ha
    exact ⟨t.collect a, advance_of_le ha, delay_collect t a, sound_collect t a,
      leftover_collect t a, stopwatch_collect t a⟩
  · intro durations durations' hperm hsum
    refine ⟨t.collect durations.sum, advance_of_le hsum, ?_⟩
    rw [hperm.sum_nat] at hsum ⊢
    exact advanceAll_eq_collect h.leftover_lt durations' hsum

def halfPeriodLater : Timers := { start 0 with leftover := 8333333, delay := 3 }

theorem advance_halfPeriodLater : halfPeriodLater.Reachable ∧
    ∃ t', halfPeriodLater.advance 30000000 = .ok t' ∧
      halfPeriodLater.advanceAll [25000000, 5000000] = .ok t' := by
  have hadvance : Timers.advance { start 0 with delay := 3 } 8333333 = .ok halfPeriodLater := by
    rw [advance_of_le (by decide), collect, countDown]
    exact congrArg Except.ok (if_pos (by decide))
  have hreachable : halfPeriodLater.Reachable :=
    ((Reachable.start 0).after 0 (.setDelay 3) rfl).after 0 (.advance 8333333) hadvance
  exact ⟨hreachable, hreachable.advance_divides.2.2.2 [5000000, 25000000] [25000000, 5000000]
    (.swap ..) (by decide)⟩

end Chip8.Timers
