import Chip8.Time.Timers

/-! How much time the counters count. Collecting time piece by piece is collecting it all at once,
so what matters is only which pieces are collected. A tick collects the running time since the tick
before it; a pause makes the stopwatch count that time, but the counters never see it. -/

namespace Chip8

inductive Timers.Event
  | elapse (ns : Nat)
  | tick
  | pause
  | resume
deriving DecidableEq, Repr

namespace Stopwatch

/-- The time for which the stopwatch has been running since it last took note of the clock. -/
def unticked (now : Nat) (s : Stopwatch) : Nat := if s.paused then 0 else now - s.previous

theorem unticked_later {now : Nat} {s : Stopwatch} (h : s.previous ≤ now) (ns : Nat) :
    s.unticked (now + ns) = s.unticked now + if s.paused then 0 else ns := by
  unfold unticked
  split
  · rfl
  · omega

theorem unticked_tick (now : Nat) (s : Stopwatch) : (s.tick now).unticked now = 0 := by
  simp [unticked, tick]

theorem unticked_pause (now : Nat) (s : Stopwatch) : (s.pause now).unticked now = 0 := by
  unfold pause
  split <;> simp_all [unticked]

theorem unticked_resume (now : Nat) (s : Stopwatch) :
    (s.resume now).unticked now = s.unticked now := by
  unfold resume
  split <;> simp_all [unticked]

theorem paused_pause (now : Nat) (s : Stopwatch) : (s.pause now).paused = true := by
  unfold pause
  split <;> simp_all

theorem paused_resume (now : Nat) (s : Stopwatch) : (s.resume now).paused = false := by
  unfold resume
  split <;> simp_all

theorem total_pause (now : Nat) (s : Stopwatch) :
    (s.pause now).total = s.total + s.unticked now := by
  unfold pause
  split <;> simp_all [unticked, tick]

theorem total_resume (now : Nat) (s : Stopwatch) : (s.resume now).total = s.total := by
  unfold resume
  split <;> rfl

theorem previous_pause_le {now : Nat} {s : Stopwatch} (h : s.previous ≤ now) :
    (s.pause now).previous ≤ now := by
  unfold pause
  split
  · exact h
  · exact Nat.le_refl now

theorem previous_resume_le {now : Nat} {s : Stopwatch} (h : s.previous ≤ now) :
    (s.resume now).previous ≤ now := by
  unfold resume
  split
  · exact Nat.le_refl now
  · exact h

end Stopwatch

namespace Timers
variable {t t' : Timers}

theorem ext_toNat (hs : t.stopwatch = t'.stopwatch) (hl : t.leftover = t'.leftover)
    (hd : t.delay.toNat = t'.delay.toNat) (hn : t.sound.toNat = t'.sound.toNat) : t = t' := by
  obtain ⟨stopwatch, leftover, delay, sound⟩ := t
  obtain ⟨stopwatch', leftover', delay', sound'⟩ := t'
  obtain rfl : stopwatch = stopwatch' := hs
  obtain rfl : leftover = leftover' := hl
  obtain rfl : delay = delay' := UInt8.toNat_inj.mp hd
  obtain rfl : sound = sound' := UInt8.toNat_inj.mp hn
  rfl

theorem div_add_mod_add_div (a b : Nat) :
    a / period + (a % period + b) / period = (a + b) / period := by
  have hp : period = 16666666 := rfl
  rw [hp]
  omega

theorem collect_zero (h : t.leftover < period) : t.collect 0 = t := by
  rw [collect, countDown]
  exact if_pos h

theorem collect_collect (t : Timers) (a b : Nat) : (t.collect a).collect b = t.collect (a + b) := by
  have hdiv := div_add_mod_add_div (t.leftover + a) b
  rw [Nat.add_assoc] at hdiv
  apply ext_toNat
  · rw [stopwatch_collect, stopwatch_collect, stopwatch_collect]
  · rw [leftover_collect, leftover_collect, leftover_collect, Nat.mod_add_mod, Nat.add_assoc]
  · rw [delay_collect, delay_collect, delay_collect, leftover_collect, Nat.sub_sub, hdiv]
  · rw [sound_collect, sound_collect, sound_collect, leftover_collect, Nat.sub_sub, hdiv]

def withStopwatch (w : Stopwatch) (t : Timers) : Timers := { t with stopwatch := w }

theorem collect_withStopwatch (w : Stopwatch) (t : Timers) (a : Nat) :
    (t.collect a).withStopwatch w = (t.withStopwatch w).collect a := by
  apply ext_toNat
  · exact (stopwatch_collect (t.withStopwatch w) a).symm
  · exact (leftover_collect t a).trans (leftover_collect (t.withStopwatch w) a).symm
  · exact (delay_collect t a).trans (delay_collect (t.withStopwatch w) a).symm
  · exact (sound_collect t a).trans (sound_collect (t.withStopwatch w) a).symm

theorem tick_eq_collect (now : Nat) (t : Timers) : t.tick now =
    (t.withStopwatch (t.stopwatch.tick now)).collect (t.stopwatch.unticked now) := rfl

theorem leftover_tick (now : Nat) (t : Timers) :
    (t.tick now).leftover = (t.leftover + t.stopwatch.unticked now) % period :=
  leftover_collect _ _

def run (now : Nat) (t : Timers) : List Event → Nat × Timers
  | [] => (now, t)
  | .elapse ns :: h => run (now + ns) t h
  | .tick :: h => run now (t.tick now) h
  | .pause :: h => run now (t.pause now) h
  | .resume :: h => run now (t.resume now) h

/-- The time that passes while nothing is paused. -/
def runningTime (paused : Bool) : List Event → Nat
  | [] => 0
  | .elapse ns :: h => (if paused then 0 else ns) + runningTime paused h
  | .tick :: h => runningTime paused h
  | .pause :: h => runningTime true h
  | .resume :: h => runningTime false h

def tickedTime (paused : Bool) (unticked : Nat) : List Event → Nat
  | [] => 0
  | .elapse ns :: h => tickedTime paused (unticked + if paused then 0 else ns) h
  | .tick :: h => unticked + tickedTime paused 0 h
  | .pause :: h => tickedTime true 0 h
  | .resume :: h => tickedTime false unticked h

/-- The running time that ends in a pause, with no tick since. -/
def droppedTime (paused : Bool) (unticked : Nat) : List Event → Nat
  | [] => 0
  | .elapse ns :: h => droppedTime paused (unticked + if paused then 0 else ns) h
  | .tick :: h => droppedTime paused 0 h
  | .pause :: h => unticked + droppedTime true 0 h
  | .resume :: h => droppedTime false unticked h

theorem ticked_add_dropped (paused : Bool) (unticked : Nat) (h : List Event) :
    tickedTime paused unticked (h ++ [.tick]) + droppedTime paused unticked (h ++ [.tick]) =
      unticked + runningTime paused (h ++ [.tick]) := by
  induction h generalizing paused unticked with
  | nil => simp [tickedTime, droppedTime, runningTime]
  | cons e h ih =>
    simp only [List.cons_append]
    cases e with
    | elapse ns =>
      simp only [tickedTime, droppedTime, runningTime]
      rw [ih, Nat.add_assoc]
    | tick =>
      have hrest := ih paused 0
      simp only [tickedTime, droppedTime, runningTime]
      omega
    | pause =>
      have hrest := ih true 0
      simp only [tickedTime, droppedTime, runningTime]
      omega
    | resume => exact ih false unticked

theorem run_eq_collect {now : Nat} (hl : t.leftover < period) (hp : t.stopwatch.previous ≤ now)
    (h : List Event) : ∃ w, (run now t h).2 = (t.withStopwatch w).collect
      (tickedTime t.stopwatch.paused (t.stopwatch.unticked now) h) := by
  induction h generalizing now t with
  | nil => exact ⟨t.stopwatch, (collect_zero hl).symm⟩
  | cons e h ih =>
    cases e with
    | elapse ns =>
      have hlater : t.stopwatch.previous ≤ now + ns := Nat.le_add_right_of_le hp
      obtain ⟨w, hw⟩ := ih hl hlater
      rw [Stopwatch.unticked_later hp] at hw
      exact ⟨w, hw⟩
    | tick =>
      have hs := stopwatch_tick now t
      have hticked : (t.tick now).stopwatch.previous ≤ now :=
        Nat.le_of_eq (congrArg Stopwatch.previous hs)
      obtain ⟨w, hw⟩ := ih (t := t.tick now) (leftover_tick_lt now t) hticked
      refine ⟨w, hw.trans ?_⟩
      rw [hs, Stopwatch.unticked_tick, tick_eq_collect, collect_withStopwatch, collect_collect]
      rfl
    | pause =>
      obtain ⟨w, hw⟩ := ih (t := t.pause now) hl (Stopwatch.previous_pause_le hp)
      refine ⟨w, hw.trans ?_⟩
      have hs : (t.pause now).stopwatch = t.stopwatch.pause now := rfl
      rw [hs, Stopwatch.paused_pause, Stopwatch.unticked_pause]
      rfl
    | resume =>
      obtain ⟨w, hw⟩ := ih (t := t.resume now) hl (Stopwatch.previous_resume_le hp)
      refine ⟨w, hw.trans ?_⟩
      have hs : (t.resume now).stopwatch = t.stopwatch.resume now := rfl
      rw [hs, Stopwatch.paused_resume, Stopwatch.unticked_resume]
      rfl

theorem total_run {now : Nat} (hp : t.stopwatch.previous ≤ now) (h : List Event) :
    (run now t h).2.stopwatch.total = t.stopwatch.total +
      (tickedTime t.stopwatch.paused (t.stopwatch.unticked now) h +
        droppedTime t.stopwatch.paused (t.stopwatch.unticked now) h) := by
  induction h generalizing now t with
  | nil => rfl
  | cons e h ih =>
    cases e with
    | elapse ns =>
      have hlater : t.stopwatch.previous ≤ now + ns := Nat.le_add_right_of_le hp
      have hrest := ih hlater
      rw [Stopwatch.unticked_later hp] at hrest
      exact hrest
    | tick =>
      have hs := stopwatch_tick now t
      have hticked : (t.tick now).stopwatch.previous ≤ now :=
        Nat.le_of_eq (congrArg Stopwatch.previous hs)
      have hrest := ih (t := t.tick now) hticked
      have htotal : (t.stopwatch.tick now).total =
          t.stopwatch.total + t.stopwatch.unticked now := rfl
      rw [hs, Stopwatch.unticked_tick, htotal] at hrest
      refine hrest.trans ?_
      simp only [tickedTime, droppedTime, Stopwatch.tick]
      omega
    | pause =>
      have hs : (t.pause now).stopwatch = t.stopwatch.pause now := rfl
      have hrest := ih (t := t.pause now) (Stopwatch.previous_pause_le hp)
      rw [hs, Stopwatch.paused_pause, Stopwatch.unticked_pause, Stopwatch.total_pause] at hrest
      refine hrest.trans ?_
      simp only [tickedTime, droppedTime]
      omega
    | resume =>
      have hs : (t.resume now).stopwatch = t.stopwatch.resume now := rfl
      have hrest := ih (t := t.resume now) (Stopwatch.previous_resume_le hp)
      rw [hs, Stopwatch.paused_resume, Stopwatch.unticked_resume, Stopwatch.total_resume] at hrest
      exact hrest

def counting (now : Nat) (delay sound : UInt8) : Timers :=
  { start now with delay := delay, sound := sound }

/-- Of the running time, which the stopwatch counts in full, the counters miss what lies between
a pause and the last tick before it. -/
theorem counters_miss_time_before_pause (now : Nat) (delay sound : UInt8) (h : List Event) :
    (run now (counting now delay sound) (h ++ [.tick])).2.stopwatch.total =
      runningTime false (h ++ [.tick]) ∧
    droppedTime false 0 (h ++ [.tick]) ≤ runningTime false (h ++ [.tick]) ∧
    (run now (counting now delay sound) (h ++ [.tick])).2.delay.toNat = delay.toNat -
      (runningTime false (h ++ [.tick]) - droppedTime false 0 (h ++ [.tick])) / 16666666 ∧
    (run now (counting now delay sound) (h ++ [.tick])).2.sound.toNat = sound.toNat -
      (runningTime false (h ++ [.tick]) - droppedTime false 0 (h ++ [.tick])) / 16666666 ∧
    (run now (counting now delay sound) (h ++ [.tick])).2.leftover =
      (runningTime false (h ++ [.tick]) - droppedTime false 0 (h ++ [.tick])) % 16666666 := by
  have hl : (counting now delay sound).leftover < period := (by decide : 0 < period)
  have hnew : (counting now delay sound).stopwatch.unticked now = 0 := Nat.sub_self now
  have hrunning : (counting now delay sound).stopwatch.paused = false := rfl
  have hsum := ticked_add_dropped false 0 h
  have htotal := total_run (t := counting now delay sound) (Nat.le_refl now) (h ++ [.tick])
  obtain ⟨w, hw⟩ := run_eq_collect hl (Nat.le_refl now) (h ++ [.tick])
  rw [hrunning, hnew] at htotal hw
  rw [hsum] at htotal
  have hticked : tickedTime false 0 (h ++ [.tick]) =
      runningTime false (h ++ [.tick]) - droppedTime false 0 (h ++ [.tick]) := by
    omega
  rw [hw, ← hticked]
  refine ⟨?_, by omega, ?_, ?_, ?_⟩
  · rw [← hw, htotal]
    exact (Nat.zero_add _).trans (Nat.zero_add _)
  · rw [delay_collect]
    exact congrArg (fun a => delay.toNat - a / period) (Nat.zero_add _)
  · rw [sound_collect]
    exact congrArg (fun a => sound.toNat - a / period) (Nat.zero_add _)
  · rw [leftover_collect]
    exact congrArg (· % period) (Nat.zero_add _)

theorem running_time_not_counted : ¬∀ (now : Nat) (delay sound : UInt8) (h : List Event),
    (run now (counting now delay sound) (h ++ [.tick])).2.delay.toNat =
        delay.toNat - runningTime false (h ++ [.tick]) / 16666666 ∧
      (run now (counting now delay sound) (h ++ [.tick])).2.sound.toNat =
        sound.toNat - runningTime false (h ++ [.tick]) / 16666666 := by
  intro hall
  have hdelay : (run 0 (counting 0 60 30) [.elapse 1000000000, .pause, .elapse 500000000,
      .tick]).2.delay.toNat = 60 - 1000000000 / 16666666 :=
    (hall 0 60 30 [.elapse 1000000000, .pause, .elapse 500000000]).1
  obtain ⟨w, hw⟩ := run_eq_collect (t := counting 0 60 30) (by decide) (Nat.le_refl 0)
    [.elapse 1000000000, .pause, .elapse 500000000, .tick]
  have hkept : ((counting 0 60 30).withStopwatch w).delay.toNat - (0 + 0) / period = 60 := rfl
  rw [hw, delay_collect] at hdelay
  have hsixty : 60 = 60 - 1000000000 / 16666666 := hkept.symm.trans hdelay
  omega

end Timers
end Chip8
