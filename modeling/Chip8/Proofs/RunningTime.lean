import Chip8.Proofs.Countdown

/-! What a stopwatch counts. Its total and the time that it has not taken note of yet add up to the
time for which it has been running since the last reset. A pause moves time from the one to the
other, and while it lasts no time is added to either. -/

namespace Chip8

inductive Stopwatch.Event
  | timed (e : Timers.Event)
  | reset
deriving DecidableEq, Repr

namespace Timers

def pausedBehind (paused : Bool) : List Event → Bool
  | [] => paused
  | .elapse _ :: h | .tick :: h => pausedBehind paused h
  | .pause :: h => pausedBehind true h
  | .resume :: h => pausedBehind false h

theorem pausedBehind_append (paused : Bool) (h h' : List Event) :
    pausedBehind paused (h ++ h') = pausedBehind (pausedBehind paused h) h' := by
  induction h generalizing paused with
  | nil => rfl
  | cons e h ih => cases e <;> exact ih _

theorem runningTime_append (paused : Bool) (h h' : List Event) : runningTime paused (h ++ h') =
    runningTime paused h + runningTime (pausedBehind paused h) h' := by
  induction h generalizing paused with
  | nil => exact (Nat.zero_add _).symm
  | cons e h ih =>
    cases e with
    | elapse ns => exact (congrArg _ (ih paused)).trans (Nat.add_assoc ..).symm
    | tick => exact ih paused
    | pause => exact ih true
    | resume => exact ih false

end Timers

namespace Stopwatch

def after (p : Nat × Stopwatch) : Event → Nat × Stopwatch
  | .timed (.elapse ns) => (p.1 + ns, p.2)
  | .timed .tick => (p.1, p.2.tick p.1)
  | .timed .pause => (p.1, p.2.pause p.1)
  | .timed .resume => (p.1, p.2.resume p.1)
  | .reset => (p.1, start p.1)

def afterAll (p : Nat × Stopwatch) (history : List Event) : Nat × Stopwatch :=
  history.foldl after p

def note (past : List Timers.Event) : Event → List Timers.Event
  | .timed e => past ++ [e]
  | .reset => []

def sinceReset (history : List Event) : List Timers.Event := history.foldl note []

/-- The time on the clock since the last reset during which nothing was paused. -/
def runningTime (history : List Event) : Nat := Timers.runningTime false (sinceReset history)

structure Accounts (now : Nat) (s : Stopwatch) (past : List Timers.Event) : Prop where
  previous_le : s.previous ≤ now
  paused : s.paused = Timers.pausedBehind false past
  total : s.total + s.unticked now = Timers.runningTime false past

variable {now : Nat} {s : Stopwatch} {past : List Timers.Event}

theorem accounts_start (now : Nat) : Accounts now (start now) [] :=
  ⟨Nat.le_refl now, rfl, (Nat.zero_add _).trans (Nat.sub_self now)⟩

theorem total_tick (now : Nat) (s : Stopwatch) :
    (s.tick now).total = s.total + s.unticked now := rfl

theorem Accounts.elapse (h : Accounts now s past) (ns : Nat) :
    Accounts (now + ns) s (past ++ [.elapse ns]) where
  previous_le := Nat.le_add_right_of_le h.previous_le
  paused := by
    rw [Timers.pausedBehind_append]
    exact h.paused
  total := by
    rw [unticked_later h.previous_le, Timers.runningTime_append, ← h.paused, ← h.total,
      Nat.add_assoc]
    rfl

theorem Accounts.tick (h : Accounts now s past) : Accounts now (s.tick now) (past ++ [.tick]) where
  previous_le := Nat.le_refl now
  paused := by
    rw [Timers.pausedBehind_append]
    exact h.paused
  total := by
    rw [total_tick, unticked_tick, Timers.runningTime_append, h.total]
    rfl

theorem Accounts.pause (h : Accounts now s past) :
    Accounts now (s.pause now) (past ++ [.pause]) where
  previous_le := previous_pause_le h.previous_le
  paused := by
    rw [Timers.pausedBehind_append]
    exact paused_pause now s
  total := by
    rw [total_pause, unticked_pause, Timers.runningTime_append, h.total]
    rfl

theorem Accounts.resume (h : Accounts now s past) :
    Accounts now (s.resume now) (past ++ [.resume]) where
  previous_le := previous_resume_le h.previous_le
  paused := by
    rw [Timers.pausedBehind_append]
    exact paused_resume now s
  total := by
    rw [total_resume, unticked_resume, Timers.runningTime_append, h.total]
    rfl

theorem Accounts.after {p : Nat × Stopwatch} (h : Accounts p.1 p.2 past) (e : Event) :
    Accounts (after p e).1 (after p e).2 (note past e) := by
  cases e with
  | reset => exact accounts_start p.1
  | timed e =>
    cases e with
    | elapse ns => exact h.elapse ns
    | tick => exact h.tick
    | pause => exact h.pause
    | resume => exact h.resume

theorem Accounts.afterAll {p : Nat × Stopwatch} (h : Accounts p.1 p.2 past) (history : List Event) :
    Accounts (afterAll p history).1 (afterAll p history).2 (history.foldl note past) := by
  induction history generalizing p past with
  | nil => exact h
  | cons e history ih => exact ih (h.after e)

theorem Accounts.eq_total_of_paused (h : Accounts now s past) (hp : s.paused = true) :
    Timers.runningTime false past = s.total := by
  have hnone : s.unticked now = 0 := if_pos hp
  rw [← h.total, hnone, Nat.add_zero]

theorem Accounts.eq_total_of_running (h : Accounts now s past) (hp : s.paused = false) :
    Timers.runningTime false past = s.total + (now - s.previous) := by
  have hsome : s.unticked now = now - s.previous := if_neg (by simp [hp])
  rw [← h.total, hsome]

theorem total_le_after {e : Event} (h : e ≠ .reset) (p : Nat × Stopwatch) :
    p.2.total ≤ (after p e).2.total := by
  cases e with
  | reset => exact absurd rfl h
  | timed e =>
    cases e with
    | elapse ns => exact Nat.le_refl _
    | tick => exact Nat.le_add_right ..
    | pause => exact (total_pause p.1 p.2).symm ▸ Nat.le_add_right ..
    | resume => exact Nat.le_of_eq (total_resume p.1 p.2).symm

theorem total_le_afterAll {history : List Event} (h : .reset ∉ history) (p : Nat × Stopwatch) :
    p.2.total ≤ (afterAll p history).2.total := by
  induction history generalizing p with
  | nil => exact Nat.le_refl _
  | cons e history ih =>
    have he : e ≠ .reset := fun heq => h (heq ▸ List.mem_cons_self)
    have hrest : .reset ∉ history := fun hmem => h (List.mem_cons_of_mem e hmem)
    exact Nat.le_trans (total_le_after he p) (ih hrest (after p e))

theorem pause_of_paused (h : s.paused = true) (now : Nat) : s.pause now = s := if_pos h

theorem resume_of_running (h : s.paused = false) (now : Nat) : s.resume now = s :=
  if_neg (by simp [h])

/-- A stopwatch accounts for all the time in which it was running since the last reset, and for no
other time. -/
theorem accounts_for_running_time (origin : Nat) (history : List Event) :
    let now := (afterAll (origin, start origin) history).1
    let s := (afterAll (origin, start origin) history).2
    s.paused = Timers.pausedBehind false (sinceReset history) ∧ s.previous ≤ now ∧
    (s.paused = true → runningTime history = s.total) ∧
    (s.paused = false → runningTime history = s.total + (now - s.previous)) ∧
    (∀ future, .reset ∉ future →
      s.total ≤ (afterAll (origin, start origin) (history ++ future)).2.total) ∧
    (s.paused = true → s.pause now = s) ∧ (s.paused = false → s.resume now = s) ∧
    (s.tick now).total = runningTime history ∧ (s.pause now).total = runningTime history := by
  intro now s
  have h : Accounts now s (sinceReset history) :=
    Accounts.afterAll (p := (origin, start origin)) (accounts_start origin) history
  refine ⟨h.paused, h.previous_le, h.eq_total_of_paused, h.eq_total_of_running, ?_,
    fun hp => pause_of_paused hp now, fun hp => resume_of_running hp now, h.total, ?_⟩
  · intro future hfuture
    have hsplit : afterAll (origin, start origin) (history ++ future) = afterAll (now, s) future :=
      List.foldl_append
    rw [hsplit]
    exact total_le_afterAll hfuture (now, s)
  · exact (total_pause now s).trans h.total

end Stopwatch
end Chip8
