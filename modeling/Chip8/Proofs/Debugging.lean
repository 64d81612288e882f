import Chip8.Proofs.Execution
import Chip8.Proofs.History
import Mathlib.Data.List.Chain

/-! Breakpoints and single steps do not change what a program computes. Three drivers hold the clock
still: cycles without breakpoints, cycles with breakpoints and a resume behind each stop, and steps.
A stop lets the timers catch up and does nothing else, and at the same instant they have nothing
more to catch up with, so the machine behind a stop runs alongside the one that never stopped. -/

namespace Chip8

namespace Stopwatch

/-- The stopwatch without the time between its last two ticks, which no tick reads. -/
def settled (s : Stopwatch) : Stopwatch := { s with delta := 0 }

theorem tick_tick (now : Nat) (s : Stopwatch) : (s.tick now).tick now = (s.tick now).settled := by
  obtain ⟨previous, delta, total, paused⟩ := s
  cases paused <;> simp [tick, settled]

theorem settled_tick {now : Nat} {s : Stopwatch} (h : s.previous = now) :
    (s.tick now).settled = s.tick now := by
  obtain ⟨previous, delta, total, paused⟩ := s
  obtain rfl : previous = now := h
  cases paused <;> simp [tick, settled]

end Stopwatch

namespace Timers

theorem tick_tick (now : Nat) (t : Timers) : (t.tick now).tick now =
    { t.tick now with stopwatch := (t.tick now).stopwatch.settled } := by
  have hwatch : (t.tick now).stopwatch.tick now = (t.tick now).stopwatch.settled := by
    rw [stopwatch_tick]
    exact t.stopwatch.tick_tick now
  have hleft : (t.tick now).leftover + 0 < period := leftover_tick_lt now t
  rw [tick, hwatch, collect, countDown]
  exact if_pos hleft

end Timers

namespace Machine

/-- What a debugger leaves alone: a machine without its breakpoints, the one that was hit last, and
the time between the last two ticks. -/
def bare (m : Machine) : Machine :=
  { m with
    cpu := m.cpu.withStopwatch m.cpu.timers.stopwatch.settled
    breakpoints := .empty
    passed := none }

theorem bare_act (random : UInt8) (a : Action) (m : Machine) :
    (m.act random a).bare = (m.bare.act random a).bare := by
  cases a with
  | execute ins =>
    have hrun := m.cpu.execute_withStopwatch random ins m.cpu.timers.stopwatch.settled
    have hwatch := m.cpu.stopwatch_execute random ins
    have hcpu : m.bare.cpu.execute random ins =
      ((m.cpu.execute random ins).1.withStopwatch m.cpu.timers.stopwatch.settled,
        (m.cpu.execute random ins).2) := hrun
    simp only [act, hcpu]
    simp only [bare, hwatch]
    rfl
  | _ => rfl

theorem bare_tick (now : Nat) (m : Machine) : (m.tick now).bare = (m.bare.tick now).bare := rfl

theorem bare_tick_tick (now : Nat) (m : Machine) :
    ((m.tick now).tick now).bare = (m.tick now).bare := by
  have ht := m.cpu.timers.tick_tick now
  have hcpu : (m.cpu.tick now).tick now =
      (m.cpu.tick now).withStopwatch (m.cpu.tick now).timers.stopwatch.settled :=
    congrArg (fun t => { m.cpu with timers := t }) ht
  change Machine.bare { m with cpu := (m.cpu.tick now).tick now } = _
  rw [hcpu]
  rfl

/-- One machine runs alongside another when they agree once their timers have caught up. -/
def Alongside (now : Nat) (d p : Machine) : Prop := (d.tick now).bare = (p.tick now).bare

section Alongside
variable {now : Nat} {d p : Machine}

theorem alongside_of_bare (h : d.bare = p.bare) : Alongside now d p := by
  rw [Alongside, bare_tick, h, ← bare_tick]

theorem Alongside.paused (h : Alongside now d p) : d.paused = p.paused := by
  have hbare : (d.tick now).bare.paused = (p.tick now).bare.paused := congrArg Machine.paused h
  exact hbare

theorem Alongside.stepAction (h : Alongside now d p) : d.stepAction = p.stepAction := by
  have hbare : (d.tick now).bare.stepAction = (p.tick now).bare.stepAction :=
    congrArg Machine.stepAction h
  exact hbare

theorem Alongside.cycleAction (h : Alongside now d p) (hd : d.cycleAction ≠ .stop)
    (hp : p.cycleAction ≠ .stop) : d.cycleAction = p.cycleAction := by
  rw [cycleAction_of_ne_stop hd, cycleAction_of_ne_stop hp, h.paused, h.stepAction]

theorem Alongside.cycle (random : UInt8) (h : Alongside now d p) (hd : d.cycleAction ≠ .stop)
    (hp : p.cycleAction ≠ .stop) : (d.cycle now random).bare = (p.cycle now random).bare := by
  have heq : (d.tick now).bare = (p.tick now).bare := h
  rw [Machine.cycle, Machine.cycle, h.cycleAction hd hp, bare_act, heq, ← bare_act]

theorem Alongside.resume (random : UInt8) (h : Alongside now d p) (hs : d.cycleAction = .stop) :
    Alongside now (d.cycle now random).resume p := by
  have hp : d.paused = false := (of_cycleAction_stop hs).1
  -- the clock has not moved since the stop, so the next tick finds nothing to catch up with
  have hbare : ((d.cycle now random).resume.tick now).bare = ((d.tick now).tick now).bare := by
    rw [resume_cycle_of_stop random hs, ← hp]
    rfl
  rw [Alongside, hbare, bare_tick_tick]
  exact h

end Alongside

structure Event where
  before : Machine
  action : Action
  after : Machine

def Event.cycle (now : Nat) (random : UInt8) (m : Machine) : Event :=
  ⟨m, m.cycleAction, m.cycle now random⟩

def Event.step (now : Nat) (random : UInt8) (m : Machine) : Event :=
  ⟨m, m.stepAction, m.step now random⟩

/-- The random byte for the next instruction, which may depend on those executed before it. -/
abbrev Chance := List Instruction → UInt8

def Chance.behind (random : Chance) (a : Action) : Chance := fun past => random (a.executed ++ past)

/-- Cycles until the machine pauses or has executed `n` instructions; a cycle that executes none
pauses it. -/
def run (now : Nat) : Nat → Chance → Machine → List Event
  | 0, _, _ => []
  | n + 1, random, m =>
    if m.paused then [] else
      .cycle now (random []) m ::
        run now n (random.behind m.cycleAction) (m.cycle now (random []))

/-- Cycles as in `run`, but the machine is resumed whenever it has stopped at a breakpoint. -/
def debug (now n : Nat) (random : Chance) (m : Machine) : List Event :=
  if n = 0 ∨ m.paused then [] else
    if m.cycleAction = .stop then
      .cycle now (random []) m :: debug now n random (m.cycle now (random [])).resume
    else
      .cycle now (random []) m ::
        debug now (n - 1) (random.behind m.cycleAction) (m.cycle now (random []))
termination_by (n, if m.AtBreakpoint then 1 else 0)
decreasing_by
  -- the breakpoint that was just hit is passed, so no second stop can follow
  · next hs =>
    apply Prod.Lex.right
    rw [if_pos (of_cycleAction_stop hs).2, if_neg (not_atBreakpoint_resume _ hs)]
    exact Nat.one_pos
  · apply Prod.Lex.left
    omega

def stepping (now : Nat) : Nat → Chance → Machine → List Event
  | 0, _, _ => []
  | k + 1, random, m =>
    .step now (random []) m ::
      stepping now k (random.behind m.stepAction) (m.step now (random []))

def Event.isStop (e : Event) : Bool := e.action = .stop

theorem filter_of_isStop {e : Event} {trace : List Event} (h : e.isStop) :
    (e :: trace).filter (!·.isStop) = trace.filter (!·.isStop) :=
  List.filter_cons_of_neg (by simpa using h)

theorem filter_of_not_isStop {e : Event} {trace : List Event} (h : ¬e.isStop) :
    (e :: trace).filter (!·.isStop) = e :: trace.filter (!·.isStop) :=
  List.filter_cons_of_pos (by simpa using h)

/-- What an event does, and the machine after it without what a debugger leaves in it. -/
def Event.bare (e : Event) : Action × Machine := (e.action, e.after.bare)

theorem run_eq_nil {now n : Nat} {random : Chance} {m : Machine} (h : n = 0 ∨ m.paused) :
    run now n random m = [] := by
  cases n with
  | zero => rfl
  | succ n => exact if_pos (h.resolve_left (Nat.succ_ne_zero n))

theorem run_ends (now n : Nat) (random : Chance) (m : Machine) :
    ((run now n random m).flatMap (·.action.executed)).length = n ∨
      (run now n random m).getLast?.elim m.paused (·.after.paused) := by
  induction n generalizing random m with
  | zero => exact .inl rfl
  | succ n ih =>
    cases hp : m.paused with
    | true =>
      right
      rw [run_eq_nil (.inr hp)]
      rfl
    | false =>
      rw [run, hp, if_neg Bool.false_ne_true, List.flatMap_cons, List.length_append,
        List.getLast?_cons]
      rcases executes_or_pauses now (random []) m with ⟨ins, haction⟩ | hpause
      · have hone : (Event.cycle now (random []) m).action.executed.length = 1 := by
          change m.cycleAction.executed.length = 1
          rw [haction]
          rfl
        rcases ih (random.behind m.cycleAction) (m.cycle now (random [])) with hrun | hend
        · left
          rw [hone, hrun, Nat.add_comm]
        · right
          cases hlast : (run now n (random.behind m.cycleAction)
              (m.cycle now (random []))).getLast? with
          | none | some e =>
            rw [hlast] at hend
            exact hend
      · right
        rw [run_eq_nil (.inr hpause)]
        exact hpause

theorem debug_alongside (now n : Nat) (random : Chance) {d p : Machine} (h : Alongside now d p)
    (hp : p.breakpoints = .empty) :
    ((debug now n random d).filter (!·.isStop)).map Event.bare =
      (run now n random p).map Event.bare := by
  -- a stop keeps `d` alongside the same `p`; every other cycle is matched by one cycle of `p`
  fun_induction debug now n random d generalizing p with
  | case1 n random d hend =>
    rw [h.paused] at hend
    rw [run_eq_nil hend]
    rfl
  | case2 n random d hend hs ih =>
    have hstop : (Event.cycle now (random []) d).isStop := decide_eq_true hs
    rw [filter_of_isStop hstop]
    exact ih (h.resume (random []) hs) hp
  | case3 n random d hend hs ih =>
    have hgo : ¬(Event.cycle now (random []) d).isStop := mt of_decide_eq_true hs
    have hpn := cycleAction_ne_stop (not_atBreakpoint_of_empty hp)
    obtain ⟨hn, hpaused⟩ := not_or.mp hend
    rw [h.paused] at hpaused
    have haction := h.cycleAction hs hpn
    have hbare := h.cycle (random []) hs hpn
    have hhead : (Event.cycle now (random []) d).bare = (Event.cycle now (random []) p).bare :=
      Prod.ext haction hbare
    have hrest := ih (alongside_of_bare hbare) ((breakpoints_cycle now (random []) p).trans hp)
    cases n with
    | zero => exact absurd rfl hn
    | succ n =>
      rw [filter_of_not_isStop hgo, run, if_neg hpaused, List.map_cons, List.map_cons, hhead,
        ← haction]
      exact congrArg _ hrest

theorem event_of_mem_run {P : Machine → Prop} {now n : Nat} {random : Chance} {m : Machine}
    {e : Event} (he : e ∈ run now n random m) (h : P m)
    (hcycle : ∀ m random, P m → P (m.cycle now random)) :
    P e.before ∧ ∃ byte, e = .cycle now byte e.before := by
  induction n generalizing random m with
  | zero => cases he
  | succ n ih =>
    rw [run] at he
    split at he
    · cases he
    · rcases List.mem_cons.mp he with rfl | he
      · exact ⟨h, random [], rfl⟩
      · exact ih he (hcycle m (random []) h)

theorem event_of_mem_debug {P : Machine → Prop} {now n : Nat} {random : Chance} {m : Machine}
    {e : Event} (he : e ∈ debug now n random m) (h : P m)
    (hcycle : ∀ m random, P m → P (m.cycle now random)) (hresume : ∀ m, P m → P m.resume) :
    P e.before ∧ ∃ byte, e = .cycle now byte e.before := by
  fun_induction debug now n random m with
  | case1 => cases he
  | case2 n random m hend hs ih =>
    rcases List.mem_cons.mp he with rfl | he
    · exact ⟨h, random [], rfl⟩
    · exact ih he (hresume _ (hcycle m (random []) h))
  | case3 n random m hend hs ih =>
    rcases List.mem_cons.mp he with rfl | he
    · exact ⟨h, random [], rfl⟩
    · exact ih he (hcycle m (random []) h)

theorem after_of_isStop {now : Nat} {byte : UInt8} {m : Machine}
    (h : (Event.cycle now byte m).isStop) : m.cycle now byte =
      { m.tick now with paused := true, passed := some m.cpu.pc } := by
  have hs : m.cycleAction = .stop := of_decide_eq_true h
  rw [cycle, hs]
  rfl

theorem head?_debug {now n : Nat} {random : Chance} {m : Machine} {e : Event}
    (h : e ∈ (debug now n random m).head?) : e = .cycle now (random []) m := by
  rw [debug] at h
  split at h
  · cases h
  · split at h
    · exact (Option.some.inj h).symm
    · exact (Option.some.inj h).symm

theorem head?_run {now n : Nat} {random : Chance} {m : Machine} {e : Event}
    (h : e ∈ (run now n random m).head?) : e = .cycle now (random []) m := by
  cases n with
  | zero => cases h
  | succ n =>
    rw [run] at h
    split at h
    · cases h
    · exact (Option.some.inj h).symm

theorem debug_isChain (now n : Nat) (random : Chance) (m : Machine) :
    (debug now n random m).IsChain fun e e' => ¬(e.isStop ∧ e'.isStop) := by
  fun_induction debug now n random m with
  | case1 => exact .nil
  | case2 n random m hend hs ih =>
    refine List.isChain_cons.mpr ⟨?_, ih⟩
    intro e he hstops
    obtain rfl := head?_debug he
    exact cycleAction_ne_stop (not_atBreakpoint_resume (random []) hs) (of_decide_eq_true hstops.2)
  | case3 n random m hend hs ih =>
    refine List.isChain_cons.mpr ⟨?_, ih⟩
    intro e _ hstops
    exact hs (of_decide_eq_true hstops.1)

def under (paused : Bool) (B : Breakpoints) (m : Machine) : Machine :=
  { m with paused := paused || m.paused, breakpoints := B }

theorem step_under (now : Nat) (random : UInt8) {p : Machine} (paused : Bool) (B : Breakpoints)
    (hp : p.paused = false) (hs : p.cycleAction ≠ .stop) :
    (p.under paused B).step now random = (p.cycle now random).under paused B := by
  rw [cycle, cycleAction_eq_stepAction hp hs]
  change act random p.stepAction _ = _
  unfold stepAction
  split
  · simp only [act, tick, under, Bool.or_assoc]
  · simp only [act, tick, under, Bool.or_true]

theorem stepping_under (now n : Nat) (random : Chance) {p : Machine} (paused : Bool)
    (B : Breakpoints) (hb : p.breakpoints = .empty) :
    (stepping now (run now n random p).length random (p.under paused B)).map
        (fun e => (e.action, e.after)) =
      (run now n random p).map fun e => (e.action, e.after.under paused B) := by
  induction n generalizing random p with
  | zero => rfl
  | succ n ih =>
    cases hp : p.paused with
    | true =>
      rw [run_eq_nil (.inr hp)]
      rfl
    | false =>
      have hs := cycleAction_ne_stop (not_atBreakpoint_of_empty hb)
      have haction : (p.under paused B).stepAction = p.cycleAction :=
        (cycleAction_eq_stepAction hp hs).symm
      have hstep := step_under now (random []) paused B hp hs
      have hhead : ((Event.step now (random []) (p.under paused B)).action,
          (Event.step now (random []) (p.under paused B)).after) =
          ((Event.cycle now (random []) p).action,
            (Event.cycle now (random []) p).after.under paused B) := Prod.ext haction hstep
      have htail := ih (random.behind p.cycleAction)
        ((breakpoints_cycle now (random []) p).trans hb)
      rw [run, hp, if_neg Bool.false_ne_true, List.length_cons, stepping, List.map_cons,
        List.map_cons, hhead, hstep, haction, htail]

theorem stopwatch_cycle (now : Nat) (random : UInt8) (m : Machine) :
    (m.cycle now random).cpu.timers.stopwatch = m.cpu.timers.stopwatch.tick now := by
  rw [← Timers.stopwatch_tick, cycle]
  cases m.cycleAction with
  | execute ins => exact Cpu.stopwatch_execute random (m.tick now).cpu ins
  | _ => rfl

theorem bare_cpu_cycle {now : Nat} {m : Machine} (random : UInt8)
    (h : m.cpu.timers.stopwatch.previous = now) :
    (m.cycle now random).bare.cpu = (m.cycle now random).cpu := by
  rw [bare, stopwatch_cycle, Stopwatch.settled_tick h, ← stopwatch_cycle now random m]
  rfl

theorem previous_cycle (now : Nat) (random : UInt8) (m : Machine) :
    (m.cycle now random).cpu.timers.stopwatch.previous = now := by
  rw [stopwatch_cycle]
  rfl

/-- The last tick before the event was at the same instant. -/
def Event.Still (now : Nat) (e : Event) : Prop :=
  e.before.cpu.timers.stopwatch.previous = now ∧ ∃ byte, e = .cycle now byte e.before

theorem still_of_mem_run {now n : Nat} {random : Chance} {m : Machine} {e : Event}
    (h : m.cpu.timers.stopwatch.previous = now) (he : e ∈ run now n random m) : e.Still now :=
  event_of_mem_run (P := fun m => m.cpu.timers.stopwatch.previous = now) he h
    fun m byte _ => previous_cycle now byte m

theorem still_of_mem_debug {now n : Nat} {random : Chance} {m : Machine} {e : Event}
    (h : m.cpu.timers.stopwatch.previous = now) (he : e ∈ debug now n random m) : e.Still now :=
  event_of_mem_debug (P := fun m => m.cpu.timers.stopwatch.previous = now) he h
    (fun m byte _ => previous_cycle now byte m) fun _ h => h

theorem still_of_mem_tail_run {now n : Nat} {random : Chance} {m : Machine} {e : Event}
    (he : e ∈ (run now n random m).tail) : e.Still now := by
  cases n with
  | zero => cases he
  | succ n =>
    rw [run] at he
    split at he
    · cases he
    · exact still_of_mem_run (previous_cycle now (random []) m) he

theorem still_of_mem_tail_debug {now n : Nat} {random : Chance} {m : Machine} {e : Event}
    (he : e ∈ (debug now n random m).tail) : e.Still now := by
  rw [debug] at he
  split at he
  · cases he
  · split at he
    · have hprevious : (m.cycle now (random [])).resume.cpu.timers.stopwatch.previous = now :=
        previous_cycle now (random []) m
      exact still_of_mem_debug hprevious he
    · exact still_of_mem_debug (previous_cycle now (random []) m) he

theorem cpu_cycle_congr {now : Nat} {random : UInt8} {m m' : Machine} (h : m.cpu = m'.cpu)
    (haction : m.cycleAction = m'.cycleAction) :
    (m.cycle now random).cpu = (m'.cycle now random).cpu := by
  rw [cycle, cycle, haction]
  cases m'.cycleAction <;> simp only [act, tick, h]

theorem map_cpu_of_still {now : Nat} {trace : List Event} (h : ∀ e ∈ trace, e.Still now) :
    trace.map (·.after.cpu) = (trace.map Event.bare).map (·.2.cpu) := by
  rw [List.map_map]
  refine List.map_congr_left ?_
  intro e he
  obtain ⟨hstill, byte, hcycle⟩ := h e he
  rw [hcycle]
  exact (bare_cpu_cycle byte hstill).symm

theorem executed_filter (trace : List Event) :
    (trace.filter (!·.isStop)).flatMap (·.action.executed) =
      trace.flatMap (·.action.executed) := by
  induction trace with
  | nil => rfl
  | cons e trace ih =>
    by_cases hs : e.isStop
    · have hstop : e.action = .stop := of_decide_eq_true hs
      rw [filter_of_isStop hs, List.flatMap_cons, hstop, ih]
      rfl
    · rw [filter_of_not_isStop hs, List.flatMap_cons, List.flatMap_cons, ih]

theorem executed_bare (trace : List Event) :
    (trace.map Event.bare).flatMap (·.1.executed) = trace.flatMap (·.action.executed) :=
  List.flatMap_map ..

def plain (now n : Nat) (random : Chance) (m : Machine) : List Event :=
  run now n random { m with breakpoints := .empty }

def debugged (B : Breakpoints) (now n : Nat) (random : Chance) (m : Machine) : List Event :=
  debug now n random { m with breakpoints := B }

section Transparency
variable (m : Machine) (B : Breakpoints) (now n : Nat) (random : Chance)

theorem map_bare_debugged : ((m.debugged B now n random).filter (!·.isStop)).map Event.bare =
    (m.plain now n random).map Event.bare :=
  debug_alongside now n random (alongside_of_bare rfl) rfl

theorem executed_debugged : (m.debugged B now n random).flatMap (·.action.executed) =
    (m.plain now n random).flatMap (·.action.executed) := by
  rw [← executed_filter, ← executed_bare, map_bare_debugged, executed_bare]

variable {m now} in
theorem map_cpu_debugged_of_still (hstill : m.cpu.timers.stopwatch.previous = now) :
    ((m.debugged B now n random).filter (!·.isStop)).map (·.after.cpu) =
      (m.plain now n random).map (·.after.cpu) := by
  have hdebugged : ∀ e ∈ (m.debugged B now n random).filter (!·.isStop), e.Still now := by
    intro e he
    have he : e ∈ m.debugged B now n random := List.mem_of_mem_filter he
    exact still_of_mem_debug (m := { m with breakpoints := B }) hstill he
  have hplain : ∀ e ∈ m.plain now n random, e.Still now :=
    fun e he => still_of_mem_run (m := { m with breakpoints := .empty }) hstill he
  rw [map_cpu_of_still hdebugged, map_cpu_of_still hplain, map_bare_debugged]

theorem tail_cpu_debugged :
    (((m.debugged B now n random).filter (!·.isStop)).map (·.after.cpu)).tail =
      ((m.plain now n random).map (·.after.cpu)).tail := by
  have hdebugged : ∀ e ∈ ((m.debugged B now n random).filter (!·.isStop)).tail, e.Still now := by
    intro e he
    have he : e ∈ (m.debugged B now n random).tail := List.filter_sublist.tail.subset he
    exact still_of_mem_tail_debug he
  have hplain : ∀ e ∈ (m.plain now n random).tail, e.Still now :=
    fun e he => still_of_mem_tail_run he
  rw [← List.map_tail, ← List.map_tail, map_cpu_of_still hdebugged, map_cpu_of_still hplain,
    List.map_tail, List.map_tail (l := m.plain now n random), map_bare_debugged]

variable {m B now n random} in
theorem map_cpu_debugged_of_go (hgo : ∀ e ∈ (m.debugged B now n random).head?, ¬e.isStop) :
    ((m.debugged B now n random).filter (!·.isStop)).map (·.after.cpu) =
      (m.plain now n random).map (·.after.cpu) := by
  have hbare := map_bare_debugged m B now n random
  have htail := tail_cpu_debugged m B now n random
  cases hdebugged : m.debugged B now n random with
  | nil =>
    rw [hdebugged] at hbare
    rw [List.map_eq_nil_iff.mp hbare.symm]
    rfl
  | cons e trace =>
    have hhead : e ∈ (m.debugged B now n random).head? := by
      rw [hdebugged]
      rfl
    rw [hdebugged, filter_of_not_isStop (hgo e hhead)] at hbare htail
    rw [filter_of_not_isStop (hgo e hhead)]
    cases hplain : m.plain now n random with
    | nil =>
      rw [hplain] at hbare
      cases hbare
    | cons e' trace' =>
      rw [hplain] at hbare htail
      have haction : e.action = e'.action := congrArg Prod.fst (List.cons.inj hbare).1
      have hhead' : e' ∈ (m.plain now n random).head? := by
        rw [hplain]
        rfl
      have hcpu : e.after.cpu = e'.after.cpu := by
        rw [head?_debug hhead, head?_run hhead'] at haction ⊢
        exact cpu_cycle_congr rfl haction
      exact List.cons_eq_cons.mpr ⟨hcpu, htail⟩

theorem after_stop_debugged : ∀ e ∈ m.debugged B now n random, e.isStop →
    e.after = { e.before.tick now with paused := true, passed := some e.before.cpu.pc } := by
  intro e he hstop
  have hevent := event_of_mem_debug (P := fun _ => True) he trivial (fun _ _ h => h) fun _ h => h
  obtain ⟨_, byte, hcycle⟩ := hevent
  rw [hcycle] at hstop ⊢
  exact after_of_isStop hstop

theorem length_debugged : (m.debugged B now n random).length =
    (m.plain now n random).length + (m.debugged B now n random).countP (·.isStop) := by
  have hgo : ((m.debugged B now n random).filter (!·.isStop)).length =
      (m.plain now n random).length := by
    simpa using congrArg List.length (map_bare_debugged m B now n random)
  have hcount := List.length_eq_countP_add_countP (fun e : Event => e.isStop)
    (l := m.debugged B now n random)
  rw [← hgo, ← List.countP_eq_length_filter]
  simp only [Bool.not_eq_true, Bool.decide_eq_false] at hcount
  omega

theorem map_stepping_plain (paused : Bool) :
    (stepping now (m.plain now n random).length random
        { m with paused := paused, breakpoints := B }).map (fun e => (e.action, e.after)) =
      (m.plain now n random).map fun e => (e.action,
        { e.after with paused := paused || e.after.paused, breakpoints := B }) := by
  cases hp : m.paused with
  | true =>
    have hnil : m.plain now n random = [] := run_eq_nil (.inr hp)
    rw [hnil]
    rfl
  | false =>
    have hunder : { m with paused := paused, breakpoints := B } =
        Machine.under paused B { m with breakpoints := .empty } := by
      rw [under, hp, Bool.or_false]
    rw [hunder]
    exact stepping_under now n random paused B rfl

end Transparency

/-- With its stops left out, a machine with breakpoints does what it does without them; so does a
machine in single steps. Only a stop ahead of the first instruction shows behind that instruction:
its tick has taken the time since the last one. -/
theorem breakpoints_transparent (m : Machine) (B : Breakpoints) (now n : Nat) (random : Chance)
    (paused : Bool) :
    (((m.plain now n random).flatMap (·.action.executed)).length = n ∨
      (m.plain now n random).getLast?.elim m.paused (·.after.paused)) ∧
    (m.debugged B now n random).flatMap (·.action.executed) =
      (m.plain now n random).flatMap (·.action.executed) ∧
    ((m.debugged B now n random).filter (!·.isStop)).map Event.bare =
      (m.plain now n random).map Event.bare ∧
    (((m.debugged B now n random).filter (!·.isStop)).map (·.after.cpu)).tail =
      ((m.plain now n random).map (·.after.cpu)).tail ∧
    (m.cpu.timers.stopwatch.previous = now ∨
        (∀ e ∈ (m.debugged B now n random).head?, ¬e.isStop) →
      ((m.debugged B now n random).filter (!·.isStop)).map (·.after.cpu) =
        (m.plain now n random).map (·.after.cpu)) ∧
    (∀ e ∈ m.debugged B now n random, e.isStop →
      e.after = { e.before.tick now with paused := true, passed := some e.before.cpu.pc }) ∧
    (m.debugged B now n random).length =
      (m.plain now n random).length + (m.debugged B now n random).countP (·.isStop) ∧
    (m.debugged B now n random).IsChain (fun e e' => ¬(e.isStop ∧ e'.isStop)) ∧
    (stepping now (m.plain now n random).length random
        { m with paused := paused, breakpoints := B }).map (fun e => (e.action, e.after)) =
      (m.plain now n random).map fun e => (e.action,
        { e.after with paused := paused || e.after.paused, breakpoints := B }) := by
  refine ⟨?_, executed_debugged m B now n random, map_bare_debugged m B now n random,
    tail_cpu_debugged m B now n random, ?_, after_stop_debugged m B now n random,
    length_debugged m B now n random, ?_, map_stepping_plain m B now n random paused⟩
  · exact run_ends now n random { m with breakpoints := .empty }
  · rintro (hstill | hgo)
    · exact map_cpu_debugged_of_still B n random hstill
    · exact map_cpu_debugged_of_go hgo
  · exact debug_isChain now n random { m with breakpoints := B }

def oneSet : Machine := (start 0 {}).after 0 (.load [0x60, 0x01])

def oneSetWith (B : Breakpoints) : Machine := { oneSet with breakpoints := B }

theorem oneSet_stops : (oneSetWith (.insert .empty 0)).cycleAction = .stop := by
  refine cycleAction_eq_stop_iff.mpr ⟨rfl, ?_, ?_, nofun⟩
  · change Memory.romStart ≤ Cpu.origin.toNat ∧ Cpu.origin.toNat < 0x202
    decide
  · change indexOf Cpu.origin ∈ Breakpoints.insert .empty 0
    decide

theorem stop_takes_delta : ¬∀ m : Machine, m.Reachable → m.paused = false → ∀ B now n random,
    ((m.debugged B now n random).filter (!·.isStop)).map (·.after.cpu.timers) =
      (m.plain now n random).map (·.after.cpu.timers) := by
  intro hall
  let stopping := oneSetWith (.insert .empty 0)
  let resumed := (stopping.cycle 5 0).resume
  have hgo : resumed.cycleAction ≠ .stop :=
    cycleAction_ne_stop (not_atBreakpoint_resume 0 oneSet_stops)
  have hdebugged : oneSet.debugged (.insert .empty 0) 5 1 (fun _ => 0) =
      [.cycle 5 0 stopping, .cycle 5 0 resumed] := by
    change debug 5 1 (fun _ => 0) stopping = _
    rw [debug, if_neg (by decide), if_pos oneSet_stops, debug, if_neg (by decide), if_neg hgo,
      debug, if_pos (.inl rfl)]
  have hfilter : [Event.cycle 5 0 stopping, .cycle 5 0 resumed].filter (!·.isStop) =
      [.cycle 5 0 resumed] := by
    have hstop : (Event.cycle 5 0 stopping).isStop := by
      rw [Event.isStop, Event.cycle, oneSet_stops]
      rfl
    have hrun : ¬(Event.cycle 5 0 resumed).isStop := mt of_decide_eq_true hgo
    rw [filter_of_isStop hstop, filter_of_not_isStop hrun]
    rfl
  have hplain : oneSet.plain 5 1 (fun _ => 0) = [.cycle 5 0 (oneSetWith .empty)] := rfl
  have hm : oneSet.Reachable := (Reachable.start 0 {}).after 0 _
  have hclaimed := hall oneSet hm rfl (.insert .empty 0) 5 1 fun _ => 0
  rw [hdebugged, hfilter, hplain, List.map_singleton, List.map_singleton] at hclaimed
  have hdelta := congrArg (fun t => t.stopwatch.delta) (List.singleton_inj.mp hclaimed)
  -- the stop's own tick has taken the time that the plain cycle counts
  have hwatch : resumed.cpu.timers.stopwatch = (Stopwatch.start 0).tick 5 :=
    stopwatch_cycle 5 0 stopping
  simp only [Event.cycle, stopwatch_cycle, hwatch] at hdelta
  cases hdelta

end Machine
end Chip8
