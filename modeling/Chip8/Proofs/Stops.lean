import Chip8.Proofs.KeyWait
import Mathlib.Data.List.Induction

/-! No breakpoint is skipped. The address of the last stop is kept until an instruction is executed
or the machine restarts, and only a key press can take the machine away from it before. Such a press
ends the wait it belongs to, so the machine cannot come back to the address without executing
something, and the stop is never mistaken for one of a later visit. -/

namespace Chip8

theorem Word.add_two_ne (w : Word) : w + 2 ≠ w := by
  intro h
  have hval : (w.toNat + 2) % 65536 = w.toNat := congrArg UInt16.toNat h
  have hlt := w.toNat_lt
  omega

namespace Call

def Completes (m : Machine) (c : Call) : Prop :=
  ∃ key pressed, c = .setKey key pressed ∧ (m.cpu.keypad.press? key pressed).isSome

def Moves (now : Nat) (m : Machine) (c : Call) : Prop :=
  (c.action m).executed ≠ [] ∨ c.Restarts now m ∨ c.Completes m

end Call

namespace Machine
variable {m : Machine} {now : Nat} {c : Call}

inductive Marks (now : Nat) (m : Machine) (c : Call) : Prop
  | forgets (hmoves : c.Moves now m) (hpassed : (m.after now c).passed = none)
  | stops (random : UInt8) (hc : c = .cycle random) (hstop : m.cycleAction = .stop)
      (hpassed : (m.after now c).passed = some m.cpu.pc)
      (hpc : (m.after now c).cpu.pc = m.cpu.pc)
  | completes (hmoves : c.Moves now m) (hbefore : m.cpu.keypad.waiting ≠ none)
      (hpassed : (m.after now c).passed = m.passed)
      (hpc : (m.after now c).cpu.pc = m.cpu.pc + 2)
      (hwaiting : (m.after now c).cpu.keypad.waiting = none)
  | stays (hmoves : ¬c.Moves now m) (hpassed : (m.after now c).passed = m.passed)
      (hpc : (m.after now c).cpu.pc = m.cpu.pc)
      (hwaiting : (m.after now c).cpu.keypad.waiting = m.cpu.keypad.waiting)

theorem not_moves {c : Call} (hexec : (c.action m).executed = []) (hres : ¬c.Restarts now m)
    (hkey : ∀ key pressed, c ≠ .setKey key pressed) : ¬c.Moves now m := by
  rintro (h | h | ⟨key, pressed, h, -⟩)
  · exact h hexec
  · exact hres h
  · exact hkey key pressed h

theorem marks_restart (h : c.Restarts now m) : Marks now m c :=
  .forgets (.inr (.inl h)) (fresh_of_restarts h).passed

theorem marks_of_action {c : Call} {a : Action} {random : UInt8} (hc : c.action m = a)
    (hafter : m.after now c = (m.tick now).act random a) (hres : ¬c.Restarts now m)
    (hkey : ∀ key pressed, c ≠ .setKey key pressed)
    (hstop : a = .stop → ∃ random, c = .cycle random) : Marks now m c := by
  cases a with
  | idle | leave =>
    have hmoves : ¬c.Moves now m := not_moves (by rw [hc]; rfl) hres hkey
    refine .stays hmoves ?_ ?_ ?_ <;> rw [hafter] <;> rfl
  | stop =>
    obtain ⟨random, rfl⟩ := hstop rfl
    refine .stops random rfl hc ?_ ?_ <;> rw [hafter] <;> rfl
  | execute ins =>
    refine .forgets (.inl ?_) ?_
    · rw [hc]
      exact List.cons_ne_nil _ _
    · rw [hafter]
      rfl

theorem marks_setKey (key : UInt8) (pressed : Bool) : Marks now m (.setKey key pressed) := by
  have hafter : m.after now (.setKey key pressed) = m.setKey key pressed := rfl
  cases hp : m.cpu.keypad.press? key pressed with
  | none =>
    have hset := hafter.trans (setKey_of_press?_none hp)
    have hmoves : ¬(Call.setKey key pressed).Moves now m := by
      rintro (h | h | ⟨key', pressed', hc, hsome⟩)
      · exact h rfl
      · simp [Call.Restarts, Call.isLoad] at h
      · cases hc
        rw [hp] at hsome
        cases hsome
    refine .stays hmoves ?_ ?_ ?_
    · rw [hset]
    · rw [hset]
    · rw [hset]
      exact Keypad.waiting_setKey_of_press?_none hp
  | some p =>
    have hset : m.after now (.setKey key pressed) =
        { m with
          cpu := ({ m.cpu with keypad := m.cpu.keypad.setKey key pressed }.setReg
            p.register (UInt8.ofNat p.key.val)).advance
          paused := false } := by
      rw [hafter, setKey, hp]
    have hcompletes : (Call.setKey key pressed).Completes m :=
      ⟨key, pressed, rfl, by rw [hp]; rfl⟩
    refine .completes (.inr (.inr hcompletes)) ?_ ?_ ?_ ?_
    · rw [(Keypad.of_press?_eq_some hp).2]
      exact Option.some_ne_none _
    · rw [hset]
    · rw [hset]
      rfl
    · rw [hset]
      exact if_pos (Keypad.of_press?_eq_some hp).1

theorem marks_after (now : Nat) (m : Machine) (c : Call) : Marks now m c := by
  by_cases hres : c.Restarts now m
  · exact marks_restart hres
  · cases c with
    | reset => exact absurd (.inl rfl) hres
    | cycle random => exact marks_of_action rfl rfl hres (by simp) fun _ => ⟨random, rfl⟩
    | step random =>
      refine marks_of_action (a := m.stepAction) rfl rfl hres (by simp) ?_
      intro hstop
      unfold stepAction at hstop
      split at hstop <;> cases hstop
    | setKey key pressed => exact marks_setKey key pressed
    | load | loadProgram | loadFile =>
      have hsame := after_of_failed_load rfl hres
      have hmoves := not_moves rfl hres (by simp)
      refine .stays hmoves ?_ ?_ ?_ <;> rw [hsame]
    | _ => exact .stays (not_moves rfl hres (by simp)) rfl rfl rfl

/-- Away from the address of the last stop no key is waited for. -/
def KeepsMark (m : Machine) : Prop :=
  ∀ p, m.passed = some p → m.cpu.pc = p ∨ m.cpu.keypad.waiting = none

theorem KeepsMark.after (h : m.KeepsMark) (now : Nat) (c : Call) : (m.after now c).KeepsMark := by
  intro p hp
  cases marks_after now m c with
  | forgets _ hpassed =>
    rw [hpassed] at hp
    cases hp
  | stops random _ _ hpassed hpc =>
    rw [hpassed] at hp
    left
    rw [hpc]
    exact Option.some.inj hp
  | completes _ _ _ _ hwaiting => exact .inr hwaiting
  | stays _ hpassed hpc hwaiting =>
    rw [hpassed] at hp
    rw [hpc, hwaiting]
    exact h p hp

theorem Reachable.keepsMark (h : m.Reachable) : m.KeepsMark := by
  induction h with
  | start now settings =>
    intro p hp
    cases hp
  | after _ now c ih => exact ih.after now c

theorem Marks.passed_ne_of_moves (h : Marks now m c) (hm : m.KeepsMark) (hc : c.Moves now m) :
    (m.after now c).passed ≠ some (m.after now c).cpu.pc := by
  cases h with
  | forgets _ hpassed =>
    rw [hpassed]
    exact (Option.some_ne_none _).symm
  | stops random hcycle hstop =>
    subst hcycle
    have hexec : ((Call.cycle random).action m).executed = [] := congrArg Action.executed hstop
    exact absurd hc (not_moves hexec (by simp [Call.Restarts, Call.isLoad]) (by simp))
  | completes _ hbefore hpassed hpc =>
    rw [hpassed, hpc]
    intro hp
    -- a key is waited for only at the marked address, and the press leaves it
    rcases hm _ hp with hsame | hnone
    · exact Word.add_two_ne _ hsame.symm
    · exact hbefore hnone
  | stays hmoves => exact absurd hc hmoves

theorem Marks.passed_ne (h : Marks now m c) (hm : m.KeepsMark) (hs : c.action m ≠ .stop)
    (hp : m.passed ≠ some m.cpu.pc) :
    (m.after now c).passed ≠ some (m.after now c).cpu.pc := by
  by_cases hc : c.Moves now m
  · exact h.passed_ne_of_moves hm hc
  · cases h with
    | forgets hmoves => exact absurd hmoves hc
    | stops random hcycle hstop =>
      subst hcycle
      exact absurd hstop hs
    | completes hmoves => exact absurd hmoves hc
    | stays _ hpassed hpc =>
      rw [hpassed, hpc]
      exact hp

theorem passed_ne_of_throughout {history : List (Nat × Call)} (hm : m.Reachable)
    (hs : m.Throughout (fun _ m c => c.action m ≠ .stop) history)
    (hp : m.passed ≠ some m.cpu.pc) :
    (m.afterAll history).passed ≠ some (m.afterAll history).cpu.pc := by
  induction history generalizing m with
  | nil => exact hp
  | cons e history ih =>
    have hhead := (marks_after e.1 m e.2).passed_ne hm.keepsMark hs.1 hp
    exact ih (hm.after e.1 e.2) hs.2 hhead

/-- A cycle of the history stopped where the machine is now, and nothing moved it since. -/
def StoppedHere (m : Machine) (history : List (Nat × Call)) : Prop :=
  ∃ before t random between, history = before ++ (t, .cycle random) :: between ∧
    (m.afterAll before).cycleAction = .stop ∧
    (m.afterAll before).cpu.pc = (m.afterAll history).cpu.pc ∧
    ((m.afterAll before).after t (.cycle random)).Throughout (fun now m c => ¬c.Moves now m) between

/-- A call of the history moved the machine, and no cycle stopped since. -/
def CameHere (m : Machine) (history : List (Nat × Call)) : Prop :=
  ∃ before t c between, history = before ++ (t, c) :: between ∧
    c.Moves t (m.afterAll before) ∧
    ((m.afterAll before).after t c).Throughout (fun _ m c => c.action m ≠ .stop) between

theorem passed_ne_of_cameHere {history : List (Nat × Call)} (hm : m.Reachable)
    (h : m.CameHere history) :
    (m.afterAll history).passed ≠ some (m.afterAll history).cpu.pc := by
  obtain ⟨before, t, c, between, rfl, hmoves, hbetween⟩ := h
  have hbefore := hm.afterAll before
  have hcame := (marks_after t _ c).passed_ne_of_moves hbefore.keepsMark hmoves
  have hsplit : m.afterAll (before ++ (t, c) :: between) =
      ((m.afterAll before).after t c).afterAll between := afterAll_append m before _
  rw [hsplit]
  exact passed_ne_of_throughout (hbefore.after t c) hbetween hcame

/-- The mark was left by a stop; if the machine is still there, it has not moved since. -/
def Traced (m : Machine) (history : List (Nat × Call)) : Prop :=
  ∀ p, (m.afterAll history).passed = some p →
    ∃ before t random between, history = before ++ (t, .cycle random) :: between ∧
      (m.afterAll before).cycleAction = .stop ∧ (m.afterAll before).cpu.pc = p ∧
      ((m.afterAll history).cpu.pc = p →
        ((m.afterAll before).after t (.cycle random)).Throughout
          (fun now m c => ¬c.Moves now m) between)

theorem Traced.append {history : List (Nat × Call)} (hm : m.Reachable) (h : m.Traced history)
    (t : Nat) (c : Call) : m.Traced (history ++ [(t, c)]) := by
  intro p hp
  have hafter : m.afterAll (history ++ [(t, c)]) = (m.afterAll history).after t c :=
    afterAll_append m history [(t, c)]
  rw [hafter] at hp ⊢
  cases marks_after t (m.afterAll history) c with
  | forgets _ hpassed =>
    rw [hpassed] at hp
    cases hp
  | stops random hc hstop hpassed hpc =>
    subst hc
    rw [hpassed] at hp
    exact ⟨history, t, random, [], rfl, hstop, Option.some.inj hp, fun _ => trivial⟩
  | completes _ hbefore hpassed hpc =>
    rw [hpassed] at hp
    obtain ⟨before, t', random, between, rfl, hstop, hat, -⟩ := h p hp
    refine ⟨before, t', random, between ++ [(t, c)], by simp, hstop, hat, ?_⟩
    -- the wait was at the address of the stop, which the press has left
    intro hback
    have hsame := ((hm.afterAll _).keepsMark p hp).resolve_right hbefore
    rw [hpc, hsame] at hback
    exact absurd hback (Word.add_two_ne p)
  | stays hmoves hpassed hpc =>
    rw [hpassed] at hp
    obtain ⟨before, t', random, between, rfl, hstop, hat, hstays⟩ := h p hp
    refine ⟨before, t', random, between ++ [(t, c)], by simp, hstop, hat, ?_⟩
    intro hback
    rw [hpc] at hback
    refine throughout_append.mpr ⟨hstays hback, ?_, trivial⟩
    rwa [afterAll_append] at hmoves

theorem traced (hm : m.Reachable) (hnone : m.passed = none) (history : List (Nat × Call)) :
    m.Traced history := by
  induction history using List.reverseRecOn with
  | nil =>
    intro p hp
    exact absurd (hnone.symm.trans hp) (Option.some_ne_none p).symm
  | append_singleton history e ih => exact ih.append hm e.1 e.2

theorem passed_of_execute {ins : Instruction} (h : m.cycleAction = .execute ins)
    (hb : indexOf m.cpu.pc ∈ m.breakpoints) : m.passed = some m.cpu.pc := by
  obtain ⟨-, -, hbreak, -⟩ := cycleAction_eq_execute_iff.mp h
  exact Decidable.not_not.mp fun hne => hbreak ⟨hb, hne⟩

/-- Behind any history a cycle executes an instruction with a breakpoint only if it has stopped
there since the machine came there; a cycle that stops changes nothing of the program. -/
theorem breakpoints_never_skipped (origin : Nat) (settings : Settings)
    (history : List (Nat × Call)) :
    (∀ ins, ((start origin settings).afterAll history).cycleAction = .execute ins →
      indexOf ((start origin settings).afterAll history).cpu.pc ∈
        ((start origin settings).afterAll history).breakpoints →
      (start origin settings).StoppedHere history) ∧
    ((start origin settings).CameHere history →
      ((start origin settings).afterAll history).paused = false →
      ((start origin settings).afterAll history).InRom →
      indexOf ((start origin settings).afterAll history).cpu.pc ∈
        ((start origin settings).afterAll history).breakpoints →
      ((start origin settings).afterAll history).cycleAction = .stop) ∧
    (((start origin settings).afterAll history).cycleAction = .stop → ∀ now random,
      ((start origin settings).afterAll history).cycle now random =
        { (start origin settings).afterAll history with
          cpu := { ((start origin settings).afterAll history).cpu with
            timers := ((start origin settings).afterAll history).cpu.timers.tick now }
          paused := true
          passed := some ((start origin settings).afterAll history).cpu.pc }) := by
  have hm : (start origin settings).Reachable := .start origin settings
  refine ⟨?_, ?_, ?_⟩
  · intro ins hexec hb
    obtain ⟨before, t, random, between, hsplit, hstop, hat, hstays⟩ :=
      traced hm rfl history _ (passed_of_execute hexec hb)
    exact ⟨before, t, random, between, hsplit, hstop, hat, hstays rfl⟩
  · intro hcame hp hrom hb
    exact cycleAction_eq_stop_iff.mpr ⟨hp, hrom, hb, passed_ne_of_cameHere hm hcame⟩
  · intro hstop now random
    rw [cycle, hstop]
    rfl

theorem cycleAction_resume_of_stop (random : UInt8) (h : m.cycleAction = .stop) :
    (m.cycle now random).resume.cycleAction = .execute m.fetch := by
  obtain ⟨-, hrom, -⟩ := cycleAction_eq_stop_iff.mp h
  have hgo : ¬(m.cycle now random).resume.AtBreakpoint := not_atBreakpoint_resume random h
  rw [resume_cycle_of_stop random h] at hgo ⊢
  exact cycleAction_eq_execute_iff.mpr ⟨rfl, hrom, hgo, rfl⟩

def selfJump : Machine :=
  ((start 0 {}).after 0 (.load (Word.bytes 0x1200))).after 0 (.addBreakpoint 0)

theorem selfJump_stop : selfJump.cycleAction = .stop := by
  refine cycleAction_eq_stop_iff.mpr
    ⟨rfl, ?_, List.mem_cons_self, (Option.some_ne_none _).symm⟩
  change Memory.romStart ≤ Cpu.origin.toNat ∧ Cpu.origin.toNat < 0x202
  decide

theorem selfJump_fetch : selfJump.fetch = ⟨.jump, 0x1200⟩ :=
  congrArg Instruction.ofWord (Memory.word_ofRom_bytes 0x1200)

def jumpHistory : List (Nat × Call) :=
  [(0, .load (Word.bytes 0x1200)), (0, .addBreakpoint 0), (0, .cycle 0), (1, .resume)]

theorem afterAll_jumpHistory :
    (start 0 {}).afterAll jumpHistory = (selfJump.cycle 0 0).resume := rfl

theorem jumpHistory_execute :
    ((start 0 {}).afterAll jumpHistory).cycleAction = .execute ⟨.jump, 0x1200⟩ := by
  rw [afterAll_jumpHistory, cycleAction_resume_of_stop 0 selfJump_stop, selfJump_fetch]

theorem jumpHistory_jump : (start 0 {}).afterAll (jumpHistory ++ [(2, .cycle 0)]) =
    { selfJump with
      cpu := { (selfJump.cpu.tick 0).tick 2 with pc := Word.nnn 0x1200 }
      paused := false
      passed := none } := by
  have hcycle : (start 0 {}).afterAll (jumpHistory ++ [(2, .cycle 0)]) =
      (((start 0 {}).afterAll jumpHistory).tick 2).act 0
        ((start 0 {}).afterAll jumpHistory).cycleAction := rfl
  rw [hcycle, jumpHistory_execute, afterAll_jumpHistory, resume_cycle_of_stop 0 selfJump_stop]
  rfl

theorem self_jump_stops_again :
    (start 0 {}).StoppedHere jumpHistory ∧
    ((start 0 {}).afterAll (jumpHistory ++ [(2, .cycle 0)])).cycleAction = .stop := by
  refine ⟨?_, ?_⟩
  · refine (breakpoints_never_skipped 0 {} jumpHistory).1 _ jumpHistory_execute ?_
    rw [afterAll_jumpHistory, resume_cycle_of_stop 0 selfJump_stop]
    exact List.mem_cons_self
  · have hmoves : (Call.cycle 0).Moves 2 ((start 0 {}).afterAll jumpHistory) := by
      left
      change ((start 0 {}).afterAll jumpHistory).cycleAction.executed ≠ []
      rw [jumpHistory_execute]
      exact List.cons_ne_nil _ _
    have hcame : (start 0 {}).CameHere (jumpHistory ++ [(2, .cycle 0)]) :=
      ⟨jumpHistory, 2, .cycle 0, [], rfl, hmoves, trivial⟩
    refine (breakpoints_never_skipped 0 {} _).2.1 hcame ?_ ?_ ?_
    · rw [jumpHistory_jump]
    · rw [jumpHistory_jump]
      change Memory.romStart ≤ (Word.nnn 0x1200).toNat ∧ (Word.nnn 0x1200).toNat < 0x202
      decide
    · rw [jumpHistory_jump]
      exact List.mem_cons_self

end Machine
end Chip8
