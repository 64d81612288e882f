import Chip8.Cpu.Execute

/-! What executing an instruction leaves alone. The keys that are down are never touched, and only
the wait for a key touches the pending wait; it changes nothing else. The stopwatch of the timers is
neither read nor changed. -/

namespace Chip8.Cpu

variable (random : UInt8) (s : Cpu)

theorem keypad_skipIf (c : Bool) : (s.skipIf c).1.keypad = s.keypad := by
  cases c <;> rfl

theorem execute_waitKey (w : Word) : s.execute random ⟨.waitKey, w⟩ =
    ({ s with keypad := s.keypad.await w.x }, .pause) := rfl

theorem keypad_execute {ins : Instruction} (h : ins.opcode ≠ .waitKey) :
    (s.execute random ins).1.keypad = s.keypad := by
  obtain ⟨op, w⟩ := ins
  cases op with
  | waitKey => exact absurd rfl h
  | ret =>
    unfold execute
    cases s.stack <;> rfl
  | skipEqByte | skipNeByte | skipEq | skipNe | skipDown | skipUp => exact keypad_skipIf s _
  | _ => rfl

def withStopwatch (w : Stopwatch) : Cpu := { s with timers := { s.timers with stopwatch := w } }

theorem skipIf_withStopwatch (c : Bool) (w : Stopwatch) : (s.withStopwatch w).skipIf c =
    ((s.skipIf c).1.withStopwatch w, (s.skipIf c).2) := by
  cases c <;> rfl

theorem execute_withStopwatch (ins : Instruction) (w : Stopwatch) :
    (s.withStopwatch w).execute random ins =
      ((s.execute random ins).1.withStopwatch w, (s.execute random ins).2) := by
  obtain ⟨op, word⟩ := ins
  cases op with
  | ret =>
    obtain ⟨v, i, pc, stack, memory, screen, keypad, timers⟩ := s
    cases stack <;> rfl
  | skipEqByte | skipNeByte | skipEq | skipNe | skipDown | skipUp =>
    exact skipIf_withStopwatch s _ w
  | _ => rfl

theorem stopwatch_execute (ins : Instruction) :
    (s.execute random ins).1.timers.stopwatch = s.timers.stopwatch := by
  have h := execute_withStopwatch random s ins s.timers.stopwatch
  exact (congrArg (fun r => r.1.timers.stopwatch) h).trans rfl

end Chip8.Cpu
