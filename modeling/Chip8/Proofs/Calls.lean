import Chip8.Proofs.Storage

/-! Calls and returns match like brackets. A call leaves its own address on the call stack, and only
the return that takes it off again gets below it, however long the called routine runs, whatever it
calls itself, and however often it is paused. -/

namespace Chip8

theorem Cpu.execute_ret {s : Cpu} {a : Word} {rest : List Word} (random : UInt8) (w : Word)
    (h : s.stack = a :: rest) : s.execute random ⟨.ret, w⟩ =
      ({ s with pc := a + 2, stack := rest }, .proceed) := by
  simp only [execute, h]
  rfl

namespace Machine
variable {m : Machine} {now : Nat} {c : Call} {ins : Instruction}

/-- The addresses of the calls that have not returned yet, the earliest first. -/
def callStack (m : Machine) : List Word := m.cpu.stack.reverse

inductive StackMove (now : Nat) (m : Machine) (c : Call) : Prop
  | keeps (hstack : (m.after now c).cpu.stack = m.cpu.stack)
  | pushes (hstack : (m.after now c).cpu.stack = m.cpu.pc :: m.cpu.stack)
  | pops (ins : Instruction) (hins : ins ∈ (c.action m).executed) (hop : ins.opcode = .ret)
      (a : Word) (hstack : m.cpu.stack = a :: (m.after now c).cpu.stack)
      (hpc : (m.after now c).cpu.pc = a + 2)

theorem stack_of_executed (hins : ins ∈ (c.action m).executed) (now : Nat) :
    (m.after now c).cpu.stack = m.cpu.stackBehind ins := by
  obtain ⟨random, hafter⟩ := after_of_executed hins now
  rw [hafter]
  exact Cpu.stack_execute random ins

theorem pc_of_executed_ret {w a : Word} {rest : List Word}
    (hins : ⟨.ret, w⟩ ∈ (c.action m).executed) (hs : m.cpu.stack = a :: rest) (now : Nat) :
    (m.after now c).cpu.pc = a + 2 := by
  obtain ⟨random, hafter⟩ := after_of_executed hins now
  have htick : (m.tick now).cpu.stack = a :: rest := hs
  rw [hafter, act, Cpu.execute_ret random w htick]

theorem stackMove_of_executed (hins : ins ∈ (c.action m).executed) : StackMove now m c := by
  have hstack := stack_of_executed hins now
  obtain ⟨op, w⟩ := ins
  cases op with
  | call => exact .pushes hstack
  | ret =>
    have htail : (m.after now c).cpu.stack = m.cpu.stack.tail := hstack
    cases hs : m.cpu.stack with
    | nil => exact .keeps (by rw [htail, hs, List.tail_nil])
    | cons a rest =>
      refine .pops _ hins rfl a ?_ (pc_of_executed_ret hins hs now)
      rw [htail, hs, List.tail_cons]
  | _ => exact .keeps hstack

theorem stackMove_after (h : ¬c.Restarts now m) : StackMove now m c := by
  obtain ⟨random, hafter⟩ | ⟨-, -, hstack⟩ := after_cases h
  · cases ha : c.action m with
    | execute ins => exact stackMove_of_executed (Action.mem_executed.mpr ha)
    | _ =>
      rw [ha] at hafter
      exact .keeps (by rw [hafter]; rfl)
  · exact .keeps hstack

theorem StackMove.suffix {base : List Word} (hmove : StackMove now m c)
    (hbase : base <:+ m.cpu.stack) (hlen : base.length ≤ (m.after now c).cpu.stack.length) :
    base <:+ (m.after now c).cpu.stack := by
  cases hmove with
  | keeps hstack => rwa [hstack]
  | pushes hstack =>
    rw [hstack]
    exact hbase.trans (List.suffix_cons _ _)
  | pops ins hins hop a hstack hpc =>
    rw [hstack, List.suffix_cons_iff] at hbase
    rcases hbase with rfl | hbase
    · simp at hlen
    · exact hbase

theorem StackMove.returns {p : Word} {rest : List Word} (hmove : StackMove now m c)
    (hbase : p :: rest <:+ m.cpu.stack) (hlen : (m.after now c).cpu.stack.length ≤ rest.length) :
    (∃ ins ∈ (c.action m).executed, ins.opcode = .ret) ∧
      (m.after now c).cpu.stack = rest ∧ (m.after now c).cpu.pc = p + 2 := by
  have hdeep : rest.length + 1 ≤ m.cpu.stack.length := hbase.length_le
  cases hmove with
  | keeps hstack =>
    rw [hstack] at hlen
    omega
  | pushes hstack =>
    rw [hstack, List.length_cons] at hlen
    omega
  | pops ins hins hop a hstack hpc =>
    have heq : p :: rest = a :: (m.after now c).cpu.stack := by
      rw [← hstack]
      refine hbase.eq_of_length_le ?_
      rw [hstack]
      exact Nat.succ_le_succ hlen
    obtain ⟨rfl, hrest⟩ := List.cons.inj heq
    exact ⟨⟨ins, hins, hop⟩, hrest.symm, hpc⟩

theorem suffix_afterAll {base : List Word} {history : List (Nat × Call)}
    (hkeep : m.Throughout (fun now m c => ¬c.Restarts now m) history)
    (hbase : base <:+ m.cpu.stack)
    (hdeep : ∀ before, before <+: history → base.length ≤ (m.afterAll before).cpu.stack.length) :
    base <:+ (m.afterAll history).cpu.stack := by
  induction history generalizing m with
  | nil => exact hbase
  | cons e history ih =>
    obtain ⟨hres, hkeep⟩ := hkeep
    have hlen := hdeep [e] ⟨history, rfl⟩
    have hnext := (stackMove_after hres).suffix hbase hlen
    refine ih hkeep hnext ?_
    intro before hbefore
    exact hdeep (e :: before) (List.cons_prefix_cons.mpr ⟨rfl, hbefore⟩)

/-- The call stack is longer than `depth` all along the history. -/
def StaysDeeper (depth : Nat) (m : Machine) (history : List (Nat × Call)) : Prop :=
  ∀ before, before <+: history → depth < (m.afterAll before).callStack.length

/-- The call executes a return to behind `p`, which leaves the call stack `stack`. -/
structure ReturnsTo (stack : List Word) (p : Word) (now : Nat) (m : Machine) (c : Call) :
    Prop where
  executed : ∃ ins ∈ (c.action m).executed, ins.opcode = .ret
  callStack : (m.after now c).callStack = stack
  pc : (m.after now c).cpu.pc.toNat = p.toNat + 2

theorem callStack_of_call (hins : ins ∈ (c.action m).executed) (hop : ins.opcode = .call)
    (now : Nat) : (m.after now c).callStack = m.callStack ++ [m.cpu.pc] := by
  rw [callStack, stack_of_executed hins, Cpu.stackBehind, hop]
  exact List.reverse_cons

theorem bracket_of_call (hins : ins ∈ (c.action m).executed) (hop : ins.opcode = .call)
    {history : List (Nat × Call)}
    (hkeep : (m.after now c).Throughout (fun now m c => ¬c.Restarts now m) history)
    (hdeeper : (m.after now c).StaysDeeper m.callStack.length history) :
    m.cpu.pc :: m.cpu.stack <:+ ((m.after now c).afterAll history).cpu.stack := by
  apply suffix_afterAll hkeep
  · simp only [stack_of_executed hins, Cpu.stackBehind, hop]
    exact List.suffix_refl _
  · intro before hbefore
    have hdeep := hdeeper before hbefore
    simp only [callStack, List.length_reverse] at hdeep
    exact hdeep

theorem execute_ret_of_empty (hins : ins ∈ (c.action m).executed) (hop : ins.opcode = .ret)
    (hempty : m.callStack = []) (now : Nat) :
    m.after now c = { m.tick now with paused := true, passed := none } := by
  have hstack : (m.tick now).cpu.stack = [] := List.reverse_eq_nil_iff.mp hempty
  obtain ⟨random, hafter⟩ := after_of_executed hins now
  rw [hafter, act, Cpu.execute_of_unknown random (m.tick now).cpu ins (.inr ⟨hop, hstack⟩)]
  simp

/-- A routine never gets below the call that it was entered by, and the return that leaves it goes
on behind that call with the call stack that was there before. A return without a call pauses. -/
theorem Reachable.calls_bracket (h : m.Reachable) :
    (∀ c, ∀ ins ∈ (c.action m).executed, ins.opcode = .call → ∀ now,
      (m.after now c).callStack = m.callStack ++ [m.cpu.pc] ∧
      ∀ history,
        (m.after now c).Throughout (fun now m c => ¬c.Restarts now m) history →
        (m.after now c).StaysDeeper m.callStack.length history →
          m.callStack ++ [m.cpu.pc] <+: ((m.after now c).afterAll history).callStack ∧
          ∀ now' c', ¬c'.Restarts now' ((m.after now c).afterAll history) →
            (((m.after now c).afterAll history).after now' c').callStack.length ≤
              m.callStack.length →
            ReturnsTo m.callStack m.cpu.pc now' ((m.after now c).afterAll history) c') ∧
    (∀ c, ∀ ins ∈ (c.action m).executed, ins.opcode = .ret → m.callStack = [] → ∀ now,
      m.after now c = { m.tick now with paused := true, passed := none }) ∧
    ∀ random (s : Cpu) (w : Word), s.stack = [] → s.execute random ⟨.ret, w⟩ = (s, .pause) := by
  refine ⟨?_, ?_, ?_⟩
  · intro c ins hins hop now
    refine ⟨callStack_of_call hins hop now, ?_⟩
    intro history hkeep hdeeper
    have hbase := bracket_of_call hins hop hkeep hdeeper
    constructor
    · simpa [callStack] using List.reverse_prefix.mpr hbase
    · intro now' c' hres hlen
      rw [callStack, callStack, List.length_reverse, List.length_reverse] at hlen
      obtain ⟨hexec, hstack, hpc⟩ := (stackMove_after hres).returns hbase hlen
      refine ⟨hexec, ?_, ?_⟩
      · rw [callStack, hstack]
        rfl
      · have hlt := (inRom_of_executed hins).1.2
        have hend := h.confined.romEnd_le
        rw [hpc]
        exact Word.toNat_add_two (by omega)
  · intro c ins hins hop hempty now
    exact execute_ret_of_empty hins hop hempty now
  · intro random s w hempty
    exact Cpu.execute_of_unknown random s ⟨.ret, w⟩ (.inr ⟨rfl, hempty⟩)

def callAndReturn : Machine := (start 0 {}).after 0 (.loadProgram [0x2202, 0x00EE])

theorem callAndReturn_word : callAndReturn.cpu.memory.word 0x200 = 0x2202 ∧
    callAndReturn.cpu.memory.word 0x202 = 0x00EE := by
  have hmemory : callAndReturn.cpu.memory = .ofRom (Word.join [0x2202, 0x00EE]) := rfl
  rw [hmemory]
  exact ⟨Memory.word_ofRom_join 0 rfl (by decide) (by decide),
    Memory.word_ofRom_join 1 rfl (by decide) (by decide)⟩

theorem callAndReturn_called : callAndReturn.after 0 (.cycle 0) =
    { callAndReturn with
      cpu := { callAndReturn.cpu.tick 0 with pc := 0x202, stack := [0x200] }
      passed := none } := by
  refine cycle_of_word rfl rfl ?_ callAndReturn_word.1 rfl
  change Memory.romStart ≤ Cpu.origin.toNat ∧ Cpu.origin.toNat < 0x204
  decide

theorem callAndReturn_returned : (callAndReturn.after 0 (.cycle 0)).after 0 (.cycle 0) =
    { callAndReturn with
      cpu := { (callAndReturn.cpu.tick 0).tick 0 with pc := 0x202, stack := [] }
      passed := none } := by
  rw [callAndReturn_called]
  refine cycle_of_word rfl rfl ?_ callAndReturn_word.2 rfl
  change Memory.romStart ≤ 0x202 ∧ 0x202 < 0x204
  decide

theorem call_and_return_brackets :
    let called := callAndReturn.after 0 (.cycle 0)
    let returned := called.after 0 (.cycle 0)
    callAndReturn.Reachable ∧ called.callStack = [0x200] ∧
      ReturnsTo [] 0x200 0 called (.cycle 0) ∧
      returned.after 0 (.cycle 0) =
        { returned.tick 0 with paused := true, passed := none } := by
  intro called returned
  have hm : callAndReturn.Reachable := (Reachable.start 0 {}).after 0 _
  have hcalled : called.callStack = [0x200] := by
    simp only [called, callAndReturn_called, callStack]
    rfl
  have hreturned : returned.callStack = [] := by
    simp only [returned, called, callAndReturn_returned, callStack]
    rfl
  have hcall : .ofWord 0x2202 ∈ (Call.action callAndReturn (.cycle 0)).executed := by
    refine executed_cycle 0 rfl rfl ?_ callAndReturn_word.1
    change Memory.romStart ≤ Cpu.origin.toNat ∧ Cpu.origin.toNat < 0x204
    decide
  have hret : .ofWord 0x00EE ∈ (Call.action returned (.cycle 0)).executed := by
    simp only [returned, called, callAndReturn_returned]
    refine executed_cycle 0 rfl rfl ?_ callAndReturn_word.2
    change Memory.romStart ≤ 0x202 ∧ 0x202 < 0x204
    decide
  refine ⟨hm, hcalled, ?_, ?_⟩
  · have hdeeper : called.StaysDeeper callAndReturn.callStack.length [] := by
      intro before hbefore
      obtain rfl := List.prefix_nil.mp hbefore
      change 0 < called.callStack.length
      simp [hcalled]
    obtain ⟨-, hreturn⟩ := (hm.calls_bracket.1 _ _ hcall rfl 0).2 [] trivial hdeeper
    refine hreturn 0 (.cycle 0) ?_ ?_
    · simp [Call.Restarts, Call.isLoad]
    · change returned.callStack.length ≤ 0
      simp [hreturned]
  · have hm' : returned.Reachable := (hm.after 0 (.cycle 0)).after 0 (.cycle 0)
    exact hm'.calls_bracket.2.1 _ _ hret rfl hreturned 0

end Machine
end Chip8
