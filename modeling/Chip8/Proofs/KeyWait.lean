import Chip8.Proofs.Encoding
import Chip8.Proofs.Execution
import Chip8.Proofs.History

/-! The wait for a key. A pending wait belongs to the key instruction at the program counter, which
stays there until the wait ends, so executing it again changes nothing. The press that ends the wait
moves the machine on by one instruction, and later presses find no wait. -/

namespace Chip8

def Word.waitKey (r : Fin 16) : Word := (0xF00A : Word) ||| UInt16.ofNat r.val <<< 8

namespace Opcode

theorem digits_waitKey (r : Fin 16) : (Word.waitKey r).family.val = 15 ∧ (Word.waitKey r).x = r ∧
    (Word.waitKey r).y.val = 0 ∧ (Word.waitKey r).n.val = 10 := by
  revert r
  decide

theorem decode_waitKey (r : Fin 16) : decode (Word.waitKey r) = .waitKey := by
  revert r
  decide

theorem eq_of_decode_waitKey {w : Word} (h : decode w = .waitKey) : w = Word.waitKey w.x := by
  have hs : Opcode.waitKey.Selects w := h ▸ selects_decode (by rw [h]; decide)
  obtain ⟨hf, hx, hy, hn⟩ := digits_waitKey w.x
  have hfam : w.family.val = 15 := hs.family
  have h5 : w.family.val ≠ 5 := by omega
  have h9 : w.family.val ≠ 9 := by omega
  apply Word.ext_digits
  · rw [hf, hfam]
  · rw [hx]
  · rw [hy]
    exact hs.y.resolve_left (by decide)
  · rw [hn]
    exact (hs.n.resolve_left (by decide)).resolve_right (not_or.mpr ⟨h5, h9⟩)

end Opcode

namespace Keypad
variable {Register : Type} {k : Keypad Register} {key : UInt8} {pressed : Bool}

theorem ofNat_keyOf (key : UInt8) : UInt8.ofNat (keyOf key).val = key &&& 0xF := by
  apply UInt8.toNat_inj.mp
  have hand : key.toNat &&& 15 = key.toNat % 16 := Nat.and_two_pow_sub_one_eq_mod key.toNat 4
  have hmod : key.toNat % 16 % 256 = key.toNat % 16 := by omega
  rw [UInt8.toNat_and, UInt8.toNat_ofNat']
  exact hmod.trans hand.symm

theorem press?_of_waiting_none (h : k.waiting = none) : k.press? key pressed = none := by
  unfold press?
  rw [h]
  split <;> rfl

theorem press?_of_rise (h : pressed ∧ k.down.get (keyOf key) = false) :
    k.press? key pressed = k.waiting.map fun r => ⟨r, keyOf key⟩ := if_pos h

theorem press?_of_held (h : ¬(pressed ∧ k.down.get (keyOf key) = false)) :
    k.press? key pressed = none := if_neg h

theorem of_press?_eq_some {p : KeyPress Register} (h : k.press? key pressed = some p) :
    (pressed ∧ k.down.get (keyOf key) = false) ∧ k.waiting = some p.register := by
  by_cases hrise : pressed ∧ k.down.get (keyOf key) = false
  · rw [press?_of_rise hrise] at h
    obtain ⟨r, hr, rfl⟩ := Option.map_eq_some_iff.mp h
    exact ⟨hrise, hr⟩
  · rw [press?_of_held hrise] at h
    cases h

theorem down_setKey (k : Keypad Register) (key : UInt8) (pressed : Bool) (j : Fin 16) :
    (k.setKey key pressed).down.get j = if j = keyOf key then pressed else k.down.get j := by
  change (k.down.set (keyOf key) pressed)[j.val] = if j = keyOf key then pressed else k.down[j.val]
  rw [Vector.getElem_set]
  simp only [Fin.ext_iff, eq_comm]

theorem waiting_setKey_of_held (h : ¬(pressed ∧ k.down.get (keyOf key) = false)) :
    (k.setKey key pressed).waiting = k.waiting := if_neg h

theorem waiting_setKey_of_press?_none (h : k.press? key pressed = none) :
    (k.setKey key pressed).waiting = k.waiting := by
  by_cases hrise : pressed ∧ k.down.get (keyOf key) = false
  · rw [press?_of_rise hrise, Option.map_eq_none_iff] at h
    rw [h]
    exact if_pos hrise
  · exact waiting_setKey_of_held hrise

end Keypad

theorem Memory.word_ofRom_bytes (w : Word) : (ofRom w.bytes).word Cpu.origin = w := by
  have h0 : Cpu.origin.toNat - romStart = 0 := by decide
  have h1 : (Cpu.origin + 1).toNat - romStart = 1 := by decide
  rw [word, read_ofRom w.bytes (by decide) (by decide), read_ofRom w.bytes (by decide) (by decide),
    h0, h1]
  exact w.ofBytes_high_low

namespace Machine
variable {m : Machine} {now : Nat} {random : UInt8} {a : Action}

theorem setKey_of_press?_none {key : UInt8} {pressed : Bool}
    (h : m.cpu.keypad.press? key pressed = none) : m.setKey key pressed =
      { m with cpu := { m.cpu with keypad := m.cpu.keypad.setKey key pressed } } := by
  rw [setKey, h]

theorem keypad_setKey (m : Machine) (key : UInt8) (pressed : Bool) :
    (m.setKey key pressed).cpu.keypad = m.cpu.keypad.setKey key pressed := by
  unfold setKey
  cases m.cpu.keypad.press? key pressed <;> rfl

theorem romEnd_setKey (m : Machine) (key : UInt8) (pressed : Bool) :
    (m.setKey key pressed).romEnd = m.romEnd := by
  unfold setKey
  cases m.cpu.keypad.press? key pressed <;> rfl

theorem opcode_of_fetch {r : Fin 16} (h : m.cpu.fetch = Word.waitKey r) :
    m.fetch.opcode = .waitKey := (congrArg Opcode.decode h).trans (Opcode.decode_waitKey r)

theorem x_of_fetch {r : Fin 16} (h : m.cpu.fetch = Word.waitKey r) : m.cpu.fetch.x = r :=
  (congrArg Word.x h).trans (Opcode.digits_waitKey r).2.1

/-- A pending wait is that of the key instruction at the program counter. -/
structure WaitsAtKey (m : Machine) : Prop where
  romEnd_le : m.romEnd ≤ Memory.size
  at_key : ∀ r, m.cpu.keypad.waiting = some r →
    m.InRom ∧ m.cpu.fetch = Word.waitKey r

theorem Fresh.waitsAtKey (h : m.Fresh) : m.WaitsAtKey := by
  refine ⟨h.romEnd_le, ?_⟩
  intro r hr
  rw [h.keypad] at hr
  cases hr

theorem keypad_act (h : ∀ ins ∈ a.executed, ins.opcode ≠ .waitKey) :
    (m.act random a).cpu.keypad = m.cpu.keypad := by
  cases a with
  | execute ins => exact Cpu.keypad_execute random m.cpu (h ins List.mem_cons_self)
  | _ => rfl

theorem act_waitKey (h : m.fetch.opcode = .waitKey) : m.act random (.execute m.fetch) =
    { m with
      cpu := { m.cpu with keypad := m.cpu.keypad.await m.cpu.fetch.x }
      paused := true
      passed := none } := by
  have hins : m.fetch = ⟨.waitKey, m.cpu.fetch⟩ := by
    rw [← h]
    rfl
  rw [hins, act, Cpu.execute_waitKey]
  exact congrArg (Machine.mk _ · _ _ _ _ _ _) (Bool.or_true _)

theorem WaitsAtKey.act (h : m.WaitsAtKey)
    (ha : ∀ ins, a = .execute ins → m.InRom ∧ ins = m.fetch) :
    (m.act random a).WaitsAtKey := by
  cases a with
  | execute ins =>
    obtain ⟨hrom, rfl⟩ := ha ins rfl
    by_cases hk : m.fetch.opcode = .waitKey
    -- the key instruction stays at the program counter, so the new wait is at its instruction
    · rw [act_waitKey hk]
      refine ⟨h.romEnd_le, ?_⟩
      intro r hr
      obtain rfl := Option.some.inj hr
      exact ⟨hrom, Opcode.eq_of_decode_waitKey hk⟩
    · refine ⟨h.romEnd_le, ?_⟩
      intro r hr
      have hpad : (m.act random (.execute m.fetch)).cpu.keypad = m.cpu.keypad :=
        Cpu.keypad_execute random m.cpu hk
      rw [hpad] at hr
      -- an old wait would be at this instruction, which is no key instruction
      exact absurd (opcode_of_fetch (h.at_key r hr).2) hk
  | _ => exact ⟨h.romEnd_le, h.at_key⟩

theorem WaitsAtKey.setKey (h : m.WaitsAtKey) (key : UInt8) (pressed : Bool) :
    (m.setKey key pressed).WaitsAtKey := by
  by_cases hp : pressed ∧ m.cpu.keypad.down.get (Keypad.keyOf key) = false
  · refine ⟨?_, ?_⟩
    · rw [romEnd_setKey]
      exact h.romEnd_le
    · intro r hr
      have hnone : (m.cpu.keypad.setKey key pressed).waiting = none := if_pos hp
      rw [keypad_setKey, hnone] at hr
      cases hr
  · rw [setKey_of_press?_none (Keypad.press?_of_held hp)]
    refine ⟨h.romEnd_le, ?_⟩
    intro r hr
    exact h.at_key r ((Keypad.waiting_setKey_of_held hp).symm.trans hr)

theorem WaitsAtKey.after (h : m.WaitsAtKey) (now : Nat) (c : Call) :
    (m.after now c).WaitsAtKey := by
  by_cases hres : c.Restarts now m
  · exact (fresh_of_restarts hres).waitsAtKey
  · have ht : (m.tick now).WaitsAtKey := ⟨h.romEnd_le, h.at_key⟩
    cases c with
    | reset => exact absurd (.inl rfl) hres
    | load | loadProgram | loadFile =>
      rw [after_of_failed_load rfl hres]
      exact h
    | cycle random => exact ht.act fun ins hins => cycleAction_execute hins
    | step random => exact ht.act fun ins hins => stepAction_execute hins
    | setKey key pressed => exact h.setKey key pressed
    | _ => exact ⟨h.romEnd_le, h.at_key⟩

theorem Reachable.waitsAtKey (h : m.Reachable) : m.WaitsAtKey := by
  induction h with
  | start now settings => exact (fresh_start now settings).waitsAtKey
  | after _ now c ih => exact ih.after now c

structure Holds (m m' : Machine) : Prop where
  v : m'.cpu.v = m.cpu.v
  i : m'.cpu.i = m.cpu.i
  pc : m'.cpu.pc = m.cpu.pc
  stack : m'.cpu.stack = m.cpu.stack
  memory : m'.cpu.memory = m.cpu.memory
  waiting : m'.cpu.keypad.waiting = m.cpu.keypad.waiting

theorem Holds.refl (m : Machine) : m.Holds m := ⟨rfl, rfl, rfl, rfl, rfl, rfl⟩

theorem Holds.trans {m m' m'' : Machine} (h : m.Holds m') (h' : m'.Holds m'') : m.Holds m'' :=
  ⟨h'.v.trans h.v, h'.i.trans h.i, h'.pc.trans h.pc, h'.stack.trans h.stack,
    h'.memory.trans h.memory, h'.waiting.trans h.waiting⟩

theorem holds_of_cpu_tick {m' : Machine} (h : m'.cpu = (m.tick now).cpu) :
    m.Holds m' ∧ m'.cpu.screen.pixels = m.cpu.screen.pixels := by
  refine ⟨?_, ?_⟩
  · constructor <;> rw [h] <;> rfl
  · rw [h]
    rfl

theorem WaitsAtKey.cpu_act {r : Fin 16} (h : m.WaitsAtKey) (hr : m.cpu.keypad.waiting = some r)
    (ha : ∀ ins, a = .execute ins → ins = m.fetch) : (m.act random a).cpu = m.cpu := by
  cases a with
  | execute ins =>
    obtain rfl := ha ins rfl
    have hw := (h.at_key r hr).2
    have hpad : m.cpu.keypad.await m.cpu.fetch.x = m.cpu.keypad := by
      rw [x_of_fetch hw, Keypad.await, ← hr]
    rw [act_waitKey (opcode_of_fetch hw), hpad]
  | _ => rfl

def Quiet (m : Machine) : List (Nat × Call) → Prop
  | [] => True
  | e :: h => (¬e.2.Restarts e.1 m ∧ ¬e.2.Presses m) ∧ Quiet (m.after e.1 e.2) h

theorem WaitsAtKey.holds_after {r : Fin 16} {c : Call} (h : m.WaitsAtKey)
    (hr : m.cpu.keypad.waiting = some r) (hres : ¬c.Restarts now m) (hp : ¬c.Presses m) :
    m.Holds (m.after now c) ∧
      (¬c.isPalette → (m.after now c).cpu.screen.pixels = m.cpu.screen.pixels) := by
  have ht : (m.tick now).WaitsAtKey := ⟨h.romEnd_le, h.at_key⟩
  cases c with
  | reset => exact absurd (.inl rfl) hres
  | load | loadProgram | loadFile =>
    rw [after_of_failed_load rfl hres]
    exact ⟨.refl m, fun _ => rfl⟩
  | cycle random =>
    have hcpu : (m.cycle now random).cpu = (m.tick now).cpu :=
      ht.cpu_act hr fun ins hins => (cycleAction_execute hins).2
    obtain ⟨hholds, hpixels⟩ := holds_of_cpu_tick hcpu
    exact ⟨hholds, fun _ => hpixels⟩
  | step random =>
    have hcpu : (m.step now random).cpu = (m.tick now).cpu :=
      ht.cpu_act hr fun ins hins => (stepAction_execute hins).2
    obtain ⟨hholds, hpixels⟩ := holds_of_cpu_tick hcpu
    exact ⟨hholds, fun _ => hpixels⟩
  | setKey key pressed =>
    have hheld : ¬(pressed ∧ m.cpu.keypad.down.get (Keypad.keyOf key) = false) := by
      intro hpress
      obtain ⟨rfl, hdown⟩ := hpress
      exact hp ⟨key, rfl, hdown⟩
    change m.Holds (m.setKey key pressed) ∧ (_ → (m.setKey key pressed).cpu.screen.pixels = _)
    rw [setKey_of_press?_none (Keypad.press?_of_held hheld)]
    exact ⟨⟨rfl, rfl, rfl, rfl, rfl, Keypad.waiting_setKey_of_held hheld⟩, fun _ => rfl⟩
  | setForeground | setBackground =>
    refine ⟨⟨rfl, rfl, rfl, rfl, rfl, rfl⟩, ?_⟩
    intro hpal
    exact absurd rfl hpal
  | _ => exact ⟨⟨rfl, rfl, rfl, rfl, rfl, rfl⟩, fun _ => rfl⟩

theorem WaitsAtKey.holds_afterAll {r : Fin 16} {history : List (Nat × Call)} (h : m.WaitsAtKey)
    (hr : m.cpu.keypad.waiting = some r) (hq : m.Quiet history) :
    m.Holds (m.afterAll history) ∧ ((∀ e ∈ history, ¬e.2.isPalette) →
      (m.afterAll history).cpu.screen.pixels = m.cpu.screen.pixels) := by
  induction history generalizing m with
  | nil => exact ⟨.refl m, fun _ => rfl⟩
  | cons e history ih =>
    obtain ⟨⟨hres, hp⟩, hq⟩ := hq
    obtain ⟨hholds, hpixels⟩ := h.holds_after hr hres hp
    obtain ⟨hrest, hpixels'⟩ := ih (h.after e.1 e.2) (hholds.waiting.trans hr) hq
    refine ⟨hholds.trans hrest, ?_⟩
    intro hpal
    have hlater := hpixels' fun e' he' => hpal e' (List.mem_cons_of_mem e he')
    exact hlater.trans (hpixels (hpal e List.mem_cons_self))

def keyed (r : Fin 16) (key : UInt8) (m : Machine) : Machine :=
  { m with
    cpu := { m.cpu.setReg r (key &&& 0xF) with
      pc := m.cpu.pc + 2
      keypad := { m.cpu.keypad.setKey key true with waiting := none } }
    paused := false }

theorem setKey_of_waiting {r : Fin 16} {key : UInt8} (hr : m.cpu.keypad.waiting = some r)
    (hdown : m.cpu.keypad.down.get (Keypad.keyOf key) = false) :
    m.setKey key true = m.keyed r key := by
  have hrise : true = true ∧ m.cpu.keypad.down.get (Keypad.keyOf key) = false := ⟨rfl, hdown⟩
  have hpress : m.cpu.keypad.press? key true = some ⟨r, Keypad.keyOf key⟩ := by
    rw [Keypad.press?_of_rise hrise, hr]
    rfl
  have hwait : (m.cpu.keypad.setKey key true).waiting = none := if_pos hrise
  rw [setKey, hpress, keyed, ← hwait, ← Keypad.ofNat_keyOf]
  rfl

def IgnoresKeys (m : Machine) : Prop :=
  ∀ now key pressed,
    (m.after now (.setKey key pressed)).cpu.v = m.cpu.v ∧
    (m.after now (.setKey key pressed)).cpu.pc = m.cpu.pc ∧
    (m.after now (.setKey key pressed)).paused = m.paused

theorem ignoresKeys_of_waiting_none (h : m.cpu.keypad.waiting = none) : m.IgnoresKeys := by
  intro now key pressed
  have hset : m.after now (.setKey key pressed) =
      { m with cpu := { m.cpu with keypad := m.cpu.keypad.setKey key pressed } } :=
    setKey_of_press?_none (Keypad.press?_of_waiting_none h)
  rw [hset]
  exact ⟨rfl, rfl, rfl⟩

theorem waiting_after_eq_none (now : Nat) {c : Call} (h : m.cpu.keypad.waiting = none)
    (hx : ∀ ins ∈ (c.action m).executed, ins.opcode ≠ .waitKey) :
    (m.after now c).cpu.keypad.waiting = none := by
  by_cases hres : c.Restarts now m
  · rw [(fresh_of_restarts hres).keypad]
    rfl
  · cases c with
    | reset => exact absurd (.inl rfl) hres
    | load | loadProgram | loadFile =>
      rw [after_of_failed_load rfl hres]
      exact h
    | cycle random | step random =>
      exact (congrArg Keypad.waiting (keypad_act (m := m.tick now) hx)).trans h
    | setKey key pressed =>
      change (m.setKey key pressed).cpu.keypad.waiting = none
      rw [keypad_setKey, Keypad.setKey, h]
      exact ite_self none
    | _ => exact h

theorem waiting_afterAll_eq_none {history : List (Nat × Call)} (h : m.cpu.keypad.waiting = none)
    (hx : ∀ ins ∈ m.executed history, ins.opcode ≠ .waitKey) :
    (m.afterAll history).cpu.keypad.waiting = none := by
  induction history generalizing m with
  | nil => exact h
  | cons e history ih =>
    have hhead := waiting_after_eq_none e.1 h
      fun ins hins => hx ins (List.mem_append_left _ hins)
    exact ih hhead fun ins hins => hx ins (List.mem_append_right _ hins)

theorem WaitsAtKey.toNat_pc_add_two {r : Fin 16} (h : m.WaitsAtKey)
    (hr : m.cpu.keypad.waiting = some r) : (m.cpu.pc + 2).toNat = m.cpu.pc.toNat + 2 := by
  obtain ⟨⟨_, hlt⟩, _⟩ := h.at_key r hr
  have hle : m.romEnd ≤ 4096 := h.romEnd_le
  rw [UInt16.toNat_add]
  change (m.cpu.pc.toNat + 2) % 65536 = _
  omega

theorem cycle_waitKey {r : Fin 16} (hp : m.paused = false) (hrom : m.InRom)
    (hb : ¬m.AtBreakpoint) (hw : m.cpu.fetch = Word.waitKey r) : m.cycle now random =
      { m with
        cpu := { m.cpu.tick now with keypad := m.cpu.keypad.await r }
        paused := true
        passed := none } := by
  have hact : m.cycleAction = .execute (m.tick now).fetch := by
    rw [cycleAction, hp, if_neg Bool.false_ne_true, if_pos hrom, if_neg hb]
    rfl
  have htick : (m.tick now).cpu.fetch = Word.waitKey r := hw
  rw [cycle, hact, act_waitKey (opcode_of_fetch htick), x_of_fetch htick]
  rfl

/-- A pending wait sits at its instruction, all but a restart and a press leave it there, the
press that ends it completes the instruction, and no other key does anything of the kind until
the next wait. -/
theorem Reachable.key_wait {r : Fin 16} (hm : m.Reachable)
    (hr : m.cpu.keypad.waiting = some r) :
    (Memory.romStart ≤ m.cpu.pc.toNat ∧ m.cpu.pc.toNat < m.romEnd ∧
      m.cpu.memory.word m.cpu.pc = (0xF00A : Word) ||| UInt16.ofNat r.val <<< 8) ∧
    ∀ history, m.Quiet history →
      m.Holds (m.afterAll history) ∧
      ((∀ e ∈ history, ¬e.2.isPalette) →
        (m.afterAll history).cpu.screen.pixels = m.cpu.screen.pixels) ∧
      ∀ now key, (m.afterAll history).cpu.keypad.down.get (Keypad.keyOf key) = false →
        (m.afterAll history).after now (.setKey key true) = (m.afterAll history).keyed r key ∧
        (∀ j, ((m.afterAll history).keyed r key).cpu.keypad.down.get j =
          if j = Keypad.keyOf key then true else (m.afterAll history).cpu.keypad.down.get j) ∧
        ((m.afterAll history).keyed r key).cpu.pc.toNat = m.cpu.pc.toNat + 2 ∧
        ∀ later,
          (∀ ins ∈ ((m.afterAll history).keyed r key).executed later, ins.opcode ≠ .waitKey) →
          (((m.afterAll history).keyed r key).afterAll later).IgnoresKeys := by
  have hw := hm.waitsAtKey
  obtain ⟨⟨hge, hlt⟩, hword⟩ := hw.at_key r hr
  refine ⟨⟨hge, hlt, hword⟩, ?_⟩
  intro history hq
  obtain ⟨hholds, hpixels⟩ := hw.holds_afterAll hr hq
  refine ⟨hholds, hpixels, ?_⟩
  intro now key hdown
  have hkeyed := setKey_of_waiting (hholds.waiting.trans hr) hdown
  refine ⟨hkeyed, fun j => Keypad.down_setKey _ key true j, ?_, ?_⟩
  · have hpc : ((m.afterAll history).keyed r key).cpu.pc = m.cpu.pc + 2 :=
      congrArg (· + 2) hholds.pc
    rw [hpc]
    exact hw.toNat_pc_add_two hr
  · intro later hx
    exact ignoresKeys_of_waiting_none (waiting_afterAll_eq_none rfl hx)

def keyProgram (r : Fin 16) : Machine :=
  (start 0 {}).after 0 (.load (Word.waitKey r).bytes)

theorem keyProgram_cycle (r : Fin 16) : (keyProgram r).after 0 (.cycle 0) =
    { keyProgram r with
      cpu := { (keyProgram r).cpu.tick 0 with keypad := Keypad.released.await r }
      paused := true
      passed := none } := by
  refine cycle_waitKey rfl ?_ ?_ ?_
  · change Memory.romStart ≤ Cpu.origin.toNat ∧ Cpu.origin.toNat < 0x202
    decide
  · intro hb
    exact List.not_mem_nil hb.1
  · exact Memory.word_ofRom_bytes (Word.waitKey r)

theorem key_wait_of_register_three :
    ((keyProgram 3).after 0 (.cycle 0)).Reachable ∧
    ((keyProgram 3).after 0 (.cycle 0)).cpu.keypad.waiting = some 3 ∧
    ((keyProgram 3).after 0 (.cycle 0)).Holds
      (((keyProgram 3).after 0 (.cycle 0)).afterAll [(1, .resume), (2, .cycle 0)]) ∧
    (((keyProgram 3).after 0 (.cycle 0)).after 1 (.setKey 0x1B true)).cpu.v[3] = 0xB ∧
    (((keyProgram 3).after 0 (.cycle 0)).after 1 (.setKey 0x1B true)).cpu.pc.toNat = 0x202 := by
  have hm : ((keyProgram 3).after 0 (.cycle 0)).Reachable :=
    ((Reachable.start 0 {}).after 0 _).after 0 _
  have hr : ((keyProgram 3).after 0 (.cycle 0)).cpu.keypad.waiting = some 3 := by
    rw [keyProgram_cycle]
    rfl
  have hdown : ((keyProgram 3).after 0 (.cycle 0)).cpu.keypad.down.get (Keypad.keyOf 0x1B) = false := by
    rw [keyProgram_cycle]
    rfl
  have hpc : ((keyProgram 3).after 0 (.cycle 0)).cpu.pc = Cpu.origin := by
    rw [keyProgram_cycle]
    rfl
  generalize (keyProgram 3).after 0 (.cycle 0) = m at *
  obtain ⟨_, hquiet⟩ := hm.key_wait hr
  obtain ⟨_, _, hpress⟩ := hquiet [] trivial
  obtain ⟨hkeyed, _, hnext, _⟩ := hpress 1 0x1B hdown
  have hkeyed : m.after 1 (.setKey 0x1B true) = m.keyed 3 0x1B := hkeyed
  refine ⟨hm, hr, (hquiet _ ?_).1, ?_, ?_⟩
  · simp [Quiet, Call.Restarts, Call.Presses, Call.isLoad]
  · rw [hkeyed]
    exact Vector.getElem_set_self (by decide)
  · rw [hpc] at hnext
    rw [hkeyed]
    exact hnext.trans (by decide)

end Machine
end Chip8
