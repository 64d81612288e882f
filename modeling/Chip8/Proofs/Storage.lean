import Chip8.Proofs.Effects

/-! What happens to the memory. The font lies at the bottom of it in every machine and nothing can
change it. Any other byte keeps its value until one of the two storing instructions stores there, so
a glyph that an instruction has looked up is always that of its digit. -/

namespace Chip8

def Font.glyph (digit : Nat) : List UInt8 := (bytes.toList.drop (glyphSize * digit)).take glyphSize

namespace Memory
variable {m : Memory} {c : Fin 4096}

def HasFont (m : Memory) : Prop :=
  ∀ (c : Fin 4096) (h : c.val < Font.size), m.get c = Font.bytes[c.val]

def store (m : Memory) (ws : List (Word × UInt8)) : Memory :=
  ws.foldl (fun m w => m.write w.1 w.2) m

theorem get_write_of_ne {address : Word} (h : cell address ≠ c) (value : UInt8) :
    (m.write address value).get c = m.get c := by
  rw [get_write, if_neg]
  intro hw
  exact h hw.2.symm

theorem get_write_of_not_writable (h : ¬Writable c) (address : Word) (value : UInt8) :
    (m.write address value).get c = m.get c := by
  rw [get_write, if_neg]
  intro hw
  exact h hw.1

theorem get_store_of_not_mem {ws : List (Word × UInt8)} (h : c ∉ ws.map fun w => cell w.1) :
    (m.store ws).get c = m.get c := by
  induction ws generalizing m with
  | nil => rfl
  | cons w ws ih =>
    have hw : cell w.1 ≠ c := fun heq => h (heq ▸ List.mem_cons_self)
    have hrest : c ∉ ws.map fun w => cell w.1 := fun hmem => h (List.mem_cons_of_mem _ hmem)
    exact (ih hrest).trans (get_write_of_ne hw w.2)

theorem get_store_of_not_writable (h : ¬Writable c) (ws : List (Word × UInt8)) :
    (m.store ws).get c = m.get c := by
  induction ws generalizing m with
  | nil => rfl
  | cons w ws ih => exact ih.trans (get_write_of_not_writable h w.1 w.2)

theorem store_of_not_writable {ws : List (Word × UInt8)} (h : ∀ w ∈ ws, ¬Writable (cell w.1))
    (m : Memory) : m.store ws = m := by
  apply ext_get
  intro c
  by_cases hc : Writable c
  · apply get_store_of_not_mem
    intro hmem
    obtain ⟨w, hw, rfl⟩ := List.mem_map.mp hmem
    exact h w hw hc
  · exact get_store_of_not_writable hc ws

theorem HasFont.store (h : m.HasFont) (ws : List (Word × UInt8)) : (m.store ws).HasFont := by
  intro c hc
  rw [get_store_of_not_writable (Nat.not_le_of_lt hc)]
  exact h c hc

theorem hasFont_ofRom (rom : List UInt8) : (ofRom rom).HasFont := by
  intro c hc
  exact (get_ofRom rom c).trans (dif_pos hc)

theorem HasFont.read (h : m.HasFont) {address : Word} (hlt : address.toNat < 80) :
    m.read address = Font.bytes[address.toNat] := by
  have hcell : (cell address).val = address.toNat := Nat.mod_eq_of_lt (by omega)
  have hfont : (cell address).val < Font.size := by rwa [hcell]
  simp only [Memory.read, h _ hfont, hcell]

theorem HasFont.read_glyph (h : m.HasFont) {i : Word} {digit : Nat} (hdigit : digit < 16)
    (hi : i.toNat = 5 * digit) :
    (List.range 5).map (fun row => m.read (i + UInt16.ofNat row)) = Font.glyph digit := by
  apply List.ext_getElem
  · simp only [Font.glyph, Font.glyphSize, List.length_map, List.length_range, List.length_take,
      List.length_drop, Vector.length_toList]
    omega
  · intro row hrow _
    rw [List.length_map, List.length_range] at hrow
    have haddr : (i + UInt16.ofNat row).toNat = 5 * digit + row := by
      rw [Word.toNat_add_ofNat, hi]
      omega
    have hlt : (i + UInt16.ofNat row).toNat < 80 := by omega
    have hread := h.read hlt
    simp only [List.getElem_map, List.getElem_range, hread, haddr, Font.glyph, Font.glyphSize,
      List.getElem_take, List.getElem_drop, Vector.getElem_toList]

end Memory

theorem Memory.word_ofRom_join {ws : List Word} {address w : Word} (k : Nat) (hw : ws[k]? = some w)
    (haddress : address.toNat = romStart + 2 * k) (hlt : address.toNat + 1 < size) :
    (ofRom (Word.join ws)).word address = w := by
  have hnext : (address + 1).toNat = romStart + (2 * k + 1) := by
    rw [UInt16.toNat_add, haddress]
    exact Nat.mod_eq_of_lt (by rw [haddress] at hlt; exact Nat.lt_trans hlt (by decide))
  obtain ⟨hhigh, hlow⟩ := Word.getElem?_join ws k
  rw [word, read_ofRom _ (by omega) (by omega), read_ofRom _ (by omega) (by omega), haddress, hnext,
    Nat.add_sub_cancel_left, Nat.add_sub_cancel_left, List.getD_eq_getElem?_getD, hhigh,
    List.getD_eq_getElem?_getD, hlow, hw]
  exact w.ofBytes_high_low

namespace Cpu
variable (random : UInt8) {s : Cpu} {ins : Instruction} {c : Fin 4096}

/-- The instruction is one of the two that store, and it stores a byte in the cell. -/
structure Stores (ins : Instruction) (s : Cpu) (c : Fin 4096) : Prop where
  opcode : ins.opcode = .decimal ∨ ins.opcode = .store
  writable : Memory.Writable c
  written : c ∈ (s.writes ins).map fun w => Memory.cell w.1

structure AtGlyph (digit : Nat) (s : Cpu) : Prop where
  index : s.i.toNat = 5 * digit
  rows : (List.range 5).map (fun row => s.memory.read (s.indexed row)) = Font.glyph digit

theorem stores_of_changed (h : (s.execute random ins).1.memory.get c ≠ s.memory.get c) :
    s.Stores ins c := by
  rw [memory_execute] at h
  change (s.memory.store (s.writes ins)).get c ≠ s.memory.get c at h
  have hmem : c ∈ (s.writes ins).map fun w => Memory.cell w.1 := by
    by_contra hnot
    exact h (Memory.get_store_of_not_mem hnot)
  refine ⟨?_, ?_, hmem⟩
  · obtain ⟨op, w⟩ := ins
    cases op with
    | decimal => exact .inl rfl
    | store => exact .inr rfl
    | _ => cases hmem
  · by_contra hw
    exact h (Memory.get_store_of_not_writable hw _)

theorem hasFont_execute (h : s.memory.HasFont) (ins : Instruction) :
    (s.execute random ins).1.memory.HasFont := by
  rw [memory_execute]
  exact h.store (s.writes ins)

theorem atGlyph_execute (h : s.memory.HasFont) (hop : ins.opcode = .glyph)
    (hdigit : s.reg ins.x ≤ 15) : (s.execute random ins).1.AtGlyph (s.reg ins.x).toNat := by
  have hlt : (s.reg ins.x).toNat < 16 := Nat.lt_succ_of_le (UInt8.le_iff_toNat_le.mp hdigit)
  have hi : (s.execute random ins).1.i.toNat = 5 * (s.reg ins.x).toNat := by
    obtain ⟨op, w⟩ := ins
    obtain rfl : op = .glyph := hop
    change ((s.reg w.x).toUInt16 * 5).toNat = 5 * (s.reg w.x).toNat
    have hx := (s.reg w.x).toNat_lt
    simp only [UInt16.toNat_mul, UInt8.toNat_toUInt16, UInt16.reduceToNat]
    omega
  exact ⟨hi, (hasFont_execute random h ins).read_glyph hlt hi⟩

def executeAll (s : Cpu) (program : List (UInt8 × Word)) : Cpu :=
  program.foldl (fun s e => (s.execute e.1 (.ofWord e.2)).1) s

theorem hasFont_executeAll (h : s.memory.HasFont) (program : List (UInt8 × Word)) :
    (s.executeAll program).memory.HasFont := by
  induction program generalizing s with
  | nil => exact h
  | cons e program ih => exact ih (hasFont_execute e.1 h (.ofWord e.2))

theorem stored_of_changed {program : List (UInt8 × Word)}
    (h : (s.executeAll program).memory.get c ≠ s.memory.get c) :
    ∃ before e behind, program = before ++ e :: behind ∧
      (s.executeAll before).Stores (.ofWord e.2) c := by
  induction program generalizing s with
  | nil => exact absurd rfl h
  | cons e program ih =>
    by_cases hnext : ((s.execute e.1 (.ofWord e.2)).1.memory.get c) = s.memory.get c
    · rw [← hnext] at h
      obtain ⟨before, e', behind, rfl, hstores⟩ := ih h
      exact ⟨e :: before, e', behind, rfl, hstores⟩
    · exact ⟨[], e, program, rfl, stores_of_changed e.1 hnext⟩

end Cpu

namespace Machine
variable {m : Machine} {c : Fin 4096}

theorem memory_of_restarts {now : Nat} {call : Call} (h : call.Restarts now m) :
    ∃ rom, (m.after now call).cpu.memory = .ofRom rom := by
  rcases h with rfl | ⟨hload, m', h⟩
  · exact ⟨[], rfl⟩
  · obtain ⟨e, herror⟩ | ⟨rom, romEnd, path, -, -, hok⟩ := call_cases_of_isLoad now hload
    · cases (herror m).symm.trans h
    · rw [after_of_ok (hok m)]
      exact ⟨rom, rfl⟩

theorem stores_of_changed {now : Nat} {call : Call} (h : ¬call.Restarts now m)
    (hc : (m.after now call).cpu.memory.get c ≠ m.cpu.memory.get c) :
    ∃ ins ∈ (call.action m).executed, m.cpu.Stores ins c := by
  obtain ⟨random, hafter⟩ | ⟨-, hmemory, -⟩ := after_cases h
  · rw [hafter] at hc
    cases ha : call.action m with
    | execute ins =>
      rw [ha] at hc
      obtain ⟨hop, hw, hmem⟩ := Cpu.stores_of_changed random (s := m.cpu.tick now) hc
      exact ⟨ins, List.mem_singleton_self ins, hop, hw, hmem⟩
    | _ =>
      rw [ha] at hc
      exact absurd rfl hc
  · rw [hmemory] at hc
    exact absurd rfl hc

theorem hasFont_after (h : m.cpu.memory.HasFont) (now : Nat) (call : Call) :
    (m.after now call).cpu.memory.HasFont := by
  by_cases hres : call.Restarts now m
  · obtain ⟨rom, hrom⟩ := memory_of_restarts hres
    rw [hrom]
    exact Memory.hasFont_ofRom rom
  · intro c hc
    rw [← h c hc]
    by_contra hne
    obtain ⟨ins, -, hstores⟩ := stores_of_changed hres hne
    exact Nat.not_le_of_lt hc hstores.writable

theorem Reachable.hasFont (h : m.Reachable) : m.cpu.memory.HasFont := by
  induction h with
  | start now settings => exact Memory.hasFont_ofRom []
  | after hm now call ih => exact hasFont_after ih now call

theorem stored_of_changed {history : List (Nat × Call)}
    (hkeep : m.Throughout (fun now m call => ¬call.Restarts now m) history)
    (h : (m.afterAll history).cpu.memory.get c ≠ m.cpu.memory.get c) :
    ∃ before e behind, history = before ++ e :: behind ∧
      ∃ ins ∈ (e.2.action (m.afterAll before)).executed,
        (m.afterAll before).cpu.Stores ins c := by
  induction history generalizing m with
  | nil => exact absurd rfl h
  | cons e history ih =>
    obtain ⟨hres, hkeep⟩ := hkeep
    by_cases hnext : (m.after e.1 e.2).cpu.memory.get c = m.cpu.memory.get c
    · rw [← hnext] at h
      obtain ⟨before, e', behind, rfl, hstores⟩ := ih hkeep h
      exact ⟨e :: before, e', behind, rfl, hstores⟩
    · exact ⟨[], e, history, rfl, stores_of_changed hres hnext⟩

theorem atGlyph_after (h : m.cpu.memory.HasFont) {call : Call} {ins : Instruction}
    (hins : ins ∈ (call.action m).executed) (hop : ins.opcode = .glyph)
    (hdigit : m.cpu.reg ins.x ≤ 15) (now : Nat) :
    (m.after now call).cpu.AtGlyph (m.cpu.reg ins.x).toNat := by
  obtain ⟨random, hafter⟩ := after_of_executed hins now
  rw [hafter]
  exact Cpu.atGlyph_execute random (s := m.cpu.tick now) h hop hdigit

/-- The font is in every reachable machine, other bytes change only where an instruction stores
since the last restart, and a digit always finds its glyph. The same holds of words that are
executed one after another on any processor that has the font. -/
theorem Reachable.font_never_changes (h : m.Reachable) :
    (m.cpu.memory.HasFont ∧
      (∀ history, m.Throughout (fun now m call => ¬call.Restarts now m) history →
        ∀ c, (m.afterAll history).cpu.memory.get c ≠ m.cpu.memory.get c →
          ∃ before e behind, history = before ++ e :: behind ∧
            ∃ ins ∈ (e.2.action (m.afterAll before)).executed,
              (m.afterAll before).cpu.Stores ins c) ∧
      ∀ now call, ∀ ins ∈ (call.action m).executed, ins.opcode = .glyph →
        m.cpu.reg ins.x ≤ 15 → (m.after now call).cpu.AtGlyph (m.cpu.reg ins.x).toNat) ∧
    ∀ s : Cpu, s.memory.HasFont → ∀ program,
      (s.executeAll program).memory.HasFont ∧
      (∀ c, (s.executeAll program).memory.get c ≠ s.memory.get c →
        ∃ before e behind, program = before ++ e :: behind ∧
          (s.executeAll before).Stores (.ofWord e.2) c) ∧
      ∀ random w, Opcode.decode w = .glyph → (s.executeAll program).reg w.x ≤ 15 →
        ((s.executeAll program).execute random (.ofWord w)).1.AtGlyph
          ((s.executeAll program).reg w.x).toNat := by
  refine ⟨⟨h.hasFont, ?_, ?_⟩, ?_⟩
  · intro history hkeep c hc
    exact stored_of_changed hkeep hc
  · intro now call ins hins hop hdigit
    exact atGlyph_after h.hasFont hins hop hdigit now
  · intro s hs program
    have hfont : (s.executeAll program).memory.HasFont := Cpu.hasFont_executeAll hs program
    refine ⟨hfont, ?_, ?_⟩
    · intro c hc
      exact Cpu.stored_of_changed hc
    · intro random w hop hdigit
      have hglyph : (Instruction.ofWord w).opcode = .glyph := hop
      have hx : (Instruction.ofWord w).x = w.x := rfl
      rw [← hx] at hdigit ⊢
      exact Cpu.atGlyph_execute random hfont hglyph hdigit

theorem executed_cycle {w : Word} (random : UInt8) (hp : m.paused = false)
    (hb : m.breakpoints = .empty) (hrom : m.InRom) (hw : m.cpu.fetch = w) :
    .ofWord w ∈ (Call.action m (.cycle random)).executed :=
  Action.mem_executed.mpr (cycleAction_of_word hp hb hrom hw)

def selfStore : Machine := (start 0 {}).after 0 (.loadProgram [0xA200, 0xF033])

theorem selfStore_word : selfStore.cpu.memory.word 0x200 = 0xA200 ∧
    selfStore.cpu.memory.word 0x202 = 0xF033 := by
  have hmemory : selfStore.cpu.memory = .ofRom (Word.join [0xA200, 0xF033]) := rfl
  rw [hmemory]
  exact ⟨Memory.word_ofRom_join 0 rfl (by decide) (by decide),
    Memory.word_ofRom_join 1 rfl (by decide) (by decide)⟩

theorem selfStore_cycle : selfStore.after 0 (.cycle 0) =
    { selfStore with
      cpu := { selfStore.cpu.tick 0 with i := 0x200, pc := 0x202 }
      passed := none } := by
  refine cycle_of_word rfl rfl ?_ selfStore_word.1 rfl
  change Memory.romStart ≤ Cpu.origin.toNat ∧ Cpu.origin.toNat < 0x204
  decide

theorem selfStore_executed :
    .ofWord 0xF033 ∈ (Call.action (selfStore.after 0 (.cycle 0)) (.cycle 0)).executed := by
  rw [selfStore_cycle]
  refine executed_cycle 0 rfl rfl ?_ selfStore_word.2
  change Memory.romStart ≤ 0x202 ∧ 0x202 < 0x204
  decide

theorem memory_selfStore :
    (selfStore.afterAll [(0, .cycle 0), (0, .cycle 0)]).cpu.memory =
      selfStore.cpu.memory.store [(0x200, 0), (0x201, 0), (0x202, 0)] := by
  obtain ⟨random, hafter⟩ := after_of_executed selfStore_executed 0
  have hwrites : Cpu.writes (.ofWord 0xF033)
      { selfStore.cpu.tick 0 with i := 0x200, pc := 0x202 } =
        [(0x200, 0), (0x201, 0), (0x202, 0)] := by
    decide
  rw [afterAll_cons, afterAll_cons, afterAll_nil, hafter, act, Cpu.memory_execute, selfStore_cycle]
  exact congrArg selfStore.cpu.memory.store hwrites

theorem self_store_keeps_font :
    let history := [(0, .cycle 0), (0, .cycle 0)]
    selfStore.Reachable ∧ selfStore.cpu.memory.get 0x200 = 0xA2 ∧
      (selfStore.afterAll history).cpu.memory.get 0x200 = 0 ∧
      selfStore.cpu.memory.HasFont ∧
      (∃ before e behind, history = before ++ e :: behind ∧
        ∃ ins ∈ (e.2.action (selfStore.afterAll before)).executed,
          (selfStore.afterAll before).cpu.Stores ins 0x200) ∧
      (selfStore.cpu.execute 0 (.ofWord 0xF029)).1.AtGlyph 0 := by
  intro history
  have hm : selfStore.Reachable := (Reachable.start 0 {}).after 0 _
  have hbefore : selfStore.cpu.memory.get 0x200 = 0xA2 := by
    have hmemory : selfStore.cpu.memory = .ofRom (Word.join [0xA200, 0xF033]) := rfl
    rw [hmemory, Memory.get_ofRom]
    decide
  have hbehind : (selfStore.afterAll history).cpu.memory.get 0x200 = 0 := by
    rw [memory_selfStore]
    simp only [Memory.store, List.foldl, Memory.get_write]
    rw [if_neg (by decide), if_neg (by decide), if_pos (by decide)]
  obtain ⟨⟨hfont, hstored, -⟩, hcpu⟩ := hm.font_never_changes
  refine ⟨hm, hbefore, hbehind, hfont, ?_, ?_⟩
  · apply hstored
    · simp [Throughout, history, Call.Restarts, Call.isLoad]
    · rw [hbefore, hbehind]
      decide
  · obtain ⟨-, -, hglyph⟩ := hcpu selfStore.cpu hfont []
    exact hglyph 0 0xF029 rfl (by decide)

end Machine
end Chip8
