import Chip8.Proofs.Storage

/-! Moving blocks of bytes between the registers and the memory. The cells from the index on are
apart from each other, also where they wrap at the end of memory, so each byte of a block stays in
the cell it was stored in, unless the font refuses it. Loading undoes a store as far as it was
carried out, and storing what was just loaded changes nothing. -/

namespace Chip8

namespace Memory
variable {m : Memory} {ws : List (Word × UInt8)}

theorem get_store_of_mem (hws : (ws.map fun w => cell w.1).Nodup) {w : Word × UInt8} (hw : w ∈ ws)
    (hwritable : Writable (cell w.1)) : (m.store ws).get (cell w.1) = w.2 := by
  induction ws generalizing m with
  | nil => cases hw
  | cons first ws ih =>
    obtain ⟨hfirst, hrest⟩ := List.nodup_cons.mp hws
    change ((m.write first.1 first.2).store ws).get (cell w.1) = w.2
    rcases List.mem_cons.mp hw with rfl | hw
    · rw [get_store_of_not_mem hfirst, get_write, if_pos ⟨hwritable, rfl⟩]
    · exact ih hrest hw

theorem get_store_of_ne {c : Fin 4096} (hc : ∀ w ∈ ws, Writable (cell w.1) → c ≠ cell w.1) :
    (m.store ws).get c = m.get c := by
  by_cases hwritable : Writable c
  · apply get_store_of_not_mem
    intro hmem
    obtain ⟨w, hw, rfl⟩ := List.mem_map.mp hmem
    exact hc w hw hwritable rfl
  · exact get_store_of_not_writable hwritable ws

end Memory

namespace Cpu
variable {s t : Cpu} {bytes : List UInt8}

theorem place_inj {k k' : Nat} (hk : k < 4096) (hk' : k' < 4096) (h : s.place k = s.place k') :
    k = k' := by
  have hval : (s.i.toNat + k) % 4096 = (s.i.toNat + k') % 4096 := congrArg Fin.val h
  omega

def blockWrites (s : Cpu) (bytes : List UInt8) : List (Word × UInt8) :=
  bytes.zipIdx.map fun e => (s.indexed e.2, e.1)

theorem mem_blockWrites {w : Word × UInt8} :
    w ∈ s.blockWrites bytes ↔ ∃ k byte, bytes[k]? = some byte ∧ (s.indexed k, byte) = w := by
  simp only [blockWrites, List.mem_map, Prod.exists, List.mem_zipIdx_iff_getElem?]
  exact exists_comm

theorem nodup_blockWrites (hlength : bytes.length ≤ 4096) :
    ((s.blockWrites bytes).map fun w => Memory.cell w.1).Nodup := by
  have hplaces : ((s.blockWrites bytes).map fun w => Memory.cell w.1) =
      (List.range' 0 bytes.length).map s.place := by
    rw [← List.zipIdx_map_snd, blockWrites, List.map_map, List.map_map]
    exact List.map_congr_left fun e _ => cell_indexed s e.2
  rw [hplaces, List.Nodup, List.pairwise_map]
  refine List.Pairwise.imp_of_mem ?_ List.nodup_range'
  intro k k' hk hk' hne h
  rw [List.mem_range'_1] at hk hk'
  exact hne (place_inj (by omega) (by omega) h)

/-- The bytes lie from the index on, wherever the font is not in the way, and apart from them the
memory and the registers are as they were. -/
structure StoresBlock (bytes : List UInt8) (s t : Cpu) : Prop where
  stored : ∀ k byte, bytes[k]? = some byte → 80 ≤ (s.place k).val →
    t.memory.get (s.place k) = byte
  others : ∀ c, (∀ k < bytes.length, 80 ≤ (s.place k).val → c ≠ s.place k) →
    t.memory.get c = s.memory.get c
  registers : ∀ r, t.reg r = s.reg r

theorem StoresBlock.of_writes (hlength : bytes.length ≤ 4096)
    (hmemory : t.memory = s.memory.store (s.blockWrites bytes)) (hv : t.v = s.v) :
    StoresBlock bytes s t where
  stored k byte hk hwritable := by
    have hmem : (s.indexed k, byte) ∈ s.blockWrites bytes := mem_blockWrites.mpr ⟨k, byte, hk, rfl⟩
    have hcell := cell_indexed s k
    have hget := Memory.get_store_of_mem (m := s.memory) (nodup_blockWrites hlength) hmem
    rw [hcell] at hget
    rw [hmemory]
    exact hget hwritable
  others c hc := by
    rw [hmemory]
    apply Memory.get_store_of_ne
    intro w hw hwritable
    obtain ⟨k, byte, hk, rfl⟩ := mem_blockWrites.mp hw
    have hcell := cell_indexed s k
    rw [hcell] at hwritable ⊢
    exact hc k (List.getElem?_eq_some_iff.mp hk).1 hwritable
  registers r := congrArg (·[r]) hv

namespace StoresBlock

theorem get_font (h : StoresBlock bytes s t) {c : Fin 4096} (hc : c.val < 80) :
    t.memory.get c = s.memory.get c := by
  apply h.others
  rintro k - hk rfl
  omega

theorem get_place (h : StoresBlock bytes s t) {k : Nat} {byte : UInt8}
    (hk : bytes[k]? = some byte) : t.memory.get (s.place k) =
      if (s.place k).val < 80 then s.memory.get (s.place k) else byte := by
  split
  · next hfont => exact h.get_font hfont
  · next hwritable => exact h.stored k byte hk (Nat.le_of_not_lt hwritable)

theorem memory_eq (h : StoresBlock bytes s t)
    (hsame : ∀ k byte, bytes[k]? = some byte → s.memory.get (s.place k) = byte) :
    t.memory = s.memory := by
  apply Memory.ext_get
  intro c
  by_cases hc : ∃ k byte, bytes[k]? = some byte ∧ c = s.place k
  · obtain ⟨k, byte, hk, rfl⟩ := hc
    rw [h.get_place hk, hsame k byte hk, ite_self]
  · apply h.others
    rintro k hk - rfl
    exact hc ⟨k, bytes[k], List.getElem?_eq_getElem hk, rfl⟩

end StoresBlock

theorem registersTo_eq_take (x : Fin 16) : registersTo x = (List.finRange 16).take (x.val + 1) := by
  revert x
  decide

theorem getElem?_registers {x : Fin 16} {k : Nat} {byte : UInt8} :
    (s.v.toList.take (x.val + 1))[k]? = some byte ↔ ∃ r ≤ x, r.val = k ∧ s.reg r = byte := by
  constructor
  · intro h
    obtain ⟨hk, rfl⟩ := List.getElem?_eq_some_iff.mp h
    have hlt : k < x.val + 1 := Nat.lt_of_lt_of_le hk (List.length_take_le ..)
    exact ⟨⟨k, by omega⟩, Nat.le_of_lt_succ hlt, rfl, by simp [reg]⟩
  · rintro ⟨r, hr, rfl, rfl⟩
    have hlt : r.val < x.val + 1 := Nat.lt_succ_of_le hr
    simp [List.getElem?_take_of_lt hlt, reg]

theorem writes_store (s : Cpu) (x : Fin 16) :
    (registersTo x).map (fun r => (s.indexed r.val, s.reg r)) =
      s.blockWrites (s.v.toList.take (x.val + 1)) := by
  rw [registersTo_eq_take]
  apply List.ext_getElem
  · simp [blockWrites]
  · intro k hk hk'
    simp [blockWrites, reg]

section Execute
variable (random : UInt8) (s : Cpu) (x : Fin 16)

theorem execute_storeBlock : s.execute random (.ofWord (.ofDigits 15 x 5 5)) =
    next ((s.storeAll (s.blockWrites (s.v.toList.take (x.val + 1)))).passBlock x) := by
  have hop : Instruction.ofWord (.ofDigits 15 x 5 5) = ⟨.store, .ofDigits 15 x 5 5⟩ :=
    congrArg (Instruction.mk · _) (Opcode.decode_transfer x 5 5)
  rw [hop, ← writes_store]
  simp only [execute, writes, Instruction.x_ofDigits]

theorem execute_loadBlock : s.execute random (.ofWord (.ofDigits 15 x 6 5)) =
    ({ s with v := (s.loadTo x).v, i := s.indexed (x.val + 1), pc := s.pc + 2 }, .proceed) := by
  have hop : Instruction.ofWord (.ofDigits 15 x 6 5) = ⟨.load, .ofDigits 15 x 6 5⟩ :=
    congrArg (Instruction.mk · _) (Opcode.decode_transfer x 6 5)
  obtain ⟨-, hx, -⟩ := Word.digits_ofDigits 15 x 6 5
  rw [hop, execute_load_eq, hx]

theorem execute_storeDecimal : s.execute random (.ofWord (.ofDigits 15 x 3 3)) =
    next (s.storeAll (s.blockWrites [s.reg x / 100, s.reg x / 10 % 10, s.reg x % 10])) := by
  have hop : Instruction.ofWord (.ofDigits 15 x 3 3) = ⟨.decimal, .ofDigits 15 x 3 3⟩ :=
    congrArg (Instruction.mk · _) (Opcode.decode_transfer x 3 3)
  rw [hop]
  simp only [execute, writes, Instruction.x_ofDigits]
  rfl

theorem storesBlock_store : StoresBlock (s.v.toList.take (x.val + 1)) s
    (s.execute random (.ofWord (.ofDigits 15 x 5 5))).1 := by
  have hlength := List.length_take_le (x.val + 1) s.v.toList
  rw [execute_storeBlock]
  exact .of_writes (by omega) rfl rfl

theorem storesBlock_decimal : StoresBlock [s.reg x / 100, s.reg x / 10 % 10, s.reg x % 10] s
    (s.execute random (.ofWord (.ofDigits 15 x 3 3))).1 := by
  rw [execute_storeDecimal]
  exact .of_writes (Nat.le_of_ble_eq_true rfl) rfl rfl

theorem reg_load (r : Fin 16) : (s.execute random (.ofWord (.ofDigits 15 x 6 5))).1.reg r =
    if r ≤ x then s.memory.get (s.place r.val) else s.reg r := by
  rw [execute_loadBlock, ← read_indexed]
  simp [loadTo, reg]

theorem memory_load : (s.execute random (.ofWord (.ofDigits 15 x 6 5))).1.memory = s.memory := by
  rw [execute_loadBlock]

theorem toNat_i_store : (s.execute random (.ofWord (.ofDigits 15 x 5 5))).1.i.toNat =
    (s.i.toNat + x.val + 1) % 65536 := by
  rw [execute_storeBlock]
  exact toNat_indexed s (x.val + 1)

theorem toNat_i_load : (s.execute random (.ofWord (.ofDigits 15 x 6 5))).1.i.toNat =
    (s.i.toNat + x.val + 1) % 65536 := by
  rw [execute_loadBlock]
  exact toNat_indexed s (x.val + 1)

theorem i_decimal : (s.execute random (.ofWord (.ofDigits 15 x 3 3))).1.i = s.i := by
  rw [execute_storeDecimal]
  rfl

end Execute

theorem place_congr (h : t.i = s.i) (k : Nat) : t.place k = s.place k :=
  Fin.ext (congrArg (fun i : Word => (i.toNat + k) % 4096) h)

/-- What was stored is loaded again, but for the font, which lies where it did. -/
theorem reg_load_stored {x y : Fin 16} {u : Cpu} (random : UInt8)
    (h : StoresBlock (s.v.toList.take (x.val + 1)) s t) (hv : u.v = t.v)
    (hmemory : u.memory = t.memory) (hi : u.i = s.i) (hy : y ≤ x) (r : Fin 16) :
    (u.execute random (.ofWord (.ofDigits 15 y 6 5))).1.reg r =
      if r ≤ y ∧ (s.place r.val).val < 80 then s.memory.get (s.place r.val) else s.reg r := by
  rw [reg_load]
  by_cases hr : r ≤ y
  · have hbyte : (s.v.toList.take (x.val + 1))[r.val]? = some (s.reg r) :=
      getElem?_registers.mpr ⟨r, Fin.le_trans hr hy, rfl, rfl⟩
    rw [if_pos hr, hmemory, place_congr hi, h.get_place hbyte]
    simp only [hr, true_and]
  · have hreg : u.reg r = s.reg r := (congrArg (·[r]) hv).trans (h.registers r)
    rw [if_neg hr, hreg, if_neg (fun hc => hr hc.1)]

theorem memory_store_loaded {x : Fin 16} (random random' : UInt8)
    (hv : t.v = (s.execute random (.ofWord (.ofDigits 15 x 6 5))).1.v)
    (hmemory : t.memory = s.memory) (hi : t.i = s.i) :
    (t.execute random' (.ofWord (.ofDigits 15 x 5 5))).1.memory = s.memory := by
  rw [← hmemory]
  apply (storesBlock_store random' t x).memory_eq
  intro k byte hk
  obtain ⟨r, hr, rfl, rfl⟩ := getElem?_registers.mp hk
  have hreg : t.reg r = (s.execute random (.ofWord (.ofDigits 15 x 6 5))).1.reg r :=
    congrArg (·[r]) hv
  rw [hreg, reg_load, if_pos hr, place_congr hi, hmemory]

theorem decimal_digits (value : UInt8) :
    100 * (value / 100).toNat + 10 * (value / 10 % 10).toNat + (value % 10).toNat = value.toNat ∧
      (value / 100).toNat ≤ 2 ∧ (value / 10 % 10).toNat < 10 ∧ (value % 10).toNat < 10 := by
  have hvalue := value.toNat_lt
  simp only [UInt8.toNat_div, UInt8.toNat_mod, UInt8.reduceToNat]
  omega

/-- Blocks are stored and loaded exactly, however they wrap, and only the font refuses a byte. -/
theorem transfers_are_exact (random random' : UInt8) (s : Cpu) (x : Fin 16) :
    let stored := (s.execute random (.ofWord (.ofDigits 0xF x 5 5))).1
    let loaded := (s.execute random (.ofWord (.ofDigits 0xF x 6 5))).1
    let counted := (s.execute random (.ofWord (.ofDigits 0xF x 3 3))).1
    (StoresBlock (s.v.toList.take (x.val + 1)) s stored ∧
      stored.i.toNat = (s.i.toNat + x.val + 1) % 65536) ∧
    ((∀ r, loaded.reg r = if r ≤ x then s.memory.get (s.place r.val) else s.reg r) ∧
      loaded.memory = s.memory ∧ loaded.i.toNat = (s.i.toNat + x.val + 1) % 65536) ∧
    (∃ hundreds tens ones : UInt8,
      100 * hundreds.toNat + 10 * tens.toNat + ones.toNat = (s.reg x).toNat ∧
      hundreds.toNat ≤ 2 ∧ tens.toNat < 10 ∧ ones.toNat < 10 ∧
      StoresBlock [hundreds, tens, ones] s counted ∧ counted.i = s.i) ∧
    (∀ t : Cpu, t.v = stored.v → t.memory = stored.memory → t.i = s.i → ∀ y ≤ x,
      let back := (t.execute random' (.ofWord (.ofDigits 0xF y 6 5))).1
      (∀ r, back.reg r = if r ≤ y ∧ (s.place r.val).val < 80 then s.memory.get (s.place r.val)
        else s.reg r) ∧
      (s.memory.HasFont → ∀ r ≤ y, ∀ hr : (s.place r.val).val < 80,
        back.reg r = Font.bytes[(s.place r.val).val])) ∧
    ∀ t : Cpu, t.v = loaded.v → t.memory = loaded.memory → t.i = s.i →
      (t.execute random' (.ofWord (.ofDigits 0xF x 5 5))).1.memory = s.memory := by
  intro stored loaded counted
  have hstored := storesBlock_store random s x
  have hloaded : loaded.memory = s.memory := memory_load random s x
  refine ⟨⟨hstored, toNat_i_store random s x⟩, ⟨reg_load random s x, hloaded, ?_⟩, ?_, ?_, ?_⟩
  · exact toNat_i_load random s x
  · obtain ⟨hvalue, hhundreds, htens, hones⟩ := decimal_digits (s.reg x)
    have hcounted := storesBlock_decimal random s x
    exact ⟨_, _, _, hvalue, hhundreds, htens, hones, hcounted, i_decimal random s x⟩
  · intro t hv hmemory hi y hy back
    have hback := reg_load_stored random' hstored hv hmemory hi hy
    refine ⟨hback, ?_⟩
    intro hfont r hr hlt
    exact ((hback r).trans (if_pos ⟨hr, hlt⟩)).trans (hfont _ hlt)
  · intro t hv hmemory hi
    exact memory_store_loaded random random' hv (hmemory.trans hloaded) hi

end Cpu
end Chip8
