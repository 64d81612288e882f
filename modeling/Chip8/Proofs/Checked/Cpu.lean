import Chip8.Cpu.Execute
import Chip8.Proofs.Checked.Basic
import Chip8.Proofs.Loading
import Mathlib.Data.Nat.Bitwise

/-! Executing an instruction with operations that can go wrong. Registers are named by bytes, cells
of the memory and of the screen by plain numbers, and loops run over ranges of such numbers. No step
is ever a fault, whatever the processor holds, and what comes out is what the instruction does. -/

namespace Chip8.Checked

/-- The processor with a pending wait that names its register by a byte. -/
structure Cpu where
  v : Vector UInt8 16
  i : Word
  pc : Word
  stack : List Word
  memory : Memory
  screen : Screen 64 32
  keypad : Keypad UInt8
  timers : Timers
deriving DecidableEq

def Cpu.of (s : Chip8.Cpu) : Cpu where
  v := s.v
  i := s.i
  pc := s.pc
  stack := s.stack
  memory := s.memory
  screen := s.screen
  keypad := { down := s.keypad.down, waiting := s.keypad.waiting.map fun r => UInt8.ofNat r.val }
  timers := s.timers

section Memory

def read (m : Memory) (address : Word) : Except Fault UInt8 := get m.bytes (address.toNat % 4096)

def write (m : Memory) (address : Word) (value : UInt8) : Except Fault Memory :=
  if address.toNat % 4096 < 80 then pure m
  else do
    let bytes ← put m.bytes (address.toNat % 4096) value
    pure ⟨bytes⟩

def word (m : Memory) (address : Word) : Except Fault Word := do
  let high ← read m address
  let low ← read m (address + 1)
  pure (.ofBytes high low)

def copy (m : Memory) (offset : Nat) (data : List UInt8) : Except Fault Memory := do
  let stop ← addSize offset data.length
  if stop ≤ 4096 then pure (m.copy offset data) else .error .index

def cleared : Except Fault Memory := copy ⟨Vector.replicate 4096 0⟩ 0 Font.bytes.toList

theorem read_eq (m : Memory) (address : Word) : read m address = .ok (m.read address) :=
  get_eq m.bytes (Memory.cell address)

theorem write_eq (m : Memory) (address : Word) (value : UInt8) :
    write m address value = .ok (m.write address value) := by
  unfold write Memory.write
  by_cases hlow : address.toNat % 4096 < 80
  · have hw : ¬Memory.Writable (Memory.cell address) := Nat.not_le_of_lt hlow
    rw [if_pos hlow, if_neg hw]
    rfl
  · have hw : Memory.Writable (Memory.cell address) := Nat.le_of_not_lt hlow
    have hput : put m.bytes (address.toNat % 4096) value =
        .ok (m.bytes.set (Memory.cell address) value) := put_eq m.bytes (Memory.cell address) value
    rw [if_neg hlow, if_pos hw, hput]
    rfl

theorem word_eq (m : Memory) (address : Word) : word m address = .ok (m.word address) := by
  rw [word, read_eq, ok_bind, read_eq, ok_bind]
  rfl

theorem copy_eq {offset : Nat} {data : List UInt8} (h : offset + data.length ≤ 4096)
    (m : Memory) : copy m offset data = .ok (m.copy offset data) := by
  have hsum : addSize offset data.length = .ok (offset + data.length) :=
    if_pos (Nat.lt_of_le_of_lt h (by decide))
  rw [copy, hsum, ok_bind, if_pos h]
  rfl

theorem cleared_eq : cleared = .ok .empty := by
  have hfont : Font.bytes.toList.length = 80 := Vector.length_toList
  rw [cleared, copy_eq (by rw [hfont]; decide)]
  exact congrArg Except.ok (Memory.clear_eq_empty .empty)

end Memory

section Screen

def cellIndex (d : Screen 64 32) (x y : Nat) : Except Fault (Option Nat) :=
  let x := if d.wrapping then x % 64 else x
  let y := if d.wrapping then y % 32 else y
  if x < 64 ∧ y < 32 then do
    let row ← mulSize y 64
    let k ← addSize row x
    pure (some k)
  else pure none

def flip (d : Screen 64 32) (x y : Nat) : Except Fault (Screen 64 32 × Bool) := do
  match ← cellIndex d x y with
  | none => pure (d, false)
  | some k =>
    if h : k < 64 * 32 then
      let colour := if d.pixels[k] = d.background then d.foreground else d.background
      pure ({ d with pixels := d.pixels.set k colour, dirty := true },
        d.pixels[k] != d.background)
    else pure (d, false)

theorem cellIndex_eq (d : Screen 64 32) (x y : Nat) :
    cellIndex d x y = .ok ((d.cell? x y).map fun c => (Screen.index c.1 c.2).val) := by
  unfold cellIndex Screen.cell?
  by_cases hc : (if d.wrapping then x % 64 else x) < 64 ∧ (if d.wrapping then y % 32 else y) < 32
  · have hmul : mulSize (if d.wrapping then y % 32 else y) 64 =
        .ok ((if d.wrapping then y % 32 else y) * 64) := if_pos (by omega)
    have hadd : addSize ((if d.wrapping then y % 32 else y) * 64)
        (if d.wrapping then x % 64 else x) = .ok ((if d.wrapping then y % 32 else y) * 64 +
          if d.wrapping then x % 64 else x) := if_pos (by omega)
    simp only [if_pos hc, dif_pos hc, hmul, ok_bind, hadd]
    rfl
  · simp only [if_neg hc, dif_neg hc]
    rfl

theorem flip_eq (d : Screen 64 32) (x y : Nat) : flip d x y = .ok (d.flip x y, d.isOn x y) := by
  rw [flip, cellIndex_eq, ok_bind, Screen.flip, Screen.isOn]
  cases d.cell? x y with
  | none => rfl
  | some c =>
    have hget : d.pixels[(Screen.index c.1 c.2).val] = d.get c := rfl
    simp only [Option.map_some, dif_pos (Screen.index c.1 c.2).isLt, hget, Option.any_some,
      Screen.put, Screen.lit]
    by_cases hbg : d.get c = d.background
    · simp only [hbg, if_pos, bne_self_eq_false]
      rfl
    · simp [hbg, pure, Except.pure]

end Screen

section Loops
variable {α β : Type} {f : β → α → Except Fault β} {g : β → α → β}

theorem foldlM_eq {as : List α} (h : ∀ b, ∀ a ∈ as, f b a = .ok (g b a)) (b : β) :
    as.foldlM f b = .ok (as.foldl g b) := by
  induction as generalizing b with
  | nil => rfl
  | cons a as ih =>
    rw [List.foldlM_cons, h b a List.mem_cons_self, ok_bind, List.foldl_cons]
    exact ih (fun b a ha => h b a (List.mem_cons_of_mem _ ha)) _

theorem mapM_eq {f : α → Except Fault β} {g : α → β} {as : List α}
    (h : ∀ a ∈ as, f a = .ok (g a)) : as.mapM f = .ok (as.map g) := by
  induction as with
  | nil => rfl
  | cons a as ih =>
    rw [List.mapM_cons, h a List.mem_cons_self, ok_bind,
      ih fun a ha => h a (List.mem_cons_of_mem _ ha), ok_bind]
    rfl

end Loops

theorem range_eq_registersTo (x : Fin 16) :
    List.range (x.val + 1) = (Chip8.Cpu.registersTo x).map Fin.val := by
  revert x
  decide

theorem get_set (v : Vector UInt8 16) (r k : Fin 16) (value : UInt8) :
    (v.set r.val value r.isLt).get k = if k = r then value else v.get k := by
  have hget (u : Vector UInt8 16) : u.get k = u[k.val] := rfl
  rw [hget, hget]
  by_cases hk : k = r
  · subst hk
    simp
  · have hne : r.val ≠ k.val := fun h => hk (Fin.ext h.symm)
    rw [if_neg hk, Vector.getElem_set_ne _ _ hne]

theorem get_foldl_set (rs : List (Fin 16)) (value : Fin 16 → UInt8) (v : Vector UInt8 16)
    (k : Fin 16) : (rs.foldl (fun v r => v.set r.val (value r) r.isLt) v).get k =
      if k ∈ rs then value k else v.get k := by
  induction rs generalizing v with
  | nil => simp
  | cons r rs ih =>
    rw [List.foldl_cons, ih, get_set]
    by_cases hk : k = r
    · subst hk
      simp
    · simp [hk]

namespace Cpu

def reg (k : Nat) (s : Cpu) : Except Fault UInt8 := get s.v k

def setReg (k : Nat) (value : UInt8) (s : Cpu) : Except Fault Cpu := do
  let v ← put s.v k value
  pure { s with v := v }

def advance (s : Cpu) : Cpu := { s with pc := s.pc + 2 }

def next (s : Cpu) : Cpu × Flow := (s.advance, .proceed)

def skipIf (c : Bool) (s : Cpu) : Cpu × Flow := next (if c then s.advance else s)

def flag : Nat := 0xF

def flagLast (f : Fields) (op : UInt8 → UInt8 → Except Fault (UInt8 × Bool)) (s : Cpu) :
    Except Fault (Cpu × Flow) := do
  let vx ← s.reg f.x.toNat
  let vy ← s.reg f.y.toNat
  let r ← op vx vy
  let s ← s.setReg f.x.toNat r.1
  let s ← s.setReg flag (Chip8.Cpu.bit r.2)
  pure s.next

def flagFirst (f : Fields) (op : UInt8 → UInt8 → UInt8 × Bool) (s : Cpu) :
    Except Fault (Cpu × Flow) := do
  let vx ← s.reg f.x.toNat
  let vy ← s.reg f.y.toNat
  let s ← s.setReg flag (Chip8.Cpu.bit (op vx vy).2)
  let s ← s.setReg f.x.toNat (op vx vy).1
  pure s.next

def assign (f : Fields) (op : UInt8 → UInt8 → UInt8) (s : Cpu) : Except Fault (Cpu × Flow) := do
  let vx ← s.reg f.x.toNat
  let vy ← s.reg f.y.toNat
  let s ← s.setReg f.x.toNat (op vx vy)
  pure s.next

def flipBit (bits : UInt8) (x y row : Nat) (r : Screen 64 32 × Bool) (k : Nat) :
    Except Fault (Screen 64 32 × Bool) := do
  let mask ← shiftRightByte 0x80 k
  if bits &&& mask = 0 then pure r
  else do
    let cx ← addSize x k
    let cy ← addSize y row
    let d ← flip r.1 cx cy
    pure (d.1, r.2 || d.2)

def flipRow (x y : Nat) (s : Cpu) (r : Screen 64 32 × Bool) (row : Nat) :
    Except Fault (Screen 64 32 × Bool) := do
  let bits ← read s.memory (s.i + UInt16.ofNat row)
  (List.range 8).foldlM (flipBit bits x y row) r

def drawSprite (f : Fields) (s : Cpu) : Except Fault (Cpu × Flow) := do
  let x ← s.reg f.x.toNat
  let y ← s.reg f.y.toNat
  let r ← (List.range f.n.toNat).foldlM (s.flipRow x.toNat y.toNat) (s.screen, false)
  let s ← { s with screen := r.1 }.setReg flag (Chip8.Cpu.bit r.2)
  pure s.next

def storeDecimal (f : Fields) (s : Cpu) : Except Fault (Cpu × Flow) := do
  let value ← s.reg f.x.toNat
  let memory ← [value / 100, value / 10 % 10, value % 10].zipIdx.foldlM
    (fun m d => write m (s.i + UInt16.ofNat d.2) d.1) s.memory
  pure { s with memory := memory }.next

def passBlock (f : Fields) (s : Cpu) : Except Fault (Cpu × Flow) := do
  let size ← addWord f.x.toUInt16 1
  pure { s with i := s.i + size }.next

def storeRegisters (f : Fields) (s : Cpu) : Except Fault (Cpu × Flow) := do
  let memory ← (List.range (f.x.toNat + 1)).foldlM
    (fun m r => do
      let value ← s.reg r
      write m (s.i + UInt16.ofNat r) value)
    s.memory
  { s with memory := memory }.passBlock f

def loadRegisters (f : Fields) (s : Cpu) : Except Fault (Cpu × Flow) := do
  let v ← (List.range (f.x.toNat + 1)).foldlM
    (fun v r => do
      let value ← read s.memory (s.i + UInt16.ofNat r)
      put v r value)
    s.v
  { s with v := v }.passBlock f

def execute (random : UInt8) (f : Fields) (s : Cpu) : Except Fault (Cpu × Flow) :=
  match f.opcode with
  | .sys => pure s.next
  | .clear => pure { s with screen := s.screen.clear }.next
  | .ret => match s.stack with
    | [] => pure (s, .pause)
    | a :: rest => pure { s with pc := a, stack := rest }.next
  | .jump => pure ({ s with pc := f.nnn }, .proceed)
  | .call => pure ({ s with pc := f.nnn, stack := s.pc :: s.stack }, .proceed)
  | .skipEqByte => do
    let vx ← s.reg f.x.toNat
    pure (s.skipIf (vx == f.nn))
  | .skipNeByte => do
    let vx ← s.reg f.x.toNat
    pure (s.skipIf (vx != f.nn))
  | .skipEq => do
    let vx ← s.reg f.x.toNat
    let vy ← s.reg f.y.toNat
    pure (s.skipIf (vx == vy))
  | .skipNe => do
    let vx ← s.reg f.x.toNat
    let vy ← s.reg f.y.toNat
    pure (s.skipIf (vx != vy))
  | .setByte => do
    let s ← s.setReg f.x.toNat f.nn
    pure s.next
  | .addByte => do
    let vx ← s.reg f.x.toNat
    let s ← s.setReg f.x.toNat (vx + f.nn)
    pure s.next
  | .set => s.assign f fun _ vy => vy
  | .or => s.assign f fun vx vy => vx ||| vy
  | .and => s.assign f fun vx vy => vx &&& vy
  | .xor => s.assign f fun vx vy => vx ^^^ vy
  | .add => s.flagLast f fun vx vy => pure (vx + vy, 256 ≤ vx.toNat + vy.toNat)
  | .sub => s.flagFirst f fun vx vy => (vx - vy, vy < vx)
  | .subFrom => s.flagFirst f fun vx vy => (vy - vx, vx < vy)
  | .shiftRight => s.flagLast f fun _ vy => do
    let half ← shiftRightByte vy 1
    pure (half, vy &&& 0x1 == 0x1)
  | .shiftLeft => s.flagLast f fun _ vy => do
    let double ← shiftLeftByte vy 1
    pure (double, vy &&& 0x80 == 0x80)
  | .setIndex => pure { s with i := f.nnn }.next
  | .jumpFrom => do
    let v0 ← s.reg 0x0
    let target ← addWord f.nnn v0.toUInt16
    pure ({ s with pc := target }, .proceed)
  | .random => do
    let s ← s.setReg f.x.toNat (random &&& f.nn)
    pure s.next
  | .draw => s.drawSprite f
  | .skipDown => do
    let vx ← s.reg f.x.toNat
    pure (s.skipIf (s.keypad.isDown vx))
  | .skipUp => do
    let vx ← s.reg f.x.toNat
    pure (s.skipIf (!s.keypad.isDown vx))
  | .readDelay => do
    let s ← s.setReg f.x.toNat s.timers.delay
    pure s.next
  | .waitKey => pure ({ s with keypad := s.keypad.await f.x }, .pause)
  | .setDelay => do
    let vx ← s.reg f.x.toNat
    pure { s with timers := { s.timers with delay := vx } }.next
  | .setSound => do
    let vx ← s.reg f.x.toNat
    pure { s with timers := { s.timers with sound := vx } }.next
  | .addIndex => do
    let vx ← s.reg f.x.toNat
    let sum := s.i + vx.toUInt16
    let s ← { s with i := sum }.setReg flag
      (Chip8.Cpu.bit (65536 ≤ s.i.toNat + vx.toNat))
    pure s.next
  | .glyph => do
    let vx ← s.reg f.x.toNat
    let i ← mulWord vx.toUInt16 5
    pure { s with i := i }.next
  | .decimal => s.storeDecimal f
  | .store => s.storeRegisters f
  | .load => s.loadRegisters f
  | .invalid => pure (s, .pause)

def toggle (r : Screen 64 32 × Bool) (c : Nat × Nat) : Screen 64 32 × Bool :=
  (r.1.flip c.1 c.2, r.2 || r.1.isOn c.1 c.2)

theorem foldl_toggle (cells : List (Nat × Nat)) (r : Screen 64 32 × Bool) :
    cells.foldl toggle r = ((r.1.flipAll cells).1, r.2 || (r.1.flipAll cells).2) := by
  induction cells generalizing r with
  | nil => simp [Screen.flipAll]
  | cons c cells ih => simp [ih, toggle, Screen.flipAll, Bool.or_assoc]

def outcome (r : Chip8.Cpu × Flow) : Cpu × Flow := (of r.1, r.2)

section Agreement
variable (s : Chip8.Cpu) (ins : Instruction)

theorem reg_eq (s : Cpu) (r : Fin 16) : s.reg r.val = .ok (s.v.get r) := get_eq s.v r

theorem setReg_eq (s : Cpu) (r : Fin 16) (value : UInt8) :
    s.setReg r.val value = .ok { s with v := s.v.set r.val value r.isLt } := by
  rw [setReg, put_eq]
  rfl

theorem setReg_flag (s : Cpu) (value : UInt8) :
    s.setReg flag value = .ok { s with v := s.v.set 15 value (by decide) } :=
  setReg_eq s Chip8.Cpu.flag value

theorem x_of : (Fields.of ins).x.toNat = ins.x.val := toNat_ofNat_digit _

theorem y_of : (Fields.of ins).y.toNat = ins.y.val := toNat_ofNat_digit _

theorem n_of : (Fields.of ins).n.toNat = ins.n.val := toNat_ofNat_digit _

theorem skipIf_of (c : Bool) : (of s).skipIf c = outcome (s.skipIf c) := by
  cases c <;> rfl

theorem flagLast_of {op : UInt8 → UInt8 → Except Fault (UInt8 × Bool)} {result : UInt8} {c : Bool}
    (h : op (s.reg ins.x) (s.reg ins.y) = .ok (result, c)) :
    (of s).flagLast (.of ins) op = .ok (outcome (s.flagLast ins.x result c).next) := by
  have hop : op ((of s).v.get ins.x) ((of s).v.get ins.y) = .ok (result, c) := h
  rw [flagLast, x_of, y_of, reg_eq, ok_bind, reg_eq, ok_bind, hop, ok_bind, setReg_eq, ok_bind,
    setReg_flag, ok_bind]
  rfl

theorem flagFirst_of (op : UInt8 → UInt8 → UInt8 × Bool) :
    (of s).flagFirst (.of ins) op = .ok (outcome (s.flagFirst ins.x
      (op (s.reg ins.x) (s.reg ins.y)).1 (op (s.reg ins.x) (s.reg ins.y)).2).next) := by
  rw [flagFirst, x_of, y_of, reg_eq, ok_bind, reg_eq, ok_bind, setReg_flag, ok_bind, setReg_eq,
    ok_bind]
  rfl

theorem assign_of (op : UInt8 → UInt8 → UInt8) : (of s).assign (.of ins) op =
    .ok (outcome (s.setReg ins.x (op (s.reg ins.x) (s.reg ins.y))).next) := by
  rw [assign, x_of, y_of, reg_eq, ok_bind, reg_eq, ok_bind, setReg_eq, ok_bind]
  rfl

theorem passBlock_of : (of s).passBlock (.of ins) = .ok (outcome (s.passBlock ins.x).next) := by
  have hx : (Fields.of ins).x.toUInt16.toNat = ins.x.val := by
    rw [UInt8.toNat_toUInt16, x_of]
  have hadd : addWord (Fields.of ins).x.toUInt16 1 = .ok ((Fields.of ins).x.toUInt16 + 1) :=
    if_pos (by rw [hx]; exact Nat.lt_of_lt_of_le (Nat.succ_lt_succ ins.x.isLt) (by decide))
  have hsize : (Fields.of ins).x.toUInt16 + 1 = UInt16.ofNat (ins.x.val + 1) := by
    apply UInt16.toNat_inj.mp
    rw [UInt16.toNat_add, hx, UInt16.toNat_ofNat']
    rfl
  rw [passBlock, hadd, ok_bind, hsize]
  rfl

theorem storeDecimal_of (h : ins.opcode = .decimal) :
    (of s).storeDecimal (.of ins) = .ok (outcome (s.storeAll (s.writes ins)).next) := by
  obtain ⟨op, w⟩ := ins
  obtain rfl : op = .decimal := h
  rw [storeDecimal, x_of, reg_eq, ok_bind, foldlM_eq fun m d _ => write_eq m _ d.1]
  rfl

theorem storeRegisters_of (h : ins.opcode = .store) : (of s).storeRegisters (.of ins) =
    .ok (outcome ((s.storeAll (s.writes ins)).passBlock ins.x).next) := by
  have hwrites : s.writes ins =
      (Chip8.Cpu.registersTo ins.x).map fun r => (s.indexed r.val, s.reg r) := by
    rw [Chip8.Cpu.writes, h]
  have hstep (m : Memory) (r : Fin 16) : ((of s).reg r.val >>= fun value =>
      write m ((of s).i + UInt16.ofNat r.val) value) =
        .ok (m.write (s.indexed r.val) (s.reg r)) := by
    rw [reg_eq, ok_bind, write_eq]
    rfl
  have hmemory : (s.storeAll (s.writes ins)).memory = (Chip8.Cpu.registersTo ins.x).foldl
      (fun m r => m.write (s.indexed r.val) (s.reg r)) (of s).memory := by
    rw [hwrites]
    exact List.foldl_map
  rw [storeRegisters, x_of, range_eq_registersTo, List.foldlM_map,
    foldlM_eq fun m r _ => hstep m r, ok_bind, ← hmemory]
  exact passBlock_of (s.storeAll (s.writes ins)) ins

theorem loadRegisters_of :
    (of s).loadRegisters (.of ins) = .ok (outcome ((s.loadTo ins.x).passBlock ins.x).next) := by
  have hstep (v : Vector UInt8 16) (r : Fin 16) :
      (read (of s).memory ((of s).i + UInt16.ofNat r.val) >>= fun value => put v r.val value) =
        .ok (v.set r.val (s.memory.read (s.indexed r.val)) r.isLt) := by
    rw [read_eq, ok_bind, put_eq]
    rfl
  have hload : (Chip8.Cpu.registersTo ins.x).foldl
      (fun v r => v.set r.val (s.memory.read (s.indexed r.val)) r.isLt) (of s).v =
        (s.loadTo ins.x).v := by
    apply Vector.ext
    intro k hk
    have hmem : ⟨k, hk⟩ ∈ Chip8.Cpu.registersTo ins.x ↔ ⟨k, hk⟩ ≤ ins.x := by
      simp [Chip8.Cpu.registersTo]
    refine (get_foldl_set _ (fun r => s.memory.read (s.indexed r.val)) s.v ⟨k, hk⟩).trans ?_
    simp only [hmem, Chip8.Cpu.loadTo, Vector.getElem_ofFn]
    rfl
  rw [loadRegisters, x_of, range_eq_registersTo, List.foldlM_map,
    foldlM_eq fun v r _ => hstep v r, ok_bind, hload]
  exact passBlock_of (s.loadTo ins.x) ins

theorem and_mask_eq_zero_iff (bits : UInt8) {k : Nat} (hk : k < 8) :
    bits &&& (0x80 : UInt8) >>> UInt8.ofNat k = 0 ↔ bits.toNat.testBit (7 - k) = false := by
  have hmask : ((0x80 : UInt8) >>> UInt8.ofNat k).toNat = 2 ^ (7 - k) := by
    interval_cases k <;> rfl
  rw [← UInt8.toNat_inj, UInt8.toNat_and, hmask, Nat.and_two_pow]
  cases bits.toNat.testBit (7 - k) <;> simp

theorem flipBit_eq (bits x y : UInt8) {row k : Nat} (hrow : row < 16) (hk : k < 8)
    (r : Screen 64 32 × Bool) : flipBit bits x.toNat y.toNat row r k =
      .ok (if bits.toNat.testBit (7 - k) then toggle r (x.toNat + k, y.toNat + row) else r) := by
  have hx := x.toNat_lt
  have hy := y.toNat_lt
  have hmask : shiftRightByte 0x80 k = .ok ((0x80 : UInt8) >>> UInt8.ofNat k) := if_pos hk
  have hcx : addSize x.toNat k = .ok (x.toNat + k) := if_pos (by omega)
  have hcy : addSize y.toNat row = .ok (y.toNat + row) := if_pos (by omega)
  rw [flipBit, hmask, ok_bind]
  simp only [and_mask_eq_zero_iff bits hk]
  by_cases hbit : bits.toNat.testBit (7 - k) = false
  · rw [if_pos hbit, hbit]
    rfl
  · rw [if_neg hbit, hcx, ok_bind, hcy, ok_bind, flip_eq, ok_bind, if_pos (by simpa using hbit)]
    rfl

theorem flipRow_eq (x y : UInt8) {row : Nat} (hrow : row < 16) (r : Screen 64 32 × Bool) :
    (of s).flipRow x.toNat y.toNat r row =
      .ok (((Chip8.Cpu.litBits (s.memory.read (s.indexed row))).map
        fun k => (x.toNat + k, y.toNat + row)).foldl toggle r) := by
  have hread : read (of s).memory ((of s).i + UInt16.ofNat row) =
      .ok (s.memory.read (s.indexed row)) := read_eq _ _
  rw [flipRow, hread, ok_bind, List.foldl_map, Chip8.Cpu.litBits, List.foldl_filter]
  apply foldlM_eq
  intro r k hk
  exact flipBit_eq _ x y hrow (List.mem_range.mp hk) r

theorem drawSprite_of :
    (of s).drawSprite (.of ins) = .ok (outcome (s.drawSprite ins.x ins.y ins.n).next) := by
  have hrows : (List.range ins.n.val).foldlM
      ((of s).flipRow (s.reg ins.x).toNat (s.reg ins.y).toNat) ((of s).screen, false) =
        .ok ((s.spriteCells (s.reg ins.x).toNat (s.reg ins.y).toNat ins.n.val).foldl toggle
          (s.screen, false)) := by
    rw [Chip8.Cpu.spriteCells, List.foldl_flatMap]
    apply foldlM_eq
    intro r row hrow
    exact flipRow_eq s _ _ (Nat.lt_trans (List.mem_range.mp hrow) ins.n.isLt) r
  have hreg (r : Fin 16) : (of s).v.get r = s.reg r := rfl
  rw [drawSprite, x_of, y_of, n_of, reg_eq, ok_bind, reg_eq, ok_bind, hreg, hreg, hrows, ok_bind,
    foldl_toggle, setReg_flag, ok_bind, Bool.false_or]
  rfl

theorem shiftRightByte_one (b : UInt8) : shiftRightByte b 1 = .ok (b / 2) := by
  have hhalf : b >>> UInt8.ofNat 1 = b / 2 := by
    apply UInt8.toNat_inj.mp
    rw [UInt8.toNat_shiftRight, UInt8.toNat_div]
    exact Nat.shiftRight_eq_div_pow _ 1
  rw [shiftRightByte, if_pos (by decide), hhalf]

theorem shiftLeftByte_one (b : UInt8) : shiftLeftByte b 1 = .ok (2 * b) := by
  have hdouble : b <<< UInt8.ofNat 1 = 2 * b := by
    apply UInt8.toNat_inj.mp
    rw [UInt8.toNat_shiftLeft, UInt8.toNat_mul, Nat.shiftLeft_eq, Nat.mul_comm]
    rfl
  rw [shiftLeftByte, if_pos (by decide), hdouble]

theorem low_bit (b : UInt8) : (b &&& 0x1 == 0x1) = (b % 2 == 1) := by
  have hand : b &&& 0x1 = b % 2 := by
    apply UInt8.toNat_inj.mp
    rw [UInt8.toNat_and, UInt8.toNat_mod]
    exact Nat.and_one_is_mod _
  rw [hand]

theorem high_bit (b : UInt8) : (b &&& 0x80 == 0x80) = decide (128 ≤ b) := by
  have hb := b.toNat_lt
  have hand : (b &&& 0x80).toNat = (b.toNat.testBit 7).toNat * 128 := by
    rw [UInt8.toNat_and]
    exact Nat.and_two_pow b.toNat 7
  have hbit : b.toNat / 2 ^ 7 % 2 = 1 ↔ 128 ≤ b.toNat := by omega
  have hiff : b &&& 0x80 = 0x80 ↔ 128 ≤ b := by
    rw [← UInt8.toNat_inj, hand, UInt8.le_iff_toNat_le, Nat.testBit_eq_decide_div_mod_eq]
    simpa using hbit
  exact Bool.eq_iff_iff.mpr (by simpa using hiff)

theorem shiftRight_of : (of s).flagLast (.of ins) (fun _ vy => do
      let half ← shiftRightByte vy 1
      pure (half, vy &&& 0x1 == 0x1)) =
    .ok (outcome (s.flagLast ins.x (s.reg ins.y / 2) (s.reg ins.y % 2 == 1)).next) := by
  apply flagLast_of
  rw [shiftRightByte_one, ok_bind, low_bit]
  rfl

theorem shiftLeft_of : (of s).flagLast (.of ins) (fun _ vy => do
      let double ← shiftLeftByte vy 1
      pure (double, vy &&& 0x80 == 0x80)) =
    .ok (outcome (s.flagLast ins.x (2 * s.reg ins.y) (128 ≤ s.reg ins.y)).next) := by
  apply flagLast_of
  rw [shiftLeftByte_one, ok_bind, high_bit]
  rfl

theorem addWord_nnn (b : UInt8) : addWord ins.nnn b.toUInt16 = .ok (ins.nnn + b.toUInt16) := by
  have hb := b.toNat_lt
  have hnnn : ins.nnn.toNat = ins.word.toNat % 4096 := Word.toNat_nnn _
  exact if_pos (by rw [UInt8.toNat_toUInt16]; omega)

theorem mulWord_glyph (b : UInt8) : mulWord b.toUInt16 5 = .ok (b.toUInt16 * 5) := by
  have hb := b.toNat_lt
  have hfive : (5 : Word).toNat = 5 := rfl
  exact if_pos (by rw [UInt8.toNat_toUInt16, hfive]; omega)

theorem execute_of (random : UInt8) :
    (of s).execute random (.of ins) = .ok (outcome (s.execute random ins)) := by
  obtain ⟨op, w⟩ := ins
  have hx : (Fields.of ⟨op, w⟩).x.toNat = w.x.val := x_of _
  have hy : (Fields.of ⟨op, w⟩).y.toNat = w.y.val := y_of _
  cases op with
  | sys | clear | jump | call | setIndex | waitKey | invalid => rfl
  | ret =>
    obtain ⟨v, i, pc, stack, memory, screen, keypad, timers⟩ := s
    cases stack <;> rfl
  | skipEqByte | skipNeByte | skipEq | skipNe | skipDown | skipUp =>
    simp only [execute, Fields.of] at hx hy ⊢
    simp only [hx, hy, reg_eq, ok_bind, skipIf_of]
    rfl
  | setByte | addByte | random | readDelay | setDelay | setSound =>
    simp only [execute, Fields.of] at hx ⊢
    simp only [hx, reg_eq, setReg_eq, ok_bind]
    rfl
  | set => exact assign_of s ⟨.set, w⟩ _
  | or => exact assign_of s ⟨.or, w⟩ _
  | and => exact assign_of s ⟨.and, w⟩ _
  | xor => exact assign_of s ⟨.xor, w⟩ _
  | add => exact flagLast_of s ⟨.add, w⟩ rfl
  | sub => exact flagFirst_of s ⟨.sub, w⟩ _
  | subFrom => exact flagFirst_of s ⟨.subFrom, w⟩ _
  | shiftRight => exact shiftRight_of s ⟨.shiftRight, w⟩
  | shiftLeft => exact shiftLeft_of s ⟨.shiftLeft, w⟩
  | draw => exact drawSprite_of s ⟨.draw, w⟩
  | decimal => exact storeDecimal_of s ⟨.decimal, w⟩ rfl
  | store => exact storeRegisters_of s ⟨.store, w⟩ rfl
  | load => exact loadRegisters_of s ⟨.load, w⟩
  | jumpFrom =>
    have hreg : (of s).reg 0x0 = .ok (s.reg Chip8.Cpu.offset) := reg_eq (of s) Chip8.Cpu.offset
    have hadd := addWord_nnn ⟨.jumpFrom, w⟩ (s.reg Chip8.Cpu.offset)
    simp only [execute, Fields.of, hreg, hadd, ok_bind]
    rfl
  | addIndex =>
    simp only [execute, Fields.of] at hx ⊢
    simp only [hx, reg_eq, setReg_flag, ok_bind]
    rfl
  | glyph =>
    simp only [execute, Fields.of] at hx ⊢
    simp only [hx, reg_eq, mulWord_glyph, ok_bind]
    rfl

end Agreement
end Cpu
end Chip8.Checked
