import Chip8.Font
import Chip8.Word

/-!
Four kilobytes of memory. The font lies at the bottom, where nothing can be written, and programs
are loaded at `romStart`. Addresses beyond the end wrap around.
-/

namespace Chip8

structure Memory where
  bytes : Vector UInt8 4096
deriving DecidableEq

namespace Memory

def size : Nat := 4096
def romStart : Nat := 0x200
def romCapacity : Nat := size - romStart

def cell (address : Word) : Fin 4096 := ⟨address.toNat % 4096, Nat.mod_lt _ (by decide)⟩

def get (m : Memory) (c : Fin 4096) : UInt8 := m.bytes[c]

def read (m : Memory) (address : Word) : UInt8 := m.get (cell address)

def word (m : Memory) (address : Word) : Word :=
  .ofBytes (m.read address) (m.read (address + 1))

def Writable (c : Fin 4096) : Prop := Font.size ≤ c.val

instance (c : Fin 4096) : Decidable (Writable c) := inferInstanceAs (Decidable (_ ≤ _))

def write (m : Memory) (address : Word) (value : UInt8) : Memory :=
  if Writable (cell address) then ⟨m.bytes.set (cell address) value⟩ else m

def ofRom (rom : List UInt8) : Memory :=
  let program := rom.toArray
  ⟨Vector.ofFn fun c => if h : c.val < 80 then Font.bytes[c.val]
    else if c.val < romStart then 0 else program.getD (c.val - romStart) 0⟩

def empty : Memory := ofRom []

theorem cell_add_ofNat (address : Word) (k : Nat) :
    cell (address + UInt16.ofNat k) = .ofNat 4096 (address.toNat + k) := by
  apply Fin.ext
  change (address + UInt16.ofNat k).toNat % 4096 = (address.toNat + k) % 4096
  rw [Word.toNat_add_ofNat]
  omega

theorem word_eq_get (m : Memory) (address : Word) : m.word address =
    .ofBytes (m.get (.ofNat 4096 address.toNat)) (m.get (.ofNat 4096 (address.toNat + 1))) := by
  have hnext : cell (address + 1) = .ofNat 4096 (address.toNat + 1) := cell_add_ofNat address 1
  rw [word, read, read, hnext]
  rfl

theorem get_write (m : Memory) (address : Word) (value : UInt8) (c : Fin 4096) :
    (m.write address value).get c =
      if Writable c ∧ c = cell address then value else m.get c := by
  unfold write
  by_cases hw : Writable (cell address)
  · by_cases hc : c = cell address
    · subst hc
      simp [hw, get]
    · have : (cell address).val ≠ c.val := fun h => hc (Fin.ext h.symm)
      simp [hw, hc, get, Vector.getElem_set_ne _ _ this]
  · by_cases hc : c = cell address
    · subst hc
      simp [hw]
    · simp [hw, hc]

theorem get_ofRom (rom : List UInt8) (c : Fin 4096) :
    (ofRom rom).get c = if h : c.val < 80 then Font.bytes[c.val]
      else if c.val < romStart then 0 else rom.getD (c.val - romStart) 0 := by
  simp [ofRom, get]

theorem read_ofRom (rom : List UInt8) {address : Word} (hge : romStart ≤ address.toNat)
    (hlt : address.toNat < size) :
    (ofRom rom).read address = rom.getD (address.toNat - romStart) 0 := by
  have hc : (cell address).val = address.toNat := Nat.mod_eq_of_lt hlt
  have hfont : ¬(cell address).val < 80 := by
    have h80 : 80 ≤ romStart := by decide
    omega
  have hrom : ¬(cell address).val < romStart := by omega
  rw [read, get_ofRom, dif_neg hfont, if_neg hrom, hc]

@[ext] theorem ext_get {m m' : Memory} (h : ∀ c, m.get c = m'.get c) : m = m' := by
  obtain ⟨b⟩ := m
  obtain ⟨b'⟩ := m'
  congr
  exact Vector.ext fun i hi => h ⟨i, hi⟩

end Memory
end Chip8
