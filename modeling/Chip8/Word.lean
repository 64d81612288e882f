/-!
Machine words. An instruction is one sixteen-bit word, stored high byte first; its four
hexadecimal digits name the kind of the instruction and its operands. The digits are taken by
division, so that `omega` can follow them.
-/

namespace Chip8

abbrev Word := UInt16

namespace Word

/-- The leading digit, which sorts the instructions into sixteen families. -/
def family (w : Word) : Fin 16 := ⟨w.toNat / 4096 % 16, Nat.mod_lt _ (by decide)⟩
def x (w : Word) : Fin 16 := ⟨w.toNat / 256 % 16, Nat.mod_lt _ (by decide)⟩
def y (w : Word) : Fin 16 := ⟨w.toNat / 16 % 16, Nat.mod_lt _ (by decide)⟩
def n (w : Word) : Fin 16 := ⟨w.toNat % 16, Nat.mod_lt _ (by decide)⟩
def nn (w : Word) : UInt8 := w.toUInt8
def nnn (w : Word) : Word := w % 4096

def high (w : Word) : UInt8 := (w / 256).toUInt8
def low (w : Word) : UInt8 := w.toUInt8
def bytes (w : Word) : List UInt8 := [high w, low w]
def ofBytes (high low : UInt8) : Word := 256 * high.toUInt16 + low.toUInt16

theorem toNat_ofBytes (h l : UInt8) : (ofBytes h l).toNat = 256 * h.toNat + l.toNat := by
  have hh := h.toNat_lt
  have hl := l.toNat_lt
  simp only [ofBytes, UInt16.toNat_add, UInt16.toNat_mul, UInt8.toNat_toUInt16]
  simp only [UInt16.reduceToNat]
  omega

theorem toNat_high (w : Word) : (high w).toNat = w.toNat / 256 := by
  have hw := w.toNat_lt
  simp only [high, UInt16.toNat_toUInt8, UInt16.toNat_div, UInt16.reduceToNat]
  omega

theorem toNat_low (w : Word) : (low w).toNat = w.toNat % 256 := by
  simp only [low, UInt16.toNat_toUInt8, Nat.reducePow]

theorem toNat_nn (w : Word) : (nn w).toNat = w.toNat % 256 := toNat_low w

theorem toNat_nnn (w : Word) : (nnn w).toNat = w.toNat % 4096 := by
  simp only [nnn, UInt16.toNat_mod, UInt16.reduceToNat]

theorem toNat_add_ofNat (w : Word) (k : Nat) :
    (w + UInt16.ofNat k).toNat = (w.toNat + k) % 65536 := by
  rw [UInt16.toNat_add, UInt16.toNat_ofNat']
  omega

theorem ofBytes_high_low (w : Word) : ofBytes (high w) (low w) = w := by
  apply UInt16.toNat_inj.mp
  rw [toNat_ofBytes, toNat_high, toNat_low]
  omega

theorem high_ofBytes (h l : UInt8) : high (ofBytes h l) = h := by
  have hl := l.toNat_lt
  apply UInt8.toNat_inj.mp
  rw [toNat_high, toNat_ofBytes]
  omega

theorem low_ofBytes (h l : UInt8) : low (ofBytes h l) = l := by
  have hl := l.toNat_lt
  apply UInt8.toNat_inj.mp
  rw [toNat_low, toNat_ofBytes]
  omega

/-- The complete words of a byte sequence, and the byte left over when its length is odd. -/
def split : List UInt8 → List Word × Option UInt8
  | [] => ([], none)
  | [b] => ([], some b)
  | h :: l :: rest => (ofBytes h l :: (split rest).1, (split rest).2)

def join (ws : List Word) : List UInt8 := ws.flatMap bytes

theorem split_join (ws : List Word) : split (join ws) = (ws, none) := by
  induction ws with
  | nil => rfl
  | cons w ws ih =>
    have h : join (w :: ws) = high w :: low w :: join ws := rfl
    rw [h, split, ih, ofBytes_high_low]

theorem getElem?_join (ws : List Word) (k : Nat) :
    (join ws)[2 * k]? = ws[k]?.map high ∧ (join ws)[2 * k + 1]? = ws[k]?.map low := by
  induction ws generalizing k with
  | nil => simp [join]
  | cons w ws ih =>
    have hjoin : join (w :: ws) = high w :: low w :: join ws := rfl
    cases k with
    | zero => simp [hjoin]
    | succ k => simpa [hjoin, Nat.mul_add] using ih k

end Word
end Chip8
