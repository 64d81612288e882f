/-!
Lower case, as far as it reaches ASCII. Besides the twenty-six capitals only the Kelvin sign has
an ASCII letter as its lower case, so every other character may stay as it is where the text is
afterwards compared with ASCII words.
-/

namespace Chip8.Text

def lowerChar (c : Char) : Char :=
  if 65 ≤ c.toNat ∧ c.toNat ≤ 90 then Char.ofNat (c.toNat + 32)
  else if c.toNat = 0x212A then 'k' else c

def lower (cs : List Char) : List Char := cs.map lowerChar

theorem lowerChar_eq_self {c : Char} (h : c.toNat < 65 ∨ 90 < c.toNat) (hk : c.toNat ≠ 0x212A) :
    lowerChar c = c := by
  rw [lowerChar, if_neg (by omega), if_neg hk]

end Chip8.Text
