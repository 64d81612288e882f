/-!
The pad of sixteen keys. One register may be waiting for a key; the next key that goes down, having
been up, fills it. What names a register is left open.
-/

namespace Chip8

structure Keypad (Register : Type) where
  down : Vector Bool 16
  waiting : Option Register
deriving DecidableEq

structure KeyPress (Register : Type) where
  register : Register
  key : Fin 16
deriving DecidableEq

namespace Keypad

variable {Register : Type}

def released : Keypad Register where
  down := Vector.replicate 16 false
  waiting := none

/-- Setting a key looks at the low digit of its number alone. -/
def keyOf (key : UInt8) : Fin 16 := ⟨key.toNat % 16, Nat.mod_lt _ (by decide)⟩

def press? (k : Keypad Register) (key : UInt8) (pressed : Bool) : Option (KeyPress Register) :=
  if pressed ∧ k.down[keyOf key] = false then
    k.waiting.map fun r => ⟨r, keyOf key⟩
  else none

def setKey (k : Keypad Register) (key : UInt8) (pressed : Bool) : Keypad Register where
  down := k.down.set (keyOf key) pressed
  waiting := if pressed ∧ k.down[keyOf key] = false then none else k.waiting

/-- Numbers beyond the pad name no key, so they are never down. -/
def isDown (k : Keypad Register) (key : UInt8) : Bool := k.down[key.toNat]?.getD false

def await (k : Keypad Register) (r : Register) : Keypad Register := { k with waiting := some r }

end Keypad
end Chip8
