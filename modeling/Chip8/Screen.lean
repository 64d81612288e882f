/-!
A screen of `w` by `h` cells. Each cell holds a colour, and it is on when that is not the
background; both colours can be changed, which repaints the cells that held the old one. When the
display wraps, coordinates beyond an edge come in at the opposite edge, and otherwise they name no
cell.
-/

namespace Chip8

structure Screen (w h : Nat) where
  pixels : Vector UInt32 (w * h)
  foreground : UInt32
  background : UInt32
  wrapping : Bool
  /-- Whether anything was drawn or repainted since the flag was last taken. -/
  dirty : Bool
deriving DecidableEq

namespace Screen

def defaultForeground : UInt32 := 0xFFFFFFFF
def defaultBackground : UInt32 := 0x000000FF

def blank (w h : Nat) : Screen w h where
  pixels := Vector.replicate _ defaultBackground
  foreground := defaultForeground
  background := defaultBackground
  wrapping := true
  dirty := true

theorem index_lt {w h x y : Nat} (hx : x < w) (hy : y < h) : y * w + x < w * h :=
  calc y * w + x < y * w + w := by omega
    _ = (y + 1) * w := by rw [Nat.succ_mul]
    _ ≤ h * w := Nat.mul_le_mul_right w hy
    _ = w * h := Nat.mul_comm h w

def index {w h : Nat} (x : Fin w) (y : Fin h) : Fin (w * h) := ⟨y * w + x, index_lt x.isLt y.isLt⟩

variable {w h : Nat}

def cell? (d : Screen w h) (x y : Nat) : Option (Fin w × Fin h) :=
  let x := if d.wrapping then x % w else x
  let y := if d.wrapping then y % h else y
  if hc : x < w ∧ y < h then some (⟨x, hc.1⟩, ⟨y, hc.2⟩) else none

def get (d : Screen w h) (c : Fin w × Fin h) : UInt32 := d.pixels[index c.1 c.2]

def put (d : Screen w h) (c : Fin w × Fin h) (colour : UInt32) : Screen w h :=
  { d with pixels := d.pixels.set (index c.1 c.2) colour, dirty := true }

def lit (d : Screen w h) (c : Fin w × Fin h) : Bool := d.get c != d.background

def isOn (d : Screen w h) (x y : Nat) : Bool := (d.cell? x y).any d.lit

def draw (d : Screen w h) (x y : Nat) : Screen w h :=
  match d.cell? x y with
  | some c => d.put c d.foreground
  | none => d

def erase (d : Screen w h) (x y : Nat) : Screen w h :=
  match d.cell? x y with
  | some c => d.put c d.background
  | none => d

/-- Toggles a cell. Drawing a sprite collides where a toggled cell was on. -/
def flip (d : Screen w h) (x y : Nat) : Screen w h :=
  match d.cell? x y with
  | some c => d.put c (if d.lit c then d.background else d.foreground)
  | none => d

def clear (d : Screen w h) : Screen w h :=
  { d with pixels := Vector.replicate _ d.background, dirty := true }

def repaint (d : Screen w h) (old new : UInt32) : Screen w h :=
  { d with pixels := d.pixels.map fun p => if p = old then new else p, dirty := true }

def setForeground (d : Screen w h) (colour : UInt32) : Screen w h :=
  { d.repaint d.foreground colour with foreground := colour }

def setBackground (d : Screen w h) (colour : UInt32) : Screen w h :=
  { d.repaint d.background colour with background := colour }

def setWrapping (d : Screen w h) (on : Bool) : Screen w h := { d with wrapping := on }

def clean (d : Screen w h) : Screen w h := { d with dirty := false }

/-- Toggles the cells at the given coordinates one after another, and tells whether any of them
was on when its turn came. -/
def flipAll (d : Screen w h) : List (Nat × Nat) → Screen w h × Bool
  | [] => (d, false)
  | p :: ps =>
    let r := (d.flip p.1 p.2).flipAll ps
    (r.1, d.isOn p.1 p.2 || r.2)

def colours (d : Screen w h) : List UInt32 := d.pixels.toList

theorem index_injective {x x' : Fin w} {y y' : Fin h} (hi : index x y = index x' y') :
    x = x' ∧ y = y' := by
  have hv : y.val * w + x.val = y'.val * w + x'.val := congrArg Fin.val hi
  have hx := x.isLt
  have hx' := x'.isLt
  have h1 : (y.val * w + x.val) % w = x.val := by
    rw [Nat.mul_comm, Nat.mul_add_mod, Nat.mod_eq_of_lt hx]
  have h2 : (y'.val * w + x'.val) % w = x'.val := by
    rw [Nat.mul_comm, Nat.mul_add_mod, Nat.mod_eq_of_lt hx']
  have hxx : x.val = x'.val := by rw [← h1, hv, h2]
  have hyy : y.val * w = y'.val * w := by omega
  have hw : 0 < w := by omega
  exact ⟨Fin.ext hxx, Fin.ext (Nat.eq_of_mul_eq_mul_right hw hyy)⟩

theorem get_put (d : Screen w h) (c c' : Fin w × Fin h) (colour : UInt32) :
    (d.put c colour).get c' = if c' = c then colour else d.get c' := by
  by_cases hc : c' = c
  · subst hc
    simp [get, put]
  · have hne : (index c.1 c.2).val ≠ (index c'.1 c'.2).val := by
      intro hi
      obtain ⟨h1, h2⟩ := index_injective (Fin.ext hi)
      exact hc (Prod.ext h1.symm h2.symm)
    simp [get, put, hc, Vector.getElem_set_ne _ _ hne]

theorem get_clear (d : Screen w h) (c : Fin w × Fin h) : d.clear.get c = d.background := by
  simp [get, clear]

theorem get_repaint (d : Screen w h) (old new : UInt32) (c : Fin w × Fin h) :
    (d.repaint old new).get c = if d.get c = old then new else d.get c :=
  Vector.getElem_map ..

end Screen
end Chip8
