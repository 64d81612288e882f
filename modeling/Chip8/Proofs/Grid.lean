import Chip8.Proofs.Picture
import Mathlib.Data.Finset.SymmDiff
import Mathlib.Data.Fintype.Prod

/-! A screen with colours stands for a grid of cells that are on or off. As long as the two colours
differ, every stroke on the screen acts on its grid as the grid alone would have it: the colours are
not seen. Coordinates name at most one cell, and strokes that name none leave the screen alone. -/

namespace Chip8

structure Grid (w h : Nat) where
  on : Finset (Fin w × Fin h)
  wrapping : Bool
deriving DecidableEq

inductive Stroke
  | draw (x y : Nat)
  | erase (x y : Nat)
  | flip (x y : Nat)
  | clear
  | setWrapping (on : Bool)
  | setForeground (colour : UInt32)
  | setBackground (colour : UInt32)
  | clean
deriving DecidableEq, Repr

namespace Grid
variable {w h : Nat}

def Names (g : Grid w h) (x y : Nat) (c : Fin w × Fin h) : Prop :=
  if g.wrapping then c.1.val = x % w ∧ c.2.val = y % h else c.1.val = x ∧ c.2.val = y

instance (g : Grid w h) (x y : Nat) (c : Fin w × Fin h) : Decidable (g.Names x y c) :=
  inferInstanceAs (Decidable (if g.wrapping then _ ∧ _ else _ ∧ _))

def named (g : Grid w h) (x y : Nat) : Finset (Fin w × Fin h) := {c | g.Names x y c}

def isOn (g : Grid w h) (x y : Nat) : Bool := (g.on ∩ g.named x y).Nonempty

def after (g : Grid w h) : Stroke → Grid w h
  | .draw x y => { g with on := g.on ∪ g.named x y }
  | .erase x y => { g with on := g.on \ g.named x y }
  | .flip x y => { g with on := symmDiff g.on (g.named x y) }
  | .clear => { g with on := ∅ }
  | .setWrapping on => { g with wrapping := on }
  | .setForeground _ | .setBackground _ | .clean => g

def afterAll (g : Grid w h) (strokes : List Stroke) : Grid w h := strokes.foldl after g

theorem mem_named {g : Grid w h} {x y : Nat} {c : Fin w × Fin h} :
    c ∈ g.named x y ↔ g.Names x y c := by
  simp [named]

theorem ext_on {g g' : Grid w h} (hw : g.wrapping = g'.wrapping) (hon : ∀ c, c ∈ g.on ↔ c ∈ g'.on) :
    g = g' := by
  obtain ⟨on, wrapping⟩ := g
  obtain ⟨on', wrapping'⟩ := g'
  obtain rfl : wrapping = wrapping' := hw
  obtain rfl : on = on' := Finset.ext hon
  rfl

theorem named_of_wrapping {g : Grid w h} (hg : g.wrapping = true) (hw : 0 < w) (hh : 0 < h)
    (x y : Nat) : g.named x y = {(⟨x % w, Nat.mod_lt x hw⟩, ⟨y % h, Nat.mod_lt y hh⟩)} := by
  ext c
  simp [mem_named, Names, hg, Prod.ext_iff, Fin.ext_iff]

theorem named_of_inside {g : Grid w h} (hg : g.wrapping = false) {x y : Nat} (hx : x < w)
    (hy : y < h) : g.named x y = {(⟨x, hx⟩, ⟨y, hy⟩)} := by
  ext c
  simp [mem_named, Names, hg, Prod.ext_iff, Fin.ext_iff]

theorem named_of_outside {g : Grid w h} (hg : g.wrapping = false) {x y : Nat}
    (hout : ¬(x < w ∧ y < h)) : g.named x y = ∅ := by
  ext c
  simp only [mem_named, Names, hg, Finset.notMem_empty, iff_false]
  rintro ⟨rfl, rfl⟩
  exact hout ⟨c.1.isLt, c.2.isLt⟩

end Grid

namespace Screen
variable {w h : Nat} {d : Screen w h}

def grid (d : Screen w h) : Grid w h := ⟨{c | d.get c = d.foreground}, d.wrapping⟩

def after (d : Screen w h) : Stroke → Screen w h
  | .draw x y => d.draw x y
  | .erase x y => d.erase x y
  | .flip x y => d.flip x y
  | .clear => d.clear
  | .setWrapping on => d.setWrapping on
  | .setForeground colour => d.setForeground colour
  | .setBackground colour => d.setBackground colour
  | .clean => d.clean

def afterAll (d : Screen w h) (strokes : List Stroke) : Screen w h := strokes.foldl after d

theorem mem_grid {c : Fin w × Fin h} : c ∈ d.grid.on ↔ d.get c = d.foreground := by
  simp [grid]

theorem lit_iff_mem_grid (hd : d.Legible) {c : Fin w × Fin h} : d.lit c = true ↔ c ∈ d.grid.on := by
  rw [mem_grid, lit_eq, bne_iff_ne]
  constructor
  · exact (hd.twoColoured c).resolve_right
  · intro hc
    rw [hc]
    exact hd.apart

theorem cell?_eq_some_iff {x y : Nat} {c : Fin w × Fin h} :
    d.cell? x y = some c ↔ c ∈ d.grid.named x y := by
  obtain ⟨cx, cy⟩ := c
  have hx := cx.isLt
  have hy := cy.isLt
  simp only [Grid.mem_named, Grid.Names, grid, cell?, Option.dite_none_right_eq_some, Option.some.injEq,
    Prod.mk.injEq, Fin.ext_iff, exists_prop]
  split <;> omega

theorem isOn_eq (hd : d.Legible) (x y : Nat) : d.isOn x y = d.grid.isOn x y := by
  rw [Bool.eq_iff_iff, isOn, Option.any_eq_true, Grid.isOn, decide_eq_true_iff]
  simp only [cell?_eq_some_iff, lit_iff_mem_grid hd, Finset.Nonempty, Finset.mem_inter, and_comm]

theorem cell?_eq_none_iff {x y : Nat} : d.cell? x y = none ↔ d.grid.named x y = ∅ := by
  simp only [Option.eq_none_iff_forall_ne_some, Finset.eq_empty_iff_forall_notMem, ne_eq,
    cell?_eq_some_iff]

theorem named_of_cell?_some {x y : Nat} {c : Fin w × Fin h} (hcell : d.cell? x y = some c) :
    d.grid.named x y = {c} := by
  ext c'
  simp [← cell?_eq_some_iff, hcell, eq_comm]

theorem TwoColoured.put (hd : d.TwoColoured) {colour : UInt32}
    (hcolour : colour = d.foreground ∨ colour = d.background) (c : Fin w × Fin h) :
    (d.put c colour).TwoColoured := by
  intro c'
  rw [get_put]
  split
  · exact hcolour
  · exact hd c'

theorem grid_put_foreground (d : Screen w h) (c : Fin w × Fin h) :
    (d.put c d.foreground).grid = { d.grid with on := d.grid.on ∪ {c} } := by
  apply Grid.ext_on
  · rfl
  · intro c'
    have hput : (d.put c d.foreground).foreground = d.foreground := rfl
    by_cases hc : c' = c <;> simp [mem_grid, get_put, hput, hc]

theorem grid_put_background (hd : d.foreground ≠ d.background) (c : Fin w × Fin h) :
    (d.put c d.background).grid = { d.grid with on := d.grid.on \ {c} } := by
  apply Grid.ext_on
  · rfl
  · intro c'
    have hput : (d.put c d.background).foreground = d.foreground := rfl
    by_cases hc : c' = c <;> simp [mem_grid, get_put, hput, hc, hd.symm]

theorem grid_draw (d : Screen w h) (x y : Nat) :
    (d.draw x y).grid = d.grid.after (.draw x y) := by
  rw [draw, Grid.after]
  cases hcell : d.cell? x y with
  | none => simp [cell?_eq_none_iff.mp hcell]
  | some c => simp [named_of_cell?_some hcell, grid_put_foreground]

theorem grid_erase (hd : d.foreground ≠ d.background) (x y : Nat) :
    (d.erase x y).grid = d.grid.after (.erase x y) := by
  rw [erase, Grid.after]
  cases hcell : d.cell? x y with
  | none => simp [cell?_eq_none_iff.mp hcell]
  | some c => simp [named_of_cell?_some hcell, grid_put_background hd]

theorem grid_flip (hd : d.Legible) (x y : Nat) :
    (d.flip x y).grid = d.grid.after (.flip x y) := by
  apply Grid.ext_on
  · exact wrapping_flip d x y
  · intro c
    rw [← lit_iff_mem_grid (hd.flip x y), lit_flip hd.apart]
    simp only [Grid.after, Finset.mem_symmDiff, ← lit_iff_mem_grid hd, ← cell?_eq_some_iff]
    by_cases hcell : d.cell? x y = some c <;> simp [hcell]

theorem grid_clear (hd : d.foreground ≠ d.background) : d.clear.grid = d.grid.after .clear := by
  apply Grid.ext_on
  · rfl
  · intro c
    have hclear : d.clear.foreground = d.foreground := rfl
    simp [mem_grid, get_clear, hclear, hd.symm, Grid.after]

theorem TwoColoured.draw (hd : d.TwoColoured) (x y : Nat) : (d.draw x y).TwoColoured := by
  unfold Screen.draw
  split
  · exact hd.put (.inl rfl) _
  · exact hd

theorem TwoColoured.erase (hd : d.TwoColoured) (x y : Nat) : (d.erase x y).TwoColoured := by
  unfold Screen.erase
  split
  · exact hd.put (.inr rfl) _
  · exact hd

theorem TwoColoured.after (hd : d.TwoColoured) (s : Stroke) : (d.after s).TwoColoured := by
  cases s with
  | draw x y => exact hd.draw x y
  | erase x y => exact hd.erase x y
  | flip x y => exact hd.flip x y
  | clear => exact .clear d
  | setWrapping | clean => exact hd
  | setForeground colour => exact hd.setForeground colour
  | setBackground colour => exact hd.setBackground colour

theorem TwoColoured.afterAll (hd : d.TwoColoured) (strokes : List Stroke) :
    (d.afterAll strokes).TwoColoured := by
  induction strokes generalizing d with
  | nil => exact hd
  | cons s strokes ih => exact ih (hd.after s)

theorem SamePicture.grid {d' : Screen w h} (hp : d.SamePicture d') (hd : d.Legible)
    (hd' : d'.Legible) : d'.grid = d.grid := by
  apply Grid.ext_on
  · exact hp.wrapping
  · intro c
    rw [← lit_iff_mem_grid hd', hp.lit, lit_iff_mem_grid hd]

theorem grid_after (hd : d.Legible) {s : Stroke}
    (hs : (d.after s).foreground ≠ (d.after s).background) : (d.after s).grid = d.grid.after s := by
  have hlegible : (d.after s).Legible := ⟨hs, hd.twoColoured.after s⟩
  cases s with
  | draw x y => exact grid_draw d x y
  | erase x y => exact grid_erase hd.apart x y
  | flip x y => exact grid_flip hd x y
  | clear => exact grid_clear hd.apart
  | setWrapping | clean => rfl
  | setForeground colour => exact (SamePicture.of_setForeground hd hs).grid hd hlegible
  | setBackground colour => exact (SamePicture.of_setBackground hd hs).grid hd hlegible

theorem grid_afterAll {strokes : List Stroke} (hd : d.TwoColoured)
    (hapart : ∀ past, past <+: strokes →
      (d.afterAll past).foreground ≠ (d.afterAll past).background) :
    (d.afterAll strokes).grid = d.grid.afterAll strokes := by
  induction strokes generalizing d with
  | nil => rfl
  | cons s strokes ih =>
    have hlegible : d.Legible := ⟨hapart [] List.nil_prefix, hd⟩
    have hs : (d.after s).foreground ≠ (d.after s).background :=
      hapart [s] ((List.prefix_cons_inj s).mpr List.nil_prefix)
    have hrest := ih (hd.after s) fun past hpast =>
      hapart (s :: past) ((List.prefix_cons_inj s).mpr hpast)
    rw [grid_after hlegible hs] at hrest
    exact hrest

theorem flipAll_singleton (d : Screen w h) (x y : Nat) :
    d.flipAll [(x, y)] = (d.flip x y, d.isOn x y) := by
  simp [flipAll]

theorem flipAll_eq_afterAll (d : Screen w h) (ps : List (Nat × Nat)) :
    (d.flipAll ps).1 = d.afterAll (ps.map fun p => .flip p.1 p.2) := by
  induction ps generalizing d with
  | nil => rfl
  | cons p ps ih => exact ih (d.flip p.1 p.2)

theorem afterAll_append (d : Screen w h) (s s' : List Stroke) :
    d.afterAll (s ++ s') = (d.afterAll s).afterAll s' := List.foldl_append

/-- What the strokes at a place do to a screen is told by its grid. -/
structure ActsAsGrid (d : Screen w h) (x y : Nat) : Prop where
  draw : (d.draw x y).grid.on = d.grid.on ∪ d.grid.named x y
  erase : (d.erase x y).grid.on = d.grid.on \ d.grid.named x y
  flip : (d.flip x y).grid.on = symmDiff d.grid.on (d.grid.named x y)
  hit : d.flipAll [(x, y)] = (d.flip x y, d.grid.isOn x y)
  isOn : d.isOn x y = d.grid.isOn x y
  clear : d.clear.grid.on = ∅
  nowhere : d.grid.named x y = ∅ → d.draw x y = d ∧ d.erase x y = d ∧
    d.flipAll [(x, y)] = (d, false) ∧ d.isOn x y = false

theorem Legible.actsAsGrid (hd : d.Legible) (x y : Nat) : d.ActsAsGrid x y where
  draw := congrArg Grid.on (grid_draw d x y)
  erase := congrArg Grid.on (grid_erase hd.apart x y)
  flip := congrArg Grid.on (grid_flip hd x y)
  hit := by rw [flipAll_singleton, isOn_eq hd]
  isOn := isOn_eq hd x y
  clear := congrArg Grid.on (grid_clear hd.apart)
  nowhere := by
    intro hnone
    have hcell := cell?_eq_none_iff.mpr hnone
    simp [Screen.draw, Screen.erase, Screen.flip, flipAll_singleton, Screen.isOn, hcell]

end Screen
end Chip8
