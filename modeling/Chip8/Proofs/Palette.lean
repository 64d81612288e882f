import Chip8.Proofs.Framebuffer

/-! When a new colour keeps the picture. Cells hold colours, and a repaint finds the cells to change
by their colour alone, so what it does hangs on which of the old colour, the new one and the other
one of the screen are equal. A background equal to the foreground puts out the whole picture, and a
screen whose colours are equal has no picture left: a new foreground lights all of it. -/

namespace Chip8

def Stroke.isPalette : Stroke → Bool
  | .setForeground _ | .setBackground _ => true
  | _ => false

theorem Grid.afterAll_of_palette {w h : Nat} (g : Grid w h) {strokes : List Stroke}
    (hs : ∀ s ∈ strokes, s.isPalette) : g.afterAll strokes = g := by
  induction strokes with
  | nil => rfl
  | cons s strokes ih =>
    obtain ⟨hpalette, hrest⟩ := List.forall_mem_cons.mp hs
    have hsame : g.after s = g := by
      cases s with
      | setForeground | setBackground => rfl
      | _ => cases hpalette
    rw [afterAll, List.foldl_cons, hsame]
    exact ih hrest

namespace Screen
variable {w h : Nat} {d d' : Screen w h} {colour : UInt32}

def Dark (d : Screen w h) : Prop := ∀ x y, d.isOn x y = false

theorem dark_iff : d.Dark ↔ ∀ c, d.lit c = false := by
  constructor
  · intro hd c
    rw [← isOn_cell]
    exact hd c.1 c.2
  · intro hd x y
    rw [isOn]
    cases d.cell? x y with
    | none => rfl
    | some c => exact hd c

theorem samePicture_iff (hw : d'.wrapping = d.wrapping) :
    d.SamePicture d' ↔ ∀ x y, d'.isOn x y = d.isOn x y := by
  constructor
  · exact SamePicture.isOn
  · intro hon
    refine ⟨hw, fun c => ?_⟩
    rw [← isOn_cell, ← isOn_cell]
    exact hon c.1 c.2

theorem samePicture_iff_dark (hw : d'.wrapping = d.wrapping) (hd' : d'.Dark) :
    d.SamePicture d' ↔ d.Dark := by
  rw [samePicture_iff hw]
  constructor
  · intro hon x y
    rw [← hon x y]
    exact hd' x y
  · intro hd x y
    rw [hd x y]
    exact hd' x y

theorem get_of_merged (hd : d.TwoColoured) (hmerged : d.foreground = d.background)
    (c : Fin w × Fin h) : d.get c = d.background := by
  rcases hd c with hc | hc
  · exact hc.trans hmerged
  · exact hc

theorem dark_of_merged (hd : d.TwoColoured) (hmerged : d.foreground = d.background) : d.Dark := by
  rw [dark_iff]
  intro c
  rw [lit_eq, get_of_merged hd hmerged c]
  exact bne_self_eq_false d.background

theorem dark_setBackground (hd : d.TwoColoured) : (d.setBackground d.foreground).Dark :=
  dark_of_merged (hd.setBackground d.foreground) rfl

theorem dark_setForeground (hd : d.TwoColoured) : (d.setForeground d.background).Dark :=
  dark_of_merged (hd.setForeground d.background) rfl

theorem setBackground_keeps_iff (hd : d.TwoColoured) :
    d.SamePicture (d.setBackground colour) ↔ colour ≠ d.foreground ∨ d.Dark := by
  by_cases hc : colour = d.foreground
  · subst hc
    refine Iff.trans (samePicture_iff_dark rfl (dark_setBackground hd)) ?_
    simp
  · exact iff_of_true ⟨rfl, lit_setBackground hd (Ne.symm hc)⟩ (.inl hc)

theorem setForeground_keeps_iff_of_apart (hd : d.Legible) :
    d.SamePicture (d.setForeground colour) ↔ colour ≠ d.background ∨ d.Dark := by
  by_cases hc : colour = d.background
  · subst hc
    refine Iff.trans (samePicture_iff_dark rfl (dark_setForeground hd.twoColoured)) ?_
    simp
  · exact iff_of_true (.of_setForeground hd hc) (.inl hc)

theorem lit_setForeground_of_merged (hd : d.TwoColoured) (hmerged : d.foreground = d.background)
    (colour : UInt32) (c : Fin w × Fin h) :
    (d.setForeground colour).lit c = (colour != d.background) := by
  change ((d.setForeground colour).get c != d.background) = (colour != d.background)
  rw [get_setForeground, get_of_merged hd hmerged c, if_pos hmerged.symm]

theorem setForeground_keeps_iff_of_merged (hw : 0 < w) (hh : 0 < h) (hd : d.TwoColoured)
    (hmerged : d.foreground = d.background) :
    d.SamePicture (d.setForeground colour) ↔ colour = d.background := by
  have hdark := dark_of_merged hd hmerged
  constructor
  · intro hp
    have hcorner := hp.lit (⟨0, hw⟩, ⟨0, hh⟩)
    rw [lit_setForeground_of_merged hd hmerged, dark_iff.mp hdark] at hcorner
    exact bne_eq_false_iff_eq.mp hcorner
  · rintro rfl
    exact Iff.mpr (samePicture_iff_dark rfl (dark_setForeground hd)) hdark

theorem isOn_afterAll_of_palette (hd : d.TwoColoured) {changes : List Stroke}
    (hpalette : ∀ s ∈ changes, s.isPalette) (hapart : ∀ part, part <+: changes →
      (d.afterAll part).foreground ≠ (d.afterAll part).background) (x y : Nat) :
    (d.afterAll changes).isOn x y = d.isOn x y := by
  have hlegible : d.Legible := ⟨hapart [] List.nil_prefix, hd⟩
  have hlegible' : (d.afterAll changes).Legible :=
    ⟨hapart changes (List.prefix_refl _), hd.afterAll changes⟩
  rw [isOn_eq hlegible', isOn_eq hlegible, grid_afterAll hd hapart,
    Grid.afterAll_of_palette d.grid hpalette]

theorem isOn_setForeground_of_merged (hd : d.TwoColoured) (hmerged : d.foreground = d.background)
    (hc : colour ≠ d.background) {x y : Nat} (hx : x < w) (hy : y < h) :
    (d.setForeground colour).isOn x y = true := by
  have hlit := lit_setForeground_of_merged hd hmerged colour (⟨x, hx⟩, ⟨y, hy⟩)
  rw [← isOn_cell] at hlit
  exact hlit.trans (bne_iff_ne.mpr hc)

theorem colours_repaint {n : Nat} {held : UInt32} (hd : d.colours = List.replicate n held)
    (old new : UInt32) :
    (d.repaint old new).colours = List.replicate n (if held = old then new else held) := by
  have hmap : (d.repaint old new).colours = d.colours.map fun p => if p = old then new else p :=
    Vector.toList_map ..
  rw [hmap, hd, List.map_replicate]

end Screen

theorem Machine.colours_start (now : Nat) (settings : Settings) :
    (start now settings).cpu.screen.colours = List.replicate (64 * 32) settings.background := by
  have hblank : ((Screen.blank 64 32).setWrapping settings.wrapping).colours =
      List.replicate (64 * 32) Screen.defaultBackground := Vector.toList_replicate
  have hne : Screen.defaultBackground ≠ Screen.defaultForeground := by decide
  have hforeground := Screen.colours_repaint hblank Screen.defaultForeground settings.foreground
  rw [if_neg hne] at hforeground
  have hbackground :=
    Screen.colours_repaint hforeground Screen.defaultBackground settings.background
  rw [if_pos rfl] at hbackground
  exact hbackground

namespace Screen

/-- A new background keeps the picture unless it puts it out, and a new foreground does so as well,
but between equal colours it lights every cell. A machine starts with a plain background. -/
theorem palette_keeps_picture {w h : Nat} (hw : 0 < w) (hh : 0 < h) (past : List Stroke) :
    let d := (blank w h).afterAll past
    (∀ colour, (∀ x y, (d.setBackground colour).isOn x y = d.isOn x y) ↔
      colour ≠ d.foreground ∨ ∀ x y, d.isOn x y = false) ∧
    (∀ colour, (∀ x y, (d.setForeground colour).isOn x y = d.isOn x y) ↔
      d.foreground ≠ d.background ∧ (colour ≠ d.background ∨ ∀ x y, d.isOn x y = false) ∨
      d.foreground = d.background ∧ colour = d.background) ∧
    (∀ changes, (∀ s ∈ changes, s.isPalette) → (∀ part, part <+: changes →
        (d.afterAll part).foreground ≠ (d.afterAll part).background) →
      ∀ x y, (d.afterAll changes).isOn x y = d.isOn x y) ∧
    (d.foreground = d.background → ∀ colour, colour ≠ d.background →
      ∀ x < w, ∀ y < h, (d.setForeground colour).isOn x y = true) ∧
    ∀ now settings, (Machine.start now settings).cpu.screen.colours =
      List.replicate (64 * 32) settings.background := by
  intro d
  have hd : d.TwoColoured := TwoColoured.blank.afterAll past
  refine ⟨?_, ?_, fun changes => isOn_afterAll_of_palette hd, ?_, Machine.colours_start⟩
  · intro colour
    have hsame : d.SamePicture (d.setBackground colour) ↔ _ := samePicture_iff rfl
    exact hsame.symm.trans (setBackground_keeps_iff hd)
  · intro colour
    have hsame : d.SamePicture (d.setForeground colour) ↔ _ := samePicture_iff rfl
    rw [← hsame]
    by_cases hmerged : d.foreground = d.background
    · rw [setForeground_keeps_iff_of_merged hw hh hd hmerged]
      simp [hmerged]
    · rw [setForeground_keeps_iff_of_apart ⟨hmerged, hd⟩]
      simp [hmerged, Dark]
  · intro hmerged colour hc x hx y hy
    exact isOn_setForeground_of_merged hd hmerged hc hx hy

/-- A drawn cell is lost when the background takes the foreground's colour, and the next foreground
lights the others as well. -/
theorem merged_colours_light_every_cell :
    let d := (blank 2 2).afterAll [.draw 0 0]
    let merged := d.setBackground defaultForeground
    0 < 2 ∧ d.isOn 0 0 = true ∧ (¬∀ x y, merged.isOn x y = d.isOn x y) ∧
      (∀ x < 2, ∀ y < 2, (merged.setForeground 7).isOn x y = true) := by
  have hon : ((blank 2 2).afterAll [.draw 0 0]).isOn 0 0 = true := by decide
  refine ⟨by decide, hon, ?_, ?_⟩
  · obtain ⟨hbackground, -⟩ :=
      palette_keeps_picture (w := 2) (h := 2) (by decide) (by decide) [.draw 0 0]
    rw [hbackground]
    rintro (hne | hdark)
    · exact hne (by decide)
    · cases hon.symm.trans (hdark 0 0)
  · obtain ⟨-, -, -, hlights, -⟩ := palette_keeps_picture (w := 2) (h := 2) (by decide) (by decide)
      [.draw 0 0, .setBackground defaultForeground]
    exact hlights (by decide) 7 (by decide)

end Screen
end Chip8
