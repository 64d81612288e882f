import Chip8.Screen

/-! The picture on a screen. Every cell holds the foreground or the background. While the two differ,
drawing acts on which cells are on in the same way whatever the colours are, and a new colour that
does not make them equal shows the same picture. -/

namespace Chip8.Screen
variable {w h : Nat} {d d' : Screen w h}

def TwoColoured (d : Screen w h) : Prop := ∀ c, d.get c = d.foreground ∨ d.get c = d.background

theorem get_blank (c : Fin w × Fin h) : (blank w h).get c = defaultBackground :=
  Vector.getElem_replicate ..

theorem get_flip (d : Screen w h) (x y : Nat) (c : Fin w × Fin h) : (d.flip x y).get c =
    if d.cell? x y = some c then if d.lit c then d.background else d.foreground else d.get c := by
  unfold flip
  cases hcell : d.cell? x y with
  | none => rfl
  | some c' =>
    simp only [get_put, Option.some.injEq]
    by_cases hc : c = c'
    · rw [if_pos hc, if_pos hc.symm, hc]
    · rw [if_neg hc, if_neg (Ne.symm hc)]

@[simp] theorem foreground_flip (d : Screen w h) (x y : Nat) :
    (d.flip x y).foreground = d.foreground := by
  unfold flip
  cases d.cell? x y <;> rfl

@[simp] theorem background_flip (d : Screen w h) (x y : Nat) :
    (d.flip x y).background = d.background := by
  unfold flip
  cases d.cell? x y <;> rfl

@[simp] theorem wrapping_flip (d : Screen w h) (x y : Nat) :
    (d.flip x y).wrapping = d.wrapping := by
  unfold flip
  cases d.cell? x y <;> rfl

theorem lit_eq (d : Screen w h) (c : Fin w × Fin h) : d.lit c = (d.get c != d.background) := rfl

theorem lit_flip (hd : d.foreground ≠ d.background) (x y : Nat) (c : Fin w × Fin h) :
    (d.flip x y).lit c = if d.cell? x y = some c then !d.lit c else d.lit c := by
  rw [lit_eq, get_flip, background_flip]
  by_cases hcell : d.cell? x y = some c
  · rw [if_pos hcell, if_pos hcell]
    cases hlit : d.lit c with
    | true => simp
    | false => simp [hd]
  · rw [if_neg hcell, if_neg hcell, lit_eq]

theorem TwoColoured.blank : (blank w h).TwoColoured := fun c => .inr (get_blank c)

theorem TwoColoured.flip (hd : d.TwoColoured) (x y : Nat) : (d.flip x y).TwoColoured := by
  intro c
  rw [get_flip, foreground_flip, background_flip]
  split
  · split <;> simp
  · exact hd c

theorem TwoColoured.clear (d : Screen w h) : d.clear.TwoColoured := fun c => .inr (get_clear d c)

theorem get_setForeground (d : Screen w h) (colour : UInt32) (c : Fin w × Fin h) :
    (d.setForeground colour).get c = if d.get c = d.foreground then colour else d.get c :=
  get_repaint d d.foreground colour c

theorem get_setBackground (d : Screen w h) (colour : UInt32) (c : Fin w × Fin h) :
    (d.setBackground colour).get c = if d.get c = d.background then colour else d.get c :=
  get_repaint d d.background colour c

theorem TwoColoured.setForeground (hd : d.TwoColoured) (colour : UInt32) :
    (d.setForeground colour).TwoColoured := by
  intro c
  rw [get_setForeground]
  split
  · exact .inl rfl
  · next hc => exact .inr ((hd c).resolve_left hc)

theorem TwoColoured.setBackground (hd : d.TwoColoured) (colour : UInt32) :
    (d.setBackground colour).TwoColoured := by
  intro c
  rw [get_setBackground]
  split
  · exact .inr rfl
  · next hc => exact .inl ((hd c).resolve_right hc)

theorem lit_setForeground {colour : UInt32} (hd : d.foreground ≠ d.background)
    (hc : colour ≠ d.background) (c : Fin w × Fin h) :
    (d.setForeground colour).lit c = d.lit c := by
  change ((d.setForeground colour).get c != d.background) = (d.get c != d.background)
  rw [get_setForeground]
  split
  · next hfg =>
    rw [hfg]
    exact (bne_iff_ne.mpr hc).trans (bne_iff_ne.mpr hd).symm
  · rfl

theorem lit_setBackground {colour : UInt32} (hd : d.TwoColoured) (hc : d.foreground ≠ colour)
    (c : Fin w × Fin h) : (d.setBackground colour).lit c = d.lit c := by
  change ((d.setBackground colour).get c != colour) = (d.get c != d.background)
  rw [get_setBackground]
  split
  · next hbg => simp [hbg]
  · next hbg =>
    have hfg := (hd c).resolve_right hbg
    rw [hfg] at hbg ⊢
    exact (bne_iff_ne.mpr hc).trans (bne_iff_ne.mpr hbg).symm

theorem get_painted (on : Bool) (foreground background : UInt32) (c : Fin w × Fin h) :
    ((((blank w h).setWrapping on).setForeground foreground).setBackground background).get c =
      background := by
  have hblank : ((blank w h).setWrapping on).get c = defaultBackground := get_blank c
  have hne : defaultBackground ≠ defaultForeground := by decide
  rw [get_setBackground, get_setForeground, hblank]
  exact if_pos (if_neg hne)

structure Legible (d : Screen w h) : Prop where
  apart : d.foreground ≠ d.background
  twoColoured : d.TwoColoured

theorem Legible.flip (hd : d.Legible) (x y : Nat) : (d.flip x y).Legible := by
  refine ⟨?_, hd.twoColoured.flip x y⟩
  rw [foreground_flip, background_flip]
  exact hd.apart

theorem Legible.flipAll (hd : d.Legible) (ps : List (Nat × Nat)) : (d.flipAll ps).1.Legible := by
  induction ps generalizing d with
  | nil => exact hd
  | cons p ps ih => exact ih (hd.flip p.1 p.2)

theorem Legible.clear (hd : d.Legible) : d.clear.Legible := ⟨hd.apart, TwoColoured.clear d⟩

/-- Two screens of which the same cells are on, and on which coordinates name the same cells. -/
structure SamePicture (d d' : Screen w h) : Prop where
  wrapping : d'.wrapping = d.wrapping
  lit : ∀ c, d'.lit c = d.lit c

namespace SamePicture

theorem refl (d : Screen w h) : d.SamePicture d := ⟨rfl, fun _ => rfl⟩

theorem symm (hp : d.SamePicture d') : d'.SamePicture d :=
  ⟨hp.wrapping.symm, fun c => (hp.lit c).symm⟩

theorem trans {d'' : Screen w h} (hp : d.SamePicture d') (hp' : d'.SamePicture d'') :
    d.SamePicture d'' :=
  ⟨hp'.wrapping.trans hp.wrapping, fun c => (hp'.lit c).trans (hp.lit c)⟩

theorem cell? (hp : d.SamePicture d') (x y : Nat) : d'.cell? x y = d.cell? x y := by
  simp only [Screen.cell?, hp.wrapping]

theorem isOn (hp : d.SamePicture d') (x y : Nat) : d'.isOn x y = d.isOn x y := by
  rw [Screen.isOn, Screen.isOn, hp.cell?, funext hp.lit]

theorem flip (hp : d.SamePicture d') (hd : d.Legible) (hd' : d'.Legible) (x y : Nat) :
    (d.flip x y).SamePicture (d'.flip x y) := by
  refine ⟨?_, ?_⟩
  · rw [wrapping_flip, wrapping_flip, hp.wrapping]
  · intro c
    rw [lit_flip hd.apart, lit_flip hd'.apart, hp.cell?, hp.lit]

theorem flipAll (hp : d.SamePicture d') (hd : d.Legible) (hd' : d'.Legible)
    (ps : List (Nat × Nat)) :
    (d.flipAll ps).1.SamePicture (d'.flipAll ps).1 ∧ (d'.flipAll ps).2 = (d.flipAll ps).2 := by
  induction ps generalizing d d' with
  | nil => exact ⟨hp, rfl⟩
  | cons p ps ih =>
    obtain ⟨hrest, hhit⟩ := ih (hp.flip hd hd' p.1 p.2) (hd.flip p.1 p.2) (hd'.flip p.1 p.2)
    refine ⟨hrest, ?_⟩
    change (d'.isOn p.1 p.2 || _) = (d.isOn p.1 p.2 || _)
    rw [hp.isOn, hhit]

theorem clear (hp : d.SamePicture d') : d.clear.SamePicture d'.clear := by
  have hoff (d : Screen w h) (c : Fin w × Fin h) : d.clear.lit c = false := by
    rw [lit_eq, get_clear]
    exact bne_self_eq_false d.background
  exact ⟨hp.wrapping, fun c => (hoff d' c).trans (hoff d c).symm⟩

theorem setWrapping (hp : d.SamePicture d') (on : Bool) :
    (d.setWrapping on).SamePicture (d'.setWrapping on) := ⟨rfl, hp.lit⟩

theorem of_setForeground {colour : UInt32} (hd : d.Legible) (hc : colour ≠ d.background) :
    d.SamePicture (d.setForeground colour) := ⟨rfl, lit_setForeground hd.apart hc⟩

theorem of_setBackground {colour : UInt32} (hd : d.Legible) (hc : d.foreground ≠ colour) :
    d.SamePicture (d.setBackground colour) := ⟨rfl, lit_setBackground hd.twoColoured hc⟩

end SamePicture
end Chip8.Screen
