import Chip8.Proofs.Framebuffer
import Chip8.Proofs.Sprite
import Mathlib.Data.List.Perm.Basic
import Mathlib.Logic.Function.Iterate

/-! Sprites drawn over one another. In whatever order they come, a cell is toggled as often as they
cover it, so the picture does not hang on their order. A cell of two colours that is toggled an even
number of times holds its colour again, so drawing the same sprites once more takes them away, and
the second drawing of a sprite collides on the cells that the first one has lit. -/

namespace Chip8

theorem Grid.names_congr {w h : Nat} {g g' : Grid w h} (hw : g'.wrapping = g.wrapping) :
    g'.Names = g.Names := by
  obtain ⟨on, wrapping⟩ := g
  obtain rfl : g'.wrapping = wrapping := hw
  rfl

namespace Screen
variable {w h : Nat} {d d' : Screen w h} {ps qs : List (Nat × Nat)} {c : Fin w × Fin h}

def swapped (d : Screen w h) (held : UInt32) : UInt32 :=
  if held = d.background then d.foreground else d.background

def hits (d : Screen w h) (ps : List (Nat × Nat)) (c : Fin w × Fin h) : Nat :=
  ps.countP fun p => d.cell? p.1 p.2 = some c

theorem pixels_eq_of_get (hget : ∀ c, d.get c = d'.get c) : d.pixels = d'.pixels := by
  apply Vector.ext
  intro k hk
  have hw : 0 < w := Nat.pos_of_mul_pos_right (Nat.zero_lt_of_lt hk)
  have hrow : k / w < h := Nat.div_lt_of_lt_mul hk
  have hindex : k / w * w + k % w = k := Nat.div_add_mod' k w
  have hcell := hget (⟨k % w, Nat.mod_lt k hw⟩, ⟨k / w, hrow⟩)
  simpa only [get, index, Fin.getElem_fin, hindex] using hcell

theorem swapped_swapped {held : UInt32} (hheld : held = d.foreground ∨ held = d.background) :
    d.swapped (d.swapped held) = held := by
  rcases hheld with rfl | rfl
  · by_cases hmerged : d.foreground = d.background <;> simp [swapped, hmerged]
  · simp [swapped]

theorem swapped_iterate_even {held : UInt32} (hheld : held = d.foreground ∨ held = d.background)
    (n : Nat) : d.swapped^[n + n] held = held := by
  induction n with
  | zero => rfl
  | succ n ih =>
    have htwo : n + 1 + (n + 1) = n + n + 2 := by omega
    rw [htwo, Function.iterate_add_apply]
    change d.swapped^[n + n] (d.swapped (d.swapped held)) = held
    rw [swapped_swapped hheld, ih]

@[simp] theorem swapped_flip (d : Screen w h) (x y : Nat) : (d.flip x y).swapped = d.swapped := by
  funext held
  simp [swapped]

@[simp] theorem cell?_flip (d : Screen w h) (x y : Nat) : (d.flip x y).cell? = d.cell? := by
  funext x' y'
  simp [cell?]

theorem hits_flip (d : Screen w h) (x y : Nat) : (d.flip x y).hits ps c = d.hits ps c := by
  simp [hits]

theorem hits_cons (p : Nat × Nat) : d.hits (p :: ps) c =
    d.hits ps c + if d.cell? p.1 p.2 = some c then 1 else 0 := by
  simp [hits, List.countP_cons]

theorem hits_append : d.hits (ps ++ qs) c = d.hits ps c + d.hits qs c := List.countP_append

theorem hits_perm (hperm : ps.Perm qs) : d.hits qs c = d.hits ps c := (hperm.countP_eq _).symm

theorem get_flip_eq_swapped (d : Screen w h) (x y : Nat) : (d.flip x y).get c =
    if d.cell? x y = some c then d.swapped (d.get c) else d.get c := by
  rw [get_flip, lit_eq, swapped]
  by_cases hlit : d.get c = d.background <;> simp [hlit]

/-- Only how often a cell is named counts for it, and not when. -/
theorem get_flipAll_eq_iterate (d : Screen w h) (ps : List (Nat × Nat)) (c : Fin w × Fin h) :
    (d.flipAll ps).1.get c = d.swapped^[d.hits ps c] (d.get c) := by
  induction ps generalizing d with
  | nil => rfl
  | cons p ps ih =>
    have hfirst := ih (d.flip p.1 p.2)
    rw [swapped_flip, hits_flip, get_flip_eq_swapped] at hfirst
    rw [flipAll, hfirst, hits_cons]
    by_cases hp : d.cell? p.1 p.2 = some c <;> simp [hp]

theorem pixels_flipAll_perm (d : Screen w h) (hperm : ps.Perm qs) :
    (d.flipAll qs).1.pixels = (d.flipAll ps).1.pixels := by
  apply pixels_eq_of_get
  intro c
  rw [get_flipAll_eq_iterate, get_flipAll_eq_iterate, hits_perm hperm]

theorem pixels_flipAll_twice (hd : d.TwoColoured) (hperm : ps.Perm qs) :
    (d.flipAll (ps ++ qs)).1.pixels = d.pixels := by
  apply pixels_eq_of_get
  intro c
  rw [get_flipAll_eq_iterate, hits_append, hits_perm hperm, swapped_iterate_even (hd c)]

theorem flipAll_append (d : Screen w h) (ps qs : List (Nat × Nat)) :
    (d.flipAll (ps ++ qs)).1 = ((d.flipAll ps).1.flipAll qs).1 := by
  simp only [flipAll_eq_afterAll, List.map_append, afterAll_append]

theorem flipAll_again_hit_iff (hd : d.Legible) (hps : ∀ g : Grid w h, g.Apart ps) :
    ((d.flipAll ps).1.flipAll ps).2 = true ↔
      ∃ c, (∃ p ∈ ps, d.grid.Names p.1 p.2 c) ∧ d.get c = d.background := by
  obtain ⟨hforeground, -, hwrapping⟩ := d.settings_flipAll ps
  have hnames : (d.flipAll ps).1.grid.Names = d.grid.Names := Grid.names_congr hwrapping
  rw [flipAll_hit_iff (hd.flipAll ps) (hps _), hnames, hforeground]
  apply exists_congr
  intro c
  apply and_congr_right
  intro hc
  rw [get_flipAll hd (hps _), if_pos hc]
  rcases hd.twoColoured c with hget | hget <;> simp [hget, hd.apart, hd.apart.symm]

end Screen

/-- A sprite to be drawn: the index and the coordinates are set before, so that nothing that an
earlier sprite leaves behind takes part in where this one goes. -/
structure Sprite where
  index : Word
  x : Fin 16
  y : Fin 16
  left : UInt8
  top : UInt8
  rows : Fin 16
deriving DecidableEq, Repr

namespace Cpu
variable {s t : Cpu} {p : Sprite} {ps qs : List Sprite} (random : UInt8)

def aim (s : Cpu) (p : Sprite) : Cpu := ({ s with i := p.index }.setReg p.x p.left).setReg p.y p.top

def paint (s : Cpu) (p : Sprite) : Cpu :=
  ((s.aim p).execute random (.ofWord (Word.draw p.x p.y p.rows))).1

def paintAll (s : Cpu) (ps : List Sprite) : Cpu := ps.foldl (paint random) s

def Shows (s : Cpu) (p : Sprite) (c : Fin 64 × Fin 32) : Prop :=
  (s.aim p).Covers p.x p.y p.rows c

def shown (s : Cpu) (p : Sprite) : List (Nat × Nat) :=
  (s.aim p).spriteCells ((s.aim p).reg p.x).toNat ((s.aim p).reg p.y).toNat p.rows.val

theorem reg_aim (s : Cpu) (p : Sprite) (r : Fin 16) : (s.aim p).reg r =
    if r = p.y then p.top else if r = p.x then p.left else s.reg r := by
  simp only [aim, reg_setReg]
  rfl

theorem shown_congr (hmemory : t.memory = s.memory) (p : Sprite) : t.shown p = s.shown p := by
  have hreg : ∀ r, r = p.x ∨ r = p.y → (t.aim p).reg r = (s.aim p).reg r := by
    intro r hr
    rw [reg_aim, reg_aim]
    rcases hr with rfl | rfl <;> simp
  have hcells : ∀ ox oy rows,
      (t.aim p).spriteCells ox oy rows = (s.aim p).spriteCells ox oy rows := by
    intro ox oy rows
    change List.flatMap _ _ = List.flatMap _ _
    change List.flatMap (fun row => (litBits (t.memory.read _)).map _) _ = _
    rw [hmemory]
    rfl
  rw [shown, shown, hreg _ (.inl rfl), hreg _ (.inr rfl), hcells]

theorem paint_eq (s : Cpu) (p : Sprite) : s.paint random p =
    ((s.aim p).drawSprite p.x p.y p.rows).advance := by
  rw [paint, execute_draw]

theorem screen_paint (s : Cpu) (p : Sprite) :
    (s.paint random p).screen = (s.screen.flipAll (s.shown p)).1 := by
  rw [paint_eq]
  rfl

theorem memory_paint (s : Cpu) (p : Sprite) : (s.paint random p).memory = s.memory := by
  rw [paint_eq]
  rfl

theorem flag_paint (s : Cpu) (p : Sprite) :
    (s.paint random p).reg flag = bit (s.screen.flipAll (s.shown p)).2 := by
  rw [paint_eq]
  exact (reg_setReg _ flag flag _).trans (if_pos rfl)

theorem paintAll_append (s : Cpu) (ps qs : List Sprite) :
    s.paintAll random (ps ++ qs) = (s.paintAll random ps).paintAll random qs := List.foldl_append

theorem memory_paintAll (s : Cpu) (ps : List Sprite) :
    (s.paintAll random ps).memory = s.memory := by
  induction ps generalizing s with
  | nil => rfl
  | cons p ps ih => exact (ih (s.paint random p)).trans (s.memory_paint random p)

theorem screen_paintAll (s : Cpu) (ps : List Sprite) :
    (s.paintAll random ps).screen = (s.screen.flipAll (ps.flatMap s.shown)).1 := by
  induction ps generalizing s with
  | nil => rfl
  | cons p ps ih =>
    have hshown : (s.paint random p).shown = s.shown :=
      funext (shown_congr (s.memory_paint random p))
    have hrest := ih (s.paint random p)
    rw [hshown, screen_paint, ← Screen.flipAll_append, ← List.flatMap_cons] at hrest
    exact hrest

theorem legible_paintAll (hs : s.screen.Legible) (ps : List Sprite) :
    (s.paintAll random ps).screen.Legible := by
  rw [screen_paintAll]
  exact hs.flipAll _

theorem apart_shown (s : Cpu) (p : Sprite) (g : Grid 64 32) : g.Apart (s.shown p) :=
  (s.aim p).apart_spriteCells g _ _ (Nat.le_of_lt (Nat.lt_trans p.rows.isLt (by decide)))

theorem shows_iff {c : Fin 64 × Fin 32} : s.Shows p c ↔
    ∃ q ∈ s.shown p, s.screen.grid.Names q.1 q.2 c := covers_iff

theorem bit_eq_one_iff {c : Bool} : bit c = 1 ↔ c = true := by
  cases c <;> decide

theorem flag_paint_twice (hs : s.screen.Legible) (p : Sprite) :
    (s.paintAll random [p, p]).reg flag = 1 ↔
      ∃ c, s.Shows p c ∧ s.screen.get c = s.screen.background := by
  change ((s.paint random p).paint random p).reg flag = 1 ↔ _
  rw [flag_paint, screen_paint, shown_congr (s.memory_paint random p), bit_eq_one_iff]
  simp only [shows_iff, Screen.flipAll_again_hit_iff hs (s.apart_shown p)]

theorem flag_paint_dark (hs : s.screen.Legible)
    (hdark : ∀ c, s.screen.get c = s.screen.background) (p : Sprite) :
    (s.paintAll random [p]).reg flag = 0 ∧
      ((s.paintAll random [p, p]).reg flag = 1 ↔ ∃ c, s.Shows p c) := by
  constructor
  · have hmiss : (s.screen.flipAll (s.shown p)).2 = false := by
      rw [Bool.eq_false_iff, ne_eq, Screen.flipAll_hit_iff hs (s.apart_shown p _)]
      rintro ⟨c, -, hc⟩
      exact hs.apart (hc.symm.trans (hdark c))
    change (s.paint random p).reg flag = 0
    rw [flag_paint, hmiss]
    rfl
  · simp only [flag_paint_twice random hs, hdark, and_true]

theorem execute_clear (s : Cpu) : s.execute random (.ofWord 0x00E0) =
    ({ s with screen := s.screen.clear }.advance, .proceed) := rfl

end Cpu

/-- Sprites may be drawn in any order, and drawing them again in any order takes them away; the
flag of a second drawing tells whether the first one lit a cell. -/
theorem Machine.Reachable.sprites_commute_and_cancel {m : Machine} (hm : m.Reachable)
    (random : UInt8) {ps qs : List Sprite} (hperm : ps.Perm qs) :
    let s := m.cpu
    let painted := s.paintAll random ps
    (s.paintAll random qs).screen.pixels = painted.screen.pixels ∧
    (painted.paintAll random qs).screen.pixels = s.screen.pixels ∧
    (s.screen.foreground ≠ s.screen.background → ∀ p,
      ((painted.paintAll random [p, p]).reg Cpu.flag = 1 ↔
        ∃ c, painted.Shows p c ∧ painted.screen.get c = painted.screen.background) ∧
      let cleared := (painted.execute random (.ofWord 0x00E0)).1
      (cleared.paintAll random [p]).reg Cpu.flag = 0 ∧
      ((cleared.paintAll random [p, p]).reg Cpu.flag = 1 ↔ ∃ c, cleared.Shows p c)) := by
  intro s painted
  obtain ⟨strokes, hscreen⟩ := hm.screen_strokes
  have htwo : s.screen.TwoColoured := by
    change m.cpu.screen.TwoColoured
    rw [hscreen]
    exact Screen.TwoColoured.blank.afterAll strokes
  have hshown := hperm.flatMap_right s.shown
  refine ⟨?_, ?_, ?_⟩
  · rw [Cpu.screen_paintAll, Cpu.screen_paintAll]
    exact s.screen.pixels_flipAll_perm hshown
  · rw [← Cpu.paintAll_append, Cpu.screen_paintAll, List.flatMap_append]
    exact Screen.pixels_flipAll_twice htwo hshown
  · intro hapart p
    have hpainted : painted.screen.Legible := Cpu.legible_paintAll random ⟨hapart, htwo⟩ ps
    refine ⟨Cpu.flag_paint_twice random hpainted p, ?_⟩
    rw [Cpu.execute_clear]
    exact Cpu.flag_paint_dark random hpainted.clear (Screen.get_clear painted.screen) p

/-- The upper rows of the glyph of zero, with their left edge told by the register that drawing
overwrites. -/
def Sprite.zeroAt (left top : UInt8) (rows : Fin 16) : Sprite :=
  ⟨0, Cpu.flag, Cpu.offset, left, top, rows⟩

theorem Cpu.shows_zeroAt {s : Cpu} {rows : Fin 16} (hmemory : s.memory = .empty)
    (hwrapping : s.screen.wrapping = true) (left top : UInt8) (hrows : 0 < rows.val) :
    s.Shows (.zeroAt left top rows) (.ofNat 64 left.toNat, .ofNat 32 top.toNat) := by
  have hleft : (s.aim (.zeroAt left top rows)).reg flag = left := s.reg_aim _ flag
  have htop : (s.aim (.zeroAt left top rows)).reg offset = top := s.reg_aim _ offset
  refine covers_of_topRow (x := flag) (y := offset) ?_ hrows (by decide : 0 < 4) ?_
  · have hread : (s.aim (.zeroAt left top rows)).memory = .empty := hmemory
    rw [hread]
    exact congrArg UInt8.toNat (Memory.get_ofRom [] 0)
  · have hon : (s.aim (.zeroAt left top rows)).screen.grid.wrapping = true := hwrapping
    rw [hleft, htop, Grid.Names, if_pos hon]
    exact ⟨rfl, rfl⟩

theorem Cpu.clear_paintAll (random : UInt8) (s : Cpu) (ps : List Sprite) :
    let cleared := ((s.paintAll random ps).execute random (.ofWord 0x00E0)).1
    cleared.memory = s.memory ∧ cleared.screen.wrapping = s.screen.wrapping := by
  intro cleared
  have hscreen : cleared.screen.wrapping = (s.paintAll random ps).screen.wrapping := rfl
  rw [hscreen, screen_paintAll]
  exact ⟨s.memory_paintAll random ps, (s.screen.settings_flipAll _).2.2⟩

theorem Machine.zeros_cancel_in_other_order :
    let s := (start 0 {}).cpu
    let ps := [Sprite.zeroAt 0 0 5, .zeroAt 62 30 5]
    let qs := [Sprite.zeroAt 62 30 5, .zeroAt 0 0 5]
    let cleared := ((s.paintAll 0 ps).execute 0 (.ofWord 0x00E0)).1
    (start 0 {}).Reachable ∧ ps.Perm qs ∧ s.screen.foreground ≠ s.screen.background ∧
      ((s.paintAll 0 ps).paintAll 0 qs).screen.pixels = s.screen.pixels ∧
      (cleared.paintAll 0 [.zeroAt 62 30 5]).reg Cpu.flag = 0 ∧
      (cleared.paintAll 0 [.zeroAt 62 30 5, .zeroAt 62 30 5]).reg Cpu.flag = 1 := by
  have hm : (start 0 {}).Reachable := .start 0 {}
  have hperm : [Sprite.zeroAt 0 0 5, .zeroAt 62 30 5].Perm [.zeroAt 62 30 5, .zeroAt 0 0 5] :=
    .swap _ _ []
  have hapart : (start 0 {}).cpu.screen.foreground ≠ (start 0 {}).cpu.screen.background := by
    decide
  obtain ⟨-, hcancel, hflag⟩ := hm.sprites_commute_and_cancel 0 hperm
  obtain ⟨-, hfirst, hsecond⟩ := hflag hapart (.zeroAt 62 30 5)
  obtain ⟨hmemory, hwrapping⟩ :=
    (start 0 {}).cpu.clear_paintAll 0 [Sprite.zeroAt 0 0 5, .zeroAt 62 30 5]
  exact ⟨hm, hperm, hapart, hcancel, hfirst,
    hsecond.mpr ⟨_, Cpu.shows_zeroAt hmemory hwrapping 62 30 (by decide)⟩⟩

end Chip8
