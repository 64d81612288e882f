import Chip8.Proofs.Grid
import Chip8.Cpu.Execute
import Mathlib.Data.Nat.Bitwise
import Mathlib.Order.SymmDiff

/-! Drawing a sprite. The cells that a sprite covers lie in a window smaller than the screen, so no
two of its bits come to the same cell, also where the window wraps. Toggled one after another, the
cells are then toggled each once, and the collisions are the covered cells that were on before. -/

namespace Chip8

namespace Grid
variable {w h : Nat} {g : Grid w h} {p : Nat × Nat} {ps : List (Nat × Nat)}

def cover (g : Grid w h) (ps : List (Nat × Nat)) : Finset (Fin w × Fin h) :=
  {c | ∃ p ∈ ps, g.Names p.1 p.2 c}

/-- No cell is named by two of the coordinates. -/
def Apart (g : Grid w h) (ps : List (Nat × Nat)) : Prop :=
  ps.Pairwise fun p q => Disjoint (g.named p.1 p.2) (g.named q.1 q.2)

theorem mem_cover {c : Fin w × Fin h} : c ∈ g.cover ps ↔ ∃ p ∈ ps, g.Names p.1 p.2 c := by
  simp [cover]

theorem cover_nil (g : Grid w h) : g.cover [] = ∅ := by
  simp [cover]

theorem cover_cons : g.cover (p :: ps) = g.named p.1 p.2 ∪ g.cover ps := by
  ext c
  simp [mem_cover, mem_named]

theorem Apart.disjoint_cover (hps : g.Apart (p :: ps)) : Disjoint (g.named p.1 p.2) (g.cover ps) := by
  rw [Finset.disjoint_left]
  intro c hp hc
  obtain ⟨q, hq, hnames⟩ := mem_cover.mp hc
  exact Finset.disjoint_left.mp (List.rel_of_pairwise_cons hps hq) hp (mem_named.mpr hnames)

theorem disjoint_named {x y x' y' : Nat} (hne : x % w ≠ x' % w ∨ y % h ≠ y' % h) :
    Disjoint (g.named x y) (g.named x' y') := by
  rw [Finset.disjoint_left]
  intro c hc hc'
  rw [mem_named, Names] at hc hc'
  cases hg : g.wrapping with
  | true =>
    simp only [hg, if_true] at hc hc'
    omega
  | false =>
    simp only [hg, Bool.false_eq_true, if_false] at hc hc'
    obtain ⟨rfl, rfl⟩ := hc
    obtain ⟨rfl, rfl⟩ := hc'
    simp at hne

end Grid

namespace Screen
variable {w h : Nat} {d : Screen w h} {ps : List (Nat × Nat)}

theorem grid_flipAll (hd : d.Legible) (hps : d.grid.Apart ps) :
    (d.flipAll ps).1.grid.on = symmDiff d.grid.on (d.grid.cover ps) ∧
      ((d.flipAll ps).2 = true ↔ (d.grid.on ∩ d.grid.cover ps).Nonempty) := by
  induction ps generalizing d with
  | nil =>
    rw [Grid.cover_nil]
    exact ⟨(symmDiff_bot d.grid.on).symm, by simp [flipAll]⟩
  | cons p ps ih =>
    have hnamed : Disjoint (d.grid.named p.1 p.2) (d.grid.cover ps) := hps.disjoint_cover
    have hflip := grid_flip hd p.1 p.2
    have hon : (d.flip p.1 p.2).grid.on = symmDiff d.grid.on (d.grid.named p.1 p.2) :=
      congrArg Grid.on hflip
    have happart : (d.flip p.1 p.2).grid.Apart ps := by
      rw [hflip]
      exact List.Pairwise.of_cons hps
    have hcover : (d.flip p.1 p.2).grid.cover ps = d.grid.cover ps := by
      rw [hflip]
      rfl
    obtain ⟨hgrid, hhit⟩ := ih (hd.flip p.1 p.2) happart
    rw [hcover, hon] at hgrid hhit
    refine ⟨?_, ?_⟩
    · have hunion : d.grid.named p.1 p.2 ∪ d.grid.cover ps =
          symmDiff (d.grid.named p.1 p.2) (d.grid.cover ps) := hnamed.symmDiff_eq_sup.symm
      rw [Grid.cover_cons, hunion, ← symmDiff_assoc]
      exact hgrid
    · -- toggling the first cell does not change what lies under the others
      have hrest : symmDiff d.grid.on (d.grid.named p.1 p.2) ∩ d.grid.cover ps =
          d.grid.on ∩ d.grid.cover ps := by
        ext c
        have hnot : c ∈ d.grid.cover ps → c ∉ d.grid.named p.1 p.2 := fun hc =>
          Finset.disjoint_right.mp hnamed hc
        simp only [Finset.mem_inter, Finset.mem_symmDiff]
        tauto
      rw [hrest] at hhit
      simp only [flipAll, Bool.or_eq_true, hhit, isOn_eq hd, Grid.isOn, decide_eq_true_eq,
        Grid.cover_cons, Finset.inter_union_distrib_left, Finset.union_nonempty]

theorem settings_flipAll (d : Screen w h) (ps : List (Nat × Nat)) :
    (d.flipAll ps).1.foreground = d.foreground ∧ (d.flipAll ps).1.background = d.background ∧
      (d.flipAll ps).1.wrapping = d.wrapping := by
  induction ps generalizing d with
  | nil => exact ⟨rfl, rfl, rfl⟩
  | cons p ps ih =>
    simp only [flipAll]
    simpa only [foreground_flip, background_flip, wrapping_flip] using ih (d.flip p.1 p.2)

theorem TwoColoured.get_eq (hd : d.TwoColoured) (c : Fin w × Fin h) :
    d.get c = if c ∈ d.grid.on then d.foreground else d.background := by
  split
  · next hc => exact mem_grid.mp hc
  · next hc => exact (hd c).resolve_left (mt mem_grid.mpr hc)

theorem get_flipAll (hd : d.Legible) (hps : d.grid.Apart ps) (c : Fin w × Fin h) :
    (d.flipAll ps).1.get c =
      if ∃ p ∈ ps, d.grid.Names p.1 p.2 c then
        if d.get c = d.foreground then d.background else d.foreground
      else d.get c := by
  obtain ⟨hforeground, hbackground, -⟩ := d.settings_flipAll ps
  have hafter := (hd.flipAll ps).twoColoured.get_eq c
  rw [(grid_flipAll hd hps).1, hforeground, hbackground] at hafter
  rw [hafter, hd.twoColoured.get_eq c]
  simp only [Finset.mem_symmDiff, ← Grid.mem_cover]
  by_cases hon : c ∈ d.grid.on <;> by_cases hcover : c ∈ d.grid.cover ps <;>
    simp [hon, hcover, hd.apart.symm]

theorem flipAll_hit_iff (hd : d.Legible) (hps : d.grid.Apart ps) : (d.flipAll ps).2 = true ↔
    ∃ c, (∃ p ∈ ps, d.grid.Names p.1 p.2 c) ∧ d.get c = d.foreground := by
  simp only [(grid_flipAll hd hps).2, Finset.Nonempty, Finset.mem_inter, mem_grid, Grid.mem_cover,
    and_comm]

end Screen

namespace Cpu

theorem mem_litBits {row : UInt8} {k : Nat} :
    k ∈ litBits row ↔ k < 8 ∧ row.toNat &&& (0x80 >>> k) ≠ 0 := by
  have hmask : ∀ k < 8, 0x80 >>> k = 2 ^ (7 - k) := by decide
  rw [litBits, List.mem_filter, List.mem_range]
  apply and_congr_right
  intro hk
  rw [hmask k hk, Nat.and_two_pow]
  cases row.toNat.testBit (7 - k) <;> simp

theorem pairwise_litBits (row : UInt8) : (litBits row).Pairwise (· < ·) :=
  List.pairwise_lt_range.filter _

/-- A set bit of a sprite comes to the cell. The rows are the bytes from the index on. -/
def Covers (s : Cpu) (x y n : Fin 16) (c : Fin 64 × Fin 32) : Prop :=
  ∃ row < n.val, ∃ bit < 8,
    (s.memory.get ⟨(s.i.toNat + row) % 4096, Nat.mod_lt _ (by decide)⟩).toNat &&&
      0x80 >>> bit ≠ 0 ∧
    s.screen.grid.Names ((s.reg x).toNat + bit) ((s.reg y).toNat + row) c

theorem mem_spriteCells {s : Cpu} {ox oy rows : Nat} {p : Nat × Nat} :
    p ∈ s.spriteCells ox oy rows ↔ ∃ row < rows, ∃ bit ∈ litBits (s.memory.read (s.indexed row)),
      p = (ox + bit, oy + row) := by
  simp [spriteCells, eq_comm]

theorem covers_iff {s : Cpu} {x y n : Fin 16} {c : Fin 64 × Fin 32} : s.Covers x y n c ↔
    ∃ p ∈ s.spriteCells (s.reg x).toNat (s.reg y).toNat n.val, s.screen.grid.Names p.1 p.2 c := by
  constructor
  · rintro ⟨row, hrow, bit, hbit, hset, hc⟩
    refine ⟨_, mem_spriteCells.mpr ⟨row, hrow, bit, ?_, rfl⟩, hc⟩
    rw [read_indexed]
    exact mem_litBits.mpr ⟨hbit, hset⟩
  · rintro ⟨p, hp, hc⟩
    obtain ⟨row, hrow, bit, hbit, rfl⟩ := mem_spriteCells.mp hp
    rw [read_indexed, mem_litBits] at hbit
    exact ⟨row, hrow, bit, hbit.1, hbit.2, hc⟩

/-- Columns of a byte differ modulo the width of the screen, and rows modulo its height. -/
theorem apart_spriteCells (s : Cpu) (g : Grid 64 32) (ox oy : Nat) {rows : Nat}
    (hrows : rows ≤ 32) : g.Apart (s.spriteCells ox oy rows) := by
  rw [Grid.Apart, spriteCells, List.pairwise_flatMap]
  constructor
  · intro row _
    rw [List.pairwise_map]
    refine (pairwise_litBits _).imp_of_mem ?_
    intro k k' hk hk' hlt
    have hk'8 := (mem_litBits.mp hk').1
    apply Grid.disjoint_named
    left
    omega
  · refine List.pairwise_lt_range.imp_of_mem ?_
    intro row row' _ hrow' hlt p hp p' hp'
    obtain ⟨k, -, rfl⟩ := List.mem_map.mp hp
    obtain ⟨k', -, rfl⟩ := List.mem_map.mp hp'
    have hrow'32 := List.mem_range.mp hrow'
    apply Grid.disjoint_named
    right
    omega

end Cpu

namespace Word

def draw (x y n : Fin 16) : Word := UInt16.ofNat (0xD000 + 256 * x.val + 16 * y.val + n.val)

theorem digits_draw (x y n : Fin 16) : (draw x y n).family.val = 13 ∧ (draw x y n).x = x ∧
    (draw x y n).y = y ∧ (draw x y n).n = n := by
  have hword : (draw x y n).toNat = 0xD000 + 256 * x.val + 16 * y.val + n.val := by
    rw [draw, UInt16.toNat_ofNat']
    omega
  simp only [family, Word.x, Word.y, Word.n, Fin.ext_iff, hword]
  omega

end Word

namespace Cpu

theorem execute_draw (random : UInt8) (s : Cpu) (x y n : Fin 16) :
    s.execute random (.ofWord (Word.draw x y n)) = ((s.drawSprite x y n).advance, .proceed) := by
  obtain ⟨hfamily, hx, hy, hn⟩ := Word.digits_draw x y n
  have hop : (Instruction.ofWord (Word.draw x y n)).opcode = .draw := by
    rw [Instruction.opcode_ofWord, Opcode.decode, hfamily]
    rfl
  rw [execute, hop]
  simp only [next, Instruction.x, Instruction.y, Instruction.n, Instruction.word_ofWord, hx, hy, hn]

/-- A sprite toggles each cell that it covers and nothing else, and the flag tells whether one of
them was on. -/
theorem sprite_toggles_covered_cells (random : UInt8) {s : Cpu} (hs : s.screen.Legible)
    (x y n : Fin 16) :
    let drawn := (s.execute random (.ofWord (Word.draw x y n))).1
    (∀ c, s.Covers x y n c → drawn.screen.get c =
      if s.screen.get c = s.screen.foreground then s.screen.background
      else s.screen.foreground) ∧
    (∀ c, ¬s.Covers x y n c → drawn.screen.get c = s.screen.get c) ∧
    ((∃ c, s.Covers x y n c ∧ s.screen.get c = s.screen.foreground) → drawn.reg flag = 1) ∧
    ((¬∃ c, s.Covers x y n c ∧ s.screen.get c = s.screen.foreground) → drawn.reg flag = 0) ∧
    drawn.pc = s.pc + 2 ∧ (∀ j, j ≠ flag → drawn.reg j = s.reg j) ∧
    drawn.i = s.i ∧ drawn.memory = s.memory ∧ drawn.stack = s.stack ∧
    drawn.keypad = s.keypad ∧ drawn.timers = s.timers ∧
    drawn.screen.foreground = s.screen.foreground ∧
    drawn.screen.background = s.screen.background ∧ drawn.screen.wrapping = s.screen.wrapping := by
  have happart := s.apart_spriteCells s.screen.grid (s.reg x).toNat (s.reg y).toNat
    (Nat.le_of_lt (Nat.lt_trans n.isLt (by decide)))
  have hget := Screen.get_flipAll hs happart
  have hhit := Screen.flipAll_hit_iff hs happart
  simp only [← covers_iff] at hhit
  rw [execute_draw]
  have hflag := reg_setReg s flag flag
    (bit (s.screen.flipAll (s.spriteCells (s.reg x).toNat (s.reg y).toNat n.val)).2)
  rw [if_pos rfl] at hflag
  refine ⟨?_, ?_, ?_, ?_, rfl, ?_, rfl, rfl, rfl, rfl, rfl, s.screen.settings_flipAll _⟩
  · intro c hc
    exact (hget c).trans (if_pos (covers_iff.mp hc))
  · intro c hc
    exact (hget c).trans (if_neg (mt covers_iff.mpr hc))
  · intro hcollides
    exact hflag.trans (by rw [hhit.mpr hcollides]; rfl)
  · intro hclear
    exact hflag.trans (by rw [Bool.eq_false_iff.mpr (mt hhit.mp hclear)]; rfl)
  · intro j hj
    exact (reg_setReg s flag j _).trans (if_neg hj)

def overEdge : Cpu :=
  { start 0 with
    v := (Vector.replicate 16 0).set 15 63
    screen := (Screen.blank 64 32).put (0, 0) Screen.defaultForeground }

theorem get_overEdge (c : Fin 64 × Fin 32) : overEdge.screen.get c =
    if c = (0, 0) then Screen.defaultForeground else Screen.defaultBackground := by
  have hput := Screen.get_put (Screen.blank 64 32) (0, 0) c Screen.defaultForeground
  rwa [Screen.get_blank] at hput

theorem legible_overEdge : overEdge.screen.Legible where
  apart := by decide
  twoColoured := Screen.TwoColoured.blank.put (.inl rfl) (0, 0)

theorem topRow_overEdge : (overEdge.memory.read (overEdge.indexed 0)).toNat = 0xF0 :=
  congrArg UInt8.toNat (Memory.get_ofRom [] 0)

theorem covers_of_topRow {s : Cpu} {x y n : Fin 16} {c : Fin 64 × Fin 32} {bit : Nat}
    (hrow : (s.memory.read (s.indexed 0)).toNat = 0xF0) (hn : 0 < n.val) (hbit : bit < 4)
    (hc : s.screen.grid.Names ((s.reg x).toNat + bit) ((s.reg y).toNat + 0) c) :
    s.Covers x y n c := by
  have hset : ∀ bit < 4, 0xF0 &&& 0x80 >>> bit ≠ 0 := by decide
  refine ⟨0, hn, bit, by omega, ?_, hc⟩
  change (s.memory.get (s.place 0)).toNat &&& 0x80 >>> bit ≠ 0
  rw [← read_indexed, hrow]
  exact hset bit hbit

theorem glyph_wraps_over_edge :
    let drawn := (overEdge.execute 0 (.ofWord (Word.draw 15 0 5))).1
    overEdge.screen.Legible ∧ drawn.screen.get (0, 0) = Screen.defaultBackground ∧
      drawn.screen.get (63, 0) = Screen.defaultForeground ∧
      drawn.screen.get (32, 0) = Screen.defaultBackground ∧ drawn.reg flag = 1 := by
  have hx : (overEdge.reg 15).toNat = 63 := rfl
  have hcorner : overEdge.Covers 15 0 5 (0, 0) :=
    covers_of_topRow topRow_overEdge (by decide) (by decide : 1 < 4) ⟨rfl, rfl⟩
  have hedge : overEdge.Covers 15 0 5 (63, 0) :=
    covers_of_topRow topRow_overEdge (by decide) (by decide : 0 < 4) ⟨rfl, rfl⟩
  have hoff : ¬overEdge.Covers 15 0 5 (32, 0) := by
    rintro ⟨row, -, bit, hbit, -, hcolumn, -⟩
    rw [hx] at hcolumn
    have h32 : 32 = (63 + bit) % 64 := hcolumn
    omega
  obtain ⟨hcovered, hother, hcollides, -⟩ := sprite_toggles_covered_cells 0 legible_overEdge 15 0 5
  refine ⟨legible_overEdge, ?_, ?_, ?_, ?_⟩
  · rw [hcovered _ hcorner, get_overEdge]
    rfl
  · rw [hcovered _ hedge, get_overEdge]
    rfl
  · rw [hother _ hoff, get_overEdge]
    rfl
  · exact hcollides ⟨_, hcorner, get_overEdge _⟩

end Cpu
end Chip8
