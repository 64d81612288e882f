/-!
A finite set of instruction indices, kept in ascending order and without repetition, so that two
sets with the same members are equal.
-/

namespace Chip8

@[ext] structure Breakpoints where
  indices : List Nat
  ascending : indices.Pairwise (· < ·)
deriving DecidableEq

namespace Breakpoints

def empty : Breakpoints := ⟨[], .nil⟩

instance : Membership Nat Breakpoints where
  mem b k := k ∈ b.indices

instance (k : Nat) (b : Breakpoints) : Decidable (k ∈ b) :=
  inferInstanceAs (Decidable (k ∈ b.indices))

/-- What is below the index stays before it, and what is above stays behind it. -/
def insert (b : Breakpoints) (k : Nat) : Breakpoints where
  indices := b.indices.filter (· < k) ++ k :: b.indices.filter (k < ·)
  ascending := by
    have habove : ∀ j ∈ b.indices.filter (k < ·), k < j := by simp
    refine List.pairwise_append.mpr
      ⟨b.ascending.filter _, List.pairwise_cons.mpr ⟨habove, b.ascending.filter _⟩, ?_⟩
    intro i hi j hj
    have hbelow : i < k := by simpa using (List.mem_filter.mp hi).2
    rcases List.mem_cons.mp hj with rfl | hj
    · exact hbelow
    · exact Nat.lt_trans hbelow (habove j hj)

def erase (b : Breakpoints) (k : Nat) : Breakpoints :=
  ⟨b.indices.filter (· ≠ k), b.ascending.filter _⟩

theorem mem_insert {b : Breakpoints} {j k : Nat} : j ∈ b.insert k ↔ j = k ∨ j ∈ b := by
  change j ∈ b.indices.filter (· < k) ++ k :: b.indices.filter (k < ·) ↔ j = k ∨ j ∈ b.indices
  simp only [List.mem_append, List.mem_cons, List.mem_filter, decide_eq_true_eq]
  rcases Nat.lt_trichotomy j k with h | rfl | h
  · simp [h, Nat.ne_of_lt h, Nat.lt_asymm h]
  · simp
  · simp [h, Nat.ne_of_gt h, Nat.lt_asymm h]

end Breakpoints
end Chip8
