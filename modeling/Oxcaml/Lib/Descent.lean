/-
Oxcaml.Lib.Descent — how long a family of bounds in finite orders can
keep going down.

A propagation algorithm keeps one bound per index and only ever lowers
bounds. In finite orders the number of elements below a bound is a
measure that drops with every change; `potential` sums it over the
indices in play. An algorithm that lowers at least one bound per round
therefore runs at most `potential` many rounds.
-/
import Mathlib

namespace Oxcaml.Lib

/-- The number of elements below `x`. -/
def height {α : Type*} [Fintype α] [LE α] [DecidableLE α] (x : α) : Nat :=
  (Finset.univ.filter (· ≤ x)).card

theorem height_mono {α : Type*} [Fintype α] [Preorder α] [DecidableLE α] {x y : α} (h : x ≤ y) :
    height x ≤ height y := by
  apply Finset.card_le_card
  intro z hz
  simp only [Finset.mem_filter, Finset.mem_univ, true_and] at hz ⊢
  exact hz.trans h

theorem height_strictMono {α : Type*} [Fintype α] [PartialOrder α] [DecidableLE α] {x y : α}
    (h : x < y) : height x < height y := by
  apply Finset.card_lt_card
  refine ⟨?_, fun hsub => ?_⟩
  · intro z hz
    simp only [Finset.mem_filter, Finset.mem_univ, true_and] at hz ⊢
    exact hz.trans h.le
  have hy : y ∈ Finset.univ.filter (· ≤ x) := hsub (by simp)
  simp only [Finset.mem_filter, Finset.mem_univ, true_and] at hy
  exact absurd hy h.not_ge

section Potential

variable {ι : Type*} {α : ι → Type*} [∀ i, Fintype (α i)] [∀ i, PartialOrder (α i)]
  [∀ i, DecidableLE (α i)]

/-- The summed heights of the bounds `u` at the indices `l`. -/
def potential (l : List ι) (u : ∀ i, α i) : Nat := (l.map fun i => height (u i)).sum

variable {u u' : ∀ i, α i}

theorem potential_mono (l : List ι) (h : u' ≤ u) : potential l u' ≤ potential l u := by
  induction l with
  | nil => exact Nat.le_refl 0
  | cons i l ih =>
    simp only [potential, List.map_cons] at ih ⊢
    exact Nat.add_le_add (height_mono (h i)) ih

/-- Lowering one of the bounds in play lowers the potential. -/
theorem potential_lt {l : List ι} (h : u' ≤ u) {i : ι} (hi : i ∈ l)
    (hlt : u' i < u i) : potential l u' < potential l u := by
  induction l with
  | nil => cases hi
  | cons j l ih =>
    simp only [potential, List.map_cons]
    rcases List.mem_cons.1 hi with rfl | hi
    · exact Nat.add_lt_add_of_lt_of_le (height_strictMono hlt) (potential_mono l h)
    · exact Nat.add_lt_add_of_le_of_lt (height_mono (h j)) (ih hi)

end Potential

end Oxcaml.Lib
