/-
Oxcaml.Lib.IntCompare — comparison functions that return an integer.

`TotalOrder c` says that the sign of `c x y` orders the type: exchanging the
arguments exchanges the sign, and `≤` is transitive. The sign 0 is then an
equivalence, which need not be equality.

Comparisons of composite values compare one part after the other (`lexInt`).
Transitivity of such a comparison needs the strict forms for the parts as
well, so it is proved through `Chain`, which holds of the parts and is kept by
`lexInt`.
-/
import Mathlib.Init

namespace Oxcaml.Lib

/-- The comparison by the sign of `c` is a total preorder. -/
structure TotalOrder {α : Type} (c : α → α → Int) : Prop where
  antisymm : ∀ x y, c x y < 0 ↔ 0 < c y x
  trans : ∀ x y z, c x y ≤ 0 → c y z ≤ 0 → c x z ≤ 0

/-- Compare by the first result, and by the second where the first is 0. -/
def lexInt (a b : Int) : Int := if a = 0 then b else a

/-- The results of comparing `x` with `y`, `y` with `z` and `x` with `z`. -/
structure Chain (xy yz xz : Int) : Prop where
  le : xy ≤ 0 → yz ≤ 0 → xz ≤ 0
  lt_left : xy < 0 → yz ≤ 0 → xz < 0
  lt_right : xy ≤ 0 → yz < 0 → xz < 0

/-- The results of comparing two values, both ways. -/
def Opposite (xy yx : Int) : Prop := (xy < 0 ↔ 0 < yx) ∧ (yx < 0 ↔ 0 < xy)

theorem Opposite.lex {a b a' b' : Int} (h : Opposite a b) (h' : Opposite a' b') :
    Opposite (lexInt a a') (lexInt b b') := by
  obtain ⟨h₁, h₂⟩ := h
  obtain ⟨h₁', h₂'⟩ := h'
  unfold Opposite lexInt
  split <;> split <;> lia

theorem Chain.lex {xy yz xz xy' yz' xz' : Int} (h : Chain xy yz xz) (h' : Chain xy' yz' xz') :
    Chain (lexInt xy xy') (lexInt yz yz') (lexInt xz xz') := by
  obtain ⟨h₁, h₂, h₃⟩ := h
  obtain ⟨h₁', h₂', h₃'⟩ := h'
  unfold lexInt
  constructor <;> split <;> split <;> split <;> lia

section TotalOrder

variable {α : Type} {c : α → α → Int} (h : TotalOrder c)
include h

theorem TotalOrder.opposite (x y : α) : Opposite (c x y) (c y x) := ⟨h.antisymm x y, h.antisymm y x⟩

theorem TotalOrder.self (x : α) : c x x = 0 := by
  have := h.antisymm x x
  omega

theorem TotalOrder.chain (x y z : α) : Chain (c x y) (c y z) (c x z) := by
  have hxy := h.opposite x y
  have hyz := h.opposite y z
  have hxz := h.opposite x z
  have hzyx := h.trans y z x
  have hzxy := h.trans z x y
  have := h.trans x y z
  unfold Opposite at hxy hyz hxz
  constructor <;> lia

end TotalOrder

/-- Opposite results and chains are all that a total order is. -/
theorem TotalOrder.of_chain {α : Type} {c : α → α → Int} (hopp : ∀ x y, Opposite (c x y) (c y x))
    (hchain : ∀ x y z, Chain (c x y) (c y z) (c x z)) : TotalOrder c :=
  ⟨fun x y => (hopp x y).1, fun x y z => (hchain x y z).le⟩

end Oxcaml.Lib
