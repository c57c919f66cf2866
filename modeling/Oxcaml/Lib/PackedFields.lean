/-
Oxcaml.Lib.PackedFields — several small numbers in one word.

A field is the run of `k` bits that starts at some position. Fields that do not overlap
do not see each other: a shift fills one of them, a mask empties one of them.
-/
import Mathlib.Tactic

namespace Oxcaml.Lib.PackedFields

variable {w k s s' : ℕ} {a b x : BitVec w}

/-- The `k` lowest bits. -/
def mask (w k : ℕ) : BitVec w := (BitVec.allOnes k).setWidth w

/-- The field of width `k` at position `s`. -/
def field (k s : ℕ) (x : BitVec w) : BitVec w := (x &&& (mask w k <<< s)) >>> s

/-- `x` fits in a field of width `k`. -/
def Fits (k : ℕ) (x : BitVec w) : Prop := x.toNat < 2 ^ k

def Apart (k s s' : ℕ) : Prop := s + k ≤ s' ∨ s' + k ≤ s

@[simp] theorem getLsbD_mask (i : ℕ) : (mask w k).getLsbD i =
    (decide (i < w) && decide (i < k)) := by
  simp [mask]

theorem getLsbD_field (i : ℕ) :
    (field k s x).getLsbD i = (decide (i < k) && x.getLsbD (s + i)) := by
  rw [field, BitVec.getLsbD_ushiftRight, BitVec.getLsbD_and, BitVec.getLsbD_shiftLeft,
    getLsbD_mask, Nat.add_sub_cancel_left]
  by_cases h : s + i < w
  · simp only [h, show i < w by omega, show ¬ s + i < s by omega, Bool.not_false]
    exact Bool.and_comm _ _
  · simp [BitVec.getLsbD_of_ge x (s + i) (by omega)]

theorem Fits.getLsbD (h : Fits k x) {i : ℕ} (hi : k ≤ i) : x.getLsbD i = false :=
  Nat.testBit_lt_two_pow (lt_of_lt_of_le h (Nat.pow_le_pow_right two_pos hi))

theorem fits_field : Fits k (field k s x) := by
  refine Nat.lt_pow_two_of_testBit _ fun i hi => ?_
  have hbit := getLsbD_field (k := k) (s := s) (x := x) i
  rw [decide_eq_false (by omega)] at hbit
  exact hbit

/-! ## §1 What a field sees -/

@[simp] theorem field_zero : field k s (0#w) = 0#w := by
  simp [field]

@[simp] theorem field_or : field k s (a ||| b) = field k s a ||| field k s b := by
  refine BitVec.eq_of_getLsbD_eq fun i _ => ?_
  simp only [getLsbD_field, BitVec.getLsbD_or]
  cases decide (i < k) <;> simp

/-- A number that was put in the field. -/
theorem field_shiftLeft (hx : Fits k x) (hs : s + k ≤ w) : field k s (x <<< s) = x := by
  refine BitVec.eq_of_getLsbD_eq fun i hi => ?_
  rw [getLsbD_field, BitVec.getLsbD_shiftLeft]
  by_cases hk : i < k
  · simp [hk, show s + i < w by omega]
  · simp [hx.getLsbD (by omega : k ≤ i)]

/-- A number that was put in another field. -/
theorem field_shiftLeft_apart (hx : Fits k x) (h : Apart k s s') : field k s' (x <<< s) = 0#w := by
  refine BitVec.eq_of_getLsbD_eq fun i hi => ?_
  rw [getLsbD_field]
  by_cases hk : i < k
  · rcases h with h | h
    · simp [hx.getLsbD (by omega : k ≤ s' + i - s)]
    · simp [show s' + i < s by omega]
  · simp [hk]

theorem getLsbD_clear (i : ℕ) : (x &&& ~~~(mask w k <<< s)).getLsbD i =
    (x.getLsbD i && !decide (s ≤ i ∧ i < s + k)) := by
  rw [BitVec.getLsbD_and, BitVec.getLsbD_not, BitVec.getLsbD_shiftLeft, getLsbD_mask]
  by_cases hw : i < w
  · by_cases hs : i < s
    · simp [hw, hs]
    · simp [hw, hs, show i - s < w by omega, show s ≤ i by omega,
        show (i - s < k) = (i < s + k) from propext (by omega)]
  · rw [BitVec.getLsbD_of_ge x i (by omega), Bool.false_and, Bool.false_and]

/-- The field that a mask has emptied. -/
theorem field_clear : field k s (x &&& ~~~(mask w k <<< s)) = 0#w := by
  refine BitVec.eq_of_getLsbD_eq fun i hi => ?_
  rw [getLsbD_field, getLsbD_clear]
  by_cases hk : i < k
  · simp [hk]
  · simp [hk]

/-- A field beside the one that a mask has emptied. -/
theorem field_clear_apart (h : Apart k s s') :
    field k s' (x &&& ~~~(mask w k <<< s)) = field k s' x := by
  refine BitVec.eq_of_getLsbD_eq fun i hi => ?_
  rw [getLsbD_field, getLsbD_field, getLsbD_clear]
  by_cases hk : i < k
  · have hout : ¬ (s ≤ s' + i ∧ s' + i < s + k) := by
      rcases h with h | h <;> lia
    rw [decide_eq_false hout, Bool.not_false, Bool.and_true]
  · rw [decide_eq_false hk, Bool.false_and, Bool.false_and]

end Oxcaml.Lib.PackedFields
