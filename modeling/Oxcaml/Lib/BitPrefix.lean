/-
Oxcaml.Lib.BitPrefix — prefixes of machine words, read from the top bit.

Two words agree from position `n` when they have the same bits at `n` and
above. A word whose lowest set bit is `n` packs a position together with
the bits above it. The lemmas relate the usual tricks on such words
(`x land -x`, `x land -(bit lsl 1)`, signed comparison of `bit - 1`, leading
zeros of an exclusive or) to bit positions, for words of any width.
-/
import Mathlib.Data.Nat.Bitwise
import Mathlib.Data.Nat.Find
import Mathlib.Tactic.Ring

namespace Oxcaml.Lib

open BitVec (twoPow ult_iff_lt)

variable {w : Nat} {x y z : BitVec w} {n m : Nat}

/-! ## Agreement of high bits -/

/-- `x` and `y` have the same bits from position `n` on. -/
def AgreeFrom (n : Nat) (x y : BitVec w) : Prop := ∀ m, n ≤ m → x.getLsbD m = y.getLsbD m

theorem AgreeFrom.refl (n : Nat) (x : BitVec w) : AgreeFrom n x x := fun _ _ => rfl

theorem AgreeFrom.symm (h : AgreeFrom n x y) : AgreeFrom n y x := fun m hm => (h m hm).symm

theorem AgreeFrom.trans (h₁ : AgreeFrom n x y) (h₂ : AgreeFrom n y z) : AgreeFrom n x z :=
  fun m hm => (h₁ m hm).trans (h₂ m hm)

theorem AgreeFrom.mono (h : AgreeFrom n x y) (hnm : n ≤ m) : AgreeFrom m x y :=
  fun k hk => h k (hnm.trans hk)

theorem agreeFrom_zero_iff : AgreeFrom 0 x y ↔ x = y := by
  refine ⟨fun h => BitVec.eq_of_getLsbD_eq fun m _ => h m (Nat.zero_le m), ?_⟩
  rintro rfl
  exact .refl 0 x

/-- The highest position at which two words differ. -/
theorem exists_highest_difference (hne : x ≠ y) :
    ∃ n < w, x.getLsbD n ≠ y.getLsbD n ∧ AgreeFrom (n + 1) x y ∧
      w - 1 - (x ^^^ y).clz.toNat = n := by
  have hw : 0 < w := by
    rcases Nat.eq_zero_or_pos w with rfl | hw
    · exact absurd (BitVec.eq_of_zero_length rfl) hne
    · exact hw
  have hxor : x ^^^ y ≠ 0#w := fun h => hne (BitVec.xor_eq_zero_iff.1 h)
  have hbit := BitVec.getLsbD_true_clz_of_ne_zero hw hxor
  have hlt : w - 1 - (x ^^^ y).clz.toNat < w := by omega
  refine ⟨_, hlt, ?_, fun m hm => ?_, rfl⟩
  · intro h; simp [h] at hbit
  have hhigh : ∀ j, (x ^^^ y).getLsbD (w - (x ^^^ y).clz.toNat + j) = false := by
    apply BitVec.getLsbD_false_of_clzAuxRec
    intro i hi
    exact BitVec.getLsbD_of_ge _ _ (by omega)
  have hm' := hhigh (m - (w - (x ^^^ y).clz.toNat))
  rw [Nat.add_sub_cancel' (by omega)] at hm'
  simpa [BitVec.getLsbD_xor] using hm'

/-! ## The lowest set bit -/

/-- `n` is the position of the lowest set bit of `x`. -/
def IsLowest (x : BitVec w) (n : Nat) : Prop :=
  x.getLsbD n = true ∧ ∀ m < n, x.getLsbD m = false

theorem exists_isLowest (hx : x ≠ 0) : ∃ n, IsLowest x n := by
  have hex : ∃ n, x.getLsbD n = true := by
    by_contra hall
    simp only [not_exists] at hall
    exact hx (BitVec.eq_of_getLsbD_eq fun m _ => by simp [hall m])
  refine ⟨Nat.find hex, Nat.find_spec hex, fun m hm => ?_⟩
  simpa using Nat.find_min hex hm

theorem IsLowest.lt (h : IsLowest x n) : n < w := by
  by_contra hge
  have := h.1
  rw [BitVec.getLsbD_of_ge _ _ (by omega)] at this
  cases this

theorem IsLowest.unique (hn : IsLowest x n) (hm : IsLowest x m) : n = m := by
  rcases Nat.lt_trichotomy n m with hlt | heq | hgt
  · exact absurd hn.1 (by simp [hm.2 n hlt])
  · exact heq
  · exact absurd hm.1 (by simp [hn.2 m hgt])

theorem IsLowest.and_neg (h : IsLowest x n) : x &&& -x = twoPow w n := by
  apply BitVec.eq_of_getLsbD_eq
  intro m hm
  rw [BitVec.getLsbD_and, BitVec.getLsbD_neg, BitVec.getLsbD_twoPow]
  rcases Nat.lt_trichotomy m n with hlt | rfl | hgt
  · simp [h.2 m hlt, Nat.ne_of_gt hlt]
  · have hnone : ¬ ∃ j < m, x.getLsbD j = true := by
      rintro ⟨j, hj, hset⟩
      simp [h.2 j hj] at hset
    simp [h.1, hnone, hm]
  · have hsome : ∃ j < m, x.getLsbD j = true := ⟨n, hgt, h.1⟩
    cases hx : x.getLsbD m <;> simp [hsome, hm, Nat.ne_of_lt hgt]

section

variable (hn : n < w)
include hn

/-- `x land -(bit lsl 1)` keeps the bits above `bit`. -/
theorem getLsbD_and_neg_twoPow :
    (x &&& -(twoPow w n <<< 1)).getLsbD m = (x.getLsbD m && decide (n < m)) := by
  rcases Nat.lt_or_ge m w with hm | hm
  · have hbit : ∀ j, j < w → (twoPow w n <<< 1).getLsbD j = decide (j = n + 1) := by
      intro j hj
      rw [BitVec.getLsbD_shiftLeft, BitVec.getLsbD_twoPow]
      simp only [hj, hn, decide_true]
      rcases Nat.eq_zero_or_pos j with rfl | hpos
      · simp
      · simp only [Nat.not_lt.2 hpos, Bool.not_false]; exact decide_eq_decide.2 (by omega)
    have hex : (∃ j < m, (twoPow w n <<< 1).getLsbD j = true) ↔ n + 1 < m := by
      refine ⟨fun ⟨j, hj, hset⟩ => ?_, fun h => ⟨n + 1, h, by rw [hbit _ (h.trans hm)]; simp⟩⟩
      rw [hbit j (hj.trans hm)] at hset
      have := of_decide_eq_true hset
      omega
    rw [BitVec.getLsbD_and, BitVec.getLsbD_neg, hbit m hm]
    simp only [hex]
    congr 1
    rcases Nat.lt_trichotomy m (n + 1) with h | h | h
    · simp [show ¬ n + 1 < m by omega, show m ≠ n + 1 by omega, show ¬ n < m by omega]
    · subst h; simp
    · simp [h, hm, show m ≠ n + 1 by omega, show n < m by omega]
  · simp [BitVec.getLsbD_of_ge x m hm]

theorem twoPow_sub_one_toInt : (twoPow w n - 1).toInt = 2 ^ n - 1 := by
  have hpow : 2 ^ n < 2 ^ w := Nat.pow_lt_pow_right (by decide) hn
  have hle : 2 ^ n ≤ 2 ^ (w - 1) := Nat.pow_le_pow_right (by decide) (by omega)
  have hdouble : 2 ^ w = 2 * 2 ^ (w - 1) := by
    rw [← Nat.pow_succ']
    congr 1
    omega
  have hpos : 0 < 2 ^ n := Nat.two_pow_pos n
  have hnat : (twoPow w n - 1).toNat = 2 ^ n - 1 := by
    have hone : (1 : BitVec w).toNat = 1 := by
      have h : (1 : Nat) < 2 ^ w := by omega
      simpa using Nat.mod_eq_of_lt h
    rw [BitVec.toNat_sub, BitVec.toNat_twoPow, Nat.mod_eq_of_lt hpow, hone]
    rw [show 2 ^ w - 1 + 2 ^ n = (2 ^ n - 1) + 2 ^ w by omega, Nat.add_mod_right]
    exact Nat.mod_eq_of_lt (by omega)
  rw [BitVec.toInt_eq_toNat_of_lt (by omega), hnat]
  simp

/-- Signed comparison orders single bits minus one by position, the sign
bit included. -/
theorem twoPow_sub_one_slt (hm : m < w) :
    (twoPow w n - 1).slt (twoPow w m - 1) = decide (n < m) := by
  rw [BitVec.slt_eq_decide, twoPow_sub_one_toInt hn, twoPow_sub_one_toInt hm, decide_eq_decide]
  have hcast : (2 : Int) ^ n < 2 ^ m ↔ n < m := by
    rw [show (2 : Int) ^ n = ((2 ^ n : Nat) : Int) by simp,
      show (2 : Int) ^ m = ((2 ^ m : Nat) : Int) by simp, Int.ofNat_lt]
    exact Nat.pow_lt_pow_iff_right (by decide)
  omega

theorem and_twoPow_eq_zero_iff :
    x &&& twoPow w n = 0 ↔ x.getLsbD n = false := by
  rw [BitVec.and_twoPow]
  cases h : x.getLsbD n
  · simp
  simp only [Bool.true_eq_false, iff_false]
  intro hzero
  have := congrArg (fun y => BitVec.getLsbD y n) hzero
  simp [hn] at this

/-! ## Signed comparison -/

/-- The highest difference decides the comparison; at the sign bit the
word that has it set is the smaller one. -/
theorem slt_of_difference (hne : x.getLsbD n ≠ y.getLsbD n)
    (h : AgreeFrom (n + 1) x y) : x.slt y = if n = w - 1 then x.getLsbD n else y.getLsbD n := by
  have hult : ∀ {a b : BitVec w}, a.getLsbD n = false → b.getLsbD n = true →
      AgreeFrom (n + 1) a b → a.ult b = true := by
    intro a b ha hb hab
    rw [ult_iff_lt]
    exact Nat.lt_of_testBit n ha hb fun j hj => hab j hj
  have hult' : x.ult y = y.getLsbD n := by
    cases hy : y.getLsbD n with
    | true => exact hult (by simpa [hy] using hne) hy h
    | false =>
      have hlt : y < x := ult_iff_lt.1 (hult hy (by simpa [hy] using hne) h.symm)
      rw [Bool.eq_false_iff, ne_eq, ult_iff_lt]
      exact BitVec.not_lt.2 (BitVec.le_of_lt hlt)
  rw [BitVec.slt_eq_ult, hult', BitVec.msb_eq_getLsbD_last, BitVec.msb_eq_getLsbD_last]
  split
  case isTrue htop => cases hx : x.getLsbD (w - 1) <;> cases hy : y.getLsbD (w - 1) <;> simp_all
  case isFalse htop => simp [h (w - 1) (by omega)]

end

end Oxcaml.Lib
