/-
Oxcaml.Lib.Reciprocal — division by multiplication with a rounded reciprocal.

A quotient `n / d` can be computed as `n * m / x`, where `x` is a power of two
and `m` is `x / d` rounded up. The rounding adds `e` to `m * d = x + e`, and the
quotient is exact as long as `c * e < x`, where `c` is the largest dividend with
remainder `d - 1` (§1). A search for such an `x` doubles it until the test
succeeds; §2 has what one doubling does to quotients and remainders, and §3 the
bounds that hold while the test fails.
-/
import Mathlib.Tactic.Linarith
import Mathlib.Tactic.Ring
import Mathlib.Algebra.Order.Ring.Nat

namespace Oxcaml.Lib.Reciprocal

open Nat (mod_lt)

variable {c d e m n x : Nat}

/-! ## §1 Exact quotients -/

/-- A dividend with the largest remainder bounds the error of all the others. -/
theorem error_lt (hc : c % d = d - 1) (hd : 2 ≤ d) (he : c * e < x) (hn : n < c + d) :
    n * e < x * (d - n % d) := by
  have hmod : n % d < d := mod_lt _ (by omega)
  rcases Nat.lt_or_ge c n with hlt | hle
  · -- beyond `c` remainders start again from 0, so two is left to `d`
    have hcd := Nat.div_add_mod c d
    have hrem : n % d = n - (c + 1) := by
      have hdvd : n = n - (c + 1) + d * (c / d + 1) := by rw [Nat.mul_add]; omega
      rw [hdvd, Nat.add_mul_mod_self_left, Nat.mod_eq_of_lt (by omega)]
      omega
    calc n * e ≤ 2 * c * e := Nat.mul_le_mul_right e (by omega)
      _ < 2 * x := by rw [Nat.mul_assoc]; omega
      _ ≤ x * (d - n % d) := by rw [Nat.mul_comm]; exact Nat.mul_le_mul_left x (by omega)
  calc n * e ≤ c * e := Nat.mul_le_mul_right e hle
    _ < x := he
    _ ≤ x * (d - n % d) := Nat.le_mul_of_pos_right x (by omega)

section

variable (hm : m * d = x + e)
include hm

/-- The product of the dividend and the reciprocal, scaled by the divisor. -/
theorem mul_mul_eq (n : Nat) :
    n * m * d = (n / d) * x * d + (n % d * x + n * e) := by
  have hn := Nat.div_add_mod n d
  calc n * m * d = n * (m * d) := by ring
    _ = (d * (n / d) + n % d) * x + n * e := by rw [hm, hn]; ring
    _ = (n / d) * x * d + (n % d * x + n * e) := by ring

theorem le_mul (hd : 0 < d) : (n / d) * x ≤ n * m := by
  have h := mul_mul_eq hm n
  exact Nat.le_of_mul_le_mul_right (by omega) hd

theorem mul_div_eq (hd : 0 < d) (h : n * e < x * (d - n % d)) :
    n * m / x = n / d := by
  have hmod : n % d < d := mod_lt _ hd
  have hlt : n * m < (n / d + 1) * x := by
    refine Nat.lt_of_mul_lt_mul_right (a := d) ?_
    rw [mul_mul_eq hm]
    have hx : n % d * x + x * (d - n % d) = x * d := by
      rw [Nat.mul_comm (n % d), ← Nat.mul_add, Nat.add_sub_cancel' hmod.le]
    calc n / d * x * d + (n % d * x + n * e) < n / d * x * d + x * d := by omega
      _ = (n / d + 1) * x * d := by ring
  exact Nat.div_eq_of_lt_le (le_mul hm hd) hlt

/-- For a negative dividend `- n` the product is rounded the other way. -/
theorem mul_between (hd : 0 < d) (he : 0 < e) (hn : 0 < n)
    (h : n * e ≤ x * (d - n % d)) : (n / d) * x < n * m ∧ n * m ≤ (n / d + 1) * x := by
  have hmod : n % d < d := mod_lt _ hd
  have heq := mul_mul_eq hm n
  have hpos : 0 < n * e := Nat.mul_pos hn he
  refine ⟨Nat.lt_of_mul_lt_mul_right (a := d) (by omega), ?_⟩
  refine Nat.le_of_mul_le_mul_right ?_ hd
  rw [heq]
  have hx : n % d * x + x * (d - n % d) = x * d := by
    rw [Nat.mul_comm (n % d), ← Nat.mul_add, Nat.add_sub_cancel' hmod.le]
  calc n / d * x * d + (n % d * x + n * e) ≤ n / d * x * d + x * d := by omega
    _ = (n / d + 1) * x * d := by ring

end

/-! ## §2 Doubling -/

/-- Quotient and remainder of `2 * x + b` from those of `x`. -/
theorem div_mod_double {b : Nat} (hb : b < 2) (hd : 0 < d) :
    (d ≤ 2 * (x % d) + b → (2 * x + b) / d = 2 * (x / d) + 1 ∧
      (2 * x + b) % d = 2 * (x % d) + b - d) ∧
    (2 * (x % d) + b < d → (2 * x + b) / d = 2 * (x / d) ∧ (2 * x + b) % d = 2 * (x % d) + b) := by
  have hx := Nat.div_add_mod x d
  have hmod : x % d < d := mod_lt _ hd
  have huniq : ∀ q r, 2 * x + b = r + d * q → r < d → (2 * x + b) / d = q ∧
    (2 * x + b) % d = r := by
    intro q r h hr
    rw [h, Nat.add_mul_div_left _ _ hd, Nat.div_eq_of_lt hr, Nat.add_mul_mod_self_left,
      Nat.mod_eq_of_lt hr, Nat.zero_add]
    exact ⟨rfl, rfl⟩
  have hscale : ∀ q, d * (2 * q) = 2 * (d * q) := fun q => by ring
  refine ⟨fun h => huniq _ _ ?_ (by omega), fun h => huniq _ _ ?_ h⟩
  · rw [Nat.mul_add, hscale]; omega
  · rw [hscale]; omega

/-- The test on quotients and remainders. -/
theorem mul_lt_iff (hc : 0 < c) : c * e < x ↔ ¬ (x / c < e ∨ (x / c = e ∧ x % c = 0)) := by
  have hx := Nat.div_add_mod x c
  have hmod : x % c < c := mod_lt _ hc
  constructor
  · rintro h (hlt | ⟨heq, h0⟩)
    · have hle : c * (x / c + 1) ≤ c * e := Nat.mul_le_mul_left c hlt
      rw [Nat.mul_add] at hle
      omega
    · rw [← heq] at h; omega
  intro h
  rcases Nat.lt_trichotomy (x / c) e with hlt | heq | hgt
  · exact absurd (.inl hlt) h
  · rw [← heq]; omega
  have hle : c * (e + 1) ≤ c * (x / c) := Nat.mul_le_mul_left c hgt
  rw [Nat.mul_add] at hle
  omega

/-! ## §3 Bounds of the search -/

/-- `x / d` rounded up, and what it adds to `x`. -/
theorem reciprocal_eq (hd : 0 < d) (x : Nat) : (x / d + 1) * d = x + (d - x % d) := by
  have hx := Nat.div_add_mod x d
  have hmod : x % d < d := mod_lt _ hd
  rw [Nat.add_mul, Nat.mul_comm]
  omega

/-- While the test fails, the reciprocal is small. -/
theorem reciprocal_mul_le (hd : 0 < d) (hne : x % d ≠ 0) (h : x ≤ c * (d - x % d)) :
    (x / d + 1) * d ≤ (c + 1) * (d - 1) := by
  rw [reciprocal_eq hd]
  calc x + (d - x % d) ≤ c * (d - x % d) + (d - x % d) := by omega
    _ = (c + 1) * (d - x % d) := by ring
    _ ≤ (c + 1) * (d - 1) := Nat.mul_le_mul_left _ (by omega)

theorem double_div_le (hd : 0 < d) (x : Nat) : 2 * x / d ≤ 2 * (x / d) + 1 := by
  obtain ⟨hge, hlt⟩ := div_mod_double (x := x) (b := 0) (by omega) hd
  simp only [Nat.add_zero] at hge hlt
  rcases Nat.lt_or_ge (2 * (x % d)) d with h | h
  · omega
  · rw [(hge h).1]

end Oxcaml.Lib.Reciprocal
