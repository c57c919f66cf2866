/-
Oxcaml.Backend.CmmDivisionTheorems — the reciprocals are exact.

The words that the search keeps are quotients and remainders of powers of two
(§1). §2 follows the loop of `divimm_parameters`: it stops, with a reciprocal of
the absolute divisor that fits a word; §3 has the quotients computed with it. §4
does the same for `udivimm_parameters`, where the last quotient may need a 65th
bit.
-/
import Oxcaml.Backend.CmmDivision
import Oxcaml.Backend.CmmSemantics
import Oxcaml.Backend.CmmWords
import Oxcaml.Lib.Reciprocal
import Mathlib.Data.Nat.Prime.Basic

set_option linter.all false

namespace Oxcaml.Backend.CmmHelpers

open BitVec (eq_of_toNat_eq intMax intMin le_def ofNat toInt_eq_toNat_cond toNat_add
  toNat_shiftLeft toNat_sub_of_le toNat_udiv toNat_ushiftRight ule_iff_toNat_le)
open Nat (div_add_mod mod_lt)

open Lib.Reciprocal

/-! ## §1 Quotients and remainders in words -/

/-- `qr` is the quotient and the remainder of `x` by `c`. -/
structure DivMod (x c : Nat) (qr : Nativeint × Nativeint) : Prop where
  quot : qr.1.toNat = x / c
  rem : qr.2.toNat = x % c

theorem divMod_udivmod (n d : Nativeint) : DivMod n.toNat d.toNat (udivmod n d) := by
  have hdm := div_add_mod n.toNat d.toNat
  refine ⟨toNat_udiv, ?_⟩
  have hprod : (n.udiv d * d).toNat = d.toNat * (n.toNat / d.toNat) := by
    rw [BitVec.toNat_mul, Nat.mul_comm]
    exact (congrArg (d.toNat * · % 2 ^ 64) toNat_udiv).trans (Nat.mod_eq_of_lt (by omega))
  rw [udivmod, toNat_sub_of_le (le_def.2 (by omega))]
  omega

variable {q d a b r : Nativeint}

theorem toNat_double (h : 2 * q.toNat < 2 ^ 64) : (q <<< 1).toNat = 2 * q.toNat := by
  rw [toNat_shiftLeft, Nat.shiftLeft_eq]
  omega

theorem DivMod.step {x : Nat} {c : Nativeint} {qr : Nativeint × Nativeint}
    (h : DivMod x c.toNat qr) (hc : 0 < c.toNat) (hc' : c.toNat ≤ 2 ^ 63)
    (hfit : 2 * x / c.toNat < 2 ^ 64) : DivMod (2 * x) c.toNat (divimmStep qr c) := by
  obtain ⟨hq, hr⟩ := h
  obtain ⟨hge, hlt⟩ := div_mod_double (x := x) (b := 0) (by omega) hc
  simp only [Nat.add_zero] at hge hlt
  have hmod : x % c.toNat < c.toNat := mod_lt _ hc
  have hr2 : (qr.2 <<< 1).toNat = 2 * (x % c.toNat) := by rw [toNat_double (by omega), hr]
  rw [divimmStep]
  split
  · rename_i hle
    have hle : c.toNat ≤ 2 * (x % c.toNat) := by
      rw [ule_iff_toNat_le, hr2] at hle
      exact hle
    obtain ⟨hq', hr'⟩ := hge hle
    have hq2 : (qr.1 <<< 1).toNat = 2 * (x / c.toNat) := by rw [toNat_double (by omega), hq]
    refine ⟨?_, ?_⟩
    · rw [toNat_add, hq2, hq', show (1 : Nativeint).toNat = 1 from rfl]
      exact Nat.mod_eq_of_lt (by omega)
    · rw [toNat_sub_of_le (le_def.2 (by omega)), hr2, hr']
  rename_i hle
  have hle : 2 * (x % c.toNat) < c.toNat := by
    rw [ule_iff_toNat_le] at hle
    omega
  obtain ⟨hq', hr'⟩ := hlt hle
  exact ⟨by rw [toNat_double (by omega), hq, hq'], by rw [hr2, hr']⟩

variable {x p n nc : Nat}

/-- The test of both loops, on words. -/
theorem test_iff {c : Nat} {qr : Nativeint × Nativeint} (h : DivMod x c qr)
    (hc : 0 < c) (delta : Nativeint) :
    (qr.1.ult delta || (qr.1 == delta && qr.2 == 0)) = true ↔ x ≤ c * delta.toNat := by
  rw [← Nat.not_lt, mul_lt_iff hc, not_not, ← h.quot, ← h.rem, Bool.or_eq_true, Bool.and_eq_true,
    beq_iff_eq, beq_iff_eq, BitVec.ult_iff_toNat_lt]
  refine or_congr Iff.rfl (and_congr ⟨congrArg _, eq_of_toNat_eq⟩ ⟨congrArg _, fun h => ?_⟩)
  exact eq_of_toNat_eq h

/-! ## §2 Signed divisors -/

/-- The absolute divisor `ad`, and the largest dividend `anc` with remainder
`ad - 1`. -/
structure SignedRange (ad anc : Nat) : Prop where
  two_le : 2 ≤ ad
  ad_lt : ad < 2 ^ 63
  anc_ge : 2 ^ 62 ≤ anc
  anc_le : anc ≤ 2 ^ 63
  anc_mod : anc % ad = ad - 1

/-- While the search goes on, the next reciprocal fits a word. -/
theorem SignedRange.next_lt {ad anc : Nat} (h : SignedRange ad anc)
    (hgo : 2 ^ p ≤ anc * (ad - 2 ^ p % ad)) : 2 * 2 ^ p / ad + 1 < 2 ^ 64 := by
  have htwo := h.two_le
  have hlt := h.ad_lt
  have hanc := h.anc_le
  rcases Nat.eq_zero_or_pos (2 ^ p % ad) with h0 | hpos
  · -- a power of two: `ad` is even, so `anc` is odd and below `2 ^ 63`
    have hdvd : ad ∣ 2 ^ p := Nat.dvd_of_mod_eq_zero h0
    have heven : 2 ∣ ad := by
      obtain ⟨k, -, rfl⟩ := (Nat.dvd_prime_pow Nat.prime_two).1 hdvd
      cases k with
      | zero => omega
      | succ k => exact ⟨2 ^ k, by rw [Nat.pow_succ, Nat.mul_comm]⟩
    have hodd : anc % 2 = 1 := by
      have hmod := h.anc_mod
      obtain ⟨k, rfl⟩ := heven
      rw [← Nat.mod_mod_of_dvd anc ⟨k, rfl⟩]
      omega
    have hquot : 2 ^ p / ad ≤ anc := by
      rw [h0, Nat.sub_zero] at hgo
      exact (Nat.div_le_iff_le_mul (by omega)).2 (by omega)
    rw [Nat.mul_div_assoc 2 hdvd]
    omega
  have hmul := reciprocal_mul_le (by omega) (by omega) hgo
  have hsmall : 2 ^ p / ad + 1 < 2 ^ 63 := by
    refine Nat.lt_of_mul_lt_mul_right (a := ad) (Nat.lt_of_le_of_lt hmul ?_)
    calc (anc + 1) * (ad - 1) ≤ (2 ^ 63 + 1) * (ad - 1) := Nat.mul_le_mul_right _ (by omega)
      _ < 2 ^ 63 * ad := by omega
  have hdouble := double_div_le (d := ad) (by omega) (2 ^ p)
  omega

/-- The reciprocal of the absolute divisor, with its sign and its shift. -/
structure SignedParameters (d : Nativeint) (ad anc : Nat) (m : Nativeint) (s : Nat) : Prop where
  shift_le : s ≤ 62
  fits : 2 ^ (64 + s) / ad + 1 < 2 ^ 64
  exact_ : anc * (ad - 2 ^ (64 + s) % ad) < 2 ^ (64 + s)
  eq : m = if d.slt 0 then -ofNat 64 (2 ^ (64 + s) / ad + 1)
    else ofNat 64 (2 ^ (64 + s) / ad + 1)

variable {qr1 qr2 : Nativeint × Nativeint}

/-- What the loop finds from `p` on, with enough fuel: the first power of two
after `2 ^ p` that passes the test. -/
theorem divimmLoop_spec {ad anc : Nativeint} (h : SignedRange ad.toNat anc.toNat) (fuel p : Nat)
    (h1 : DivMod (2 ^ p) anc.toNat qr1)
    (h2 : DivMod (2 ^ p) ad.toNat qr2) (hfit1 : 2 * 2 ^ p / anc.toNat < 2 ^ 64)
    (hfit2 : 2 * 2 ^ p / ad.toNat + 1 < 2 ^ 64) (hp : 63 ≤ p) (hp' : p < 126)
    (hfuel : 126 - p < fuel) :
    ∃ m s, divimmLoop d ad anc fuel p qr1 qr2 = some (m, s) ∧
      SignedParameters d ad.toNat anc.toNat m s ∧ p < 64 + s ∧
      (2 ^ (p + 1) > anc.toNat * (ad.toNat - 2 ^ (p + 1) % ad.toNat) → 64 + s = p + 1) := by
  have htwo := h.two_le
  have hlt := h.ad_lt
  have hanc := h.anc_le
  have hanc' := h.anc_ge
  induction fuel generalizing p qr1 qr2 with
  | zero => omega
  | succ fuel ih =>
    have hpow : 2 * 2 ^ p = 2 ^ (p + 1) := by rw [Nat.pow_succ, Nat.mul_comm]
    have h1' := h1.step (by omega) hanc hfit1
    have h2' := h2.step (by omega) (by omega) (by omega)
    rw [hpow] at h1' h2' hfit2
    have hmod : 2 ^ (p + 1) % ad.toNat < ad.toNat := mod_lt _ (by omega)
    have hdelta : (ad - (divimmStep qr2 ad).2).toNat = ad.toNat - 2 ^ (p + 1) % ad.toNat := by
      rw [toNat_sub_of_le (le_def.2 (by rw [h2'.rem]; omega)), h2'.rem]
    have htest := test_iff h1' (by omega) (ad - (divimmStep qr2 ad).2)
    rw [hdelta] at htest
    rw [divimmLoop]
    split
    · rename_i hgo
      have hgo := htest.1 hgo
      have hbound : 2 ^ (p + 1) < 2 ^ 126 := by
        calc 2 ^ (p + 1) ≤ anc.toNat * (ad.toNat - 2 ^ (p + 1) % ad.toNat) := hgo
          _ ≤ 2 ^ 63 * (2 ^ 63 - 1) := Nat.mul_le_mul hanc (by omega)
          _ < 2 ^ 126 := by decide
      have hp126 := (Nat.pow_lt_pow_iff_right (by omega)).1 hbound
      have hquot : 2 ^ (p + 1) / anc.toNat ≤ ad.toNat := by
        refine Nat.le_of_lt_succ ((Nat.div_lt_iff_lt_mul (by omega)).2 ?_)
        have hle := Nat.mul_le_mul_left anc.toNat (Nat.sub_le ad.toNat (2 ^ (p + 1) % ad.toNat))
        rw [Nat.succ_mul, Nat.mul_comm]
        omega
      have hfit1' := double_div_le (d := anc.toNat) (by omega) (2 ^ (p + 1))
      obtain ⟨m, s, hloop, hparams, hps, -⟩ := ih (p + 1) h1' h2' (by omega) (h.next_lt hgo)
        (by omega) hp126 (by omega)
      exact ⟨m, s, hloop, hparams, by omega, fun hstop => by omega⟩
    rename_i hstop
    have hstop := Nat.lt_of_not_le (mt htest.2 hstop)
    have hs : 64 + (p + 1 - 64) = p + 1 := by omega
    have hm : (divimmStep qr2 ad).1 + 1 = ofNat 64 (2 ^ (p + 1) / ad.toNat + 1) := by
      apply eq_of_toNat_eq
      rw [toNat_add, h2'.quot]
      rfl
    refine ⟨_, _, rfl, ⟨by omega, ?_, ?_, ?_⟩, by omega, fun _ => hs⟩
    · rw [hs]; exact hfit2
    · rw [hs]; exact hstop
    · rw [hs, hm]

/-- One more than the largest absolute dividend whose quotient is rounded down:
`2 ^ 63` for a positive divisor, `2 ^ 63 + 1` for a negative one. -/
def dividendBound (d : Nativeint) : Nat := 2 ^ 63 + if d.slt 0 then 1 else 0

/-- The largest dividend below the bound with remainder `|d| - 1`. -/
def largestRemainder (d : Nativeint) : Nat :=
  dividendBound d - 1 - dividendBound d % d.toInt.natAbs

theorem slt_zero_iff (d : Nativeint) : d.slt 0 = true ↔ d.toInt < 0 := by
  rw [BitVec.slt_iff_toInt_lt]
  rfl

theorem sle_zero_iff (d : Nativeint) : (0 : Nativeint).sle d = true ↔ 0 ≤ d.toInt := by
  rw [BitVec.sle_iff_toInt_le]
  rfl

theorem toInt_bounds64 (d : Nativeint) : -2 ^ 63 ≤ d.toInt ∧ d.toInt < 2 ^ 63 :=
  ⟨BitVec.le_toInt d, BitVec.toInt_lt⟩

variable {d : Nativeint}

theorem toNat_eq_of_nonneg (h : 0 ≤ d.toInt) : (d.toNat : Int) = d.toInt := by
  have hnat := toInt_eq_toNat_cond d
  split at hnat <;> omega

theorem toInt_ne_min (h : d ≠ intMin 64) : d.toInt ≠ -2 ^ 63 := fun heq =>
  h (BitVec.eq_of_toInt_eq (heq.trans (by decide)))

theorem toNat_abs (hmin : d ≠ intMin 64) : (abs d).toNat = d.toInt.natAbs := by
  have hne := toInt_ne_min hmin
  have hbounds := toInt_bounds64 d
  unfold abs
  split
  · rename_i h
    rw [sle_zero_iff] at h
    have := toNat_eq_of_nonneg h
    omega
  rename_i h
  rw [sle_zero_iff] at h
  have hneg : (-d).toInt = -d.toInt := by
    rw [BitVec.toInt_neg, Int.bmod_eq_of_le (by omega) (by omega)]
  have := toNat_eq_of_nonneg (d := -d) (by omega)
  omega

theorem signedRange (hd : 2 ≤ d.toInt.natAbs) (hmin : d ≠ intMin 64) :
    SignedRange d.toInt.natAbs (largestRemainder d) := by
  have hne := toInt_ne_min hmin
  have hbounds := toInt_bounds64 d
  have ht : 2 ^ 63 ≤ dividendBound d ∧ dividendBound d ≤ 2 ^ 63 + 1 := by
    unfold dividendBound
    split <;> omega
  have hmod : dividendBound d % d.toInt.natAbs < d.toInt.natAbs := mod_lt _ (by omega)
  have hdm := div_add_mod (dividendBound d) d.toInt.natAbs
  have hquot : 1 ≤ dividendBound d / d.toInt.natAbs := Nat.div_pos (by omega) (by omega)
  have hle := Nat.mul_le_mul_left d.toInt.natAbs hquot
  have hrange : 2 ^ 62 ≤ largestRemainder d ∧ largestRemainder d ≤ 2 ^ 63 ∧
      largestRemainder d % d.toInt.natAbs = d.toInt.natAbs - 1 := by
    unfold largestRemainder
    refine ⟨by omega, by omega, ?_⟩
    have hdec : dividendBound d - 1 - dividendBound d % d.toInt.natAbs =
        d.toInt.natAbs - 1 + d.toInt.natAbs * (dividendBound d / d.toInt.natAbs - 1) := by
      rw [Nat.mul_sub]
      omega
    rw [hdec, Nat.add_mul_mod_self_left, Nat.mod_eq_of_lt (by omega)]
  exact ⟨hd, by omega, hrange.1, hrange.2.1, hrange.2.2⟩

/-- The loop stops, and its parameters are a reciprocal of the divisor. -/
theorem divimmParameters_spec (hd : 2 ≤ d.toInt.natAbs) (hmin : d ≠ intMin 64) :
    ∃ m s, divimmParameters d = some (m, s) ∧
      SignedParameters d d.toInt.natAbs (largestRemainder d) m s ∧
      (2 ^ 64 > largestRemainder d * (d.toInt.natAbs - 2 ^ 64 % d.toInt.natAbs) → s = 0) := by
  have hrange := signedRange hd hmin
  have habs := toNat_abs hmin
  have htwo := hrange.two_le
  have hlt := hrange.ad_lt
  have hanc := hrange.anc_ge
  obtain ⟨t, htdef⟩ : ∃ t : Nativeint, t = intMin 64 + d >>> 63 := ⟨_, rfl⟩
  have ht : t.toNat = dividendBound d := by
    have hsign : (d >>> 63).toNat = if d.slt 0 then 1 else 0 := by
      have hnat := toInt_eq_toNat_cond d
      have hslt := slt_zero_iff d
      split <;> split at hnat <;> simp_all <;> omega
    rw [htdef, toNat_add, hsign, show (intMin 64).toNat = 2 ^ 63 by decide,
      dividendBound]
    split <;> omega
  obtain ⟨anc, hancdef⟩ : ∃ anc : Nativeint, anc = t - 1 - t.umod (abs d) := ⟨_, rfl⟩
  have hancw : anc.toNat = largestRemainder d := by
    have hge : 2 ^ 63 ≤ dividendBound d := Nat.le_add_right _ _
    have hmod : dividendBound d % d.toInt.natAbs < d.toInt.natAbs := mod_lt _ (by omega)
    have hpred : (t - 1).toNat = dividendBound d - 1 := by
      rw [toNat_sub_of_le (le_def.2 (by rw [ht]; exact Nat.le_trans (by decide) hge)),
        ht]
      rfl
    have humod : (t.umod (abs d)).toNat = dividendBound d % d.toInt.natAbs := by
      rw [← ht, ← habs]
      exact BitVec.toNat_umod
    rw [hancdef, toNat_sub_of_le (le_def.2 (by rw [hpred]; omega)), hpred,
      humod]
    rfl
  have hslt : (1 : Nativeint).slt (abs d) = true := by
    have hnat := toInt_eq_toNat_cond (abs d)
    rw [BitVec.slt_iff_toInt_lt, show (1 : Nativeint).toInt = 1 by decide]
    omega
  rw [← habs, ← hancw] at hrange
  have h1 := divMod_udivmod (intMin 64) anc
  have h2 := divMod_udivmod (intMin 64) (abs d)
  have hquot : 2 * 2 ^ 63 / (abs d).toNat ≤ 2 * 2 ^ 63 / 2 := Nat.div_le_div_left (habs ▸ htwo)
    (by omega)
  obtain ⟨m, s, hloop, hparams, -, hfirst⟩ := divimmLoop_spec (d := d) hrange 128 63 h1 h2
    (Nat.div_lt_self (by decide) (by omega)) (by omega) (by omega) (by omega) (by omega)
  rw [habs, hancw] at hparams hfirst
  refine ⟨m, s, ?_, hparams, fun h => by have := hfirst h; omega⟩
  rw [divimmParameters, if_pos hslt]
  subst hancdef htdef
  exact hloop

section

variable {d m : Nativeint} {s : Nat}

theorem lt_largestRemainder_add (hd : 2 ≤ d.toInt.natAbs) (hmin : d ≠ intMin 64)
    (hn : n < dividendBound d) : n < largestRemainder d + d.toInt.natAbs := by
  have hmod : dividendBound d % d.toInt.natAbs < d.toInt.natAbs := mod_lt _ (by omega)
  unfold largestRemainder
  omega

section

variable (h : SignedParameters d d.toInt.natAbs (largestRemainder d) m s)
include h

/-- Quotients that are rounded down. -/
theorem SignedParameters.mul_div_eq
    (hd : 2 ≤ d.toInt.natAbs) (hmin : d ≠ intMin 64) (hn : n < dividendBound d) :
    n * (2 ^ (64 + s) / d.toInt.natAbs + 1) / 2 ^ (64 + s) = n / d.toInt.natAbs :=
  Lib.Reciprocal.mul_div_eq (reciprocal_eq (by omega) _) (by omega)
    (error_lt (signedRange hd hmin).anc_mod hd h.exact_ (lt_largestRemainder_add hd hmin hn))

/-- Quotients that are rounded up. The largest dividend is `2 ^ 63`; when its
remainder is `|d| - 1`, the search stops at once. -/
theorem SignedParameters.mul_between
    (hd : 2 ≤ d.toInt.natAbs) (hmin : d ≠ intMin 64)
    (hfirst : 2 ^ 64 > largestRemainder d * (d.toInt.natAbs - 2 ^ 64 % d.toInt.natAbs) → s = 0)
      (hn : 0 < n) (hn' : n ≤ 2 ^ 63) :
    n / d.toInt.natAbs * 2 ^ (64 + s) < n * (2 ^ (64 + s) / d.toInt.natAbs + 1) ∧
      n * (2 ^ (64 + s) / d.toInt.natAbs + 1) ≤ (n / d.toInt.natAbs + 1) * 2 ^ (64 + s) := by
  have hrange := signedRange hd hmin
  have hmod := mod_lt (2 ^ (64 + s)) (show 0 < d.toInt.natAbs by omega)
  refine Lib.Reciprocal.mul_between (reciprocal_eq (by omega) _) (by omega) (by omega) hn ?_
  rcases Nat.lt_or_ge n (largestRemainder d + d.toInt.natAbs) with hlt' | hge
  · exact Nat.le_of_lt (error_lt hrange.anc_mod hd h.exact_ hlt')
  have hbound : 2 ^ 63 ≤ dividendBound d := Nat.le_add_right _ _
  have hmod63 := mod_lt (dividendBound d) (show 0 < d.toInt.natAbs by omega)
  have hn63 : n = 2 ^ 63 ∧ dividendBound d = 2 ^ 63 ∧
      2 ^ 63 % d.toInt.natAbs = d.toInt.natAbs - 1 := by
    unfold largestRemainder at hge
    have hd63 : dividendBound d = 2 ^ 63 := by omega
    rw [hd63] at hge hmod63
    exact ⟨by omega, hd63, by omega⟩
  obtain ⟨rfl, hd63, hrem⟩ := hn63
  have hrem64 : 2 ^ 64 % d.toInt.natAbs = d.toInt.natAbs - 2 := by
    have hdouble := div_mod_double (x := 2 ^ 63) (b := 0) (d := d.toInt.natAbs) (by omega)
      (by omega)
    simp only [Nat.add_zero] at hdouble
    rw [show 2 ^ 64 = 2 * 2 ^ 63 by rfl, (hdouble.1 (by omega)).2]
    omega
  have he : d.toInt.natAbs - (d.toInt.natAbs - 2) = 2 := by omega
  have hs : s = 0 := by
    apply hfirst
    rw [hrem64, he]
    unfold largestRemainder
    rw [hd63]
    omega
  subst hs
  rw [hrem64, he]
  omega

end

end

/-! ## §3 Signed quotients -/

/-- The high word of a signed product is the product divided by `2 ^ 64`. -/
theorem toInt_mulhi (a b : Nativeint) : (mulhi true a b).toInt = a.toInt * b.toInt / 2 ^ 64 := by
  have hle : a.toInt * b.toInt ≤ 2 ^ 126 := BitVec.toInt_mul_toInt_le
  have hge : -2 ^ 126 ≤ a.toInt * b.toInt := BitVec.le_toInt_mul_toInt
  have hwide : (a.signExtend 128 * b.signExtend 128).toInt = a.toInt * b.toInt := by
    rw [BitVec.toInt_mul, BitVec.toInt_signExtend_of_le (by omega),
      BitVec.toInt_signExtend_of_le (by omega), Int.bmod_eq_of_le (by omega) (by omega)]
  rw [mulhi, if_pos rfl, ← hwide, BitVec.toInt_setWidth,  toNat_ushiftRight]
  generalize a.signExtend 128 * b.signExtend 128 = x
  have hnat := toInt_eq_toNat_cond x
  rw [Int.bmod_def]
  split at hnat <;> split <;> omega

theorem toInt_add_of_range (hge : -2 ^ 63 ≤ a.toInt + b.toInt)
    (hlt : a.toInt + b.toInt < 2 ^ 63) : (a + b).toInt = a.toInt + b.toInt := by
  rw [BitVec.toInt_add, Int.bmod_eq_of_le (by omega) (by omega)]

theorem toInt_sub_of_range (hge : -2 ^ 63 ≤ a.toInt - b.toInt)
    (hlt : a.toInt - b.toInt < 2 ^ 63) : (a - b).toInt = a.toInt - b.toInt := by
  rw [BitVec.toInt_sub, Int.bmod_eq_of_le (by omega) (by omega)]

theorem toInt_signBit (x : Nativeint) : (x >>> 63).toInt = if x.toInt < 0 then 1 else 0 := by
  have hnat := toInt_eq_toNat_cond x
  rw [toInt_eq_toNat_cond,  toNat_ushiftRight]
  split at hnat <;> split <;> split <;> omega

theorem toInt_sshiftRight_eq (x : Nativeint) (s : Nat) :
    (x.sshiftRight s).toInt = x.toInt / 2 ^ s := by
  rw [BitVec.toInt_sshiftRight, Int.shiftRight_eq_div_pow]
  norm_cast

/-- A dividend times a reciprocal of at most 65 bits fits 128 bits. -/
theorem mul_ediv_range (n : Nativeint) {r : Int} (hr : r.natAbs < 2 ^ 64) :
    -2 ^ 63 ≤ n.toInt * r / 2 ^ 64 ∧ n.toInt * r / 2 ^ 64 < 2 ^ 63 := by
  have hn := toInt_bounds64 n
  have habs : (n.toInt * r).natAbs ≤ 2 ^ 63 * (2 ^ 64 - 1) := by
    rw [Int.natAbs_mul]
    exact Nat.mul_le_mul (by omega) (by omega)
  omega

/-- The expression that `div_int` builds, on words. -/
def signedQuotient (d m : Nativeint) (s : Nat) (n : Nativeint) : Nativeint :=
  let q := mulhi true n m
  let q := if m.slt 0 && (0 : Nativeint).sle d then q + n
    else if (0 : Nativeint).sle m && d.slt 0 then q - n else q
  let q := q.sshiftRight s
  q + (if (0 : Nativeint).sle d then n else q) >>> 63

section

variable {d m : Nativeint} {s : Nat}

/-- The reciprocal with the sign of the divisor. -/
def signedReciprocal (d : Nativeint) (s : Nat) : Int :=
  if d.toInt < 0 then -((2 ^ (64 + s) / d.toInt.natAbs + 1 : Nat) : Int)
  else ((2 ^ (64 + s) / d.toInt.natAbs + 1 : Nat) : Int)

section

variable (h : SignedParameters d d.toInt.natAbs (largestRemainder d) m s)
include h

/-- The multiplier as a signed word, in the three cases that `div_int` tells apart. -/
theorem SignedParameters.toInt_eq :
    m.toInt = if m.toInt < 0 ∧ 0 ≤ d.toInt then signedReciprocal d s - 2 ^ 64
      else if 0 ≤ m.toInt ∧ d.toInt < 0 then signedReciprocal d s + 2 ^ 64
      else signedReciprocal d s := by
  have hfits := h.fits
  have hmeq := h.eq
  rw [signedReciprocal]
  generalize 2 ^ (64 + s) / d.toInt.natAbs = w at hfits hmeq ⊢
  have hnat := toInt_eq_toNat_cond m
  have hslt := slt_zero_iff d
  by_cases hd : d.toInt < 0
  · rw [if_pos (hslt.2 hd)] at hmeq
    have hm : m.toNat = 2 ^ 64 - (w + 1) := by
      rw [hmeq, BitVec.toNat_neg, BitVec.toNat_ofNat]
      omega
    split at hnat <;> split <;> omega
  rw [if_neg (mt hslt.1 hd)] at hmeq
  have hm : m.toNat = w + 1 := by
    rw [hmeq, BitVec.toNat_ofNat, Nat.mod_eq_of_lt hfits]
  split at hnat <;> split <;> omega

/-- The correction undoes the overflow of the multiplier. -/
theorem toInt_corrected
    (n : Nativeint) :
    (if m.slt 0 && (0 : Nativeint).sle d then mulhi true n m + n
      else if (0 : Nativeint).sle m && d.slt 0 then mulhi true n m - n else mulhi true n m).toInt =
        n.toInt * signedReciprocal d s / 2 ^ 64 := by
  have hrange : -2 ^ 63 ≤ n.toInt * signedReciprocal d s / 2 ^ 64 ∧
      n.toInt * signedReciprocal d s / 2 ^ 64 < 2 ^ 63 := by
    refine mul_ediv_range n ?_
    have hfits := h.fits
    unfold signedReciprocal
    generalize 2 ^ (64 + s) / d.toInt.natAbs + 1 = w at hfits ⊢
    split <;> omega
  have hmeq := h.toInt_eq
  have hhi := toInt_mulhi n m
  simp only [Bool.and_eq_true, slt_zero_iff, sle_zero_iff]
  by_cases hpos : m.toInt < 0 ∧ 0 ≤ d.toInt
  · rw [if_pos hpos] at hmeq ⊢
    have hq : (mulhi true n m).toInt + n.toInt = n.toInt * signedReciprocal d s / 2 ^ 64 := by
      rw [hhi, hmeq, Int.mul_sub]
      omega
    rw [toInt_add_of_range (by omega) (by omega), hq]
  rw [if_neg hpos] at hmeq ⊢
  by_cases hneg : 0 ≤ m.toInt ∧ d.toInt < 0
  · rw [if_pos hneg] at hmeq ⊢
    have hq : (mulhi true n m).toInt - n.toInt = n.toInt * signedReciprocal d s / 2 ^ 64 := by
      rw [hhi, hmeq, Int.mul_add]
      omega
    rw [toInt_sub_of_range (by omega) (by omega), hq]
  · rw [if_neg hneg] at hmeq ⊢; rw [hhi, hmeq]

/-- Dividends on the side where the product is positive. -/
theorem SignedParameters.ediv_eq_of_pos
    (hd : 2 ≤ d.toInt.natAbs) (hmin : d ≠ intMin 64) (hn : n < dividendBound d) :
    (n * (2 ^ (64 + s) / d.toInt.natAbs + 1 : Nat) : Int) / 2 ^ (64 + s) =
      (n / d.toInt.natAbs : Nat) := by
  rw [← h.mul_div_eq hd hmin hn]
  norm_cast

/-- Dividends on the side where the product is negative: the floor is one too low. -/
theorem SignedParameters.ediv_eq_of_neg
    (hd : 2 ≤ d.toInt.natAbs) (hmin : d ≠ intMin 64)
    (hfirst : 2 ^ 64 > largestRemainder d * (d.toInt.natAbs - 2 ^ 64 % d.toInt.natAbs) → s = 0)
      (hn : 0 < n) (hn' : n ≤ 2 ^ 63) :
    -(n * (2 ^ (64 + s) / d.toInt.natAbs + 1 : Nat) : Int) / 2 ^ (64 + s) =
      -((n / d.toInt.natAbs : Nat) : Int) - 1 := by
  obtain ⟨hlt, hle⟩ := h.mul_between hd hmin hfirst hn hn'
  generalize 2 ^ (64 + s) / d.toInt.natAbs + 1 = w at hlt hle ⊢
  generalize n / d.toInt.natAbs = q at hlt hle ⊢
  have hlt : (q * 2 ^ (64 + s) : Int) < n * w := by exact_mod_cast hlt
  have hle : (n * w : Int) ≤ (q + 1) * 2 ^ (64 + s) := by exact_mod_cast hle
  generalize (2 : Int) ^ (64 + s) = P at hlt hle ⊢
  have hP : 0 < P := by linarith
  rw [Int.ediv_eq_iff_of_pos hP]
  constructor <;> linarith

/-- Floors of the scaled reciprocal, by the signs of the dividend and the divisor. -/
theorem SignedParameters.ediv_eq
    (hd : 2 ≤ d.toInt.natAbs) (hmin : d ≠ intMin 64)
    (hfirst : 2 ^ 64 > largestRemainder d * (d.toInt.natAbs - 2 ^ 64 % d.toInt.natAbs) → s = 0)
    (n : Nativeint) :
    n.toInt * signedReciprocal d s / 2 ^ (64 + s) =
      n.toInt.tdiv d.toInt - if n.toInt ≠ 0 ∧ (n.toInt < 0 ↔ 0 ≤ d.toInt) then 1 else 0 := by
  have hn := toInt_bounds64 n
  have hslt := slt_zero_iff d
  have hpos := fun k => h.ediv_eq_of_pos hd hmin (n := k)
  have hneg := fun k => h.ediv_eq_of_neg hd hmin hfirst (n := k)
  unfold dividendBound at hpos
  unfold signedReciprocal
  by_cases hd0 : d.toInt < 0
  · obtain ⟨ad, had⟩ : ∃ ad : Nat, d.toInt = -ad := ⟨d.toInt.natAbs, by omega⟩
    rw [if_pos hd0, Int.mul_neg]
    rw [if_pos (hslt.2 hd0)] at hpos
    rcases Int.lt_trichotomy n.toInt 0 with hn0 | hn0 | hn0
    · obtain ⟨k, hk⟩ : ∃ k : Nat, n.toInt = -k := ⟨n.toInt.natAbs, by omega⟩
      have hq := hpos k (by omega)
      rw [if_neg (by omega), hk, Int.neg_mul, Int.neg_neg, hq, had, Int.neg_tdiv, Int.tdiv_neg,
        Int.neg_neg, Int.ofNat_tdiv, Int.natAbs_neg, Int.natAbs_natCast, Int.sub_zero]
    · rw [if_neg (by omega), hn0, Int.zero_mul, Int.neg_zero, Int.zero_ediv, Int.zero_tdiv,
        Int.sub_zero]
    obtain ⟨k, hk⟩ : ∃ k : Nat, n.toInt = k := ⟨n.toInt.natAbs, by omega⟩
    have hq := hneg k (by omega) (by omega)
    rw [if_pos (by omega), hk, hq, had, Int.tdiv_neg, Int.ofNat_tdiv, Int.natAbs_neg,
      Int.natAbs_natCast]
  obtain ⟨ad, had⟩ : ∃ ad : Nat, d.toInt = ad := ⟨d.toInt.natAbs, by omega⟩
  rw [if_neg hd0]
  rcases Int.lt_or_le n.toInt 0 with hn0 | hn0
  · obtain ⟨k, hk⟩ : ∃ k : Nat, n.toInt = -k := ⟨n.toInt.natAbs, by omega⟩
    have hq := hneg k (by omega) (by omega)
    rw [if_pos (by omega), hk, Int.neg_mul, hq, had, Int.neg_tdiv, Int.ofNat_tdiv,
      Int.natAbs_natCast]
  obtain ⟨k, hk⟩ : ∃ k : Nat, n.toInt = k := ⟨n.toInt.natAbs, by omega⟩
  have hq := hpos k (by omega)
  rw [if_neg (by omega), hk, hq, had, Int.ofNat_tdiv, Int.natAbs_natCast, Int.sub_zero]

theorem signedQuotient_eq
    (hd : 2 ≤ d.toInt.natAbs) (hmin : d ≠ intMin 64)
    (hfirst : 2 ^ 64 > largestRemainder d * (d.toInt.natAbs - 2 ^ 64 % d.toInt.natAbs) → s = 0)
    (n : Nativeint) : signedQuotient d m s n = n.sdiv d := by
  have hq := toInt_corrected h n
  have hfloor := h.ediv_eq hd hmin hfirst n
  have hne : d ≠ -1 := by
    rintro rfl
    exact absurd hd (by decide)
  have hsdiv := BitVec.toInt_sdiv_of_ne_or_ne n d (.inr hne)
  have hrange := toInt_bounds64 (n.sdiv d)
  apply BitVec.eq_of_toInt_eq
  unfold signedQuotient
  extract_lets q₀ q₁ q
  have hqval : q.toInt = n.toInt.tdiv d.toInt -
      if n.toInt ≠ 0 ∧ (n.toInt < 0 ↔ 0 ≤ d.toInt) then 1 else 0 := by
    rw [← hfloor, toInt_sshiftRight_eq, hq, Int.pow_add, ← Int.ediv_ediv_of_nonneg (by positivity)]
  have hsign : ((if (0 : Nativeint).sle d then n else q) >>> 63).toInt =
      if n.toInt ≠ 0 ∧ (n.toInt < 0 ↔ 0 ≤ d.toInt) then 1 else 0 := by
    rw [toInt_signBit, if_congr (sle_zero_iff d) rfl rfl]
    by_cases hd0 : 0 ≤ d.toInt
    · rw [if_pos hd0]; exact if_congr (by omega) rfl rfl
    have hle : 0 < n.toInt → n.toInt.tdiv d.toInt ≤ 0 := fun hn0 =>
      Int.tdiv_nonpos_of_nonneg_of_nonpos (by omega) (by omega)
    have hge : n.toInt ≤ 0 → 0 ≤ n.toInt.tdiv d.toInt := fun hn0 =>
      Int.tdiv_nonneg_of_nonpos_of_nonpos hn0 (by omega)
    split <;> split <;> omega
  rw [toInt_add_of_range (by omega) (by omega), hqval]
  omega

end

end

/-! ## §4 Unsigned divisors -/

/-- The divisor `d`, no power of two, and the largest dividend `nc` with
remainder `d - 1`. -/
structure UnsignedRange (d nc : Nat) : Prop where
  pos : 0 < d
  lt : d < 2 ^ 64
  not_dvd : ∀ p, 2 ^ p % d ≠ 0
  nc_eq : nc = 2 ^ 64 - 1 - 2 ^ 64 % d

namespace UnsignedRange

variable {d nc : Nat} (h : UnsignedRange d nc)

include h

theorem three_le : 3 ≤ d := by
  have h1 := h.not_dvd 1
  rcases Nat.lt_or_ge d 3 with hlt | hge
  · match d, hlt with
    | 0, _ => exact absurd h.pos (Nat.lt_irrefl 0)
    | 1, _ => exact absurd (Nat.mod_one _) h1
    | 2, _ => exact absurd rfl h1
  · exact hge

theorem nc_mod : nc % d = d - 1 := by
  have h3 := h.three_le
  have hdm := div_add_mod (2 ^ 64) d
  have hquot : 1 ≤ 2 ^ 64 / d := Nat.div_pos (Nat.le_of_lt h.lt) (by omega)
  have hle := Nat.mul_le_mul_left d hquot
  have heq : nc = d - 1 + d * (2 ^ 64 / d - 1) := by
    rw [h.nc_eq, Nat.mul_sub]
    omega
  rw [heq, Nat.add_mul_mod_self_left, Nat.mod_eq_of_lt (by omega)]

theorem nc_bounds : 2 ^ 63 ≤ nc ∧ nc < 2 ^ 64 - 1 ∧ 2 ^ 64 ≤ nc + d := by
  have h3 := h.three_le
  have hne := h.not_dvd 64
  have heq := h.nc_eq
  have hlt := h.lt
  have hmod := mod_lt (2 ^ 64) (show 0 < d by omega)
  have hdm := div_add_mod (2 ^ 64) d
  refine ⟨?_, by omega, by omega⟩
  rcases Nat.lt_or_ge (2 ^ 63) d with hbig | hsmall
  · have hquot : 1 ≤ 2 ^ 64 / d := Nat.div_pos (Nat.le_of_lt hlt) (by omega)
    have hle := Nat.mul_le_mul_left d hquot
    omega
  · omega

theorem pred_divMod (p : Nat) : (2 ^ p - 1) / d = 2 ^ p / d ∧ (2 ^ p - 1) % d = 2 ^ p % d - 1 := by
  have h3 := h.three_le
  have hne := h.not_dvd p
  have hdm := div_add_mod (2 ^ p) d
  have hmod := mod_lt (2 ^ p) (show 0 < d by omega)
  have heq : 2 ^ p - 1 = 2 ^ p % d - 1 + d * (2 ^ p / d) := by omega
  constructor
  · rw [heq, Nat.add_mul_div_left _ _ (by omega), Nat.div_eq_of_lt (by omega), Nat.zero_add]
  · rw [heq, Nat.add_mul_mod_self_left, Nat.mod_eq_of_lt (by omega)]

/-- While the search goes on, the reciprocal fits a word. -/
theorem reciprocal_lt (hgo : 2 ^ p ≤ nc * (d - 2 ^ p % d)) : 2 ^ p / d + 1 < 2 ^ 64 := by
  have hnc := h.nc_bounds
  have hmul := reciprocal_mul_le (by omega) (h.not_dvd p) hgo
  refine Nat.lt_of_mul_lt_mul_right (a := d) (Nat.lt_of_le_of_lt hmul ?_)
  calc (nc + 1) * (d - 1) ≤ 2 ^ 64 * (d - 1) := Nat.mul_le_mul_right _ (by omega)
    _ < 2 ^ 64 * d := by omega

end UnsignedRange

/-- One step of the division of `2 * x + b`; only the quotient may wrap. -/
theorem DivMod.stepUnsigned {b : Nat} {c : Nativeint} (h : DivMod x c.toNat (q, r))
    (hc : 0 < c.toNat) (hb : b < 2) {bit : Nativeint} (hbit : bit.toNat = b) :
    ∀ qr, qr = (if (c - r).ule (r + bit) then ((q <<< 1) + 1, ((r <<< 1) + bit) - c)
      else (q <<< 1, (r <<< 1) + bit)) →
    qr.1.toNat = (2 * x + b) / c.toNat % 2 ^ 64 ∧ qr.2.toNat = (2 * x + b) % c.toNat := by
  rintro qr rfl
  have hq : q.toNat = x / c.toNat := h.quot
  have hr : r.toNat = x % c.toNat := h.rem
  obtain ⟨hge, hlt⟩ := div_mod_double (x := x) hb hc
  have hmod : x % c.toNat < c.toNat := mod_lt _ hc
  have hq2 : (q <<< 1).toNat = 2 * (x / c.toNat) % 2 ^ 64 := by
    rw [toNat_shiftLeft, Nat.shiftLeft_eq]
    omega
  have hr2 : (r <<< 1).toNat = 2 * (x % c.toNat) % 2 ^ 64 := by
    rw [toNat_shiftLeft, Nat.shiftLeft_eq]
    omega
  have hone : (1 : Nativeint).toNat = 1 := rfl
  have htest : (c - r).ule (r + bit) = true ↔ c.toNat ≤ 2 * (x % c.toNat) + b := by
    rw [ule_iff_toNat_le, toNat_sub_of_le (le_def.2 (by omega)),
      toNat_add, hbit]
    omega
  split
  · rename_i hle
    obtain ⟨hq', hr'⟩ := hge (htest.1 hle)
    constructor
    · rw [toNat_add,  hq']; omega
    · rw [BitVec.toNat_sub, toNat_add, hbit]; omega
  rename_i hle
  obtain ⟨hq', hr'⟩ := hlt (Nat.lt_of_not_le (mt htest.2 hle))
  constructor
  · rw [hq2, hq']
  · rw [toNat_add, hbit]; omega

/-- A reciprocal of the divisor, of 65 bits, and a legal shift. -/
structure UnsignedParameters (d nc : Nat) (m : Nativeint) (a : Bool) (s : Nat) : Prop where
  eq : m.toNat + a.toNat * 2 ^ 64 = 2 ^ (64 + s) / d + 1
  exact_ : nc * (d - 2 ^ (64 + s) % d) < 2 ^ (64 + s)
  shift : if a then 1 ≤ s ∧ s ≤ 64 else s ≤ 63

section

variable {d nc : Nativeint} (h : UnsignedRange d.toNat nc.toNat)

include h

/-- The quotient by `nc` is exact as long as it is looked at, but for the divisor
`2 ^ 63 + 1` in the last round but one. -/
theorem divMod_firstDivision (hp : p + 1 < 128) (hqr : DivMod (2 ^ p) nc.toNat (q, r)) :
    ∀ qr, qr = (if (nc - r).ule r then ((q <<< 1) + 1, (r <<< 1) - nc) else (q <<< 1, r <<< 1)) →
    DivMod (2 ^ (p + 1)) nc.toNat qr ∨ (p + 1 = 127 ∧ d.toNat = 2 ^ 63 + 1) := by
  intro qr hqreq
  have hnc := h.nc_bounds
  have hpow : 2 * 2 ^ p = 2 ^ (p + 1) := by rw [Nat.pow_succ, Nat.mul_comm]
  obtain ⟨hq, hr⟩ := hqr.stepUnsigned (b := 0) (by omega) (by omega)
    (show (0 : Nativeint).toNat = 0 from rfl) qr
    (by simpa using hqreq)
  rw [hpow] at hq hr
  rcases Nat.lt_or_ge (2 ^ (p + 1) / nc.toNat) (2 ^ 64) with hlt | hge
  · exact .inl ⟨hq.trans (Nat.mod_eq_of_lt hlt), hr⟩
  refine .inr ?_
  have hmul := (Nat.le_div_iff_mul_le (by omega)).1 hge
  have hp127 : 126 < p + 1 := by
    refine (Nat.pow_lt_pow_iff_right (a := 2) (by omega)).1 ?_
    calc 2 ^ 126 < 2 ^ 64 * 2 ^ 63 := by decide
      _ ≤ 2 ^ 64 * nc.toNat := Nat.mul_le_mul_left _ hnc.1
      _ ≤ 2 ^ (p + 1) := hmul
  obtain rfl : p = 126 := by omega
  have hdm := div_add_mod (2 ^ 64) d.toNat
  have heq := h.nc_eq
  have hne : d.toNat ≠ 2 ^ 63 := fun heq => h.not_dvd 63 (by rw [heq, Nat.mod_self])
  have hquot : 2 ^ 64 / d.toNat = 1 := Nat.div_eq_of_lt_le (by omega) (by omega)
  rw [hquot] at hdm
  exact ⟨rfl, by omega⟩

/-- The flag says that the reciprocal needs a 65th bit. -/
theorem secondDivision_eq (hfit : 2 ^ p / d.toNat + 1 < 2 ^ 64)
    (hqr : DivMod (2 ^ p - 1) d.toNat (q, r)) :
    ∀ aqr, aqr = (if (d - r).ule (r + 1) then
        (if (intMax 64).ule q then true else false, (q <<< 1) + 1, ((r <<< 1) + 1) - d)
      else (if (intMin 64).ule q then true else false, q <<< 1, (r <<< 1) + 1)) →
    (aqr.1 = true ↔ 2 ^ 64 ≤ 2 ^ (p + 1) / d.toNat + 1) ∧
      aqr.2.1.toNat = 2 ^ (p + 1) / d.toNat % 2 ^ 64 ∧
      aqr.2.2.toNat = 2 ^ (p + 1) % d.toNat - 1 := by
  rintro aqr rfl
  have hpow : 2 * 2 ^ p = 2 ^ (p + 1) := by rw [Nat.pow_succ, Nat.mul_comm]
  have hpos := Nat.two_pow_pos p
  obtain ⟨hdiv, hmod⟩ := h.pred_divMod (p + 1)
  have hstep := hqr.stepUnsigned (b := 1) h.pos (by omega) (show (1 : Nativeint).toNat = 1 from rfl)
    _ rfl
  rw [show 2 * (2 ^ p - 1) + 1 = 2 ^ (p + 1) - 1 by omega, hdiv, hmod] at hstep
  have hq : q.toNat = 2 ^ p / d.toNat := hqr.quot.trans (h.pred_divMod p).1
  have hmax : (intMax 64).ule q = true ↔ 2 ^ 63 - 1 ≤ 2 ^ p / d.toNat := by
    rw [ule_iff_toNat_le, hq]
    rfl
  have hmin : (intMin 64).ule q = true ↔ 2 ^ 63 ≤ 2 ^ p / d.toNat := by
    rw [ule_iff_toNat_le, hq]
    rfl
  have hdouble : 2 * (2 ^ p / d.toNat) ≤ 2 ^ (p + 1) / d.toNat := by
    rw [← hpow]
    exact Nat.mul_div_le_mul_div_assoc 2 _ _
  have hdouble' := double_div_le h.pos (2 ^ p)
  rw [hpow] at hdouble'
  have hq1 : ((q <<< 1) + 1).toNat = (2 * (2 ^ p / d.toNat) + 1) % 2 ^ 64 := by
    rw [toNat_add, toNat_shiftLeft, show (1 : Nativeint).toNat = 1 from rfl]
    omega
  have hq0 : (q <<< 1).toNat = 2 * (2 ^ p / d.toNat) % 2 ^ 64 := by
    rw [toNat_shiftLeft, Nat.shiftLeft_eq]
    omega
  split at hstep
  · rename_i htest
    rw [if_pos htest]
    refine ⟨?_, hstep.1, hstep.2⟩
    have hX : 2 ^ (p + 1) / d.toNat = 2 * (2 ^ p / d.toNat) + 1 := by
      have := hq1.symm.trans hstep.1
      omega
    split
    · rename_i hbig
      have := hmax.1 hbig
      exact iff_of_true rfl (by omega)
    rename_i hsmall
    have := mt hmax.2 hsmall
    exact iff_of_false Bool.false_ne_true (by omega)
  rename_i htest
  rw [if_neg htest]
  refine ⟨?_, hstep.1, hstep.2⟩
  have hX : 2 ^ (p + 1) / d.toNat = 2 * (2 ^ p / d.toNat) := by
    have := hq0.symm.trans hstep.1
    omega
  split
  · rename_i hbig
    have := hmin.1 hbig
    exact iff_of_true rfl (by omega)
  rename_i hsmall
  have := mt hmin.2 hsmall
  exact iff_of_false Bool.false_ne_true (by omega)

end

theorem UnsignedParameters.of_eq {d : Nat} (h : UnsignedRange d nc) {m : Nativeint} {a : Bool}
    {s : Nat} (hs : s ≤ 64) (hfit : 2 ^ (63 + s) / d + 1 < 2 ^ 64)
    (hm : m.toNat = (2 ^ (64 + s) / d + 1) % 2 ^ 64)
    (ha : a = true ↔ 2 ^ 64 ≤ 2 ^ (64 + s) / d + 1)
    (hexact : nc * (d - 2 ^ (64 + s) % d) < 2 ^ (64 + s)) : UnsignedParameters d nc m a s := by
  have h3 := h.three_le
  have hbound := double_div_le h.pos (2 ^ (63 + s))
  rw [show 2 * 2 ^ (63 + s) = 2 ^ (64 + s) by rw [Nat.mul_comm, ← Nat.pow_succ]; congr 1; omega]
    at hbound
  cases a with
  | false =>
    have hlt : 2 ^ (64 + s) / d + 1 < 2 ^ 64 := Nat.lt_of_not_le fun hge => nomatch ha.2 hge
    refine ⟨?_, hexact, ?_⟩
    · rw [hm, Nat.mod_eq_of_lt hlt, Bool.toNat_false, Nat.zero_mul]
    refine Nat.le_of_not_lt fun hgt => ?_
    obtain rfl : s = 64 := by omega
    have hge : 2 ^ 128 / 2 ^ 64 ≤ 2 ^ (64 + 64) / d :=
      Nat.div_le_div_left (Nat.le_of_lt h.lt) h.pos
    omega
  | true =>
    have hge := ha.1 rfl
    refine ⟨?_, hexact, ?_, hs⟩
    · rw [Bool.toNat_true]; omega
    refine Nat.pos_of_ne_zero ?_
    rintro rfl
    have hle : 2 ^ (64 + 0) / d ≤ 2 ^ 64 / 3 := Nat.div_le_div_left h3 (by omega)
    omega

theorem udivimmLoop_spec {nc : Nativeint} (h : UnsignedRange d.toNat nc.toNat) (fuel p : Nat)
    (h1 : DivMod (2 ^ p) nc.toNat qr1 ∨ p = 127)
    (h2 : DivMod (2 ^ p - 1) d.toNat qr2) (hfit : 2 ^ p / d.toNat + 1 < 2 ^ 64) (hp : 63 ≤ p)
    (hp' : p < 128) (hfuel : 128 - p < fuel) :
    ∃ m a s, udivimmLoop d nc fuel p false qr1 qr2 = some (m, a, s) ∧
      UnsignedParameters d.toNat nc.toNat m a s := by
  have hnc := h.nc_bounds
  induction fuel generalizing p qr1 qr2 with
  | zero => omega
  | succ fuel ih =>
    unfold udivimmLoop
    extract_lets p' qr1 aqr2 delta
    have hfirst := fun hp h1 => divMod_firstDivision h (p := p) hp h1 qr1 rfl
    obtain ⟨ha, hquot, hrem⟩ := secondDivision_eq h hfit h2 aqr2 rfl
    have hne := h.not_dvd (p + 1)
    have hmod := mod_lt (2 ^ (p + 1)) h.pos
    have hdelta : delta.toNat = d.toNat - 2 ^ (p + 1) % d.toNat := by
      have hpred : (d - 1).toNat = d.toNat - 1 :=
        toNat_sub_of_le (le_def.2 (show 1 ≤ d.toNat by omega))
      rw [toNat_sub_of_le (le_def.2 (by omega)), hpred]
      omega
    split
    · rename_i hgo
      rw [Bool.and_eq_true, decide_eq_true_iff] at hgo
      obtain ⟨hp128, hgo⟩ := hgo
      have hfit' : 2 ^ (p + 1) / d.toNat + 1 < 2 ^ 64 := by
        rcases hfirst hp128 (h1.resolve_right (by omega)) with hexact | ⟨hp127, hd⟩
        · rw [test_iff hexact (by omega), hdelta] at hgo; exact h.reciprocal_lt hgo
        · rw [hp127, hd]; decide
      have haf : aqr2.1 = false := by
        rw [← Bool.not_eq_true, ha]
        omega
      rw [haf]
      refine ih (p + 1) ?_ ⟨?_, ?_⟩ hfit' (by omega) (by omega) (by omega)
      · exact (hfirst hp128 (h1.resolve_right (by omega))).imp_right And.left
      · rw [hquot, (h.pred_divMod _).1, Nat.mod_eq_of_lt (by omega)]
      · rw [hrem, (h.pred_divMod _).2]
    rename_i hstop
    have hs : 64 + (p + 1 - 64) = p + 1 := by omega
    have hs' : 63 + (p + 1 - 64) = p := by omega
    refine ⟨_, _, _, rfl, .of_eq h (by omega) ?_ ?_ ?_ ?_⟩
    · rw [hs']; exact hfit
    · rw [hs, toNat_add, hquot, show (1 : Nativeint).toNat = 1 from rfl, Nat.mod_add_mod]
    · rw [hs]; exact ha
    rw [hs]
    rw [Bool.and_eq_true, decide_eq_true_iff, not_and] at hstop
    rcases Nat.lt_or_ge (p + 1) 128 with hp128 | hp128
    · rcases hfirst hp128 (h1.resolve_right (by omega)) with hexact | ⟨hp127, hd⟩
      · have hstop := hstop hp128
        rw [test_iff hexact (by omega), hdelta] at hstop
        exact Nat.lt_of_not_le hstop
      · rw [h.nc_eq, hp127, hd]; decide
    obtain rfl : p = 127 := by omega
    calc nc.toNat * (d.toNat - 2 ^ 128 % d.toNat) ≤ nc.toNat * d.toNat :=
        Nat.mul_le_mul_left _ (Nat.sub_le _ _)
      _ < 2 ^ 64 * 2 ^ 64 := Nat.mul_lt_mul'' (by omega) h.lt

/-- The loop stops, and its parameters are a reciprocal of the divisor. -/
theorem udivimmParameters_spec (hpos : 0 < d.toNat) (hd : ∀ p, 2 ^ p % d.toNat ≠ 0) :
    ∃ nc m a s, udivimmParameters d = some (m, a, s) ∧ UnsignedRange d.toNat nc ∧
      UnsignedParameters d.toNat nc m a s := by
  have hrange : UnsignedRange d.toNat (2 ^ 64 - 1 - 2 ^ 64 % d.toNat) := ⟨hpos, d.isLt, hd, rfl⟩
  have h3 := hrange.three_le
  have hlt := d.isLt
  obtain ⟨nc, hncdef⟩ : ∃ nc : Nativeint, nc = -1 - (-d).umod d := ⟨_, rfl⟩
  have hnc : nc.toNat = 2 ^ 64 - 1 - 2 ^ 64 % d.toNat := by
    have hneg : (-d).toNat = 2 ^ 64 - d.toNat := by
      rw [BitVec.toNat_neg]
      omega
    have humod : ((-d).umod d).toNat = 2 ^ 64 % d.toNat := by
      refine BitVec.toNat_umod.trans ?_
      rw [hneg, Nat.mod_eq_sub_mod (Nat.le_of_lt hlt)]
    have hone : (-1 : Nativeint).toNat = 2 ^ 64 - 1 := rfl
    rw [hncdef, toNat_sub_of_le (le_def.2 (by omega)), humod, hone]
  rw [← hnc] at hrange
  have hquot : 2 ^ 63 / d.toNat ≤ 2 ^ 63 / 3 := Nat.div_le_div_left h3 (by omega)
  have h1 := divMod_udivmod (intMin 64) nc
  have h2 := divMod_udivmod (intMax 64) d
  obtain ⟨m, a, s, hloop, hparams⟩ := udivimmLoop_spec hrange 128 63 (.inl h1) h2 (by omega)
    (by omega) (by omega) (by omega)
  refine ⟨_, m, a, s, ?_, hrange, hparams⟩
  subst hncdef
  exact hloop

section

variable {d m : Nativeint} {a : Bool} {s : Nat}

/-- Multiplying by the reciprocal and shifting divides. -/
theorem UnsignedParameters.mul_div_eq (h : UnsignedParameters d.toNat nc m a s)
    (hrange : UnsignedRange d.toNat nc) (n : Nativeint) :
    n.toNat * (m.toNat + a.toNat * 2 ^ 64) / 2 ^ (64 + s) = n.toNat / d.toNat := by
  have hnc := hrange.nc_bounds
  rw [h.eq]
  exact Lib.Reciprocal.mul_div_eq (reciprocal_eq hrange.pos _) hrange.pos
    (error_lt hrange.nc_mod (by omega) h.exact_ (by omega))

/-- The expression that `unsigned_div_int` builds, on words. -/
def unsignedQuotient (m : Nativeint) (a : Bool) (s : Nat) (n : Nativeint) : Nativeint :=
  let q := mulhi false n m
  if a then ((n - q) >>> 1 + q) >>> (s - 1) else q >>> s

theorem toNat_mulhi (n m : Nativeint) : (mulhi false n m).toNat = n.toNat * m.toNat / 2 ^ 64 := by
  have hlt : n.toNat * m.toNat < 2 ^ 64 * 2 ^ 64 := Nat.mul_lt_mul'' n.isLt m.isLt
  have hn : n.toNat % 2 ^ 128 = n.toNat := Nat.mod_eq_of_lt (Nat.lt_trans n.isLt (by decide))
  have hm : m.toNat % 2 ^ 128 = m.toNat := Nat.mod_eq_of_lt (Nat.lt_trans m.isLt (by decide))
  rw [mulhi, if_neg Bool.false_ne_true, BitVec.toNat_setWidth, toNat_ushiftRight,
    BitVec.toNat_mul, BitVec.toNat_setWidth, BitVec.toNat_setWidth, hn, hm,
    Nat.shiftRight_eq_div_pow, show 2 ^ 128 = 2 ^ 64 * 2 ^ 64 by rfl, Nat.mod_eq_of_lt hlt,
    Nat.mod_eq_of_lt]
  exact Nat.div_lt_of_lt_mul hlt

theorem unsignedQuotient_eq (h : UnsignedParameters d.toNat nc m a s)
    (hrange : UnsignedRange d.toNat nc) (n : Nativeint) :
    unsignedQuotient m a s n = n.udiv d := by
  have hdiv := h.mul_div_eq hrange n
  have hmulhi := toNat_mulhi n m
  apply eq_of_toNat_eq
  rw [show (n.udiv d).toNat = n.toNat / d.toNat from toNat_udiv, ← hdiv]
  unfold unsignedQuotient
  extract_lets q
  have hle : q.toNat ≤ n.toNat := by
    rw [hmulhi]
    exact Nat.div_le_of_le_mul ((Nat.mul_comm _ _).trans_le
      (Nat.mul_le_mul_right _ (Nat.le_of_lt m.isLt)))
  cases a with
  | false =>
    rw [if_neg Bool.false_ne_true, toNat_ushiftRight, Nat.shiftRight_eq_div_pow, hmulhi,
      Bool.toNat_false, Nat.zero_mul, Nat.add_zero, Nat.pow_add, Nat.div_div_eq_div_mul]
  | true =>
    obtain ⟨hs, -⟩ := h.shift
    -- `(n - q) / 2 + q` is half of `n + q`, which may need 65 bits
    have hhalf : ((n - q) >>> 1 + q).toNat = (n.toNat + q.toNat) / 2 := by
      rw [toNat_add, toNat_ushiftRight, toNat_sub_of_le (le_def.2 hle)]
      omega
    have hsum : n.toNat * (m.toNat + 1 * 2 ^ 64) / 2 ^ 64 = n.toNat + q.toNat := by
      rw [Nat.mul_add, Nat.one_mul, Nat.add_mul_div_right _ _ (by decide), hmulhi, Nat.add_comm]
    rw [if_pos rfl, toNat_ushiftRight, Nat.shiftRight_eq_div_pow, hhalf, Bool.toNat_true,
      Nat.pow_add, ← Nat.div_div_eq_div_mul, hsum, Nat.div_div_eq_div_mul, ← Nat.pow_succ',
      Nat.succ_eq_add_one, Nat.sub_add_cancel hs]

end

end Oxcaml.Backend.CmmHelpers
