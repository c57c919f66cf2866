/-
Oxcaml.Backend.CmmWords — the words behind the peepholes.

§1 is about the 63-bit integers of the source: the guards of `Misc` are exact,
so arithmetic on constants commutes with their sign extension. §2 is about
shifts and masks of 64-bit words, bit by bit.
-/
import Mathlib
import Oxcaml.Backend.CmmHelpers

set_option linter.all false

namespace Oxcaml.Backend.CmmHelpers

open BitVec (eq_of_getLsbD_eq eq_of_toInt_eq getLsbD getLsbD_and getLsbD_of_ge getLsbD_or
  getLsbD_shiftLeft getLsbD_sshiftRight getLsbD_ushiftRight msb_eq_getLsbD_last msb_eq_toInt
  msb_xor ofNat sle_iff_toInt_le slt_iff_toInt_lt toInt_add toInt_eq_toNat_cond toInt_sub)

/-! ## §1 Constants -/

theorem toInt_ofInt (n : OcamlInt) : (ofInt n).toInt = n.toInt :=
  BitVec.toInt_signExtend_of_le (by omega)

/-- The range of an OCaml integer. -/
theorem toInt_bounds (n : OcamlInt) : -2 ^ 62 ≤ n.toInt ∧ n.toInt < 2 ^ 62 :=
  ⟨BitVec.le_toInt n, BitVec.toInt_lt⟩

variable {n : OcamlInt}

theorem toInt_of_range {k : Int} (h : n.toInt = k.bmod (2 ^ 63))
    (hk : -2 ^ 62 ≤ k ∧ k < 2 ^ 62) : n.toInt = k := by
  rw [h]
  exact Int.bmod_eq_of_le (by omega) (by omega)

/-- The sign of an OCaml integer that was computed modulo `2 ^ 63`. -/
theorem bmod_neg_iff {k : Int} (hk : -2 ^ 63 ≤ k ∧ k < 2 ^ 63) :
    k.bmod (2 ^ 63) < 0 ↔ (-2 ^ 62 ≤ k ∧ k < 0) ∨ 2 ^ 62 ≤ k := by
  rw [Int.bmod_def]
  split <;> omega

theorem slt_zero_eq_msb (n : OcamlInt) : n.slt 0 = n.msb := BitVec.slt_zero_eq_msb

variable {a b : OcamlInt}

/-- An overflow changes the sign. -/
theorem toInt_add_of_noOverflow (h : noOverflowAdd a b = true) :
    -2 ^ 62 ≤ a.toInt + b.toInt ∧ a.toInt + b.toInt < 2 ^ 62 := by
  have ha := toInt_bounds a
  have hb := toInt_bounds b
  have hsign := bmod_neg_iff (k := a.toInt + b.toInt) (by omega)
  have hadd : (a + b).toInt = (a.toInt + b.toInt).bmod (2 ^ 63) := toInt_add a b
  rw [noOverflowAdd, slt_zero_eq_msb, BitVec.msb_or, msb_xor, msb_xor,
    BitVec.msb_not, msb_eq_toInt, msb_eq_toInt, msb_eq_toInt, hadd] at h
  by_cases ha0 : a.toInt < 0 <;> by_cases hb0 : b.toInt < 0 <;>
    by_cases hab : (a.toInt + b.toInt).bmod (2 ^ 63) < 0 <;>
    simp only [ha0, hb0, hab,  decide_true] at h <;> first | omega | cases h

theorem ofInt_add (h : noOverflowAdd a b = true) : ofInt (a + b) = ofInt a + ofInt b := by
  have hrange := toInt_add_of_noOverflow h
  apply eq_of_toInt_eq
  rw [toInt_add, toInt_ofInt, toInt_ofInt, toInt_ofInt,
    toInt_of_range (toInt_add a b) hrange, Int.bmod_eq_of_le (by omega) (by omega)]

theorem toInt_sub_of_noOverflow (h : noOverflowSub a b = true) :
    -2 ^ 62 ≤ a.toInt - b.toInt ∧ a.toInt - b.toInt < 2 ^ 62 := by
  have ha := toInt_bounds a
  have hb := toInt_bounds b
  have hsign := bmod_neg_iff (k := a.toInt - b.toInt) (by omega)
  have hsub : (a - b).toInt = (a.toInt - b.toInt).bmod (2 ^ 63) := toInt_sub
  rw [noOverflowSub, slt_zero_eq_msb, BitVec.msb_or, msb_xor, msb_xor,
    BitVec.msb_not, msb_eq_toInt, msb_eq_toInt, msb_eq_toInt, hsub] at h
  by_cases ha0 : a.toInt < 0 <;> by_cases hb0 : b.toInt < 0 <;>
    by_cases hab : (a.toInt - b.toInt).bmod (2 ^ 63) < 0 <;>
    simp only [ha0, hb0, hab,  decide_true] at h <;> first | omega | cases h

theorem ofInt_sub (h : noOverflowSub a b = true) : ofInt (a - b) = ofInt a - ofInt b := by
  have hrange := toInt_sub_of_noOverflow h
  apply eq_of_toInt_eq
  rw [toInt_sub, toInt_ofInt, toInt_ofInt, toInt_ofInt,
    toInt_of_range (toInt_sub) hrange, Int.bmod_eq_of_le (by omega) (by omega)]

theorem toInt_minInt : minInt.toInt = -2 ^ 62 := by decide

theorem ofInt_neg {a : OcamlInt} (h : a ≠ minInt) : ofInt (-a) = -ofInt a := by
  have ha := toInt_bounds a
  have hne : a.toInt ≠ -2 ^ 62 := fun heq =>
    h (eq_of_toInt_eq (heq.trans toInt_minInt.symm))
  apply eq_of_toInt_eq
  rw [BitVec.toInt_neg, toInt_ofInt, toInt_ofInt, toInt_of_range BitVec.toInt_neg (by omega),
    Int.bmod_eq_of_le (by omega) (by omega)]

/-- A product whose quotient gives a factor back did not overflow. -/
theorem toInt_mul_of_noOverflow (h : noOverflowMul a b = true) :
    (a * b).toInt = a.toInt * b.toInt := by
  have hb := toInt_bounds b
  have hp := toInt_bounds (a * b)
  have hmul : (a * b).toInt = (a.toInt * b.toInt).bmod (2 ^ 63) := BitVec.toInt_mul a b
  rw [noOverflowMul, Bool.not_eq_true', Bool.or_eq_false_iff, Bool.and_eq_false_iff,
    Bool.and_eq_false_iff, bne_eq_false_iff_eq, bne_eq_false_iff_eq, beq_eq_false_iff_ne] at h
  obtain ⟨hmin, rfl | hdiv⟩ := h
  · simp
  have hbne : b.toInt ≠ 0 ∨ b = 0 := by
    by_cases hb0 : b = 0
    · exact .inr hb0
    · exact .inl fun h => hb0 (eq_of_toInt_eq (h.trans (by decide)))
  rcases hbne with hbne | rfl
  · -- the quotient `p / b` itself does not overflow, and its remainder is below `b`
    have hquot : ((a * b).toInt.tdiv b.toInt).bmod (2 ^ 63) = a.toInt := by
      rw [← BitVec.toInt_sdiv, hdiv]
    have habs := Int.natAbs_tdiv_le_natAbs (a * b).toInt b.toInt
    have hrem := Int.mul_tdiv_add_tmod (a * b).toInt b.toInt
    have hlt : ((a * b).toInt.tmod b.toInt).natAbs < b.toInt.natAbs := by
      rw [Int.natAbs_tmod]
      exact Nat.mod_lt _ (by lia)
    generalize (a * b).toInt.tdiv b.toInt = q at *
    have hqa : q = a.toInt := by
      by_cases hq : q = 2 ^ 62
      · subst hq
        have ha : a = minInt := eq_of_toInt_eq (hquot.symm.trans (by decide))
        have hb0 : ¬ b.toInt < 0 := by
          have hmsb := hmin.resolve_left fun h => h ha
          rwa [slt_zero_eq_msb, msb_eq_toInt, decide_eq_false_iff_not] at hmsb
        lia
      · rw [← hquot]; exact (Int.bmod_eq_of_le (by lia) (by lia)).symm
    subst hqa
    rw [Int.mul_comm] at hrem
    rw [Int.bmod_def] at hmul
    split at hmul <;> lia
  · simp

theorem ofInt_mul (h : noOverflowMul a b = true) : ofInt (a * b) = ofInt a * ofInt b := by
  have hmul := toInt_mul_of_noOverflow h
  have hbounds := toInt_bounds (a * b)
  apply eq_of_toInt_eq
  rw [BitVec.toInt_mul, toInt_ofInt, toInt_ofInt, toInt_ofInt, ← hmul,
    Int.bmod_eq_of_le (by omega) (by omega)]

theorem toNat_of_isDefinedShift (h : isDefinedShift n = true) :
    n.toNat < 64 ∧ (ofInt n).toNat = n.toNat ∧ n.toInt = n.toNat := by
  rw [isDefinedShift, Bool.and_eq_true, sle_iff_toInt_le, slt_iff_toInt_lt] at h
  have h0 : (0 : OcamlInt).toInt = 0 := by decide
  have h64 : (64 : OcamlInt).toInt = 64 := by decide
  have hnat := toInt_eq_toNat_cond n
  have hword := toInt_eq_toNat_cond (ofInt n)
  rw [toInt_ofInt] at hword
  split at hnat <;> split at hword <;> omega

theorem toNat_pos_of_ne_zero (h : n ≠ 0) : 0 < n.toNat := by
  rcases Nat.eq_zero_or_pos n.toNat with h0 | h0
  · exact absurd (BitVec.eq_of_toNat_eq h0) h
  · exact h0

/-- The sum of two shift amounts. -/
theorem toNat_add_of_isDefinedShift {n m : OcamlInt} (hn : isDefinedShift n = true)
    (hm : isDefinedShift m = true) : (n + m).toNat = n.toNat + m.toNat ∧
      (isDefinedShift (n + m) = true ↔ n.toNat + m.toNat < 64) := by
  obtain ⟨hn64, -, -⟩ := toNat_of_isDefinedShift hn
  obtain ⟨hm64, -, -⟩ := toNat_of_isDefinedShift hm
  have hadd : (n + m).toNat = n.toNat + m.toNat := by
    rw [BitVec.toNat_add, Nat.mod_eq_of_lt (by omega)]
  have hint := toInt_eq_toNat_cond (n + m)
  have h0 : (0 : OcamlInt).toInt = 0 := by decide
  have h64 : (64 : OcamlInt).toInt = 64 := by decide
  refine ⟨hadd, ?_⟩
  rw [isDefinedShift, Bool.and_eq_true, sle_iff_toInt_le, slt_iff_toInt_lt]
  split at hint <;> omega

theorem isDefinedShift_of_toNat (h : n.toNat < 64) : isDefinedShift n = true := by
  have hint := toInt_eq_toNat_cond n
  have h0 : (0 : OcamlInt).toInt = 0 := by decide
  have h64 : (64 : OcamlInt).toInt = 64 := by decide
  rw [isDefinedShift, Bool.and_eq_true, sle_iff_toInt_le, slt_iff_toInt_lt]
  split at hint <;> omega

/-- A saturating sum of two shift amounts. -/
theorem toNat_saturating {n m : OcamlInt} (hn : isDefinedShift n = true)
    (hm : isDefinedShift m = true) :
    (if (n + m).sle 63 then n + m else 63).toNat = min 63 (n.toNat + m.toNat) ∧
      isDefinedShift (if (n + m).sle 63 then n + m else 63) = true := by
  obtain ⟨hn64, -, -⟩ := toNat_of_isDefinedShift hn
  obtain ⟨hm64, -, -⟩ := toNat_of_isDefinedShift hm
  obtain ⟨hadd, hdef⟩ := toNat_add_of_isDefinedShift hn hm
  have hint := toInt_eq_toNat_cond (n + m)
  have h63 : (63 : OcamlInt).toInt = 63 := by decide
  have h63' : (63 : OcamlInt).toNat = 63 := by decide
  split
  · rename_i hle
    rw [sle_iff_toInt_le] at hle
    exact ⟨by omega, hdef.2 (by omega)⟩
  rename_i hle
  rw [sle_iff_toInt_le] at hle
  exact ⟨by omega, by decide⟩

/-- The difference of two shift amounts. -/
theorem toNat_sub_of_isDefinedShift {n m : OcamlInt} (hm : isDefinedShift m = true)
    (h : n.toNat ≤ m.toNat) :
    (m - n).toNat = m.toNat - n.toNat ∧ isDefinedShift (m - n) = true := by
  obtain ⟨hm64, -, -⟩ := toNat_of_isDefinedShift hm
  have hsub : (m - n).toNat = m.toNat - n.toNat := BitVec.toNat_sub_of_le h
  exact ⟨hsub, isDefinedShift_of_toNat (by omega)⟩

theorem slt_iff_of_isDefinedShift {n m : OcamlInt} (hn : isDefinedShift n = true)
    (hm : isDefinedShift m = true) : n.slt m = true ↔ n.toNat < m.toNat := by
  obtain ⟨-, -, hn⟩ := toNat_of_isDefinedShift hn
  obtain ⟨-, -, hm⟩ := toNat_of_isDefinedShift hm
  rw [slt_iff_toInt_lt, hn]
  omega

theorem getConst_natintConstUntagged {O : Type} (n : Nativeint) :
    getConst (natintConstUntagged n : Expression O) = some n := by
  unfold natintConstUntagged
  split
  · rfl
  rename_i h
  rw [Bool.or_eq_true, slt_iff_toInt_lt, slt_iff_toInt_lt, toInt_ofInt,
    toInt_ofInt, toInt_minInt] at h
  have hmax : maxInt.toInt = 2 ^ 62 - 1 := by decide
  have hn : (toInt n).toInt = n.toInt := by
    have htrunc : (toInt n).toInt = n.toInt.bmod (2 ^ 63) := by
      rw [toInt, BitVec.toInt_setWidth, BitVec.toInt_eq_toNat_bmod, Int.bmod_bmod_of_dvd]
      exact ⟨2, by decide⟩
    exact toInt_of_range htrunc (by omega)
  rw [getConst, Option.some.injEq]
  exact eq_of_toInt_eq (by rw [toInt_ofInt, hn])

/-- A constant without bits from `k` on. -/
theorem ofInt_lt_of_sshiftRight {k : Nat} (h : n.sshiftRight k = 0) : (ofInt n).toNat < 2 ^ k := by
  have hdiv : n.toInt / 2 ^ k = 0 := by
    have h := congrArg BitVec.toInt h
    rwa [BitVec.toInt_sshiftRight, Int.shiftRight_eq_div_pow] at h
  have hpow : (0 : Int) < 2 ^ k := Int.pow_pos (by decide)
  have hrange : 0 ≤ n.toInt ∧ n.toInt < 2 ^ k := by
    have hmod := Int.emod_add_mul_ediv n.toInt (2 ^ k)
    rw [hdiv, Int.mul_zero, Int.add_zero] at hmod
    exact ⟨hmod ▸ Int.emod_nonneg _ (by omega), hmod ▸ Int.emod_lt_of_pos _ hpow⟩
  have hword := toInt_eq_toNat_cond (ofInt n)
  rw [toInt_ofInt] at hword
  have hcast : ((2 ^ k : Nat) : Int) = 2 ^ k := Int.natCast_pow 2 k
  split at hword <;> omega

/-- Below the shift, an addition sets bits. -/
theorem add_eq_or_of_interchange {k : Nat} (h : n.sshiftRight k = 0)
    (a : Nativeint) : (a <<< k) + ofInt n = (a <<< k) ||| ofInt n := by
  apply BitVec.add_eq_or_of_and_eq_zero
  apply eq_of_getLsbD_eq
  intro i hi
  rw [getLsbD_and, BitVec.getLsbD_zero]
  by_cases hik : i < k
  · simp [hik]
  have hbit : (ofInt n).getLsbD i = false :=
    Nat.testBit_lt_two_pow (Nat.lt_of_lt_of_le (ofInt_lt_of_sshiftRight h)
      (Nat.pow_le_pow_right (by omega) (by omega)))
  rw [hbit, Bool.and_false]

/-! ## §2 The low bit -/

/-- Equal but for the lowest bit. -/
def AgreeButLowBit (a b : Nativeint) : Prop := ∀ i, 0 < i → a.getLsbD i = b.getLsbD i

variable {a b : Nativeint}

theorem AgreeButLowBit.trans {c : Nativeint} (h : AgreeButLowBit a b)
    (h' : AgreeButLowBit b c) : AgreeButLowBit a c := fun i hi => (h i hi).trans (h' i hi)

theorem AgreeButLowBit.ushiftRight (h : AgreeButLowBit a b) {n : Nat}
    (hn : 0 < n) : a >>> n = b >>> n := by
  apply eq_of_getLsbD_eq
  intro i _
  rw [getLsbD_ushiftRight, getLsbD_ushiftRight, h _ (by omega)]

theorem AgreeButLowBit.sshiftRight (h : AgreeButLowBit a b) {n : Nat}
    (hn : 0 < n) : a.sshiftRight n = b.sshiftRight n := by
  have hmsb : a.msb = b.msb := by
    rw [msb_eq_getLsbD_last, msb_eq_getLsbD_last, h _ (by omega)]
  apply eq_of_getLsbD_eq
  intro i _
  rw [getLsbD_sshiftRight, getLsbD_sshiftRight, h _ (by omega), hmsb]

theorem AgreeButLowBit.or {a b n : Nativeint} (h : AgreeButLowBit a b) (hn : n &&& 1 = 1) :
    a ||| n = b ||| n := by
  have hbit : n.getLsbD 0 = true := by
    have h := congrArg (getLsbD · 0) hn
    simpa using h
  apply eq_of_getLsbD_eq
  intro i _
  rw [getLsbD_or, getLsbD_or]
  rcases Nat.eq_zero_or_pos i with rfl | hi
  · rw [hbit, Bool.or_true, Bool.or_true]
  · rw [h i hi]

theorem AgreeButLowBit.and {n : Nativeint} (h : AgreeButLowBit a b) (hn : n &&& 1 = 0) :
    a &&& n = b &&& n := by
  have hbit : n.getLsbD 0 = false := by
    have h := congrArg (getLsbD · 0) hn
    simpa using h
  apply eq_of_getLsbD_eq
  intro i _
  rw [getLsbD_and, getLsbD_and]
  rcases Nat.eq_zero_or_pos i with rfl | hi
  · rw [hbit, Bool.and_false, Bool.and_false]
  · rw [h i hi]

section

variable (a : Nativeint)

theorem agreeButLowBit_or_one : AgreeButLowBit (a ||| 1) a := by
  intro i hi
  simp [Nat.pos_iff_ne_zero.1 hi]

theorem agreeButLowBit_shiftLeft_add_one {n : Nat} (hn : 0 < n) :
    AgreeButLowBit ((a <<< n) + 1) (a <<< n) := by
  have h : (a <<< n) + 1 = (a <<< n) ||| 1 := by
    apply BitVec.add_eq_or_of_and_eq_zero
    apply eq_of_getLsbD_eq
    intro i hi
    rcases Nat.eq_zero_or_pos i with rfl | hi0
    · simp [hn]
    · simp [Nat.pos_iff_ne_zero.1 hi0]
  rw [h]
  exact agreeButLowBit_or_one _

theorem agreeButLowBit_lsr_lsl : AgreeButLowBit ((a >>> 1) <<< 1) a := by
  intro i hi
  by_cases hi64 : i < 64
  · rw [getLsbD_shiftLeft, getLsbD_ushiftRight, show 1 + (i - 1) = i by omega]
    simp [hi64, Nat.not_lt.2 hi]
  · rw [getLsbD_of_ge _ _ (by omega), getLsbD_of_ge _ _ (by omega)]

theorem agreeButLowBit_asr_lsl : AgreeButLowBit ((a.sshiftRight 1) <<< 1) a := by
  intro i hi
  by_cases hi64 : i < 64
  · rw [getLsbD_shiftLeft, getLsbD_sshiftRight, show 1 + (i - 1) = i by omega]
    simp [hi64, Nat.not_lt.2 hi, show i - 1 < 64 by omega]
  · rw [getLsbD_of_ge _ _ (by omega), getLsbD_of_ge _ _ (by omega)]

end

/-- A mask makes a narrow load unsigned. -/
theorem signExtend_and_mask {k : Nat} (b : BitVec k) :
    b.signExtend 64 &&& ofNat 64 (2 ^ k - 1) = b.setWidth 64 := by
  apply eq_of_getLsbD_eq
  intro i hi
  rw [getLsbD_and, BitVec.getLsbD_signExtend, BitVec.getLsbD_ofNat]
  by_cases hik : i < k
  · simp [hi, hik]
  · simp [hik, getLsbD_of_ge b i (by omega)]

theorem setWidth_and_mask {k : Nat} (b : BitVec k) :
    b.setWidth 64 &&& ofNat 64 (2 ^ k - 1) = b.setWidth 64 := by
  apply eq_of_getLsbD_eq
  intro i hi
  rw [getLsbD_and, BitVec.getLsbD_ofNat]
  by_cases hik : i < k
  · simp [hi, hik]
  · simp [getLsbD_of_ge b i (by omega)]

/-! ## §3 Shifts and significant bits -/

theorem ushiftRight_eq_zero_of_sshiftRight {k : Nativeint} {n : Nat} (h : k.sshiftRight n = 0) :
    k >>> n = 0 := by
  apply eq_of_getLsbD_eq
  intro i hi
  have hbit := congrArg (getLsbD · i) h
  simp only [getLsbD_sshiftRight, BitVec.ofNat_eq_ofNat] at hbit
  rw [getLsbD_ushiftRight, BitVec.ofNat_eq_ofNat, BitVec.getLsbD_zero]
  by_cases hlt : n + i < 64
  · simpa [hi, hlt] using hbit
  · exact getLsbD_of_ge _ _ (by omega)

/-- The sign bit extends to the left. -/
theorem sshiftRight_saturates (a : Nativeint) {n : Nat} (hn : 63 ≤ n) :
    a.sshiftRight n = a.sshiftRight 63 := by
  apply eq_of_getLsbD_eq
  intro i hi
  rw [getLsbD_sshiftRight, getLsbD_sshiftRight, msb_eq_getLsbD_last]
  rcases Nat.eq_zero_or_pos i with rfl | hi0
  · rcases Nat.eq_or_lt_of_le hn with rfl | hn'
    · rfl
    · simp [show ¬ n < 64 by omega]
  · simp [show ¬ n + i < 64 by omega, show ¬ 63 + i < 64 by omega]

/-- All bits from `m` on are the sign bit: a signed number of `m` bits and a sign. -/
def SignBits (m : Nat) (a : Nativeint) : Prop :=
  ∀ i, m ≤ i → i < 64 → a.getLsbD i = a.getLsbD 63

theorem signBits_archBits (a : Nativeint) : SignBits archBits a := fun i hi hi' => by
  have : archBits = 64 := rfl
  omega

theorem signBits_of_lt {m : Nat} (h : a.toNat < 2 ^ m) : SignBits m a := by
  have hbit : ∀ i, m ≤ i → a.getLsbD i = false := fun i hi =>
    Nat.testBit_lt_two_pow (Nat.lt_of_lt_of_le h (Nat.pow_le_pow_right (by omega) hi))
  intro i hi hi'
  rw [hbit i hi, hbit 63 (by omega)]

theorem SignBits.and {m m' : Nat} (ha : SignBits m a) (hb : SignBits m' b) :
    SignBits (max m m') (a &&& b) := fun i hi hi' => by
  rw [getLsbD_and, getLsbD_and, ha i (by omega) hi', hb i (by omega) hi']

theorem SignBits.or {m m' : Nat} {a b : Nativeint} (ha : SignBits m a) (hb : SignBits m' b) :
    SignBits (max m m') (a ||| b) := fun i hi hi' => by
  rw [getLsbD_or, getLsbD_or, ha i (by omega) hi', hb i (by omega) hi']

theorem SignBits.xor {m m' : Nat} (ha : SignBits m a) (hb : SignBits m' b) :
    SignBits (max m m') (a ^^^ b) := fun i hi hi' => by
  rw [BitVec.getLsbD_xor, BitVec.getLsbD_xor, ha i (by omega) hi', hb i (by omega) hi']

theorem SignBits.shiftLeft {m : Nat} (h : SignBits m a) (n : Nat) :
    SignBits (min archBits (m + n)) (a <<< n) := fun i hi hi' => by
  have : archBits = 64 := rfl
  rw [getLsbD_shiftLeft, getLsbD_shiftLeft, h (i - n) (by omega) (by omega),
    h (63 - n) (by omega) (by omega)]
  simp [hi', show ¬ i < n by omega, show ¬ 63 < n by omega]

theorem SignBits.sshiftRight {m : Nat} (h : SignBits m a) (n : Nat) :
    SignBits (m - n) (a.sshiftRight n) := fun i hi hi' => by
  have hbit : ∀ j, m ≤ n + j → j < 64 → (a.sshiftRight n).getLsbD j = a.getLsbD 63 := by
    intro j hj hj'
    rw [getLsbD_sshiftRight, msb_eq_getLsbD_last]
    by_cases hlt : n + j < 64
    · rw [h (n + j) hj hlt]; simp [Nat.not_le.2 hj']
    · simp [hlt, Nat.not_le.2 hj']
  rw [hbit i (by omega) hi', hbit 63 (by omega) (by omega)]

theorem signBits_ushiftRight (a : Nativeint) (n : Nat) : SignBits (archBits - n) (a >>> n) := by
  have harch : archBits = 64 := rfl
  have hbit : ∀ j, archBits - n ≤ j → (a >>> n).getLsbD j = false := fun j hj => by
    rw [getLsbD_ushiftRight]
    exact getLsbD_of_ge _ _ (by omega)
  intro i hi hi'
  rw [hbit i hi, hbit 63 (by omega)]

/-- A left shift that only moves sign bits out is undone by a right shift. -/
theorem SignBits.lsl_asr {m x n : Nat} (h : SignBits m a) (hm : m + x < 64) (hn : n < 64) :
    (a <<< x).sshiftRight n = if n < x then a <<< (x - n) else a.sshiftRight (n - x) := by
  have hshift : ∀ j, j < 64 → (a <<< x).getLsbD j = (!decide (j < x) && a.getLsbD (j - x)) :=
    fun j hj => by rw [getLsbD_shiftLeft, decide_eq_true hj, Bool.true_and]
  have hmsb : (a <<< x).msb = a.getLsbD 63 := by
    rw [msb_eq_getLsbD_last, hshift _ (by omega), h (64 - 1 - x) (by omega) (by omega)]
    simp [show ¬ 63 < x by omega]
  apply eq_of_getLsbD_eq
  intro i hi
  rw [getLsbD_sshiftRight, hmsb]
  simp only [Nat.not_le.2 hi, decide_false, Bool.not_false, Bool.true_and]
  split
  · rename_i hlt
    split
    · rw [hshift _ hlt, getLsbD_shiftLeft]
      simp only [hi, decide_true]
      rw [show n + i - x = i - (x - n) by omega]
      congr 2
      exact decide_eq_decide.2 (by omega)
    rw [hshift _ hlt, getLsbD_sshiftRight]
    have : n - x + i < 64 := by omega
    simp [Nat.not_le.2 hi, this, show ¬ n + i < x by omega, show n + i - x = n - x + i by omega]
  split
  · rw [getLsbD_shiftLeft, h (i - (x - n)) (by omega) (by omega)]
    simp [hi, show ¬ i < x - n by omega]
  rw [getLsbD_sshiftRight]
  simp only [Nat.not_le.2 hi, decide_false, Bool.not_false, Bool.true_and]
  split
  · rw [h (n - x + i) (by omega) (by omega)]
  · rfl

/-! ## §4 Powers of two -/

theorem toInt_shiftLeft_eq {w : Nat} (x : BitVec w) (k : Nat) :
    (x <<< k).toInt = (x.toInt * 2 ^ k).bmod (2 ^ w) := by
  rw [BitVec.toInt_shiftLeft, BitVec.toInt_eq_toNat_bmod, Int.bmod_mul_bmod, Nat.shiftLeft_eq,
    Int.natCast_mul]
  rfl

theorem ofInt_shiftLeft {a k : OcamlInt} (h : noOverflowLsl a k = true) :
    ofInt (a <<< k.toNat) = ofInt a <<< k.toNat := by
  simp only [noOverflowLsl, Bool.and_eq_true, sle_iff_toInt_le, slt_iff_toInt_lt] at h
  obtain ⟨⟨⟨hk0, hk63⟩, hmin⟩, hmax⟩ := h
  have hk : k.toNat ≤ 62 := by
    rw [show (0 : OcamlInt).toInt = 0 by decide] at hk0
    rw [show (63 : OcamlInt).toInt = 63 by decide] at hk63
    have hnat := toInt_eq_toNat_cond k
    split at hnat <;> omega
  rw [BitVec.toInt_sshiftRight, Int.shiftRight_eq_div_pow, Int.natCast_pow] at hmin hmax
  rw [toInt_minInt] at hmin
  rw [show maxInt.toInt = 2 ^ 62 - 1 by decide] at hmax
  have hpow : (0 : Int) < 2 ^ k.toNat := Int.pow_pos (by decide)
  have hdvd : (2 : Int) ^ k.toNat ∣ -2 ^ 62 := by
    refine Int.dvd_neg.2 ⟨2 ^ (62 - k.toNat), ?_⟩
    rw [← Int.pow_add, Nat.add_sub_cancel' hk]
  have hlow : -2 ^ 62 ≤ a.toInt * 2 ^ k.toNat := by
    have h := Int.mul_le_mul_of_nonneg_right hmin (Int.le_of_lt hpow)
    rwa [Int.cast_ofNat_Int, Int.ediv_mul_cancel hdvd] at h
  have hhigh : a.toInt * 2 ^ k.toNat < 2 ^ 62 := by
    have h := Int.mul_le_mul_of_nonneg_right hmax (Int.le_of_lt hpow)
    rw [Int.cast_ofNat_Int] at h
    have h' := Int.ediv_mul_le (2 ^ 62 - 1) (Int.ne_of_gt hpow)
    omega
  apply eq_of_toInt_eq
  rw [toInt_ofInt, toInt_shiftLeft_eq, toInt_shiftLeft_eq, toInt_ofInt,
    Int.bmod_eq_of_le (by omega) (by omega), Int.bmod_eq_of_le (by omega) (by omega)]

theorem log2_eq (n : Int) : log2 n = n.toNat.log2 := by
  fun_induction log2 n with
  | case1 n h => rw [Nat.log2_def, if_neg (by omega)]
  | case2 n h ih =>
    rw [Nat.log2_def n.toNat, if_pos (by omega), ih, Nat.add_comm]
    congr 2
    omega

theorem signBits_and_ofInt (h : (0 : OcamlInt).slt n = true) (a : Nativeint) :
    SignBits (1 + log2 n.toInt) (a &&& ofInt n) := by
  apply signBits_of_lt
  have hn : 0 < n.toInt := by
    rw [slt_iff_toInt_lt] at h
    exact h
  have hnat : (ofInt n).toNat = n.toInt.toNat := by
    have hword := toInt_eq_toNat_cond (ofInt n)
    rw [toInt_ofInt] at hword
    split at hword <;> omega
  rw [log2_eq, Nat.add_comm]
  exact Nat.lt_of_le_of_lt Nat.and_le_right (hnat ▸ Nat.lt_log2_self)

/-- A power of two is the constant of a shift. -/
theorem isPower2_spec (h : isPower2 n = true) :
    ∃ k < 62, (ofNat 63 (log2 n.toInt)).toNat = k ∧
      isDefinedShift (ofNat 63 (log2 n.toInt)) = true ∧
      ofInt n = BitVec.twoPow 64 k := by
  rw [isPower2, beq_iff_eq] at h
  have hpos : 0 < n.toInt := by
    refine Int.not_le.1 fun hneg => ?_
    have hone : n = 1 := by
      rw [log2, if_pos (by omega)] at h
      exact h
    rw [hone, show (1 : OcamlInt).toInt = 1 by decide] at hneg
    omega
  have hnat := toInt_eq_toNat_cond n
  have hword := toInt_eq_toNat_cond (ofInt n)
  rw [toInt_ofInt] at hword
  have heq : (ofInt n).toNat = n.toNat ∧ n.toInt.toNat = n.toNat := by
    split at hnat <;> split at hword <;> omega
  rw [log2_eq, heq.2] at h ⊢
  have hne : n.toNat ≠ 0 := by omega
  have hk : n.toNat.log2 < 62 := (Nat.log2_lt hne).2 (by omega)
  have hpow : n.toNat = 2 ^ n.toNat.log2 := by
    have h := congrArg BitVec.toNat h
    rwa [BitVec.toNat_shiftLeft, Nat.shiftLeft_eq, show (1 : OcamlInt).toNat = 1 by decide,
      Nat.one_mul, Nat.mod_eq_of_lt (Nat.pow_lt_pow_right (by omega) (by omega))] at h
  have hshift : (ofNat 63 n.toNat.log2).toNat = n.toNat.log2 := by
    rw [BitVec.toNat_ofNat, Nat.mod_eq_of_lt (by omega)]
  refine ⟨n.toNat.log2, hk, hshift, ?_, ?_⟩
  · have hint := toInt_eq_toNat_cond (ofNat 63 n.toNat.log2)
    rw [isDefinedShift, Bool.and_eq_true, sle_iff_toInt_le, slt_iff_toInt_lt]
    have h0 : (0 : OcamlInt).toInt = 0 := by decide
    have h64 : (64 : OcamlInt).toInt = 64 := by decide
    omega
  · apply BitVec.eq_of_toNat_eq; rw [BitVec.toNat_twoPow_of_lt (by omega), heq.1, ← hpow]

end Oxcaml.Backend.CmmHelpers
