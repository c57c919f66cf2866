/-
Oxcaml.Backend.LogicalImmediatesTheorems — what the logical immediates of
`LogicalImmediates.lean` are, and that encoding them is undone by the decoding
of the architecture.

Everything passes through one normal form: `Shape e v j k x` says that `x` is
periodic with the element size `e` and that an element is `v` up to `j`, the
opposite of `v` from `j` to `k`, and `v` again up to `e`. §1 is about the bits of
the masks and of a replicated run, §2 about the automaton, §3 about the element
size. In §4 what is recognized and what the architecture has are both of this
form. §5 is about the loops of the encoder, §6 about the rotation and the ones
that they find for each form of a pattern, and §7 about the fields and the
result.
-/
import Oxcaml.Backend.LogicalImmediates
import Mathlib.Data.Nat.Count
import Mathlib.Tactic.IntervalCases

set_option linter.all false

namespace Oxcaml.Backend.LogicalImmediates

open Nat (mod_eq_of_lt mod_lt)

/-! ## §1 Bits -/

/-- The bit at `i` of a pattern that is `v` outside `[j, k)`. -/
def runBit (v : Bool) (j k i : Nat) : Bool := if j ≤ i ∧ i < k then !v else v

/-- The normal form of a logical immediate. -/
structure Shape (e : Nat) (v : Bool) (j k : Nat) (x : Nativeint) : Prop where
  size : e ∈ elementSizes
  pos : 0 < j
  run : j < k
  within : k ≤ e
  bits : ∀ i < 64, x.getLsbD i = runBit v j k (i % e)

variable {e n i r ones j k : Nat}

theorem elementSizes_range (he : e ∈ elementSizes) : 2 ≤ e ∧ e ≤ 64 := by
  simp only [elementSizes, List.mem_cons, List.not_mem_nil, or_false] at he
  omega

theorem elementSizes_dvd (he : e ∈ elementSizes) : 64 / e * e = 64 := by
  simp only [elementSizes, List.mem_cons, List.not_mem_nil, or_false] at he
  rcases he with rfl | rfl | rfl | rfl | rfl | rfl <;> rfl

theorem and_one_eq_zero (x : Nativeint) : (x &&& 1 = 0) ↔ x.getLsbD 0 = false := by
  show x &&& 1#64 = 0#64 ↔ _
  rw [BitVec.and_one_eq_setWidth_ofBool_getLsbD]
  cases x.getLsbD 0 <;> decide

theorem and_one_eq_one (x : Nativeint) : (x &&& 1 = 1) ↔ x.getLsbD 0 = true := by
  show x &&& 1#64 = 1#64 ↔ _
  rw [BitVec.and_one_eq_setWidth_ofBool_getLsbD]
  cases x.getLsbD 0 <;> decide

theorem getLsbD_mask (hn : n < 64) : (((1 : Nativeint) <<< n) - 1).getLsbD i = decide (i < n) := by
  have : ((1 : Nativeint) <<< n) - 1 = BitVec.ofNat 64 (2 ^ n - 1) := by
    have hpos : 0 < 2 ^ n := Nat.two_pow_pos n
    apply BitVec.eq_of_toNat_eq
    show (2 ^ 64 - 1 + (1#64 <<< n).toNat) % 2 ^ 64 = (2 ^ n - 1) % 2 ^ 64
    rw [BitVec.toNat_shiftLeft, show (1#64).toNat = 1 from rfl]
    omega
  rw [this, BitVec.getLsbD_ofNat]
  by_cases h : i < n
  · simp [h]; omega
  · simp [h]

theorem getLsbD_maskOfWidth (he : e ≤ 64) : (maskOfWidth e).getLsbD i = decide (i < e) := by
  unfold maskOfWidth
  split
  · rw [show e = 64 by omega, show (-1 : Nativeint) = BitVec.allOnes 64 from by decide,
      BitVec.getLsbD_allOnes]
  · exact getLsbD_mask (by omega)

theorem getLsbD_pattern (he : e ≤ 64) (x : Nativeint) :
    (x &&& maskOfWidth e).getLsbD i = (x.getLsbD i && decide (i < e)) := by
  rw [BitVec.getLsbD_and, getLsbD_maskOfWidth he]

theorem add_mod_of_lt {a : Nat} (ha : a < e) (hr : r < e) :
    (a + r) % e = if a + r < e then a + r else a + r - e := by
  split
  · exact mod_eq_of_lt ‹_›
  · rw [Nat.mod_eq_sub_mod (by omega), mod_eq_of_lt (by omega)]

theorem getLsbD_replicatedRun (he : e ∈ elementSizes) (hr : r < e) (hi : i < 64) :
    (replicatedRun e ones r).getLsbD i = decide ((i % e + r) % e < ones) := by
  have hpos : 0 < e := by omega
  have hmod : i % e < e := mod_lt _ hpos
  have hin : i < e * (64 / e) := by rw [Nat.mul_comm, elementSizes_dvd he]; exact hi
  rw [replicatedRun, BitVec.getLsbD_setWidth, BitVec.getLsbD_replicate,
    BitVec.getLsbD_rotateRight, mod_eq_of_lt hr, add_mod_of_lt hmod hr]
  simp only [decide_true, Bool.true_and, BitVec.getLsbD_setWidth, BitVec.getLsbD_allOnes]
  by_cases h : i % e + r < e
  · have : i % e < e - r := by omega
    simp only [h, this, if_true, decide_true, cond_true]
    rw [Bool.eq_iff_iff]
    simp only [Bool.and_eq_true, decide_eq_true_eq]
    omega
  have : ¬ i % e < e - r := by omega
  simp only [h, this, if_false, decide_false, cond_false]
  rw [Bool.eq_iff_iff]
  simp only [Bool.and_eq_true, decide_eq_true_eq]
  omega

/-! ## §2 The automaton -/

/-- The state in which only `v` has been read. -/
def startState (v : Bool) : Fin 8 := if v then 4 else 1

/-- The state in which the opposite of `v` was last read. -/
def midState (v : Bool) : Fin 8 := if v then 5 else 2

/-- The state in which `v` has come back. -/
def lastState (v : Bool) : Fin 8 := if v then 6 else 3

theorem runAutomata_succ (n : Nat) (s : Fin 8) (x : Nativeint) : runAutomata (n + 1) s x =
      runAutomata n (if x.getLsbD 0 then (autoTable s).2.2 else (autoTable s).2.1) (x >>> 1) := by
  simp only [runAutomata, and_one_eq_zero]
  cases x.getLsbD 0 <;> rfl

theorem runAutomata_error (n : Nat) (x : Nativeint) : runAutomata n 7 x = false := by
  induction n generalizing x with
  | zero => rfl
  | succ n ih => rw [runAutomata_succ]; cases x.getLsbD 0 <;> exact ih _

theorem runAutomata_last (v : Bool) (n : Nat) (x : Nativeint) :
    runAutomata n (lastState v) x = true ↔ ∀ i < n, x.getLsbD i = v := by
  induction n generalizing x with
  | zero => cases v <;> simp [runAutomata, lastState, autoTable]
  | succ n ih =>
    rw [runAutomata_succ, Nat.forall_lt_succ_left]
    by_cases h : x.getLsbD 0 = v
    · have hs : (if x.getLsbD 0 then (autoTable (lastState v)).2.2
          else (autoTable (lastState v)).2.1) = lastState v := by
        rw [h]; cases v <;> rfl
      rw [hs, ih]
      simp only [h, true_and, BitVec.getLsbD_ushiftRight, Nat.add_comm 1]
    have hs : (if x.getLsbD 0 then (autoTable (lastState v)).2.2
        else (autoTable (lastState v)).2.1) = 7 := by
      rw [Bool.eq_not_of_ne h]; cases v <;> rfl
    simp only [hs, runAutomata_error, h, false_and, Bool.false_eq_true]

theorem runAutomata_mid (v : Bool) (n : Nat) (x : Nativeint) : runAutomata n (midState v) x = true ↔
      ∃ k ≤ n, ∀ i < n, x.getLsbD i = if i < k then !v else v := by
  induction n generalizing x with
  | zero => cases v <;> simp [runAutomata, midState, autoTable]
  | succ n ih =>
    rw [runAutomata_succ]
    by_cases h : x.getLsbD 0 = v
    · -- the run is over
      have hs : (if x.getLsbD 0 then (autoTable (midState v)).2.2
          else (autoTable (midState v)).2.1) = lastState v := by
        rw [h]; cases v <;> rfl
      rw [hs, runAutomata_last]
      constructor
      · intro hl
        refine ⟨0, by omega, Nat.forall_lt_succ_left.2 ⟨by simpa using h, fun i hi => ?_⟩⟩
        have := hl i hi
        rw [BitVec.getLsbD_ushiftRight, Nat.add_comm] at this
        simpa using this
      rintro ⟨k, hk, hb⟩ i hi
      have hk0 : k = 0 := by
        by_contra hne
        have := hb 0 (by omega)
        rw [if_pos (by omega), h] at this
        cases v <;> simp at this
      have := hb (i + 1) (by omega)
      rw [BitVec.getLsbD_ushiftRight, Nat.add_comm, this, if_neg (by omega)]
    have hv : x.getLsbD 0 = !v := Bool.eq_not_of_ne h
    have hs : (if x.getLsbD 0 then (autoTable (midState v)).2.2
        else (autoTable (midState v)).2.1) = midState v := by
      rw [hv]; cases v <;> rfl
    rw [hs, ih]
    constructor
    · rintro ⟨k, hk, hb⟩
      refine ⟨k + 1, by omega, Nat.forall_lt_succ_left.2 ⟨by simpa using hv, fun i hi => ?_⟩⟩
      have := hb i hi
      rw [BitVec.getLsbD_ushiftRight, Nat.add_comm] at this
      simpa using this
    rintro ⟨k, hk, hb⟩
    refine ⟨k - 1, by omega, fun i hi => ?_⟩
    have := hb (i + 1) (by omega)
    rw [BitVec.getLsbD_ushiftRight, Nat.add_comm, this]
    simp only [show i + 1 < k ↔ i < k - 1 by omega]

theorem runAutomata_start (v : Bool) (n : Nat) (x : Nativeint) :
    runAutomata n (startState v) x = true ↔
      ∃ j k, j < k ∧ k ≤ n ∧ ∀ i < n, x.getLsbD i = runBit v j k i := by
  induction n generalizing x with
  | zero => cases v <;> simp [runAutomata, startState, autoTable]
  | succ n ih =>
    rw [runAutomata_succ]
    by_cases h : x.getLsbD 0 = v
    · have hs : (if x.getLsbD 0 then (autoTable (startState v)).2.2
          else (autoTable (startState v)).2.1) = startState v := by
        rw [h]; cases v <;> rfl
      rw [hs, ih]
      constructor
      · rintro ⟨j, k, hjk, hk, hb⟩
        refine ⟨j + 1, k + 1, by omega, by omega,
          Nat.forall_lt_succ_left.2 ⟨by simpa [runBit] using h, fun i hi => ?_⟩⟩
        have := hb i hi
        rw [BitVec.getLsbD_ushiftRight, Nat.add_comm] at this
        simpa [runBit] using this
      rintro ⟨j, k, hjk, hk, hb⟩
      have hj0 : 0 < j := by
        by_contra hne
        have := hb 0 (by omega)
        rw [runBit, if_pos (by omega), h] at this
        cases v <;> simp at this
      refine ⟨j - 1, k - 1, by omega, by omega, fun i hi => ?_⟩
      have := hb (i + 1) (by omega)
      rw [BitVec.getLsbD_ushiftRight, Nat.add_comm, this, runBit, runBit]
      simp only [show (j ≤ i + 1 ∧ i + 1 < k) ↔ (j - 1 ≤ i ∧ i < k - 1) by omega]
    -- the run begins
    have hv : x.getLsbD 0 = !v := Bool.eq_not_of_ne h
    have hs : (if x.getLsbD 0 then (autoTable (startState v)).2.2
        else (autoTable (startState v)).2.1) = midState v := by
      rw [hv]; cases v <;> rfl
    rw [hs, runAutomata_mid]
    constructor
    · rintro ⟨k, hk, hb⟩
      refine ⟨0, k + 1, by omega, by omega,
        Nat.forall_lt_succ_left.2 ⟨by simpa [runBit] using hv, fun i hi => ?_⟩⟩
      have := hb i hi
      rw [BitVec.getLsbD_ushiftRight, Nat.add_comm] at this
      simpa [runBit] using this
    rintro ⟨j, k, hjk, hk, hb⟩
    have hj0 : j = 0 := by
      by_contra hne
      have := hb 0 (by omega)
      rw [runBit, if_neg (by omega)] at this
      exact h this
    refine ⟨k - 1, by omega, fun i hi => ?_⟩
    have := hb (i + 1) (by omega)
    rw [BitVec.getLsbD_ushiftRight, Nat.add_comm, this, runBit]
    simp only [show (j ≤ i + 1 ∧ i + 1 < k) ↔ i < k - 1 by omega]

/-- The automaton accepts the words of `0+1+0* | 1+0+1*`. -/
theorem runAutomata_iff (hn : 0 < n) (x : Nativeint) : runAutomata n 0 x = true ↔
      ∃ v j k, 0 < j ∧ j < k ∧ k ≤ n ∧ ∀ i < n, x.getLsbD i = runBit v j k i := by
  obtain ⟨n, rfl⟩ : ∃ m, n = m + 1 := ⟨n - 1, by omega⟩
  have hs : (if x.getLsbD 0 then (autoTable 0).2.2 else (autoTable 0).2.1) =
      startState (x.getLsbD 0) := by
    cases x.getLsbD 0 <;> rfl
  rw [runAutomata_succ, hs, runAutomata_start]
  constructor
  · rintro ⟨j, k, hjk, hk, hb⟩
    refine ⟨x.getLsbD 0, j + 1, k + 1, by omega, by omega, by omega,
      Nat.forall_lt_succ_left.2 ⟨by simp [runBit], fun i hi => ?_⟩⟩
    have := hb i hi
    rw [BitVec.getLsbD_ushiftRight, Nat.add_comm] at this
    simpa [runBit] using this
  rintro ⟨v, j, k, hj, hjk, hk, hb⟩
  have hv : x.getLsbD 0 = v := by
    rw [hb 0 (by omega), runBit, if_neg (by omega)]
  refine ⟨j - 1, k - 1, by omega, by omega, fun i hi => ?_⟩
  have := hb (i + 1) (by omega)
  rw [BitVec.getLsbD_ushiftRight, Nat.add_comm, this, hv, runBit, runBit]
  simp only [show (j ≤ i + 1 ∧ i + 1 < k) ↔ (j - 1 ≤ i ∧ i < k - 1) by omega]

/-! ## §3 The element size -/

theorem test_iff (hn : n ≤ 32) (x : Nativeint) :
    test x n = true ↔ ∀ i < n, x.getLsbD i = x.getLsbD (n + i) := by
  simp only [test, beq_iff_eq]
  have hmask : ∀ (y : Nativeint) (i : Nat),
      (y &&& (((1 : Nativeint) <<< n) - 1)).getLsbD i = (y.getLsbD i && decide (i < n)) := by
    intro y i
    rw [BitVec.getLsbD_and, getLsbD_mask (by omega)]
  constructor
  · intro h i hi
    have := congrArg (·.getLsbD i) h
    simpa only [hmask, BitVec.getLsbD_ushiftRight, hi, decide_true, Bool.and_true] using this
  intro h
  apply BitVec.eq_of_getLsbD_eq
  intro i _
  rw [hmask, hmask, BitVec.getLsbD_ushiftRight]
  by_cases hi : i < n
  · rw [h i hi]
  · simp [hi]

variable {x : Nativeint}

/-- A word that repeats with `2 * n` and passes the test repeats with `n`. -/
theorem repeats_half (hn : 0 < n) (hle : n ≤ 32)
    (hx : ∀ i < 64, x.getLsbD i = x.getLsbD (i % (2 * n))) (ht : test x n = true) :
    ∀ i < 64, x.getLsbD i = x.getLsbD (i % n) := by
  intro i hi
  have hlt : i % (2 * n) < 2 * n := mod_lt _ (by omega)
  have hmm : i % (2 * n) % n = i % n := Nat.mod_mul_left_mod i 2 n
  rw [hx i hi, ← hmm]
  generalize i % (2 * n) = a at hlt
  by_cases h : a < n
  · rw [mod_eq_of_lt h]
  have := (test_iff hle x).1 ht (a - n) (by omega)
  rw [Nat.mod_eq_sub_mod (by omega), mod_eq_of_lt (by omega), this,
    Nat.add_sub_cancel' (by omega)]

theorem logicalImmLength_mem (x : Nativeint) : logicalImmLength x ∈ elementSizes := by
  unfold logicalImmLength elementSizes
  repeat' split
  all_goals decide

/-- `x` is a repetition of its low bits up to the length. -/
theorem logicalImmLength_repeats (x : Nativeint) :
    ∀ i < 64, x.getLsbD i = x.getLsbD (i % logicalImmLength x) := by
  have h64 : ∀ i < 64, x.getLsbD i = x.getLsbD (i % (2 * 32)) := by
    intro i hi
    rw [mod_eq_of_lt hi]
  unfold logicalImmLength
  split
  · exact h64
  have h32 := repeats_half (by omega) (by omega) h64 (by simpa using ‹¬(!test x 32) = true›)
  split
  · exact h32
  have h16 := repeats_half (n := 16) (by omega) (by omega) h32
    (by simpa using ‹¬(!test x 16) = true›)
  split
  · exact h16
  have h8 := repeats_half (n := 8) (by omega) (by omega) h16 (by simpa using ‹¬(!test x 8) = true›)
  split
  · exact h8
  have h4 := repeats_half (n := 4) (by omega) (by omega) h8 (by simpa using ‹¬(!test x 4) = true›)
  split
  · exact h4
  exact repeats_half (n := 2) (by omega) (by omega) h4 (by simpa using ‹¬(!test x 2) = true›)

variable {v : Bool}

/-- A pattern with a run in it does not repeat with half its length. -/
theorem Shape.not_test_half {h : Nat} (hs : Shape e v j k x)
    (he : e = 2 * h) (hh : 0 < h) : test x h = false := by
  obtain ⟨hsize, hpos, hrun, hwithin, hbits⟩ := hs
  have he64 := (elementSizes_range hsize).2
  by_contra hne
  have ht := (test_iff (show h ≤ 32 by omega) x).1 (by simpa using hne)
  have hbit : ∀ i < e, x.getLsbD i = runBit v j k i := by
    intro i hi
    rw [hbits i (by omega), mod_eq_of_lt hi]
  have hin : ∀ i, j ≤ i → i < k → x.getLsbD i = !v := by
    intro i h1 h2
    rw [hbit i (by omega), runBit, if_pos ⟨h1, h2⟩]
  have hout : ∀ i, i < j → x.getLsbD i = v := by
    intro i h1
    rw [hbit i (by omega), runBit, if_neg (by omega)]
  have hflip : ∀ {b : Bool}, b = v → b ≠ !v := by
    intro b hb
    cases v <;> simp [hb]
  by_cases hjh : j < h
  · -- the run reaches from `j` to `j + h`, and so over `h`
    have h1 : x.getLsbD (h + j) = !v := by rw [← ht j hjh]; exact hin j le_rfl hrun
    have h2 : h + j < k := by
      by_contra hk
      rw [hbit _ (by omega), runBit, if_neg (by omega)] at h1
      cases v <;> simp at h1
    have h3 : x.getLsbD 0 = !v := by
      rw [ht 0 hh]
      exact hin _ (by omega) (by omega)
    exact hflip (hout 0 hpos) h3
  have h1 : x.getLsbD (j - h) = !v := by
    rw [ht (j - h) (by omega), Nat.add_sub_cancel' (by omega)]
    exact hin j le_rfl hrun
  exact hflip (hout _ (by omega)) h1

theorem Shape.test_of_le (hs : Shape e v j k x) (hn : n ≤ 32) (hd : e ∣ n) : test x n = true := by
  rw [test_iff hn]
  intro i hi
  rw [hs.bits i (by omega), hs.bits (n + i) (by omega)]
  congr 1
  obtain ⟨c, rfl⟩ := hd
  rw [Nat.mul_add_mod]

/-- The length that is found is the element size. -/
theorem Shape.logicalImmLength_eq (hs : Shape e v j k x) : logicalImmLength x = e := by
  have ht : ∀ n, n ≤ 32 → e ∣ n → test x n = true := fun n hn hd => hs.test_of_le hn hd
  have hf : ∀ h, e = 2 * h → 0 < h → test x h = false := fun h he hh => hs.not_test_half he hh
  have hsize := hs.size
  simp only [elementSizes, List.mem_cons, List.not_mem_nil, or_false] at hsize
  rcases hsize with rfl | rfl | rfl | rfl | rfl | rfl
  · simp [logicalImmLength, ht 32 (by decide) (by decide), ht 16 (by decide) (by decide),
      ht 8 (by decide) (by decide), ht 4 (by decide) (by decide), ht 2 (by decide) (by decide)]
  · simp [logicalImmLength, ht 32 (by decide) (by decide), ht 16 (by decide) (by decide),
      ht 8 (by decide) (by decide), ht 4 (by decide) (by decide), hf 2 rfl (by decide)]
  · simp [logicalImmLength, ht 32 (by decide) (by decide), ht 16 (by decide) (by decide),
      ht 8 (by decide) (by decide), hf 4 rfl (by decide)]
  · simp [logicalImmLength, ht 32 (by decide) (by decide), ht 16 (by decide) (by decide),
      hf 8 rfl (by decide)]
  · simp [logicalImmLength, ht 32 (by decide) (by decide), hf 16 rfl (by decide)]
  · simp [logicalImmLength, hf 32 rfl (by decide)]

/-! ## §4 The two sides -/

/-- What is recognized is in the normal form, with the length that is found. -/
theorem isLogicalImmediate_iff (x : Nativeint) :
    isLogicalImmediate x = true ↔ ∃ v j k, Shape (logicalImmLength x) v j k x := by
  have hmem := logicalImmLength_mem x
  have hrep := logicalImmLength_repeats x
  have hrange := elementSizes_range hmem
  simp only [isLogicalImmediate, Bool.and_eq_true, Bool.not_eq_true', beq_eq_false_iff_ne]
  rw [runAutomata_iff (by omega)]
  constructor
  · rintro ⟨-, v, j, k, hj, hjk, hk, hb⟩
    refine ⟨v, j, k, hmem, hj, hjk, hk, fun i hi => ?_⟩
    rw [hrep i hi, hb _ (mod_lt _ (by omega))]
  rintro ⟨v, j, k, hs⟩
  have h0 : x.getLsbD 0 = v := by
    rw [hs.bits 0 (by omega), Nat.zero_mod, runBit, if_neg (by have := hs.pos; omega)]
  have hjk := hs.run
  have hk := hs.within
  have hj : x.getLsbD j = !v := by
    rw [hs.bits j (by omega), mod_eq_of_lt (by omega), runBit, if_pos ⟨le_rfl, hjk⟩]
  refine ⟨⟨?_, ?_⟩, v, j, k, hs.pos, hjk, hk, fun i hi => ?_⟩
  · rintro rfl
    rw [show (0 : Nativeint) = 0#64 from rfl, BitVec.getLsbD_zero] at h0 hj
    rw [← h0] at hj
    exact absurd hj (by decide)
  · rintro rfl
    rw [show (-1 : Nativeint) = BitVec.allOnes 64 from by decide, BitVec.getLsbD_allOnes] at h0 hj
    rw [← h0, decide_eq_true (show j < 64 by omega)] at hj
    exact absurd hj (by decide)
  · rw [hs.bits i (by omega), mod_eq_of_lt hi]

/-- Two words with the same bits in every element are equal. -/
theorem Shape.eq_replicatedRun (hs : Shape e v j k x) (hr : r < e)
    (h : ∀ a < e, runBit v j k a = decide ((a + r) % e < ones)) : x = replicatedRun e ones r := by
  apply BitVec.eq_of_getLsbD_eq
  intro i hi
  rw [hs.bits i hi, getLsbD_replicatedRun hs.size hr hi, h _ (mod_lt _ (by omega))]

/-- A replicated run is in the normal form. -/
theorem shape_of_isBitmaskImmediate (h : IsBitmaskImmediate x) : ∃ e v j k, Shape e v j k x := by
  obtain ⟨e, he, ones, r, hpos, hones, hr, rfl⟩ := h
  have hbit : ∀ i < 64, (replicatedRun e ones r).getLsbD i =
      decide (if i % e + r < e then i % e + r < ones else i % e + r - e < ones) := by
    intro i hi
    rw [getLsbD_replicatedRun he hr hi, add_mod_of_lt (mod_lt _ (by omega)) hr]
    split <;> rfl
  by_cases hlt : r < ones
  · -- the run has the bit at 0 in it
    refine ⟨e, true, ones - r, e - r, he, by omega, by omega, by omega, fun i hi => ?_⟩
    have hmod : i % e < e := mod_lt _ (by omega)
    rw [hbit i hi, runBit]
    by_cases hin : ones - r ≤ i % e ∧ i % e < e - r
    · rw [if_pos hin]
      simp only [Bool.not_true, decide_eq_false_iff_not]
      split <;> lia
    rw [if_neg hin]
    simp only [decide_eq_true_eq]
    split <;> lia
  refine ⟨e, false, e - r, e - r + ones, he, by omega, by omega, by omega, fun i hi => ?_⟩
  rw [hbit i hi, runBit]
  by_cases hin : e - r ≤ i % e ∧ i % e < e - r + ones
  · rw [if_pos hin]
    simp only [Bool.not_false, decide_eq_true_eq]
    split <;> lia
  rw [if_neg hin]
  simp only [decide_eq_false_iff_not]
  split <;> lia

/-! ## §5 The loops of the encoder -/

section Loops

variable {len : Nat}

section

variable (m : Nat)

theorem findFirstOne_spec : ∀ (p : Nativeint) (pos : Nat), pos + m < len →
    (∀ i < m, p.getLsbD i = false) → p.getLsbD m = true → findFirstOne len p pos = pos + m := by
  induction m with
  | zero =>
    intro p pos hlt _ hm
    rw [findFirstOne, if_neg (by omega), if_pos ((and_one_eq_one p).2 hm), Nat.add_zero]
  | succ m ih =>
    intro p pos hlt hz hm
    rw [findFirstOne, if_neg (by omega), if_neg (by rw [and_one_eq_one, hz 0 (by omega)]; decide),
      ih (p >>> 1) (pos + 1) (by omega)]
    · omega
    · intro i hi; rw [BitVec.getLsbD_ushiftRight, hz _ (by omega)]
    · rw [BitVec.getLsbD_ushiftRight, Nat.add_comm, hm]

theorem countOnes_spec : ∀ (p : Nativeint) (pos count : Nat), pos + m < len →
    (∀ i < m, p.getLsbD i = true) → p.getLsbD m = false →
    countOnes len p pos count = count + m := by
  induction m with
  | zero =>
    intro p pos count hlt _ hm
    rw [countOnes, if_pos (.inr ((and_one_eq_zero p).2 hm)), Nat.add_zero]
  | succ m ih =>
    intro p pos count hlt ho hm
    rw [countOnes, if_neg, ih (p >>> 1) (pos + 1) (count + 1) (by omega)]
    · omega
    · intro i hi; rw [BitVec.getLsbD_ushiftRight, ho _ (by omega)]
    · rw [BitVec.getLsbD_ushiftRight, Nat.add_comm, hm]
    rw [and_one_eq_zero, ho 0 (by omega)]
    simp only [Bool.true_eq_false, or_false]
    omega

theorem countAllOnes_spec : ∀ (p : Nativeint) (pos acc : Nat), pos + m = len →
    countAllOnes len p pos acc = acc + Nat.count (fun i => p.getLsbD i = true) m := by
  induction m with
  | zero => intro p pos acc hlen; rw [countAllOnes, if_pos (by omega), Nat.count_zero, Nat.add_zero]
  | succ m ih =>
    intro p pos acc hlen
    rw [countAllOnes, if_neg (by omega), ih _ _ _ (by omega), Nat.count_succ']
    simp only [BitVec.getLsbD_ushiftRight, Nat.add_comm 1, and_one_eq_one]
    split <;> lia

theorem findFirstZero_spec : ∀ (p : Nativeint) (pos : Nat), pos + m < len →
    (∀ i < m, p.getLsbD i = true) → p.getLsbD m = false →
    findFirstZero len p pos = pos + m := by
  induction m with
  | zero =>
    intro p pos hlt _ hm
    rw [findFirstZero, if_neg (by omega), if_pos ((and_one_eq_zero p).2 hm), Nat.add_zero]
  | succ m ih =>
    intro p pos hlt ho hm
    rw [findFirstZero, if_neg (by omega), if_neg (by rw [and_one_eq_zero, ho 0 (by omega)]; decide),
      ih (p >>> 1) (pos + 1) (by omega)]
    · omega
    · intro i hi; rw [BitVec.getLsbD_ushiftRight, ho _ (by omega)]
    · rw [BitVec.getLsbD_ushiftRight, Nat.add_comm, hm]

theorem findOneFrom_spec : ∀ (p : Nativeint) (pos : Nat), pos + m < len →
    (∀ i < m, p.getLsbD i = false) → p.getLsbD m = true →
    findOneFrom len p pos = pos + m := by
  induction m with
  | zero =>
    intro p pos hlt _ hm
    rw [findOneFrom, if_neg (by omega), if_pos ((and_one_eq_one p).2 hm), Nat.add_zero]
  | succ m ih =>
    intro p pos hlt hz hm
    rw [findOneFrom, if_neg (by omega), if_neg (by rw [and_one_eq_one, hz 0 (by omega)]; decide),
      ih (p >>> 1) (pos + 1) (by omega)]
    · omega
    · intro i hi; rw [BitVec.getLsbD_ushiftRight, hz _ (by omega)]
    · rw [BitVec.getLsbD_ushiftRight, Nat.add_comm, hm]

theorem findOneFrom_zeros : ∀ (p : Nativeint) (pos : Nat), pos + m = len →
    (∀ i < m, p.getLsbD i = false) → findOneFrom len p pos = len := by
  induction m with
  | zero => intro p pos hlen _; rw [findOneFrom, if_pos (by omega)]
  | succ m ih =>
    intro p pos hlen hz
    rw [findOneFrom, if_neg (by omega), if_neg (by rw [and_one_eq_one, hz 0 (by omega)]; decide),
      ih (p >>> 1) (pos + 1) (by omega)]
    intro i hi
    rw [BitVec.getLsbD_ushiftRight, hz _ (by omega)]

end

end Loops

/-- Counting what is outside a run. -/
theorem count_outside {p : Nat → Prop} [DecidablePred p] (hjk : j ≤ k) (n : Nat)
    (h : ∀ i < n, p i ↔ ¬ (j ≤ i ∧ i < k)) : Nat.count p n = min n j + (n - k) := by
  induction n with
  | zero => simp
  | succ n ih =>
    rw [Nat.count_succ, ih (fun i hi => h i (by lia))]
    have := h n (by lia)
    by_cases hn : j ≤ n ∧ n < k
    · rw [if_neg (by rw [this]; exact not_not_intro hn)]; lia
    · rw [if_pos (this.2 hn)]; lia

/-! ## §6 The rotation and the ones

The low bits of a word in the normal form, and what the encoder finds there for
each form of the pattern. -/

namespace Shape

variable {x : Nativeint} {e j k : Nat} {v : Bool}

section

variable (hs : Shape e v j k x)
include hs

theorem pattern_bits (i : Nat) :
    (x &&& maskOfWidth e).getLsbD i = (runBit v j k i && decide (i < e)) := by
  have hrange := elementSizes_range hs.size
  rw [getLsbD_pattern hrange.2]
  by_cases hi : i < e
  · rw [hs.bits i (by omega), mod_eq_of_lt hi]
  · simp [hi]

theorem pattern_in (h1 : j ≤ i) (h2 : i < k) :
    (x &&& maskOfWidth e).getLsbD i = !v := by
  have := hs.within
  rw [hs.pattern_bits, runBit, if_pos ⟨h1, h2⟩, decide_eq_true (by omega), Bool.and_true]

theorem pattern_out (hi : i < e) (h : i < j ∨ k ≤ i) :
    (x &&& maskOfWidth e).getLsbD i = v := by
  rw [hs.pattern_bits, runBit, if_neg (by omega), decide_eq_true hi, Bool.and_true]

theorem pattern_end (hi : e ≤ i) :
    (x &&& maskOfWidth e).getLsbD i = false := by
  rw [hs.pattern_bits, decide_eq_false (by omega), Bool.and_false]

end

/-- A pattern `0+1+0*` is rotated by where its ones begin. -/
theorem rotationAndOnes_low (hs : Shape e false j k x) :
    rotationAndOnes e (x &&& maskOfWidth e) = (j, k - j) := by
  obtain ⟨-, hj, hjk, hk, -⟩ := id hs
  have hin := fun {i} => hs.pattern_in (i := i)
  have hout := fun {i} => hs.pattern_out (i := i)
  have hend := fun {i} => hs.pattern_end (i := i)
  generalize x &&& maskOfWidth e = p at hin hout hend
  have hfirst : findFirstOne e p 0 = j := by
    rw [findFirstOne_spec j p 0 (by omega) (fun i hi => hout (by omega) (.inl hi))
      (hin le_rfl hjk), Nat.zero_add]
  have hrot : ∀ i < e, ((p >>> j) ||| ((p <<< (e - j)) &&& maskOfWidth e)).getLsbD i =
      p.getLsbD (j + i) := by
    intro i hi
    -- what comes back from the low end are zeros
    have hback : p.getLsbD (i - (e - j)) = false := by
      by_cases h : i < e - j
      · rw [show i - (e - j) = 0 by omega]; exact hout (by omega) (.inl hj)
      · exact hout (by omega) (.inl (by omega))
    simp [hback]
  have hones : countOnes e ((p >>> j) ||| ((p <<< (e - j)) &&& maskOfWidth e)) 0 0 = k - j := by
    rw [countOnes_spec (k - j) _ 0 0 (by omega), Nat.zero_add]
    · intro i hi
      rw [hrot i (by omega)]
      exact hin (by omega) (by omega)
    rw [hrot _ (by omega), Nat.add_sub_cancel' hjk.le]
    by_cases hke : k < e
    · exact hout hke (.inr le_rfl)
    · exact hend (by omega)
  simp [rotationAndOnes, hfirst, hj, hones]

/-- A pattern that begins with a one: where the first zeros are. -/
theorem first_of_high (hs : Shape e true j k x) :
    findFirstOne e (x &&& maskOfWidth e) 0 = 0 ∧ countOnes e (x &&& maskOfWidth e) 0 0 = j ∧
      findFirstZero e (x &&& maskOfWidth e) 0 = j := by
  obtain ⟨-, hj, hjk, hk, -⟩ := id hs
  refine ⟨?_, ?_, ?_⟩
  · rw [findFirstOne_spec 0 _ 0 (by omega) (by omega) (hs.pattern_out (by omega) (.inl hj))]
  · rw [countOnes_spec j _ 0 0 (by omega) (fun i hi => hs.pattern_out (by omega) (.inl hi))
      (hs.pattern_in le_rfl hjk), Nat.zero_add]
  · rw [findFirstZero_spec j _ 0 (by omega) (fun i hi => hs.pattern_out (by omega) (.inl hi))
      (hs.pattern_in le_rfl hjk), Nat.zero_add]

/-- A pattern `1+0*` is not rotated. -/
theorem rotationAndOnes_high (hs : Shape e true j e x) :
    rotationAndOnes e (x &&& maskOfWidth e) = (0, j) := by
  obtain ⟨hfirst, hones, hzero⟩ := hs.first_of_high
  have hje := hs.run
  have hnext : findOneFrom e ((x &&& maskOfWidth e) >>> j) 0 = e := by
    apply findOneFrom_zeros e _ 0 (Nat.zero_add e)
    intro i hi
    rw [BitVec.getLsbD_ushiftRight]
    by_cases h : j + i < e
    · exact hs.pattern_in (by omega) h
    · exact hs.pattern_end (by omega)
  have hge : e ≥ e - j := by omega
  have hne : ¬ j = e := by omega
  simp [rotationAndOnes, hfirst, hones, hne, hzero, hnext]

/-- A pattern `1+0+1+` is rotated by where its second ones begin, and all the ones count. -/
theorem rotationAndOnes_wrapped (hs : Shape e true j k x) (hke : k < e) :
    rotationAndOnes e (x &&& maskOfWidth e) = (k, j + (e - k)) := by
  obtain ⟨hfirst, hones, hzero⟩ := hs.first_of_high
  have hjk := hs.run
  have hnext : findOneFrom e ((x &&& maskOfWidth e) >>> j) 0 = k - j := by
    rw [findOneFrom_spec (k - j) _ 0 (by omega), Nat.zero_add]
    · intro i hi
      rw [BitVec.getLsbD_ushiftRight]
      exact hs.pattern_in (by omega) (by omega)
    · rw [BitVec.getLsbD_ushiftRight, Nat.add_sub_cancel' hjk.le]
      exact hs.pattern_out hke (.inr le_rfl)
  have hall : countAllOnes e (x &&& maskOfWidth e) 0 0 = j + (e - k) := by
    rw [countAllOnes_spec e _ 0 0 (Nat.zero_add e), count_outside hjk.le]
    · omega
    intro i hi
    by_cases h : j ≤ i ∧ i < k
    · simp [hs.pattern_in h.1 h.2, h]
    · simp [hs.pattern_out hi (by omega), h]
  have hge : ¬ k - j ≥ e - j := by omega
  have hne : ¬ j = e := by omega
  simp [rotationAndOnes, hfirst, hones, hne, hzero, hnext, hge, hall, Nat.add_sub_cancel' hjk.le]

/-- The rotation and the ones that the encoder finds give the word back. -/
theorem rotationAndOnes_spec (hs : Shape e v j k x) :
    ∃ rotation ones, rotationAndOnes e (x &&& maskOfWidth e) = (rotation, ones) ∧
      0 < ones ∧ ones < e ∧ x = replicatedRun e ones ((e - rotation) % e) := by
  obtain ⟨-, hj, hjk, hk, -⟩ := id hs
  cases v with
  | false =>
    refine ⟨j, k - j, hs.rotationAndOnes_low, by omega, by omega, ?_⟩
    rw [mod_eq_of_lt (show e - j < e by omega)]
    apply hs.eq_replicatedRun (by omega)
    intro a ha
    rw [add_mod_of_lt ha (by omega), runBit]
    by_cases h : j ≤ a ∧ a < k
    · rw [if_pos h, Bool.not_false, eq_comm, decide_eq_true_eq]; split <;> lia
    · rw [if_neg h, eq_comm, decide_eq_false_iff_not]; split <;> lia
  | true =>
    rcases Nat.lt_or_eq_of_le hk with hke | rfl
    · refine ⟨k, j + (e - k), hs.rotationAndOnes_wrapped hke, by omega, by omega, ?_⟩
      rw [mod_eq_of_lt (show e - k < e by omega)]
      apply hs.eq_replicatedRun (by omega)
      intro a ha
      rw [add_mod_of_lt ha (by omega), runBit]
      by_cases h : j ≤ a ∧ a < k
      · rw [if_pos h, Bool.not_true, eq_comm, decide_eq_false_iff_not]; split <;> lia
      · rw [if_neg h, eq_comm, decide_eq_true_eq]; split <;> lia
    refine ⟨0, j, hs.rotationAndOnes_high, hj, hjk, ?_⟩
    rw [Nat.sub_zero, Nat.mod_self]
    apply hs.eq_replicatedRun (by omega)
    intro a ha
    rw [Nat.add_zero, mod_eq_of_lt ha, runBit]
    by_cases h : j ≤ a ∧ a < k
    · rw [if_pos h, Bool.not_true, eq_comm, decide_eq_false_iff_not]; omega
    · rw [if_neg h, eq_comm, decide_eq_true_eq]; omega

end Shape

/-! ## §7 The fields -/

/-- The element size and the ones are read back from the fields. -/
theorem sizeEncoding_spec (he : e ∈ elementSizes) (hpos : 0 < ones) (hlt : ones < e) :
    ∃ size, sizeEncoding e = .ok size ∧ size ||| (ones - 1) < 64 ∧
      ∃ len, 1 ≤ len ∧ e = 2 ^ len ∧ (size ||| (ones - 1)) &&& (e - 1) = ones - 1 ∧
        highestSetBit ((if e = 64 then 1 else 0) * 64 + (63 - (size ||| (ones - 1)))) 7 =
          some len := by
  obtain ⟨s, rfl⟩ : ∃ s, ones = s + 1 := ⟨ones - 1, by lia⟩
  simp only [elementSizes, List.mem_cons, List.not_mem_nil, or_false] at he
  have hs : s < e - 1 := by lia
  clear hlt hpos
  rcases he with rfl | rfl | rfl | rfl | rfl | rfl
  · exact ⟨_, rfl, by decide +revert, 1, by decide, rfl, by decide +revert, by decide +revert⟩
  · exact ⟨_, rfl, by decide +revert, 2, by decide, rfl, by decide +revert, by decide +revert⟩
  · exact ⟨_, rfl, by decide +revert, 3, by decide, rfl, by decide +revert, by decide +revert⟩
  · exact ⟨_, rfl, by decide +revert, 4, by decide, rfl, by decide +revert, by decide +revert⟩
  · exact ⟨_, rfl, by decide +revert, 5, by decide, rfl, by decide +revert, by decide +revert⟩
  · exact ⟨_, rfl, by decide +revert, 6, by decide, rfl, by decide +revert, by decide +revert⟩

/-- Encoding what is recognized succeeds, and decoding gives the word back. -/
theorem encodeLogicalImmediateFields_of_shape (hs : Shape e v j k x) :
    ∃ f, encodeLogicalImmediateFields x = .ok f ∧ f.immr < 64 ∧ f.imms < 64 ∧
      decodeBitMasks f = some x := by
  have hlen := hs.logicalImmLength_eq
  have hrange := elementSizes_range hs.size
  obtain ⟨rotation, ones, hrot, hpos, hlt, hx⟩ := hs.rotationAndOnes_spec
  obtain ⟨size, hsize, himms, len, hl, hpow, hand, hbit⟩ := sizeEncoding_spec hs.size hpos hlt
  have hrec : isLogicalImmediate x = true := by
    rw [isLogicalImmediate_iff, hlen]
    exact ⟨v, j, k, hs⟩
  have hr : (e - rotation) % e < e := mod_lt _ (by omega)
  refine ⟨⟨if e = 64 then 1 else 0, (e - rotation) % e, size ||| (ones - 1)⟩, ?_,
    hr.trans_le hrange.2, himms, ?_⟩
  · simp only [encodeLogicalImmediateFields, hrec, hlen, hrot, hsize]; rfl
  have h1 : ¬ len < 1 := by omega
  have h2 : ¬ ones - 1 = e - 1 := by omega
  simp only [decodeBitMasks, hbit, ← hpow, hand, h1, h2, if_false, Option.bind_eq_bind,
    Option.bind_some]
  rw [hpow, Nat.and_two_pow_sub_one_eq_mod, ← hpow, mod_eq_of_lt hr,
    Nat.sub_add_cancel hpos, ← hx]

/-- The logical immediates that are recognized are those of the architecture, and each of them
is encoded into fields that the architecture decodes to it. -/
theorem logicalImmediates_correct (x : Nativeint) :
    (isLogicalImmediate x = true ↔ IsBitmaskImmediate x) ∧
      (IsBitmaskImmediate x → ∃ f, encodeLogicalImmediateFields x = .ok f ∧ f.immr < 64 ∧
        f.imms < 64 ∧ decodeBitMasks f = some x) := by
  refine ⟨⟨fun h => ?_, fun h => ?_⟩, fun h => ?_⟩
  · obtain ⟨v, j, k, hs⟩ := (isLogicalImmediate_iff x).1 h
    obtain ⟨rotation, ones, -, hpos, hlt, hx⟩ := hs.rotationAndOnes_spec
    exact ⟨_, hs.size, ones, _, hpos, hlt, mod_lt _ (by omega), hx⟩
  · obtain ⟨e, v, j, k, hs⟩ := shape_of_isBitmaskImmediate h
    rw [isLogicalImmediate_iff, hs.logicalImmLength_eq]
    exact ⟨v, j, k, hs⟩
  · obtain ⟨e, v, j, k, hs⟩ := shape_of_isBitmaskImmediate h
    exact encodeLogicalImmediateFields_of_shape hs

/-- The word with ones in its low byte. -/
theorem logicalImmediates_correct_byte :
    ∃ f, encodeLogicalImmediateFields 0xFF = .ok f ∧ f.immr < 64 ∧ f.imms < 64 ∧
      decodeBitMasks f = some 0xFF :=
  (logicalImmediates_correct 0xFF).2
    ⟨64, by decide, 8, 0, by decide, by decide, by decide, by decide⟩

end Oxcaml.Backend.LogicalImmediates
