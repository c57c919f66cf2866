/-
Oxcaml.Lib.Bytes — numbers as bytes, and a memory that holds them.

Fixed-width numbers are little-endian; `Uleb128` is the variable-length encoding, which
may be padded. `Holds` says that a memory has bytes from an address on, and splits at
the parts that the bytes were put together from. §3 has the bits of a byte.
-/
import Mathlib.Tactic

namespace Oxcaml.Lib.Bytes

/-- The low bytes of a number, the lowest first. -/
def leBytes : ℕ → ℕ → List UInt8
  | 0, _ => []
  | width + 1, n => UInt8.ofNat n :: leBytes width (n / 256)

abbrev Memory := ℕ → UInt8

def readLe (mem : Memory) : ℕ → ℕ → ℕ
  | 0, _ => 0
  | width + 1, p => (mem p).toNat + 256 * readLe mem width (p + 1)

/-- The memory has the bytes from the address on. -/
def Holds (mem : Memory) (p : ℕ) (bytes : List UInt8) : Prop :=
  ∀ (i : ℕ) b, bytes[i]? = some b → mem (p + i) = b

variable {mem : Memory} {p width n : ℕ} {bytes bytes' : List UInt8} {b : UInt8}

@[simp] theorem leBytes_length (width n : ℕ) : (leBytes width n).length = width := by
  induction width generalizing n with
  | zero => rfl
  | succ width ih => simp [leBytes, ih]

/-! ## §1 Memory -/

@[simp] theorem holds_nil : Holds mem p [] := by
  intro i b h
  simp at h

theorem holds_cons : Holds mem p (b :: bytes) ↔ mem p = b ∧ Holds mem (p + 1) bytes := by
  constructor
  · intro h
    refine ⟨h 0 b rfl, fun i c hc => ?_⟩
    rw [Nat.add_assoc, Nat.add_comm 1 i]
    exact h (i + 1) c hc
  intro ⟨hb, h⟩ i c hc
  cases i with
  | zero =>
    simp only [List.getElem?_cons_zero, Option.some.injEq] at hc
    rw [← hc]
    exact hb
  | succ i => rw [Nat.add_comm i 1, ← Nat.add_assoc]; exact h i c hc

theorem holds_append :
    Holds mem p (bytes ++ bytes') ↔ Holds mem p bytes ∧ Holds mem (p + bytes.length) bytes' := by
  induction bytes generalizing p with
  | nil => simp
  | cons b bytes ih =>
    rw [List.cons_append, holds_cons, ih, holds_cons, List.length_cons, and_assoc, Nat.add_assoc,
      Nat.add_comm 1]

/-- A memory that consists of the bytes. -/
def memoryOf (p : ℕ) (bytes : List UInt8) : Memory := fun a => bytes.getD (a - p) 0

theorem holds_memoryOf : Holds (memoryOf p bytes) p bytes := by
  intro i b hb
  unfold memoryOf
  rw [Nat.add_sub_cancel_left, List.getD_eq_getElem?_getD, hb, Option.getD_some]

theorem readLe_of_holds (h : Holds mem p (leBytes width n)) :
    readLe mem width p = n % 256 ^ width := by
  induction width generalizing p n with
  | zero => simp [readLe, Nat.mod_one]
  | succ width ih =>
    rw [leBytes, holds_cons] at h
    obtain ⟨hb, hrest⟩ := h
    have hmod : n % (256 * 256 ^ width) = n % 256 + 256 * (n / 256 % 256 ^ width) := Nat.mod_mul
    rw [readLe, hb, ih hrest, pow_succ', hmod]
    rfl

theorem readLe_eq (h : Holds mem p (leBytes width n)) (hn : n < 256 ^ width) :
    readLe mem width p = n := by
  rw [readLe_of_holds h, Nat.mod_eq_of_lt hn]

/-! ### Integers -/

/-- The low bytes of an integer in two's complement, the lowest first. -/
def leInt (width : ℕ) (v : ℤ) : List UInt8 := leBytes width (v % 256 ^ width).toNat

@[simp] theorem leInt_length (width : ℕ) (v : ℤ) : (leInt width v).length = width :=
  leBytes_length _ _

theorem emod_mul_ediv (v k : ℤ) : v % (256 * k) / 256 = v / 256 % k := by
  rw [Int.emod_def, Int.emod_def, ← Int.ediv_ediv_of_nonneg (by decide : (0 : ℤ) ≤ 256),
    mul_assoc, Int.sub_mul_ediv_left _ _ (by decide)]

theorem leInt_succ (width : ℕ) (v : ℤ) :
    leInt (width + 1) v = UInt8.ofNat (v % 256).toNat :: leInt width (v / 256) := by
  have hbyte : (v % 256 ^ (width + 1)).toNat % 256 = (v % 256).toNat := by
    have hmod : v % 256 ^ (width + 1) % 256 = v % 256 :=
      Int.emod_emod_of_dvd v (Dvd.intro_left _ (pow_succ 256 width).symm)
    omega
  have hrest : (v % 256 ^ (width + 1)).toNat / 256 = (v / 256 % 256 ^ width).toNat := by
    have hdiv := emod_mul_ediv v (256 ^ width)
    rw [← pow_succ'] at hdiv
    lia
  unfold leInt
  rw [leBytes, hrest]
  congr 1
  rw [← UInt8.toNat_inj, UInt8.toNat_ofNat', UInt8.toNat_ofNat']
  lia

theorem leInt_add (width width' : ℕ) (v : ℤ) :
    leInt (width + width') v = leInt width v ++ leInt width' (v / 256 ^ width) := by
  induction width generalizing v with
  | zero => simp [leInt, leBytes]
  | succ width ih =>
    rw [Nat.add_right_comm, leInt_succ, leInt_succ, ih, List.cons_append, pow_succ',
      Int.ediv_ediv_of_nonneg (by decide)]

/-! ### Fields in place -/

/-- A function that overwrites the field of a width at a position by an integer. -/
def Writes (write : List UInt8 → ℕ → ℤ → List UInt8) (width : ℕ) : Prop :=
  ∀ (pre field post : List UInt8) (v : ℤ), field.length = width →
    write (pre ++ field ++ post) pre.length v = pre ++ leInt width v ++ post

theorem writes_one : Writes (fun s pos v => s.set pos (UInt8.ofNat (v % 256).toNat)) 1 := by
  intro pre field post v h
  obtain ⟨old, rfl⟩ := List.length_eq_one_iff.1 h
  have hbyte : leInt 1 v = [UInt8.ofNat (v % 256).toNat] := leInt_succ 0 v
  rw [hbyte]
  simp [List.set_append_right]

/-- Two writes of a width, one after the other. -/
theorem Writes.double {write : List UInt8 → ℕ → ℤ → List UInt8} {width : ℕ}
    (h : Writes write width) :
    Writes (fun s pos v => write (write s pos v) (pos + width) (v / 256 ^ width))
      (width + width) := by
  intro pre field post v hfield
  obtain ⟨low, high, rfl, hlow, hhigh⟩ : ∃ low high, field = low ++ high ∧ low.length = width ∧
      high.length = width :=
    ⟨field.take width, field.drop width, (List.take_append_drop _ _).symm, by simp [hfield],
      by simp [hfield]⟩
  have hfirst := h pre low (high ++ post) v hlow
  have hsecond := h (pre ++ leInt width v) high post (v / 256 ^ width) hhigh
  simp only [List.append_assoc, List.length_append, leInt_length] at hfirst hsecond ⊢
  rw [hfirst, hsecond, leInt_add, List.append_assoc]

/-! ## §2 Variable-length numbers -/

/-- The bytes are an encoding of the number, seven bits a byte. -/
inductive Uleb128 : ℕ → List UInt8 → Prop
  | last {n : ℕ} : n < 128 → Uleb128 n [UInt8.ofNat n]
  | more {low n : ℕ} {bytes : List UInt8} :
      low < 128 → Uleb128 n bytes → Uleb128 (low + 128 * n) (UInt8.ofNat (low + 128) :: bytes)

/-- The first byte of a number that is not 0 is not 0. -/
theorem Uleb128.head_ne_zero (h : Uleb128 n bytes) (hn : n ≠ 0) :
    ∃ b rest, bytes = b :: rest ∧ b ≠ 0 := by
  cases h with
  | last hlt =>
    refine ⟨_, _, rfl, fun heq => hn ?_⟩
    have hnat := congrArg UInt8.toNat heq
    rw [UInt8.toNat_ofNat', UInt8.toNat_zero] at hnat
    omega
  | more hlow _ =>
    refine ⟨_, _, rfl, fun heq => ?_⟩
    have hnat := congrArg UInt8.toNat heq
    rw [UInt8.toNat_ofNat', UInt8.toNat_zero] at hnat
    omega

/-! ## §3 Bits -/

/-- The positions of the bits that are set, from position `i` on. -/
def bitsFrom : ℕ → ℕ → ℕ → List ℕ
  | 0, _, _ => []
  | fuel + 1, i, bits =>
    if bits = 0 then []
    else if bits % 2 = 1 then i :: bitsFrom fuel (i + 1) (bits / 2)
    else bitsFrom fuel (i + 1) (bits / 2)

theorem mem_bitsFrom {fuel i k bits : ℕ} :
    k ∈ bitsFrom fuel i bits ↔ i ≤ k ∧ k < i + fuel ∧ bits.testBit (k - i) := by
  induction fuel generalizing i bits with
  | zero => simp only [bitsFrom, List.not_mem_nil, false_iff]; omega
  | succ fuel ih =>
    unfold bitsFrom
    split_ifs with hzero hodd
    · simp [hzero]
    · rw [List.mem_cons, ih]
      rcases Nat.lt_trichotomy k i with hlt | rfl | hgt
      · omega
      · simp [hodd]
      obtain ⟨m, rfl⟩ := Nat.exists_eq_add_of_lt hgt
      have h1 : i + m + 1 - (i + 1) = m := by omega
      have h2 : i + m + 1 - i = m + 1 := by omega
      rw [h1, h2, Nat.testBit_succ]
      constructor
      · intro h
        rcases h with h | h
        · omega
        · exact ⟨by omega, by omega, h.2.2⟩
      · intro h; exact .inr ⟨by omega, by omega, h.2.2⟩
    rw [ih]
    rcases Nat.lt_trichotomy k i with hlt | rfl | hgt
    · omega
    · simp [hodd]
    obtain ⟨m, rfl⟩ := Nat.exists_eq_add_of_lt hgt
    have h1 : i + m + 1 - (i + 1) = m := by omega
    have h2 : i + m + 1 - i = m + 1 := by omega
    rw [h1, h2, Nat.testBit_succ]
    constructor
    · intro h; exact ⟨by omega, by omega, h.2.2⟩
    · intro h; exact ⟨by omega, by omega, h.2.2⟩

end Oxcaml.Lib.Bytes
