/-
Oxcaml.Backend.BitMatrix — the triangular bit matrix of interference edges,
`backend/regalloc/regalloc_interf_graph.ml`.

An `int` is an integer that every operation wraps to 63 bits, and a stamp is a natural
number. `Bytes.make` refuses more than `Sys.max_string_length` bytes. An access out of the
buffer, which the source does not check, is an error here. The matrix is a set of edges
exactly when the number of its bits has not wrapped (§4).
-/
import Oxcaml.Lib.Arrays

set_option linter.all false

namespace Oxcaml.Backend.BitMatrix

open Oxcaml.Lib

inductive Exn
  | invalidArgument
  | fatalInvalidEdge (i j numRegisters : ℤ)
  | outOfBounds
deriving DecidableEq

/-! ## §1 The operations -/

/-- The `int` with the low 63 bits of `x`. -/
def wrap (x : ℤ) : ℤ := x.bmod (2 ^ 63)

/-- `x lsr k`, for a positive `k`. -/
def lsr (x : ℤ) (k : ℕ) : ℕ := (x % 2 ^ 63).toNat / 2 ^ k

/-- `Edge.t`. -/
abbrev Edge := ℕ × ℕ

def Edge.make (x y : ℕ) : Edge := if x ≤ y then (x, y) else (y, x)

structure T where
  bits : List (BitVec 8)
  numRegisters : ℤ

def bitLocation (edge : Edge) (numRegisters : ℤ) : Except Exn (ℕ × ℕ) :=
  let i : ℤ := edge.1
  let j : ℤ := edge.2
  if i ≥ numRegisters ∨ j ≥ numRegisters then .error (.fatalInvalidEdge i j numRegisters)
  else
    let bitOffset :=
      wrap (wrap (wrap (i * numRegisters) - wrap (i * wrap (i - 1)) / 2) + wrap (j - i))
    .ok (lsr bitOffset 3, (bitOffset % 8).toNat)

def extraRoomFactor : ℤ := 10

/-- The capacity for a number of registers, and the bytes for a capacity. -/
def overallocated (numRegisters : ℤ) : ℤ :=
  wrap (numRegisters + numRegisters.tdiv extraRoomFactor)

def numBytes (numRegisters : ℤ) : ℕ :=
  let numEdges := lsr (wrap (numRegisters * wrap (numRegisters + 1))) 1
  lsr (wrap (numEdges + 7)) 3

/-- `Sys.max_string_length`. -/
def maxStringLength : ℕ := 2 ^ 57 - 9

def make (numRegisters : ℤ) : Except Exn T :=
  let numRegisters := overallocated numRegisters
  if maxStringLength < numBytes numRegisters then .error .invalidArgument
  else .ok { bits := List.replicate (numBytes numRegisters) 0, numRegisters }

def clear (t : T) : T := { t with bits := List.replicate t.bits.length 0 }

def mem (t : T) (edge : Edge) : Except Exn Bool := do
  let (byteIndex, bitPosition) ← bitLocation edge t.numRegisters
  let byteVal ← read .outOfBounds t.bits byteIndex
  pure (byteVal &&& (1#8 <<< bitPosition) != 0)

def add (t : T) (edge : Edge) : Except Exn T := do
  let (byteIndex, bitPosition) ← bitLocation edge t.numRegisters
  let byteVal ← read .outOfBounds t.bits byteIndex
  let bits ← write .outOfBounds t.bits byteIndex (byteVal ||| (1#8 <<< bitPosition))
  pure { t with bits }

/-! ## §2 Runs -/

inductive Op
  | add (x y : ℕ)
  | clear

def Op.run (t : T) : Op → Except Exn T
  | .add x y => BitMatrix.add t (Edge.make x y)
  | .clear => .ok (BitMatrix.clear t)

/-- The stamps are below the capacity. -/
def Op.Below (numRegisters : ℤ) : Op → Prop
  | .add x y => (x : ℤ) < numRegisters ∧ (y : ℤ) < numRegisters
  | .clear => True

/-- The edges that are added after the last `clear`. -/
def Op.apply (edges : Set Edge) : Op → Set Edge
  | .add x y => insert (Edge.make x y) edges
  | .clear => ∅

/-- An edge that `Edge.make` makes from stamps below the capacity. -/
def Valid (numRegisters : ℤ) (e : Edge) : Prop := e.1 ≤ e.2 ∧ (e.2 : ℤ) < numRegisters

/-- Every edge has a bit of its own in a buffer of `len` bytes. -/
structure Separate (n : ℤ) (len : ℕ) : Prop where
  inside : ∀ e, Valid n e → ∃ byte bit, bitLocation e n = .ok (byte, bit) ∧ byte < len ∧ bit < 8
  distinct : ∀ e e', Valid n e → Valid n e' → bitLocation e n = bitLocation e' n → e = e'

/-- The matrix is a set of edges in every run, which touches the bits of its edges only. -/
structure Faithful (t : T) : Prop where
  separate : Separate t.numRegisters t.bits.length
  run : ∀ ops : List Op, (∀ op ∈ ops, op.Below t.numRegisters) →
    ∃ t', ops.foldlM Op.run t = .ok t' ∧ ∀ x y : ℕ, (x : ℤ) < t.numRegisters →
      (y : ℤ) < t.numRegisters →
        ∃ b, mem t' (Edge.make x y) = .ok b ∧ (b = true ↔ Edge.make x y ∈ ops.foldl Op.apply ∅)

/-- The matrix has its shape, and the edges have their bits. -/
structure Holds (n : ℤ) (len : ℕ) (t : T) (edges : Set Edge) : Prop where
  numRegisters : t.numRegisters = n
  length : t.bits.length = len
  bits : ∀ e byte bit, Valid n e → bitLocation e n = .ok (byte, bit) →
    ((t.bits.getD byte 0).getLsbD bit = true ↔ e ∈ edges)

variable {t : T} {edges : Set Edge} {e : Edge} {x y byte bit len : ℕ} {n c : ℤ}

theorem make_valid (hx : (x : ℤ) < n) (hy : (y : ℤ) < n) : Valid n (Edge.make x y) := by
  unfold Edge.make
  split_ifs with h
  · exact ⟨h, hy⟩
  · exact ⟨by omega, hx⟩

theorem and_bit (v : BitVec 8) (hbit : bit < 8) :
    (v &&& (1#8 <<< bit) != 0) = v.getLsbD bit := by
  have hand := BitVec.and_twoPow v bit
  rw [← BitVec.twoPow_eq, hand]
  cases v.getLsbD bit with
  | false => rfl
  | true => interval_cases bit <;> rfl

theorem Holds.mem (h : Holds n len t edges) (hsep : Separate n len) (he : Valid n e) :
    ∃ b, mem t e = .ok b ∧ (b = true ↔ e ∈ edges) := by
  obtain ⟨byte, bit, hloc, hbyte, hbit⟩ := hsep.inside e he
  refine ⟨_, ?_, h.bits e byte bit he hloc⟩
  rw [BitMatrix.mem, h.numRegisters, hloc]
  simp only [bind, Except.bind, read_getD (d := 0) (h.length ▸ hbyte), pure, Except.pure,
    and_bit _ hbit]

theorem holds_replicate (n : ℤ) (len : ℕ) : Holds n len ⟨List.replicate len 0, n⟩ ∅ := by
  refine ⟨rfl, List.length_replicate, fun e byte bit _ _ => ?_⟩
  have hzero : (List.replicate len (0 : BitVec 8)).getD byte 0 = 0 := by
    rw [List.getD_eq_getElem?_getD, List.getElem?_replicate]
    split_ifs <;> rfl
  rw [hzero]
  simp

theorem Holds.clear (h : Holds n len t edges) : Holds n len (clear t) ∅ := by
  rw [BitMatrix.clear, h.length, h.numRegisters]
  exact holds_replicate n len

theorem Holds.add (h : Holds n len t edges) (hsep : Separate n len) (he : Valid n e) :
    ∃ t', add t e = .ok t' ∧ Holds n len t' (insert e edges) := by
  obtain ⟨byte, bit, hloc, hbyte, hbit⟩ := hsep.inside e he
  have hlt : byte < t.bits.length := h.length ▸ hbyte
  refine ⟨{ t with bits := t.bits.set byte (t.bits.getD byte 0 ||| 1#8 <<< bit) }, ?_, ?_⟩
  · rw [BitMatrix.add, h.numRegisters, hloc]
    simp only [bind, Except.bind, read_getD (d := 0) hlt, write_eq hlt, pure, Except.pure]
  refine ⟨h.numRegisters, by simp [h.length], fun e' byte' bit' he' hloc' => ?_⟩
  rw [getD_set hlt, Set.mem_insert_iff, ← h.bits e' _ _ he' hloc']
  by_cases heq : e' = e
  · subst heq
    obtain ⟨rfl, rfl⟩ := Prod.mk.inj (Except.ok.inj (hloc.symm.trans hloc'))
    rw [ ← BitVec.twoPow_eq]
    simp [hbit]
  split_ifs with hb
  · have hne : bit ≠ _ := fun hbb => heq (hsep.distinct e' e he' he (by rw [hloc', hloc, hb, hbb]))
    subst hb
    rw [ ← BitVec.twoPow_eq]
    simp [hne, heq]
  · simp [heq]

theorem Holds.run (h : Holds n len t ∅) (hsep : Separate n len) {ops : List Op}
    (hops : ∀ op ∈ ops, op.Below n) :
    ∃ t', ops.foldlM Op.run t = .ok t' ∧ Holds n len t' (ops.foldl Op.apply ∅) := by
  refine foldlM_ok (I := fun done t' => Holds n len t' (done.foldl Op.apply ∅)) h ?_
  intro done op rest t' hl h'
  rw [List.foldl_append]
  have hop := hops op (by simp [hl])
  cases op with
  | clear => exact ⟨_, rfl, h'.clear⟩
  | add x y => exact h'.add hsep (make_valid hop.1 hop.2)

/-! ## §3 The layout -/

theorem wrap_emod (z : ℤ) : wrap z % 2 ^ 63 = z % 2 ^ 63 := Int.bmod_emod

theorem wrap_eq {z : ℤ} (h : -2 ^ 62 ≤ z) (h' : z < 2 ^ 62) : wrap z = z :=
  Int.bmod_eq_of_le (by omega) (by omega)

/-- The bits are those of the edges, up to `2 ^ 63`. -/
theorem numBytes_eq (hc : 0 ≤ c) (hmax : c < 2 ^ 62) :
    numBytes c = ((c * (c + 1) % 2 ^ 63).toNat / 2 + 7) / 8 := by
  have hedges : lsr (wrap (c * wrap (c + 1))) 1 = (c * (c + 1) % 2 ^ 63).toNat / 2 := by
    rw [lsr, wrap_emod, Int.mul_emod, wrap_emod, ← Int.mul_emod, pow_one]
  rw [numBytes, lsr, wrap_emod]
  lia

def offset (c i j : ℤ) : ℤ := i * c - i * (i - 1) / 2 + (j - i)

theorem two_mul_offset (c i j : ℤ) : 2 * offset c i j = i * (2 * c - i - 1) + 2 * j := by
  have heven : i * (i - 1) / 2 * 2 = i * (i - 1) := Int.ediv_mul_cancel (Int.even_mul_pred_self i).two_dvd
  unfold offset
  linear_combination -heven

/-- The rows follow each other. -/
theorem offset_lt {i j i' j' : ℤ} (hij : i ≤ i' - 1) (hj : j < c) (hij' : i' ≤ j') (hj' : j' < c) :
    offset c i j < offset c i' j' := by
  have h := two_mul_offset c i j
  have h' := two_mul_offset c i' j'
  nlinarith [mul_nonneg (show 0 ≤ i' - 1 - i by omega) (show 0 ≤ c - i' by omega)]

theorem offset_bounds {i j : ℤ} (hi : 0 ≤ i) (hij : i ≤ j) (hj : j < c) :
    0 ≤ offset c i j ∧ 2 * offset c i j + 2 ≤ c * (c + 1) := by
  have h := two_mul_offset c i j
  constructor
  · nlinarith [mul_nonneg hi (show 0 ≤ 2 * c - i - 1 by omega)]
  · nlinarith [mul_nonneg (show 0 ≤ c - i by omega) (show 0 ≤ c - i - 1 by omega)]

theorem bitLocation_eq (he : Valid c e) (hsmall : c * (c + 1) < 2 ^ 61) :
    bitLocation e c = .ok ((offset c e.1 e.2).toNat / 8, (offset c e.1 e.2 % 8).toNat) := by
  obtain ⟨i, j⟩ := e
  obtain ⟨hij, hj⟩ := he
  have hi0 : (0 : ℤ) ≤ i := Int.natCast_nonneg i
  have hij' : (i : ℤ) ≤ j := by exact_mod_cast hij
  obtain ⟨hlow, hhigh⟩ := offset_bounds hi0 hij' hj
  have hc : c ≤ c * (c + 1) := by nlinarith
  have hic : 0 ≤ i * c ∧ i * c ≤ c * (c + 1) := ⟨mul_nonneg hi0 (by omega), by nlinarith⟩
  have hii : 0 ≤ (i : ℤ) * (i - 1) ∧ (i : ℤ) * (i - 1) ≤ c * (c + 1) := by
    refine ⟨?_, by nlinarith⟩
    rcases Nat.eq_zero_or_pos i with rfl | hpos
    · simp
    · exact mul_nonneg hi0 (by omega)
  have hbit : wrap (wrap (wrap (i * c) - wrap (i * wrap (i - 1)) / 2) + wrap (j - i)) = offset c i j := by
    rw [wrap_eq (z := (i : ℤ) - 1) (by omega) (by omega), wrap_eq (z := i * c) (by omega) (by omega),
      wrap_eq (z := (i : ℤ) * (i - 1)) (by omega) (by omega),
      wrap_eq (z := i * c - i * (i - 1) / 2) (by omega) (by omega),
      wrap_eq (z := (j : ℤ) - i) (by omega) (by omega)]
    exact wrap_eq (by omega) (by omega)
  rw [bitLocation, if_neg (by omega)]
  dsimp only
  rw [hbit, lsr, Int.emod_eq_of_lt hlow (by omega)]
  norm_num

/-! ## §4 Capacities -/

/-- What is refused is large, and the product of what is not has not wrapped much. -/
theorem separate_of_small (hc : 0 ≤ c) (hprod : c * (c + 1) < 2 ^ 63)
    (hmax : numBytes c ≤ maxStringLength) : Separate c (numBytes c) := by
  have hlen := numBytes_eq hc (by nlinarith)
  unfold maxStringLength at hmax
  have hsmall : c * (c + 1) < 2 ^ 61 := by lia
  constructor
  · rintro ⟨i, j⟩ he
    obtain ⟨hlow, hhigh⟩ := offset_bounds (Int.natCast_nonneg i) (by exact_mod_cast he.1) he.2
    refine ⟨_, _, bitLocation_eq he hsmall, ?_, ?_⟩
    · dsimp only at hlow hhigh ⊢
      lia
    · lia
  rintro ⟨i, j⟩ ⟨i', j'⟩ he he' heq
  rw [bitLocation_eq he hsmall, bitLocation_eq he' hsmall] at heq
  obtain ⟨hbyte, hbit⟩ := Prod.mk.inj (Except.ok.inj heq)
  have h1 := offset_bounds (Int.natCast_nonneg i) (by exact_mod_cast he.1) he.2
  have h2 := offset_bounds (Int.natCast_nonneg i') (by exact_mod_cast he'.1) he'.2
  dsimp only at hbyte hbit h1 h2
  have hoff : offset c i j = offset c i' j' := by lia
  obtain ⟨hij, hj⟩ := he
  obtain ⟨hij', hj'⟩ := he'
  dsimp only at hij hj hij' hj'
  rcases Nat.lt_trichotomy i i' with hlt | rfl | hlt
  · have := offset_lt (show (i : ℤ) ≤ i' - 1 by lia) hj (by exact_mod_cast hij') hj'
    lia
  · unfold offset at hoff
    rw [Prod.mk.injEq]
    lia
  · have := offset_lt (show (i' : ℤ) ≤ i - 1 by lia) hj' (by exact_mod_cast hij) hj
    lia

theorem separate_of_neg (hc : c < 0) : Separate c len := by
  refine ⟨fun e he => ?_, fun e _ he => ?_⟩ <;> exact absurd he.2 (by omega)

/-- There are `c * (c + 1) / 2` edges, which need as many bits. -/
theorem Separate.card_le (h : Separate c len) (hc : 0 ≤ c) : c * (c + 1) ≤ 16 * len := by
  let place : (_ : ℕ) × ℕ → ℕ := fun p =>
    match bitLocation (p.2, p.1 - 1) c with
    | .ok (byte, bit) => 8 * byte + bit
    | .error _ => 0
  let all := (Finset.range (c.toNat + 1)).sigma fun k => Finset.range k
  have hvalid : ∀ p ∈ all, 0 < p.1 ∧ Valid c (p.2, p.1 - 1) := by
    intro p hp
    simp only [all, Finset.mem_sigma, Finset.mem_range] at hp
    exact ⟨by omega, by omega, by omega⟩
  have hcard : all.card ≤ (Finset.range (8 * len)).card := by
    refine Finset.card_le_card_of_injOn place ?_ ?_
    · intro p hp
      obtain ⟨byte, bit, hloc, hbyte, hbit⟩ := h.inside _ (hvalid p hp).2
      simp only [place, hloc, Finset.coe_range, Set.mem_Iio]
      omega
    intro p hp p' hp' heq
    obtain ⟨byte, bit, hloc, -, hbit⟩ := h.inside _ (hvalid p hp).2
    obtain ⟨byte', bit', hloc', -, hbit'⟩ := h.inside _ (hvalid p' hp').2
    simp only [place, hloc, hloc'] at heq
    have hedge := h.distinct _ _ (hvalid p hp).2 (hvalid p' hp').2 (by
      rw [hloc, hloc', show byte = byte' by omega, show bit = bit' by omega])
    have h1 := (hvalid p hp).1
    have h2 := (hvalid p' hp').1
    obtain ⟨hsnd, hfst⟩ := Prod.mk.inj hedge
    exact Sigma.ext (by omega) (by simpa using hsnd)
  have hsum := Finset.sum_range_id_mul_two (c.toNat + 1)
  rw [Finset.card_sigma] at hcard
  simp only [Finset.card_range, Nat.add_sub_cancel] at hcard hsum
  have hbits : (c.toNat + 1) * c.toNat ≤ 16 * len := by
    omega
  zify at hbits
  rwa [Int.toNat_of_nonneg hc, mul_comm] at hbits

end Oxcaml.Backend.BitMatrix
