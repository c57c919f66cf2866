/-
Oxcaml.Typing.AxisLattice — the packed lattice of `typing/axis_lattice.ml`.

Eleven axes are packed into one integer. An axis of two levels takes one bit;
chains of three levels and diamonds take two. Chains are encoded by prefix
ones, so that on every axis the order is bit inclusion. The values of the
type are the integers that encode some level on every axis: bits of `top`
only, and no high bit of a three-level chain without its low bit.

`co_sub` repairs the one invalid pattern that `a land lnot b` can leave. §3
shows that this is the co-Heyting subtraction of the lattice, which is all
that the decision diagrams need. §4 relates the packed order to the levels
that `get_axis` decodes.
-/
import Mathlib.Order.Heyting.Basic
import Mathlib.Order.BooleanAlgebra.Defs
import Mathlib.Order.Lattice

set_option linter.all false

namespace Oxcaml.Typing.AxisLattice

open BitVec (eq_of_getLsbD_eq getLsbD_and getLsbD_not getLsbD_or lt_of_getLsbD)
open Bool (and_eq_true or_eq_true)

/-! ## §1 Layout -/

/-- `Jkind_axis.Axis.packed`. -/
inductive Axis where
  | areality
  | uniqueness
  | linearity
  | contention
  | portability
  | forkable
  | yielding
  | statefulness
  | visibility
  | staticity
  | externality
  deriving DecidableEq

/-- `Jkind_axis.Axis.all`, which is also `axis_by_number`. -/
def Axis.all : List Axis :=
  [areality, uniqueness, linearity, contention, portability, forkable, yielding, statefulness,
    visibility, staticity, externality]

inductive AxisShape where
  | chain2
  | chain3
  | diamond4
  deriving DecidableEq

def Axis.shape : Axis → AxisShape
  | areality => .chain3
  | uniqueness => .chain2
  | linearity => .chain2
  | contention => .diamond4
  | portability => .diamond4
  | forkable => .chain2
  | yielding => .chain2
  | statefulness => .diamond4
  | visibility => .diamond4
  | staticity => .chain2
  | externality => .chain3

def axisShapes : List AxisShape := Axis.all.map Axis.shape

def numAxes : Nat := axisShapes.length

def width : AxisShape → Nat
  | .chain2 => 1
  | .chain3 | .diamond4 => 2

/-- Consecutive packing offsets. -/
def offsetsFrom (acc : Nat) : List Nat → List Nat
  | [] => []
  | w :: ws => acc :: offsetsFrom (acc + w) ws

def offsets : List Nat := offsetsFrom 0 (axisShapes.map width)

/-- The integers of the source. -/
abbrev Bits := BitVec 63

def loMask (i : Nat) : Bits := (1 : Bits) <<< offsets.getD i 0

def hiMask (i : Nat) : Bits :=
  match axisShapes.getD i .chain2 with
  | .chain2 => 0
  | .chain3 | .diamond4 => (1 : Bits) <<< (offsets.getD i 0 + 1)

def axisMask (i : Nat) : Bits := loMask i ||| hiMask i

/-- All masks together. -/
def topBits : Bits := (List.range numAxes).foldl (fun acc i => acc ||| axisMask i) 0

def chain3HiMask : Bits :=
  (List.range numAxes).foldl
    (fun acc i =>
      match axisShapes.getD i .chain2 with
      | .chain3 => acc ||| hiMask i
      | .chain2 | .diamond4 => acc) 0

/-! ## §2 Values -/

/-- Every axis holds the code of a level. -/
def Valid (x : Bits) : Prop :=
  x &&& ~~~topBits = 0 ∧ ((x &&& chain3HiMask) >>> 1) &&& ~~~x = 0

instance (x : Bits) : Decidable (Valid x) := inferInstanceAs (Decidable (_ ∧ _))

theorem valid_iff {x : Bits} : Valid x ↔ (∀ i, x.getLsbD i = true → topBits.getLsbD i = true) ∧
      ∀ i, chain3HiMask.getLsbD (i + 1) = true → x.getLsbD (i + 1) = true → x.getLsbD i = true := by
  have hzero : ∀ y : Bits, y = 0 ↔ ∀ i < 63, y.getLsbD i = false := by
    intro y
    refine ⟨fun h i _ => by simp [h], fun h => eq_of_getLsbD_eq fun i hi => ?_⟩
    rw [h i hi]
    simp
  have hlt : ∀ {y : Bits} {i : Nat}, y.getLsbD i = true → i < 63 :=
    fun h => lt_of_getLsbD h
  rw [Valid, hzero, hzero]
  refine and_congr ⟨fun h i hi => ?_, fun h i hi => ?_⟩ ⟨fun h i hm hi => ?_, fun h i hi => ?_⟩
  · have := h i (hlt hi); simpa [hi, hlt hi] using this
  · have := h i; cases hx : x.getLsbD i <;> simp_all
  · have := h i (by have := hlt hi; omega)
    simp only [getLsbD_and, BitVec.getLsbD_ushiftRight, Nat.add_comm 1 i, hm, hi] at this
    have hlt' := hlt hi
    simpa [show i < 63 by omega] using this
  have := h i
  simp only [getLsbD_and, BitVec.getLsbD_ushiftRight, Nat.add_comm 1 i]
  cases hm : chain3HiMask.getLsbD (i + 1) <;> cases hx : x.getLsbD (i + 1) <;> simp_all

/-- `Axis_lattice.t`. -/
@[ext]
structure T where
  bits : Bits
  valid : Valid bits
  deriving DecidableEq

variable {i : Nat}

theorem T.le_topBits (a : T) (h : a.bits.getLsbD i = true) : topBits.getLsbD i = true :=
  (valid_iff.1 a.valid).1 i h

theorem T.chain3 (a : T) (hm : chain3HiMask.getLsbD (i + 1) = true)
    (h : a.bits.getLsbD (i + 1) = true) : a.bits.getLsbD i = true :=
  (valid_iff.1 a.valid).2 i hm h

/-- The low bit of a three-level chain is a bit of the layout. -/
theorem topBits_of_chain3 (h : chain3HiMask.getLsbD (i + 1) = true) : topBits.getLsbD i = true := by
  have hall : ∀ j : Fin 63, chain3HiMask.getLsbD (j + 1) = true → topBits.getLsbD j = true := by
    decide
  have hlt := lt_of_getLsbD h
  exact hall ⟨i, by omega⟩ h

/-- The low bit of a three-level chain is not the high bit of another one. -/
theorem not_chain3_of_chain3 (h : chain3HiMask.getLsbD (i + 1) = true) :
    chain3HiMask.getLsbD (i + 2) = false := by
  have hall : ∀ j : Fin 63, chain3HiMask.getLsbD (j + 1) = true →
      chain3HiMask.getLsbD (j + 2) = false := by
    decide
  have hlt := lt_of_getLsbD h
  exact hall ⟨i, by omega⟩ h

def bot : T := ⟨0, by decide⟩

def top : T := ⟨topBits, by decide⟩

def join (a b : T) : T where
  bits := a.bits ||| b.bits
  valid := by
    refine valid_iff.2 ⟨fun i h => ?_, fun i hm h => ?_⟩
    · rw [getLsbD_or, or_eq_true] at h; exact h.elim a.le_topBits b.le_topBits
    · rw [getLsbD_or, or_eq_true] at h ⊢; exact h.imp (a.chain3 hm) (b.chain3 hm)

def meet (a b : T) : T where
  bits := a.bits &&& b.bits
  valid := by
    refine valid_iff.2 ⟨fun i h => ?_, fun i hm h => ?_⟩
    · rw [getLsbD_and, and_eq_true] at h; exact a.le_topBits h.1
    · rw [getLsbD_and, and_eq_true] at h ⊢; exact h.imp (a.chain3 hm) (b.chain3 hm)

def leq (a b : T) : Bool := a.bits &&& b.bits == a.bits

/-- `co_sub` on integers. -/
def coSubBits (a b : Bits) : Bits :=
  let r := a &&& ~~~b
  r ||| ((r &&& chain3HiMask) >>> 1)

theorem getLsbD_coSubBits {a b : Bits} : (coSubBits a b).getLsbD i = true ↔
      (a.getLsbD i = true ∧ b.getLsbD i = false) ∨
        (chain3HiMask.getLsbD (i + 1) = true ∧ a.getLsbD (i + 1) = true ∧
          b.getLsbD (i + 1) = false) := by
  have hnot : ∀ j, (a &&& ~~~b).getLsbD j = true ↔ a.getLsbD j = true ∧ b.getLsbD j = false := by
    intro j
    simp only [getLsbD_and, getLsbD_not, and_eq_true, Bool.not_eq_true',
      decide_eq_true_eq]
    exact ⟨fun h => ⟨h.1, h.2.2⟩, fun h => ⟨h.1, lt_of_getLsbD h.1, h.2⟩⟩
  simp only [coSubBits]
  rw [getLsbD_or, or_eq_true, hnot, BitVec.getLsbD_ushiftRight, Nat.add_comm 1 i,
    getLsbD_and, and_eq_true, hnot]
  exact or_congr_right and_comm

def coSub (a b : T) : T where
  bits := coSubBits a.bits b.bits
  valid := by
    refine valid_iff.2 ⟨fun i h => ?_, fun i hm h => ?_⟩
    · rcases getLsbD_coSubBits.1 h with h | h
      · exact a.le_topBits h.1
      · exact topBits_of_chain3 h.1
    rcases getLsbD_coSubBits.1 h with h | h
    · exact getLsbD_coSubBits.2 (.inr ⟨hm, h⟩)
    · rw [not_chain3_of_chain3 hm] at h; exact absurd h.1 (by decide)

/-- `imply` on integers. -/
def implyBits (a b : Bits) : Bits :=
  let r := (~~~a ||| b) &&& topBits
  let invalidChain3HiBits := r &&& chain3HiMask &&& ~~~(r <<< 1)
  r &&& ~~~invalidChain3HiBits

/-- A bit of the residual: on a three-level chain, the high bit needs the low bit. -/
theorem getLsbD_implyBits {a b : Bits} : (implyBits a b).getLsbD i = true ↔
      ((a.getLsbD i = false ∨ b.getLsbD i = true) ∧ topBits.getLsbD i = true) ∧
        ∀ j, i = j + 1 → chain3HiMask.getLsbD (j + 1) = true →
          (a.getLsbD j = false ∨ b.getLsbD j = true) ∧ topBits.getLsbD j = true := by
  have hr : ∀ j, ((~~~a ||| b) &&& topBits).getLsbD j = true ↔
      (a.getLsbD j = false ∨ b.getLsbD j = true) ∧ topBits.getLsbD j = true := by
    intro j
    simp only [getLsbD_and, getLsbD_or, getLsbD_not, and_eq_true,
      or_eq_true, Bool.not_eq_true', decide_eq_true_eq]
    refine and_congr_left fun htop => or_congr_left ?_
    exact and_iff_right (lt_of_getLsbD htop)
  simp only [implyBits]
  generalize (~~~a ||| b) &&& topBits = r at hr ⊢
  have hlt : ∀ {j}, r.getLsbD j = true → j < 63 := fun h => lt_of_getLsbD h
  rw [getLsbD_and, and_eq_true, ← hr]
  refine and_congr_right fun hri => ?_
  simp only [← hr, getLsbD_not, getLsbD_and, BitVec.getLsbD_shiftLeft, hlt hri, hri,
      decide_true]
  cases i with
  | zero =>
    have hmask : chain3HiMask.getLsbD 0 = false := by decide
    rw [hmask]
    simp
  | succ j => cases hm : chain3HiMask.getLsbD (j + 1) <;> simp [hm]

def imply (a b : T) : T where
  bits := implyBits a.bits b.bits
  valid := by
    refine valid_iff.2 ⟨fun i h => ?_, fun i hm h => ?_⟩
    · exact (getLsbD_implyBits.1 h).1.2
    refine getLsbD_implyBits.2 ⟨(getLsbD_implyBits.1 h).2 i rfl hm, fun j hj hm' => ?_⟩
    rw [hj, not_chain3_of_chain3 hm'] at hm
    cases hm

/-! ## §3 The lattice -/

instance : LE T := ⟨fun a b => leq a b = true⟩
instance : LT T := ⟨fun a b => a ≤ b ∧ ¬ b ≤ a⟩
instance : Max T := ⟨join⟩
instance : Min T := ⟨meet⟩

instance : DecidableLE T := fun a b => inferInstanceAs (Decidable (leq a b = true))

variable {a b : T}

/-- The order is bit inclusion. -/
theorem le_iff : a ≤ b ↔ ∀ i, a.bits.getLsbD i = true → b.bits.getLsbD i = true := by
  change (a.bits &&& b.bits == a.bits) = true ↔ _
  rw [beq_iff_eq]
  constructor
  · intro h i hi
    rw [← h, getLsbD_and, and_eq_true] at hi
    exact hi.2
  intro h
  refine eq_of_getLsbD_eq fun i _ => ?_
  rw [getLsbD_and]
  cases hi : a.bits.getLsbD i with
  | false => rfl
  | true => rw [h i hi, Bool.and_self]

theorem bits_injective : Function.Injective fun (a : T) (i : Nat) => a.bits.getLsbD i := by
  intro a b h
  exact T.ext (eq_of_getLsbD_eq fun i _ => congrFun h i)

instance : DistribLattice T := by
  have hle : ∀ {a b : T}, ((fun i : Nat => a.bits.getLsbD i) ≤ fun i => b.bits.getLsbD i) ↔ a ≤ b :=
    le_iff.symm
  refine bits_injective.distribLattice _ hle ?_ (fun a b => ?_) fun a b => ?_
  · intro a b
    rw [lt_iff_le_not_ge, hle, hle]
    rfl
  · exact funext fun i => getLsbD_or ..
  · exact funext fun i => getLsbD_and ..

instance : BoundedOrder T where
  bot := bot
  top := top
  bot_le := fun a => le_iff.2 fun i h => by simp [bot] at h
  le_top := fun a => le_iff.2 fun i h => a.le_topBits h

theorem coSub_le_iff (a b c : T) : coSub a b ≤ c ↔ a ≤ b ⊔ c := by
  have hsup : ∀ i, (b ⊔ c).bits.getLsbD i = true ↔ b.bits.getLsbD i = true ∨ c.bits.getLsbD i =
    true := by
    intro i
    rw [← or_eq_true, ← getLsbD_or]
    exact Iff.rfl
  rw [le_iff, le_iff]
  constructor
  · intro h i hi
    rw [hsup]
    by_cases hb : b.bits.getLsbD i = true
    · exact .inl hb
    · exact .inr (h i (getLsbD_coSubBits.2 (.inl ⟨hi, Bool.eq_false_iff.2 hb⟩)))
  intro h i hi
  have hc : ∀ j, a.bits.getLsbD j = true → b.bits.getLsbD j = false →
    c.bits.getLsbD j = true := by
    intro j ha hb
    have := (hsup j).1 (h j ha)
    simpa [hb] using this
  rcases getLsbD_coSubBits.1 hi with hi | ⟨hm, hi⟩
  · exact hc i hi.1 hi.2
  · exact c.chain3 hm (hc _ hi.1 hi.2)

instance : CoheytingAlgebra T := .ofSDiff coSub coSub_le_iff

theorem le_imply_iff (a b c : T) : c ≤ imply a b ↔ c ⊓ a ≤ b := by
  have hinf : ∀ i, (c ⊓ a).bits.getLsbD i = true ↔
      c.bits.getLsbD i = true ∧ a.bits.getLsbD i = true := by
    intro i
    rw [← and_eq_true, ← getLsbD_and]
    exact Iff.rfl
  rw [le_iff, le_iff]
  constructor
  · intro h i hi
    obtain ⟨hc, ha⟩ := (hinf i).1 hi
    have himp := (getLsbD_implyBits.1 (h i hc)).1.1
    rw [ha] at himp
    simpa using himp
  intro h i hi
  have hbit : ∀ j, c.bits.getLsbD j = true →
      (a.bits.getLsbD j = false ∨ b.bits.getLsbD j = true) ∧ topBits.getLsbD j = true := by
    intro j hj
    refine ⟨?_, c.le_topBits hj⟩
    cases ha : a.bits.getLsbD j with
    | false => exact .inl rfl
    | true => exact .inr (h j ((hinf j).2 ⟨hj, ha⟩))
  refine getLsbD_implyBits.2 ⟨hbit i hi, fun j hj hm => hbit j (c.chain3 hm ?_)⟩
  exact hj ▸ hi

instance : HImp T := ⟨imply⟩

/-! ## §4 Axes -/

/-- Decode one axis from its packed slot. -/
def getAxis (v : T) (i : Nat) : Bits :=
  let off := offsets.getD i 0
  match axisShapes.getD i .chain2 with
  | .chain2 => (v.bits >>> off) &&& 1
  | .chain3 =>
    let lo := (v.bits >>> off) &&& 1
    let hi := (v.bits >>> (off + 1)) &&& 1
    lo + hi
  | .diamond4 => (v.bits >>> off) &&& 0b11

/-- The order of the levels of an axis. -/
def levelLe : AxisShape → Bits → Bits → Prop
  | .chain2, l, l' | .chain3, l, l' => l ≤ l'
  | .diamond4, l, l' => l &&& l' = l

/-- `a` lies below `b` on the axis `i`. -/
def LeOn (i : Nat) (a b : T) : Prop :=
  levelLe (axisShapes.getD i .chain2) (getAxis a i) (getAxis b i)

theorem ushiftRight_and_one (x : Bits) (k : Nat) :
    (x >>> k) &&& 1 = if x.getLsbD k then 1 else 0 := by
  have hand := BitVec.and_twoPow (x >>> k) 0
  rwa [BitVec.getLsbD_ushiftRight] at hand

theorem ushiftRight_and_three (x : Bits) (k : Nat) : (x >>> k) &&& 0b11 =
      (if x.getLsbD k then 1 else 0) ||| (if x.getLsbD (k + 1) then 2 else 0) := by
  have hand := BitVec.and_twoPow (x >>> k) 1
  have hsplit : (0b11 : Bits) = 1 ||| BitVec.twoPow 63 1 := by decide
  rw [hsplit, BitVec.and_or_distrib_left, ushiftRight_and_one, hand]
  rfl

/-- The bits of an axis. -/
theorem getLsbD_axisMask (hi : i < numAxes) (j : Nat) :
    (axisMask i).getLsbD j = true ↔ j = offsets.getD i 0 ∨
      (axisShapes.getD i .chain2 ≠ .chain2 ∧ j = offsets.getD i 0 + 1) := by
  have hoff : ∀ i : Fin numAxes, offsets.getD i 0 + 1 < 63 := by decide
  have hlt := hoff ⟨i, hi⟩
  dsimp only at hlt
  have hone : ∀ k, k < 63 → ((1 : Bits) <<< k).getLsbD j = decide (k = j) := by
    intro k hk
    have htwo := BitVec.getLsbD_twoPow (w := 63) k j
    rw [BitVec.twoPow_eq] at htwo
    simpa [hk] using htwo
  rw [axisMask, getLsbD_or, loMask, hone _ (by omega), hiMask]
  cases axisShapes.getD i .chain2 with
  | chain2 => simp [eq_comm]
  | chain3 | diamond4 => simp only [hone _ hlt, eq_comm (a := j)]; simp

/-- The high bit of a three-level chain comes with its low bit. -/
theorem T.chain3_axis (a : T) (hi : i < numAxes) (hshape : axisShapes.getD i .chain2 = .chain3)
    (h : a.bits.getLsbD (offsets.getD i 0 + 1) = true) :
    a.bits.getLsbD (offsets.getD i 0) = true := by
  have hall : ∀ i : Fin numAxes, axisShapes.getD i .chain2 = .chain3 →
      chain3HiMask.getLsbD (offsets.getD i 0 + 1) = true := by
    decide
  exact a.chain3 (hall ⟨i, hi⟩ hshape) h

/-- On every axis the order of levels is bit inclusion. -/
theorem leOn_iff (hi : i < numAxes) :
    LeOn i a b ↔ ∀ j, (axisMask i).getLsbD j = true → a.bits.getLsbD j = true →
      b.bits.getLsbD j = true := by
  have ha := a.chain3_axis hi
  have hb := b.chain3_axis hi
  simp only [getLsbD_axisMask hi, LeOn, getAxis]
  generalize offsets.getD i 0 = k at *
  have hmask : ∀ P : Prop, (∀ j, j = k ∨ (P ∧ j = k + 1) → a.bits.getLsbD j = true →
      b.bits.getLsbD j = true) ↔ (a.bits.getLsbD k = true → b.bits.getLsbD k = true) ∧
          (P → a.bits.getLsbD (k + 1) = true → b.bits.getLsbD (k + 1) = true) := by
    intro P
    constructor
    · exact fun h => ⟨h k (.inl rfl), fun hP => h (k + 1) (.inr ⟨hP, rfl⟩)⟩
    rintro ⟨h0, h1⟩ j (rfl | ⟨hP, rfl⟩)
    · exact h0
    · exact h1 hP
  rw [hmask]
  clear hmask
  cases hshape : axisShapes.getD i .chain2 with
  | chain2 =>
    simp only [levelLe, ushiftRight_and_one, ne_eq, not_true_eq_false, false_imp_iff]
    generalize a.bits.getLsbD k = a0
    generalize b.bits.getLsbD k = b0
    revert a0 b0
    decide
  | chain3 =>
    replace ha := ha hshape
    replace hb := hb hshape
    simp only [levelLe, ushiftRight_and_one]
    generalize a.bits.getLsbD k = a0 at *
    generalize b.bits.getLsbD k = b0 at *
    generalize a.bits.getLsbD (k + 1) = a1 at *
    generalize b.bits.getLsbD (k + 1) = b1 at *
    revert a0 b0 a1 b1
    decide
  | diamond4 =>
    simp only [levelLe, ushiftRight_and_three]
    generalize a.bits.getLsbD k = a0
    generalize b.bits.getLsbD k = b0
    generalize a.bits.getLsbD (k + 1) = a1
    generalize b.bits.getLsbD (k + 1) = b1
    revert a0 b0 a1 b1
    decide

/-- The order is the order on all axes. -/
theorem le_iff_leOn : a ≤ b ↔ ∀ i < numAxes, LeOn i a b := by
  have hcover : ∀ j : Fin 63, topBits.getLsbD j = true →
      ∃ i : Fin numAxes, (axisMask i).getLsbD j = true := by
    decide
  rw [le_iff]
  constructor
  · intro h i hi; exact (leOn_iff hi).2 fun j _ => h j
  intro h j hj
  obtain ⟨i, hi⟩ := hcover ⟨j, lt_of_getLsbD hj⟩ (a.le_topBits hj)
  exact (leOn_iff i.isLt).1 (h i i.isLt) j hi hj

/-- The greatest value that is bottom on the axis `i`. -/
def others (i : Fin numAxes) : T where
  bits := topBits &&& ~~~axisMask i
  valid := by
    revert i
    decide

theorem getLsbD_others (i : Fin numAxes) (j : Nat) : (others i).bits.getLsbD j = true ↔
      topBits.getLsbD j = true ∧ ¬ (axisMask i).getLsbD j = true := by
  simp only [others, getLsbD_and, getLsbD_not, and_eq_true, Bool.not_eq_true',
    decide_eq_true_eq, Bool.not_eq_true]
  exact ⟨fun h => ⟨h.1, h.2.2⟩, fun h => ⟨h.1, lt_of_getLsbD h.1, h.2⟩⟩

/-- Lying below on one axis, as an inequality of the lattice. -/
theorem leOn_iff_le_sup (i : Fin numAxes) : LeOn i a b ↔ a ≤ b ⊔ others i := by
  have hsup : ∀ j, (b ⊔ others i).bits.getLsbD j = true ↔
      b.bits.getLsbD j = true ∨ (others i).bits.getLsbD j = true := by
    intro j
    rw [← or_eq_true, ← getLsbD_or]
    exact Iff.rfl
  rw [leOn_iff i.isLt, le_iff]
  constructor
  · intro h j hj
    rw [hsup, getLsbD_others]
    by_cases hm : (axisMask i).getLsbD j = true
    · exact .inl (h j hm hj)
    · exact .inr ⟨a.le_topBits hj, hm⟩
  intro h j hm hj
  rcases (hsup j).1 (h j hj) with hb | ho
  · exact hb
  · exact absurd hm ((getLsbD_others i j).1 ho).2

/-- The loop of `non_bot_axes`. -/
def nonBotAxesLoop (v : T) (i : Nat) (acc : List Nat) : List Nat :=
  if i < numAxes then
    nonBotAxesLoop v (i + 1) (if v.bits &&& axisMask i ≠ 0 then i :: acc else acc)
  else acc.reverse
termination_by numAxes - i

def nonBotAxes (v : T) : List Nat := nonBotAxesLoop v 0 []

theorem mem_nonBotAxesLoop (v : T) (k : Nat) : ∀ n i acc, numAxes - i = n →
    (k ∈ nonBotAxesLoop v i acc ↔ k ∈ acc ∨ (i ≤ k ∧ k < numAxes ∧ v.bits &&& axisMask k ≠ 0)) := by
  intro n
  induction n with
  | zero =>
    intro i acc hn
    rw [nonBotAxesLoop, if_neg (by omega), List.mem_reverse]
    constructor
    · exact .inl
    rintro (h | ⟨h, h', -⟩)
    · exact h
    · omega
  | succ n ih =>
    intro i acc hn
    rw [nonBotAxesLoop, if_pos (by omega), ih (i + 1) _ (by omega)]
    have hmem : (k ∈ if v.bits &&& axisMask i ≠ 0 then i :: acc else acc) ↔
        k ∈ acc ∨ (k = i ∧ v.bits &&& axisMask i ≠ 0) := by
      by_cases h : v.bits &&& axisMask i = 0
      · simp [h]
      · simp only [h, ne_eq, not_false_eq_true, if_true, and_true, List.mem_cons, or_comm]
    rw [hmem]
    constructor
    · rintro ((h | ⟨rfl, h⟩) | ⟨hi, h⟩)
      · exact .inl h
      · exact .inr ⟨le_rfl, by omega, h⟩
      · exact .inr ⟨by omega, h⟩
    rintro (h | ⟨hi, h, h'⟩)
    · exact .inl (.inl h)
    rcases Nat.eq_or_lt_of_le hi with rfl | hlt
    · exact .inl (.inr ⟨rfl, h'⟩)
    · exact .inr ⟨hlt, h, h'⟩

/-- `non_bot_axes` lists the axes on which the value is not bottom. -/
theorem mem_nonBotAxes (v : T) (i : Fin numAxes) : i.val ∈ nonBotAxes v ↔ ¬ v ≤ others i := by
  rw [nonBotAxes, mem_nonBotAxesLoop v i _ 0 [] rfl, le_iff]
  simp only [List.not_mem_nil, false_or, Nat.zero_le, true_and, i.isLt]
  rw [not_iff_not]
  constructor
  · intro h j hj
    refine (getLsbD_others i j).2 ⟨v.le_topBits hj, fun hm => ?_⟩
    have hbit : (v.bits &&& axisMask i).getLsbD j = true := by
      rw [getLsbD_and, hj, hm, Bool.and_self]
    rw [h] at hbit
    simp at hbit
  intro h
  refine eq_of_getLsbD_eq fun j _ => ?_
  rw [getLsbD_and]
  cases hj : v.bits.getLsbD j with
  | false => simp
  | true =>
    have hm := ((getLsbD_others i j).1 (h j hj)).2
    rw [Bool.eq_false_iff.2 hm]
    simp

theorem lt_of_mem_nonBotAxes {v : T} (h : i ∈ nonBotAxes v) : i < numAxes := by
  rw [nonBotAxes, mem_nonBotAxesLoop v i _ 0 [] rfl] at h
  rcases h with h | h
  · exact absurd h List.not_mem_nil
  · exact h.2.1

def axisNumberToAxisPacked (axisNumber : Nat) : Except String Axis :=
  match Axis.all[axisNumber]? with
  | none => .error "axis_number_to_axis_packed: invalid axis number"
  | some axis => .ok axis

end Oxcaml.Typing.AxisLattice
