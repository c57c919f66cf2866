/-
Oxcaml.Backend.CmmExtensionSound — what narrowing evaluates to.

The low bits of a word are its truncation; §1 says what shifts, masks and
bitwise operations do to them. `low_bits` keeps the low bits (§3, §4), so
`zero_extend` and `sign_extend` may extend what it returns (§5).

A bitwise operation takes its operands' `let`s and sequences out to the left
and evaluates those of the right operand first. This is sound when the operands
are independent and do not leave by an exit: `OperandsIndependent` (§2).
-/
import Mathlib
import Oxcaml.Backend.CmmExtension

set_option linter.all false

namespace Oxcaml.Backend

open BitVec (getLsbD_setWidth getLsbD_shiftLeft ofNat)

open Expression CmmHelpers CmmPeepholeEngine

variable {O X σ : Type}

/-! ## §1 Low bits of words -/

variable {n left right : OcamlInt}

theorem toNat_of_sle {m : Nat} (hm : m < 64) (h0 : (0 : OcamlInt).sle n = true)
    (h : n.sle (ofNat 63 m) = true) : n.toNat ≤ m ∧ isDefinedShift n = true := by
  rw [BitVec.sle_iff_toInt_le] at h0 h
  have hnat := BitVec.toInt_eq_toNat_cond n
  have hm' : (ofNat 63 m).toInt = m := by
    rw [BitVec.toInt_eq_toNat_cond, BitVec.toNat_ofNat, Nat.mod_eq_of_lt (by omega)]
    exact if_pos (by omega)
  have hz : (0 : OcamlInt).toInt = 0 := by decide
  have hle : n.toNat ≤ m := by split at hnat <;> omega
  exact ⟨hle, isDefinedShift_of_toNat (by omega)⟩

variable {bits k : Nat}

theorem toNat_lowMask (h : bits < 64) : (lowMask bits).toNat = 2 ^ bits - 1 := by
  have hpow : 2 ^ bits < 2 ^ 64 := Nat.pow_lt_pow_right (by omega) h
  have hpos := Nat.two_pow_pos bits
  have hshift : ((1 : Nativeint) <<< bits).toNat = 2 ^ bits := by
    rw [BitVec.toNat_shiftLeft, show (1 : Nativeint).toNat = 1 from rfl, Nat.shiftLeft_eq,
      Nat.one_mul, Nat.mod_eq_of_lt hpow]
  have hle : (1 : Nativeint).toNat ≤ ((1 : Nativeint) <<< bits).toNat := by
    rw [hshift]; exact hpos
  rw [lowMask, BitVec.toNat_sub_of_le hle, hshift]
  rfl

theorem getLsbD_lowMask (h : bits < 64) (i : Nat) :
    (lowMask bits).getLsbD i = decide (i < bits) := by
  rw [BitVec.getLsbD, toNat_lowMask h, Nat.testBit_two_pow_sub_one]

def AgreeOnLowBits (bits : Nat) (a b : Nativeint) : Prop := a.setWidth bits = b.setWidth bits

theorem agreeOnLowBits_iff {a b : Nativeint} :
    AgreeOnLowBits bits a b ↔ ∀ i < bits, a.getLsbD i = b.getLsbD i := by
  rw [AgreeOnLowBits, BitVec.eq_of_getLsbD_eq_iff]
  simp +contextual

variable {bits : Nat} {a b : Nativeint}

/-- A shift to the left and one back to the right, as one shift. -/
theorem agree_shiftedBack {l r : Nat} (a : Nativeint) (hb : bits < 64) (hr : r ≤ 64 - bits) :
    AgreeOnLowBits bits ((a <<< l) >>> r) (if r ≤ l then a <<< (l - r) else a.sshiftRight (r - l)) ∧
    AgreeOnLowBits bits ((a <<< l).sshiftRight r)
      (if r ≤ l then a <<< (l - r) else a.sshiftRight (r - l)) := by
  rw [agreeOnLowBits_iff, agreeOnLowBits_iff]
  have hright : ∀ i < bits, (if r ≤ l then a <<< (l - r) else a.sshiftRight (r - l)).getLsbD i =
      (decide (l ≤ r + i) && a.getLsbD (r + i - l)) := by
    intro i hi
    split
    · rw [getLsbD_shiftLeft, show i - (l - r) = r + i - l by omega]
      simp only [show i < 64 by omega, decide_true]
      congr 1
      rw [← decide_not]
      exact decide_eq_decide.2 (by omega)
    rw [BitVec.getLsbD_sshiftRight, show r - l + i = r + i - l by omega]
    simp [show ¬ 64 ≤ i by omega, show r + i - l < 64 by omega, show l ≤ r + i by omega]
  have hleft : ∀ i < bits, (a <<< l).getLsbD (r + i) =
      (decide (l ≤ r + i) && a.getLsbD (r + i - l)) := by
    intro i hi
    rw [getLsbD_shiftLeft]
    simp only [show r + i < 64 by omega, decide_true]
    congr 1
    rw [← decide_not]
    exact decide_eq_decide.2 (by omega)
  refine ⟨fun i hi => ?_, fun i hi => ?_⟩
  · rw [BitVec.getLsbD_ushiftRight, hleft i hi, hright i hi]
  rw [BitVec.getLsbD_sshiftRight, hright i hi, ← hleft i hi]
  simp [show ¬ 64 ≤ i by omega, show r + i < 64 by omega]

variable {mask : Nativeint}

theorem agree_mask (hb : bits < 64) (h : doesMaskKeepLowBits bits mask = true) (a : Nativeint) :
    AgreeOnLowBits bits (a &&& mask) a := by
  rw [agreeOnLowBits_iff]
  intro i hi
  have hbit := congrArg (BitVec.getLsbD · i) (eq_of_beq h)
  simp only [BitVec.getLsbD_and, getLsbD_lowMask hb, hi, decide_true, Bool.and_true] at hbit
  rw [BitVec.getLsbD_and, ← hbit, Bool.and_true]

/-- The low bits of a word, and zeros. -/
def zeroExtendWord (bits : Nat) (a : Nativeint) : Nativeint := (a.setWidth bits).setWidth 64

/-- The low bits of a word, and copies of the highest of them. -/
def signExtendWord (bits : Nat) (a : Nativeint) : Nativeint := (a.setWidth bits).signExtend 64

theorem and_lowMask (hb : bits < 64) (a : Nativeint) :
    a &&& lowMask bits = zeroExtendWord bits a := by
  apply BitVec.eq_of_getLsbD_eq
  intro i hi
  rw [BitVec.getLsbD_and, getLsbD_lowMask hb, zeroExtendWord, getLsbD_setWidth,
    getLsbD_setWidth]
  simp [hi, Bool.and_comm]

theorem getLsbD_signExtendWord (h0 : 0 < bits) (a : Nativeint) {i : Nat} (hi : i < 64) :
    (signExtendWord bits a).getLsbD i = a.getLsbD (if i < bits then i else bits - 1) := by
  rw [signExtendWord, BitVec.getLsbD_signExtend, BitVec.msb_eq_getLsbD_last]
  simp only [hi, getLsbD_setWidth]
  split
  · simp [‹i < bits›]
  · simp [show bits - 1 < bits by omega]

theorem signExtendWord_of_agree (h : AgreeOnLowBits bits a b) :
    signExtendWord bits a = signExtendWord bits b := congrArg (BitVec.signExtend 64) h

theorem zeroExtendWord_of_agree (h : AgreeOnLowBits bits a b) :
    zeroExtendWord bits a = zeroExtendWord bits b := congrArg (BitVec.setWidth 64) h

/-- Sign extension by a shift to the left and one back. -/
theorem sshiftRight_shiftLeft_eq (h0 : 0 < bits) (hb : bits < 64) (a : Nativeint) :
    (a <<< (64 - bits)).sshiftRight (64 - bits) = signExtendWord bits a := by
  apply BitVec.eq_of_getLsbD_eq
  intro i hi
  rw [getLsbD_signExtendWord h0 a hi, BitVec.getLsbD_sshiftRight, BitVec.msb_eq_getLsbD_last,
    getLsbD_shiftLeft, getLsbD_shiftLeft]
  simp only [show ¬ 64 ≤ i by omega, Bool.not_false]
  split
  · simp only [show i < bits by omega, if_true, ‹64 - bits + i < 64›, decide_true, Bool.true_and,
      show ¬ 64 - bits + i < 64 - bits by omega, decide_false, Bool.not_false]
    congr 1
    omega
  simp only [show ¬ i < bits by omega, if_false, show 64 - 1 < 64 by omega, decide_true,
    Bool.true_and, show ¬ 64 - 1 < 64 - bits by omega, decide_false, Bool.not_false]
  congr 1
  omega

/-- A shift that leaves fewer than `bits` bits, or as many with their sign. -/
theorem signExtendWord_sshiftRight {n : Nat} (h0 : 0 < bits) (hn : 64 - bits ≤ n) (a : Nativeint) :
    signExtendWord bits (a.sshiftRight n) = a.sshiftRight n := by
  apply BitVec.eq_of_getLsbD_eq
  intro i hi
  rw [getLsbD_signExtendWord h0 _ hi]
  split
  · rfl
  rw [BitVec.getLsbD_sshiftRight, BitVec.getLsbD_sshiftRight]
  simp only [show ¬ 64 ≤ i by omega, show ¬ 64 ≤ bits - 1 by omega, decide_false, Bool.not_false,
    Bool.true_and, show ¬ n + i < 64 by omega]
  split
  · congr 1
    omega
  · rfl

theorem signExtendWord_ushiftRight {n : Nat} (h0 : 0 < bits) (hn : 64 - bits < n) (a : Nativeint) :
    signExtendWord bits (a >>> n) = a >>> n := by
  apply BitVec.eq_of_getLsbD_eq
  intro i hi
  rw [getLsbD_signExtendWord h0 _ hi]
  split
  · rfl
  · rw [BitVec.getLsbD_ushiftRight, BitVec.getLsbD_ushiftRight,
      BitVec.getLsbD_of_ge _ _ (by omega), BitVec.getLsbD_of_ge _ _ (by omega)]

/-- A shift that leaves at least `bits` bits. -/
theorem signExtendWord_shift {n : Nat} (h0 : 0 < bits) (hb : bits < 64) (hn : n ≤ 64 - bits)
    (a : Nativeint) :
    (a <<< (64 - bits - n)).sshiftRight (64 - bits) = signExtendWord bits (a >>> n) ∧
    (a <<< (64 - bits - n)).sshiftRight (64 - bits) = signExtendWord bits (a.sshiftRight n) := by
  have hleft : ∀ i < 64, ((a <<< (64 - bits - n)).sshiftRight (64 - bits)).getLsbD i =
      a.getLsbD (n + if i < bits then i else bits - 1) := by
    intro i hi
    rw [BitVec.getLsbD_sshiftRight, BitVec.msb_eq_getLsbD_last, getLsbD_shiftLeft,
      getLsbD_shiftLeft]
    simp only [show ¬ 64 ≤ i by omega, Bool.not_false]
    split
    · simp only [show i < bits by omega, if_true, ‹64 - bits + i < 64›, decide_true,
        Bool.true_and, show ¬ 64 - bits + i < 64 - bits - n by omega, decide_false, Bool.not_false]
      congr 1
      omega
    simp only [show ¬ i < bits by omega, if_false, show 64 - 1 < 64 by omega, decide_true,
      Bool.true_and, show ¬ 64 - 1 < 64 - bits - n by omega, decide_false, Bool.not_false]
    congr 1
    omega
  refine ⟨BitVec.eq_of_getLsbD_eq fun i hi => ?_, BitVec.eq_of_getLsbD_eq fun i hi => ?_⟩
  · rw [hleft i hi, getLsbD_signExtendWord h0 _ hi, BitVec.getLsbD_ushiftRight]
  have hlt : n + (if i < bits then i else bits - 1) < 64 := by split <;> lia
  have hnle : ¬ 64 ≤ (if i < bits then i else bits - 1) := by omega
  rw [hleft i hi, getLsbD_signExtendWord h0 _ hi, BitVec.getLsbD_sshiftRight, if_pos hlt,
    decide_eq_false hnle, Bool.not_false, Bool.true_and]

theorem signExtendWord_and (bits : Nat) (a b : Nativeint) :
    signExtendWord bits a &&& signExtendWord bits b = signExtendWord bits (a &&& b) := by
  rw [signExtendWord, signExtendWord, signExtendWord, BitVec.setWidth_and, BitVec.signExtend_and]

theorem signExtendWord_or (bits : Nat) (a b : Nativeint) :
    signExtendWord bits a ||| signExtendWord bits b = signExtendWord bits (a ||| b) := by
  rw [signExtendWord, signExtendWord, signExtendWord, BitVec.setWidth_or, BitVec.signExtend_or]

theorem signExtendWord_xor (bits : Nat) (a b : Nativeint) :
    signExtendWord bits a ^^^ signExtendWord bits b = signExtendWord bits (a ^^^ b) := by
  rw [signExtendWord, signExtendWord, signExtendWord, BitVec.setWidth_xor, BitVec.signExtend_xor]

/-! ## §2 Operands -/

/-- The operations that put the tails of their operands together. -/
def isBitwise : Operation O → Bool
  | .cand => true
  | .cor => true
  | .cxor => true
  | _ => false

variable {op : Operation O}

theorem isWord_of_isBitwise (h : isBitwise op = true) : op.isWord = true := by
  cases op <;> first | rfl | cases h

namespace Machine

variable (M : Machine O X σ)

/-- Operands that may be put together: one is a constant, or they are
independent and do not exit. -/
def Combinable (a b : Expression O) : Prop :=
  (getConst (core a)).isSome ∨ (getConst (core b)).isSome ∨
    (M.Independent a b ∧ M.Steady a ∧ M.Steady b)

/-- The operands of the bitwise operations that narrowing can come to may be
put together. -/
def OperandsIndependent : Expression O → Prop :=
  Throughout Operation.isWord fun op args =>
    isBitwise op = true → ∀ a b, args = [a, b] → M.Combinable a b

variable {M}

theorem hereditaryTails_operandsIndependent : HereditaryTails M.OperandsIndependent := by
  refine hereditaryTails_throughout (fun _ h => h) ?_ ?_ ?_ fun _ _ _ _ => rfl
  · rintro op a k - hk - _ _ heq
    cases heq
    exact .inr (.inl hk)
  · rintro op a k - hk - _ _ heq
    cases heq
    exact .inl hk
  · rintro ch ch' m at' args - hop; cases hop

theorem operandsIndependent_cop {a b : Expression O}
    (hop : isBitwise op = true) : M.OperandsIndependent (cop op [a, b]) ↔
      M.Combinable a b ∧ M.OperandsIndependent a ∧ M.OperandsIndependent b := by
  rw [OperandsIndependent, throughout_cop2 (isWord_of_isBitwise hop)]
  refine and_congr_left' ⟨fun h => h hop a b rfl, ?_⟩
  rintro h - _ _ heq
  cases heq
  exact h

theorem independent_const {k : Expression O} (hk : (getConst (core k)).isSome)
    (c2 : Expression O) : M.Independent k c2 := by
  obtain ⟨hvars, hbinders, hconfined⟩ := const_trivial hk
  refine ⟨?_, ?_, .inr (.inl (hconfined _))⟩
  · rw [hbinders]; exact nofun
  · rw [hvars]; exact fun _ _ => nofun

theorem Combinable.independent {a b : Expression O} (h : M.Combinable a b) : M.Independent a b := by
  rcases h with h | h | h
  · exact independent_const h b
  · exact (independent_const h a).symm
  · exact h.1

end Machine

/-! ## §3 Simplifications -/

/-- `e` does what `c` does, up to `R`, where operands may be put together; and
it is built from the same parts. -/
structure Simplifies (R : Nativeint → Nativeint → Prop) (c e : Expression O) : Prop where
  structural : ∀ {Φ : Expression O → Prop}, Structural Φ → Φ c → Φ e
  relates : ∀ {X σ : Type} (M : Machine O X σ), M.OperandsIndependent c → M.Relates R c e

/-- A simplification whose operands may be put together as well. -/
structure Narrows (R : Nativeint → Nativeint → Prop) (c e : Expression O) : Prop
    extends Simplifies R c e where
  operands : ∀ {X σ : Type} (M : Machine O X σ), M.OperandsIndependent c → M.OperandsIndependent e

section

variable {R S : Nativeint → Nativeint → Prop} {n : Nat} {a a' b b' c d e : Expression O}

theorem Becomes.narrows (h : Becomes R n c e) : Narrows R c e where
  structural hΦ hc := h.hereditary hΦ.toHereditary hc
  operands _ hc := h.hereditary Machine.hereditaryTails_operandsIndependent.toHereditary hc
  relates M _ := h.relates M

theorem Simplifies.mono (h : Simplifies R c e) (hRS : ∀ a b, R a b → S a b) : Simplifies S c e :=
  ⟨h.structural, fun M hc => (h.relates M hc).mono hRS⟩

theorem Narrows.mono (h : Narrows R c e) (hRS : ∀ a b, R a b → S a b) : Narrows S c e :=
  ⟨h.toSimplifies.mono hRS, h.operands⟩

theorem Narrows.before (h : Narrows R c d) (h' : Simplifies S d e) :
    Simplifies (fun a b => ∃ x, R a x ∧ S x b) c e :=
  ⟨fun hΦ hc => h'.structural hΦ (h.structural hΦ hc),
    fun M hc => (h.relates M hc).trans (h'.relates M (h.operands M hc))⟩

theorem Narrows.trans (h : Narrows R c d) (h' : Narrows S d e) :
    Narrows (fun a b => ∃ x, R a x ∧ S x b) c e :=
  ⟨h.before h'.toSimplifies, fun M hc => h'.operands M (h.operands M hc)⟩

section

variable {P : Expression O → Expression O → Prop}

/-- Simplified tails. -/
theorem Retailed.simplifies (h : Retailed P c e) (hP : ∀ c t, P c t → Simplifies R c t) :
    Simplifies R c e where
  structural hΦ hc := h.hereditary hΦ.toHereditaryTails
    (fun c t hct hc => (hP c t hct).structural hΦ hc) hc
  relates M hc := Machine.relates_of_retailed (fun c t hct => (hP c t hct.1).relates M hct.2)
    (h.inherit Machine.hereditaryTails_operandsIndependent hc)

theorem Retailed.narrows (h : Retailed P c e) (hP : ∀ c t, P c t → Narrows R c t) :
    Narrows R c e where
  toSimplifies := h.simplifies fun c t hct => (hP c t hct).toSimplifies
  operands M hc := h.hereditary Machine.hereditaryTails_operandsIndependent
    (fun c t hct hc => (hP c t hct).operands M hc) hc

end

section

variable {op : Operation O} {f : Nativeint → Nativeint → Nativeint}
  {const : Expression O → Nativeint → Except (Fatal O) (Expression O)}

/-- What two operands that are put together have in common, the result has. -/
theorem bitwiseInt_hereditary {Φ : Expression O → Prop} (hΦ : Hereditary Φ)
    (hconst : ∀ e n r, const e n = .ok r → Becomes (fun a b => b = f a n) 2 e r)
    (h : bitwiseInt op f const a b = .ok e) (ha : Φ a) (hb : Φ b)
    (hop : getConst a.tail = none → getConst b.tail = none → Φ (cop op [a.tail, b.tail])) :
    Φ e := by
  obtain ⟨t, ht, rfl⟩ := mapTail2_ok h
  refine (hΦ.tail hb).2 ((hΦ.tail ha).2 ?_)
  split at ht
  · cases ht; exact hΦ.const (by rw [getConst_natintConstUntagged]; rfl)
  · exact (hconst _ _ _ ht).hereditary hΦ (hΦ.tail ha).1
  · exact (hconst _ _ _ ht).hereditary hΦ (hΦ.tail hb).1
  · cases ht; exact hop ‹_› ‹_›

/-- Two simplified operands that are put together. -/
theorem Simplifies.bitwise (hop : isBitwise op = true)
    (hword : ∀ {X σ : Type} (M : Machine O X σ) a b, M.word2 op a b = some (f a b))
    (hcomm : ∀ a b, f a b = f b a)
    (hconst : ∀ e n r, const e n = .ok r → Becomes (fun a b => b = f a n) 2 e r)
    (hR : ∀ {x x' y y'}, R x x' → R y y' → R (f x y) (f x' y'))
    (ha : Simplifies R a a') (hb : Simplifies R b b')
    (he : bitwiseInt op f const a' b' = .ok e) : Simplifies R (cop op [a, b]) e := by
  have hisWord := isWord_of_isBitwise hop
  refine ⟨fun {Φ} hΦ hc => ?_, fun M hc => ?_⟩
  · obtain ⟨hca, hcb, hset⟩ := hΦ.cop2 hisWord hc
    have hta := hΦ.tail (ha.structural hΦ hca)
    have htb := hΦ.tail (hb.structural hΦ hcb)
    exact bitwiseInt_hereditary hΦ.toHereditary hconst he (ha.structural hΦ hca)
      (hb.structural hΦ hcb) fun _ _ => hset hta.1 htb.1
  obtain ⟨hcomb, hca, hcb⟩ := (Machine.operandsIndependent_cop hop).1 hc
  have hind : M.Independent a' b' := by
    have h := ha.structural (Machine.structural_independent b) hcomb.independent
    exact (hb.structural (Machine.structural_independent a') h.symm).symm
  have hcomp := Machine.bitwiseInt_computes hisWord (hword M) hcomm (hconst _ _ _) he hind
  intro env s o s' hplain hn
  rcases (Machine.evaluates_cop2 hisWord).1 hplain with ⟨x, y, v, s₁, h2, h1, hv, rfl⟩ |
    ⟨l, args, rfl, h2 | ⟨x, s₁, h2, h1⟩⟩
  · obtain ⟨y', h2', hy⟩ := (hb.relates M hcb).value h2
    obtain ⟨x', h1', hx⟩ := (ha.relates M hca).value h1
    rw [hword] at hv
    cases hv
    exact ⟨_, hcomp.values h2' h1' rfl, .word (hR hx hy)⟩
  · have h2' := (hb.relates M hcb).exit h2
    rcases hcomb with hk | hk | ⟨-, -, hsteady⟩
    · -- The left operand is a constant, and does not get stuck.
      obtain ⟨w, hw⟩ := Option.isSome_iff_exists.1 hk
      obtain ⟨x', h1', -⟩ :=
        (ha.relates M hca).value ((Machine.evaluates_const hw).2 ⟨rfl, rfl⟩)
      exact ⟨_, hcomp.right h2' h1', .exit _ _⟩
    · obtain ⟨w, hw⟩ := Option.isSome_iff_exists.1 hk
      obtain ⟨hx, -⟩ := (Machine.evaluates_const hw).1 h2
      cases hx
    · obtain ⟨v, hv⟩ := hsteady.evaluates h2; cases hv
  have h1' := (ha.relates M hca).exit h1
  rcases hcomb with hk | hk | ⟨-, hsteady, -⟩
  · obtain ⟨w, hw⟩ := Option.isSome_iff_exists.1 hk
    obtain ⟨hx, -⟩ := (Machine.evaluates_const hw).1 h1
    cases hx
  · obtain ⟨w, hw⟩ := Option.isSome_iff_exists.1 hk
    obtain ⟨hx, rfl⟩ := (Machine.evaluates_const hw).1 h2
    cases hx
    obtain ⟨y', h2', -⟩ := (hb.relates M hcb).value h2
    exact ⟨_, hcomp.left h2' h1', .exit _ _⟩
  · obtain ⟨v, hv⟩ := hsteady.evaluates h1; cases hv

/-- The result may be simplified again when constants stay constants. -/
theorem Narrows.bitwise (hop : isBitwise op = true)
    (hword : ∀ {X σ : Type} (M : Machine O X σ) a b, M.word2 op a b = some (f a b))
    (hcomm : ∀ a b, f a b = f b a)
    (hconst : ∀ e n r, const e n = .ok r → Becomes (fun a b => b = f a n) 2 e r)
    (hR : ∀ {x x' y y'}, R x x' → R y y' → R (f x y) (f x' y'))
    (ha : Narrows R a a') (hb : Narrows R b b')
    (hka : (getConst (core a)).isSome → a' = a) (hkb : (getConst (core b)).isSome → b' = b)
    (he : bitwiseInt op f const a' b' = .ok e) : Narrows R (cop op [a, b]) e := by
  refine ⟨ha.toSimplifies.bitwise hop hword hcomm hconst hR hb.toSimplifies he, fun M hc => ?_⟩
  obtain ⟨hcomb, hca, hcb⟩ := (Machine.operandsIndependent_cop hop).1 hc
  have hΦ : HereditaryTails M.OperandsIndependent := Machine.hereditaryTails_operandsIndependent
  refine bitwiseInt_hereditary hΦ.toHereditary hconst he (ha.operands M hca) (hb.operands M hcb)
    fun hna hnb => (Machine.operandsIndependent_cop hop).2
      ⟨?_, (hΦ.tail (ha.operands M hca)).1, (hΦ.tail (hb.operands M hcb)).1⟩
  rcases hcomb with hk | hk | ⟨hind, hsa, hsb⟩
  · rw [hka hk] at hna; exact absurd hna (getConst_tail_of_core hk)
  · rw [hkb hk] at hnb; exact absurd hnb (getConst_tail_of_core hk)
  have h := ha.structural (Machine.structural_independent b) hind
  have hind' := (hb.structural (Machine.structural_independent a') h.symm).symm
  exact .inr (.inr ⟨hind'.tails, (Machine.structural_steady.tail (ha.structural
    Machine.structural_steady hsa)).1, (Machine.structural_steady.tail (hb.structural
    Machine.structural_steady hsb)).1⟩)

end

end

/-! ## §4 Low bits -/

namespace CmmHelpers

variable {bits : Nat} {c x e y r : Expression O}

theorem LowBitsStep.const [DecidableEq O] {t : Expression O} (h : LowBitsStep bits c t)
    (hk : (getConst (core c)).isSome) : t = c := by
  have hcop : ∀ op args, c ≠ cop op args := by
    rintro op args rfl
    cases hk
  cases h with
  | left hs _ _
  | right hs _ _ _ => obtain ⟨op, hc, -⟩ := shiftedBack_eq_some hs; exact absurd hc (hcop _ _)
  | mask hm _ _ =>
    unfold getConstBitmask at hm
    split at hm
    · exact absurd rfl (hcop _ _)
    · exact absurd rfl (hcop _ _)
    · exact absurd rfl (hcop _ _)
    · exact absurd rfl (hcop _ _)
    · cases hm
  | and hc _ _ _ | or hc _ _ _ | xor hc _ _ _ => exact absurd hc (hcop _ _)
  | same => rfl

theorem lowBits_const [DecidableEq O] (h : lowBits bits x = .ok e)
    (hk : (getConst (core x)).isSome) : e = x := by
  rcases lowBits_ok h with ⟨-, rfl⟩ | ⟨-, h⟩
  · rfl
  · exact h.const (fun c t hct => hct.2.const) hk

/-- A constant mask on either side. -/
theorem getConstBitmask_becomes
    (h : getConstBitmask x = some (y, mask)) : Becomes (fun a b => a = b &&& mask) 0 x y := by
  have hy : ∀ {R : Nativeint → Nativeint → Prop}, (∀ a, R a a) → Becomes R 0 y y := fun hR =>
    (becomes_refl y).value_congr fun a b hb => hb ▸ hR a
  unfold getConstBitmask at h
  split at h
  · cases h; exact .of_cop rfl rfl (hy fun _ => rfl) (Nat.zero_le _)
  · cases h; exact .of_const_cop rfl rfl (hy fun _ => BitVec.and_comm _ _) (Nat.zero_le _)
  · cases h; exact .of_cop rfl rfl (hy fun _ => rfl) (Nat.zero_le _)
  · cases h; exact .of_const_cop rfl rfl (hy fun _ => BitVec.and_comm _ _) (Nat.zero_le _)
  · cases h

variable {g : Nativeint → Nativeint}

/-- The two shifts that a tail starts with, in terms of one. -/
theorem shiftedBack_becomes (hop : op = .casr ∨ op = .clsr) (hleft : isDefinedShift left = true)
    (hright : isDefinedShift right = true)
    (hg : ∀ a : Nativeint, AgreeOnLowBits bits ((a <<< left.toNat) >>> right.toNat) (g a) ∧
      AgreeOnLowBits bits ((a <<< left.toNat).sshiftRight right.toNat) (g a))
    (h : Becomes (fun a b => b = g a) 2 y e) :
    Becomes (AgreeOnLowBits bits) 0
      (cop op [cop .clsl [y, cconstInt left], cconstInt right]) e := by
  rcases hop with rfl | rfl
  · refine .of_cop (opWithConst_shift hright).2.2 rfl
      (.of_cop (opWithConst_shift hleft).1 rfl (h.value_congr fun a b hb => ?_) (Nat.le_refl 2))
      (Nat.zero_le _)
    rw [hb]
    exact (hg a).2
  refine .of_cop (opWithConst_shift hright).2.1 rfl
    (.of_cop (opWithConst_shift hleft).1 rfl (h.value_congr fun a b hb => ?_) (Nat.le_refl 2))
    (Nat.zero_le _)
  rw [hb]
  exact (hg a).1

variable [DecidableEq O]

theorem shiftedBack_left (h0 : 0 < bits) (hb : bits < 64)
    (h : shiftedBack (ofNat 63 (archBits - bits)) x = some (y, left, right))
    (hle : right.sle left = true) :
    Becomes (AgreeOnLowBits bits) 0 x (lslConst0 y (left - right)) := by
  obtain ⟨op, rfl, hop, hleft0, hright0, hleft, hright⟩ := shiftedBack_eq_some h
  obtain ⟨hl, hdl⟩ := toNat_of_sle (by rw [archBits]; omega) hleft0 hleft
  obtain ⟨hr, hdr⟩ := toNat_of_sle (by rw [archBits]; omega) hright0 hright
  have hle : right.toNat ≤ left.toNat := by
    rw [BitVec.sle_iff_toInt_le, (toNat_of_isDefinedShift hdl).2.2,
      (toNat_of_isDefinedShift hdr).2.2] at hle
    omega
  obtain ⟨hsub, hdsub⟩ := toNat_sub_of_isDefinedShift hdl hle
  refine shiftedBack_becomes hop hdl hdr (fun a => ?_) (becomes_cop (opWithConst_shift hdsub).1 rfl)
  have hagree := agree_shiftedBack (l := left.toNat) a hb hr
  rw [if_pos hle, ← hsub] at hagree
  exact hagree

theorem shiftedBack_right (h0 : 0 < bits) (hb : bits < 64) {z : Expression O}
    (h : shiftedBack (ofNat 63 (archBits - bits)) x = some (y, left, right))
    (hlt : right.sle left = false) (hz : asrConst y (right - left) = .ok z) :
    Becomes (AgreeOnLowBits bits) 0 x z := by
  obtain ⟨op, rfl, hop, hleft0, hright0, hleft, hright⟩ := shiftedBack_eq_some h
  obtain ⟨hl, hdl⟩ := toNat_of_sle (by rw [archBits]; omega) hleft0 hleft
  obtain ⟨hr, hdr⟩ := toNat_of_sle (by rw [archBits]; omega) hright0 hright
  have hlt : left.toNat < right.toNat := by
    rw [Bool.eq_false_iff, ne_eq, BitVec.sle_iff_toInt_le, (toNat_of_isDefinedShift hdl).2.2,
      (toNat_of_isDefinedShift hdr).2.2] at hlt
    omega
  obtain ⟨hsub, hdsub⟩ := toNat_sub_of_isDefinedShift hdr (Nat.le_of_lt hlt)
  refine shiftedBack_becomes hop hdl hdr (fun a => ?_) (asrInt_becomes hdsub hz)
  have hagree := agree_shiftedBack (l := left.toNat) a hb hr
  rw [if_neg (by omega), ← hsub] at hagree
  exact hagree

/-- `low_bits` keeps the low bits. -/
theorem lowBits_narrows (h0 : 0 < bits) (h : lowBits bits x = .ok e) :
    Narrows (AgreeOnLowBits bits) x e := by
  induction hw : x.weight using Nat.strongRecOn generalizing x e with | ind w ih =>
subst hw
rcases lowBits_ok h with ⟨-, rfl⟩ | ⟨hb, h⟩
· exact (becomes_refl e).narrows.mono fun a b hab => by rw [hab]; exact rfl
have hb : bits < 64 := Nat.lt_of_not_le hb
apply h.narrows
intro c t ⟨hle, ht⟩
-- What the tail becomes first, and what that is narrowed to.
have hthen : ∀ {y z : Expression O} {n : Nat}, Becomes (AgreeOnLowBits bits) n c y →
    y.weight < x.weight → lowBits bits y = .ok z → Narrows (AgreeOnLowBits bits) c z := by
  intro y z n hy hlt hz
  refine (hy.narrows.trans (ih _ hlt hz rfl)).mono ?_
  rintro a b ⟨m, ham, hmb⟩
  exact ham.trans hmb
cases ht with
| left hs hle' ht =>
  have hy := shiftedBack_weight hs
  exact hthen (shiftedBack_left h0 hb hs hle')
    (by simp only [lslConst0, weight, weightList]; omega) ht
| right hs hlt hr ht =>
  have hy := shiftedBack_weight hs
  have hz := weight_asrConst_le hr
  exact hthen (shiftedBack_right h0 hb hs hlt hr) (by omega) ht
| mask hm hkeep ht =>
  have hy := getConstBitmask_weight hm
  refine hthen ((getConstBitmask_becomes hm).value_congr fun a b hab => ?_) (by omega) ht
  rw [hab]
  exact agree_mask hb hkeep b
| and hc h1 h2 ht =>
  subst hc
  simp only [weight, weightList] at hle
  refine Narrows.bitwise rfl (fun _ _ _ => rfl) BitVec.and_comm
    (fun _ _ _ => andConst_becomes) (fun hx hy => ?_) (ih _ (by omega) h1 rfl)
    (ih _ (by omega) h2 rfl) (lowBits_const h1) (lowBits_const h2) ht
  rw [AgreeOnLowBits, BitVec.setWidth_and, BitVec.setWidth_and, hx, hy]
| or hc h1 h2 ht =>
  subst hc
  simp only [weight, weightList] at hle
  refine Narrows.bitwise rfl (fun _ _ _ => rfl) BitVec.or_comm
    (fun _ _ _ => orConst_becomes) (fun hx hy => ?_) (ih _ (by omega) h1 rfl)
    (ih _ (by omega) h2 rfl) (lowBits_const h1) (lowBits_const h2) ht
  rw [AgreeOnLowBits, BitVec.setWidth_or, BitVec.setWidth_or, hx, hy]
| xor hc h1 h2 ht =>
  subst hc
  simp only [weight, weightList] at hle
  refine Narrows.bitwise rfl (fun _ _ _ => rfl) BitVec.xor_comm
    (fun _ _ _ => xorConst_becomes) (fun hx hy => ?_) (ih _ (by omega) h1 rfl)
    (ih _ (by omega) h2 rfl) (lowBits_const h1) (lowBits_const h2) ht
  rw [AgreeOnLowBits, BitVec.setWidth_xor, BitVec.setWidth_xor, hx, hy]
| same => exact (becomes_refl c).narrows.mono fun a b hab => by rw [hab]; exact rfl

/-! ## §5 Extensions -/

omit [DecidableEq O] in
/-- A load of the same bits, with another extension. -/
theorem becomes_narrowLoad {f f' : BitVec k → Nativeint} {chunk chunk' : MemoryChunk}
    {mutability isAtomic : Bool} (hf : ∀ v, (f v).setWidth k = v)
    (hchunk : ∀ {X σ : Type} (M : Machine O X σ) args s, M.load chunk mutability isAtomic args s =
      (M.readBits k mutability isAtomic args s).map fun v => .word (f v))
    (hchunk' : ∀ {X σ : Type} (M : Machine O X σ) args s,
      M.load chunk' mutability isAtomic args s =
        (M.readBits k mutability isAtomic args s).map fun v => .word (f' v))
    (args : List (Expression O)) :
    Becomes (fun a b => b = f' (a.setWidth k)) 0 (cop (.cload chunk mutability isAtomic) args)
      (cop (.cload chunk' mutability isAtomic) args) := by
  refine becomes_cload (fun M args s a ha => ?_) args
  rw [hchunk] at ha
  obtain ⟨v, hv, heq⟩ := Option.map_eq_some_iff.1 ha
  cases heq
  rw [hchunk', hv, hf]
  exact ⟨_, rfl, rfl⟩

omit [DecidableEq O] in
theorem setWidth_setWidth_self (h : k ≤ 64) (v : BitVec k) :
    (v.setWidth 64).setWidth k = v := by
  rw [BitVec.setWidth_setWidth_of_le _ h, BitVec.setWidth_eq]

theorem setWidth_signExtend_self (h : k ≤ 64) (v : BitVec k) :
    (v.signExtend 64).setWidth k = v := by
  apply BitVec.eq_of_getLsbD_eq
  intro i hi
  rw [getLsbD_setWidth, BitVec.getLsbD_signExtend, if_pos hi]
  simp [hi, show i < 64 by omega]

omit [DecidableEq O] in
theorem zeroExtendViaMask_becomes (hb : bits < 64) (e : Expression O) :
    Becomes (fun a b => b = zeroExtendWord bits a) 2 e
      (cop .cand [e, natintConstUntagged (lowMask bits)]) := by
  have hk := getConst_natintConstUntagged (O := O) (lowMask bits)
  refine (becomes_cop rfl (getConst_core hk)).value_congr fun a b hab => ?_
  rw [hab]
  exact and_lowMask hb a

/-- `zero_extend` sets the bits above the low ones to 0. -/
theorem zeroExtend_simplifies (h0 : 0 < bits) (hle : bits ≤ 64)
    (h : zeroExtend bits e = .ok r) : Simplifies (fun a b => b = zeroExtendWord bits a) e r := by
  rw [zeroExtend] at h
  dsimp only at h
  split at h
  · rename_i h64
    cases h
    refine (becomes_refl e).narrows.toSimplifies.mono fun a b hab => ?_
    rw [hab, h64]
    exact (BitVec.setWidth_eq _).symm
  rename_i h64
  have hb : bits < 64 := Nat.lt_of_le_of_ne hle h64
  obtain ⟨e', he', h⟩ := bind_ok h
  refine ((lowBits_narrows h0 he').before ((mapTail_ok e' h).simplifies
    (R := fun a b => b = zeroExtendWord bits a) fun c t ⟨_, ht⟩ => ?_)).mono ?_
  · dsimp only at ht
    split at ht
    · split at ht
      all_goals
        cases ht
        first
        | exact (zeroExtendViaMask_becomes hb _).narrows.toSimplifies
        | exact (becomes_narrowLoad (setWidth_signExtend_self (by lia)) (fun _ _ _ => rfl)
            (fun _ _ _ => rfl) _).narrows.toSimplifies
        | exact (becomes_narrowLoad (setWidth_setWidth_self (by lia)) (fun _ _ _ => rfl)
            (fun _ _ _ => rfl) _).narrows.toSimplifies
    · cases ht; exact (zeroExtendViaMask_becomes hb _).narrows.toSimplifies
  · rintro a b ⟨x, hax, rfl⟩; exact (zeroExtendWord_of_agree hax).symm

/-- The bits of a word that `bits` leaves unused, as an amount to shift by. -/
theorem unusedBits_spec (h0 : 0 < bits) (hb : bits < 64) :
    (ofNat 63 (archBits - bits)).toNat = 64 - bits ∧
      isDefinedShift (ofNat 63 (archBits - bits)) = true := by
  have h : (ofNat 63 (archBits - bits)).toNat = 64 - bits := by
    rw [BitVec.toNat_ofNat, archBits, Nat.mod_eq_of_lt (by omega)]
  exact ⟨h, isDefinedShift_of_toNat (by omega)⟩

theorem asrConst_lslConst0_becomes {l r : OcamlInt}
    (hl : isDefinedShift l = true) (hr : isDefinedShift r = true)
    (h : asrConst (lslConst0 c l) r = .ok e) :
    Becomes (fun a b => b = (a <<< l.toNat).sshiftRight r.toNat) 4 c e := by
  refine ((becomes_cop (opWithConst_shift hl).1 rfl).trans (asrInt_becomes hr h)).mono ?_
    (Nat.le_refl 4)
  rintro a b ⟨x, rfl, rfl⟩
  rfl

theorem signExtendViaShift_becomes (h0 : 0 < bits) (hb : bits < 64)
    (h : signExtendViaShift (ofNat 63 (archBits - bits)) c = .ok e) :
    Becomes (fun a b => b = signExtendWord bits a) 4 c e := by
  obtain ⟨hu, hdu⟩ := unusedBits_spec h0 hb
  refine (asrConst_lslConst0_becomes hdu hdu h).value_congr fun a b hab => ?_
  rw [hab, hu]
  exact sshiftRight_shiftLeft_eq h0 hb a

omit [DecidableEq O] in
/-- A shift whose result is its own sign extension. -/
theorem becomes_shift_self
    (hg : opWithConst op (ofInt n) = some g) (hsign : ∀ a, signExtendWord bits (g a) = g a)
    (c : Expression O) : Becomes (fun a b => b = signExtendWord bits a) 2 (cop op [c, cconstInt n])
      (cop op [c, cconstInt n]) := by
  refine .of_cop hg rfl ((becomes_cop hg rfl).value_congr fun a b hab => ?_) (Nat.le_add_left 2 2)
  rw [hab, hsign]

/-- A shift by less than the unused bits, then a sign extension. -/
theorem becomes_shift_extended (h0 : 0 < bits) (hb : bits < 64)
    (hg : opWithConst op (ofInt n) = some g)
    (hle : n.toNat ≤ 64 - bits)
    (hshift : ∀ a : Nativeint,
      (a <<< (64 - bits - n.toNat)).sshiftRight (64 - bits) = signExtendWord bits (g a))
    (h : asrConst (lslConst0 c (ofNat 63 (archBits - bits) - n))
      (ofNat 63 (archBits - bits)) = .ok e) :
    Becomes (fun a b => b = signExtendWord bits a) 2 (cop op [c, cconstInt n]) e := by
  obtain ⟨hu, hdu⟩ := unusedBits_spec h0 hb
  obtain ⟨hsub, hdsub⟩ := toNat_sub_of_isDefinedShift hdu (hu ▸ hle)
  refine .of_cop hg rfl ((asrConst_lslConst0_becomes hdsub hdu h).value_congr fun a b hab => ?_)
    (Nat.le_refl 4)
  rw [hab, hsub, hu, hshift]

/-- `sign_extend` copies the highest of the low bits. -/
theorem signExtend_simplifies (h0 : 0 < bits) (hle : bits ≤ 64)
    (h : signExtend bits e = .ok r) : Simplifies (fun a b => b = signExtendWord bits a) e r := by
  induction hw : e.weight using Nat.strongRecOn generalizing e r with | ind w ih =>
rw [signExtend] at h
dsimp only at h
split at h
· rename_i h64
  cases h
  refine (becomes_refl e).narrows.toSimplifies.mono fun a b hab => ?_
  rw [hab, h64]
  exact (BitVec.signExtend_eq a).symm
rename_i h64
have hb : bits < 64 := Nat.lt_of_le_of_ne hle h64
obtain ⟨hu, hdu⟩ := unusedBits_spec h0 hb
split at h
· cases h
rename_i e' hl
have hwl := weight_lowBits_le hl
refine ((lowBits_narrows h0 hl).before ((mapTail_ok e' h).simplifies
  (R := fun a b => b = signExtendWord bits a) fun c t hct => ?_)).mono fun a b hab => by
    obtain ⟨x, hax, rfl⟩ := hab
    exact (signExtendWord_of_agree hax).symm
obtain ⟨hc, ht⟩ := hct
have hwp := weight_preferOr c
refine ((becomes_preferOr c).narrows.before
  (S := fun a b => b = signExtendWord bits a) ?_).mono fun a b hab => by
    obtain ⟨x, rfl, rfl⟩ := hab
    rfl
-- An operation with a constant is made of the extensions of both.
have hbitwise : ∀ {op : Operation O} {f const} {x y x' y' : Expression O},
    preferOr c = cop op [x, y] → signExtend bits y = .ok y' → signExtend bits x = .ok x' →
    bitwiseInt op f const x' y' = .ok t → isBitwise op = true →
    (∀ {X σ : Type} (M : Machine O X σ) a b, M.word2 op a b = some (f a b)) →
    (∀ a b, f a b = f b a) →
    (∀ e n r, const e n = .ok r → Becomes (fun a b => b = f a n) 2 e r) →
    (∀ a b, f (signExtendWord bits a) (signExtendWord bits b) = signExtendWord bits (f a b)) →
    Simplifies (fun a b => b = signExtendWord bits a) (preferOr c) t := by
  intro op f const x y x' y' hp hy hx ht hop hword hcomm hconst hsign
  rw [hp] at hwp ⊢
  simp only [weight, weightList] at hwp
  refine Simplifies.bitwise hop hword hcomm hconst ?_ (ih _ (by lia) hx rfl)
    (ih _ (by lia) hy rfl) ht
  rintro a _ b _ rfl rfl
  exact hsign a b
dsimp only at ht
split at ht
· rename_i x y hp
  split at ht
  · obtain ⟨y', hy, ht⟩ := bind_ok ht
    obtain ⟨x', hx, ht⟩ := bind_ok ht
    exact hbitwise hp hy hx ht rfl (fun _ _ _ => rfl) BitVec.and_comm
      (fun _ _ _ => andConst_becomes) (signExtendWord_and bits)
  · rw [hp]; exact (signExtendViaShift_becomes h0 hb ht).narrows.toSimplifies
· rename_i x y hp
  split at ht
  · obtain ⟨y', hy, ht⟩ := bind_ok ht
    obtain ⟨x', hx, ht⟩ := bind_ok ht
    exact hbitwise hp hy hx ht rfl (fun _ _ _ => rfl) BitVec.or_comm
      (fun _ _ _ => orConst_becomes) (signExtendWord_or bits)
  · rw [hp]; exact (signExtendViaShift_becomes h0 hb ht).narrows.toSimplifies
· rename_i x y hp
  split at ht
  · obtain ⟨y', hy, ht⟩ := bind_ok ht
    obtain ⟨x', hx, ht⟩ := bind_ok ht
    exact hbitwise hp hy hx ht rfl (fun _ _ _ => rfl) BitVec.xor_comm
      (fun _ _ _ => xorConst_becomes) (signExtendWord_xor bits)
  · rw [hp]; exact (signExtendViaShift_becomes h0 hb ht).narrows.toSimplifies
· rename_i inner n hp
  rw [hp]
  split at ht
  · rename_i hn
    have hg := (opWithConst_shift (O := O) hn).2.2
    have hself : 64 - bits ≤ n.toNat → Becomes (fun a b => b = signExtendWord bits a) 2
        (cop .casr [inner, cconstInt n]) (cop .casr [inner, cconstInt n]) :=
      fun hn => becomes_shift_self hg (fun a => signExtendWord_sshiftRight h0 hn a) inner
    split at ht
    · rename_i heq
      cases ht
      have hn' : n.toNat = 64 - bits := by rw [heq, hu]
      exact (hself (Nat.le_of_eq hn'.symm)).narrows.toSimplifies
    split at ht
    · rename_i hlt
      cases ht
      rw [slt_iff_of_isDefinedShift hdu hn, hu] at hlt
      exact (hself (Nat.le_of_lt hlt)).narrows.toSimplifies
    rename_i hlt
    rw [slt_iff_of_isDefinedShift hdu hn] at hlt
    exact (becomes_shift_extended h0 hb hg (by lia)
      (fun a => (signExtendWord_shift h0 hb (by lia) a).2) ht).narrows.toSimplifies
  · exact (signExtendViaShift_becomes h0 hb ht).narrows.toSimplifies
· rename_i inner n hp
  rw [hp]
  split at ht
  · rename_i hn
    have hg := (opWithConst_shift (O := O) hn).2.1
    split at ht
    · rename_i heq
      -- The arithmetic shift brings in the sign that the logical one lost.
      refine (Becomes.of_cop hg rfl ((asrInt_becomes hdu ht).value_congr
        (S := fun a b => b = signExtendWord bits (a >>> n.toNat)) fun a b hab => ?_)
        (Nat.le_refl 2)).narrows.toSimplifies
      have hn' : n.toNat = 64 - bits := by rw [heq, hu]
      rw [hab, hu, ← (signExtendWord_shift h0 hb (Nat.le_of_eq hn') a).1, hn', Nat.sub_self]
      exact congrArg (BitVec.sshiftRight · _) (BitVec.shiftLeft_zero a).symm
    split at ht
    · rename_i hlt
      cases ht
      rw [slt_iff_of_isDefinedShift hdu hn, hu] at hlt
      exact (becomes_shift_self hg (fun a => signExtendWord_ushiftRight h0 hlt a)
        inner).narrows.toSimplifies
    rename_i hlt
    rw [slt_iff_of_isDefinedShift hdu hn] at hlt
    exact (becomes_shift_extended h0 hb hg (by lia)
      (fun a => (signExtendWord_shift h0 hb (by lia) a).1) ht).narrows.toSimplifies
  · exact (signExtendViaShift_becomes h0 hb ht).narrows.toSimplifies
· rename_i hp
  rw [hp]
  split at ht
  all_goals
    first
    | exact (signExtendViaShift_becomes h0 hb ht).narrows.toSimplifies
    | cases ht
      first
      | exact (becomes_narrowLoad (setWidth_signExtend_self (by lia)) (fun _ _ _ => rfl)
          (fun _ _ _ => rfl) _).narrows.toSimplifies
      | exact (becomes_narrowLoad (setWidth_setWidth_self (by lia)) (fun _ _ _ => rfl)
          (fun _ _ _ => rfl) _).narrows.toSimplifies
· exact (signExtendViaShift_becomes h0 hb ht).narrows.toSimplifies

end CmmHelpers

end Oxcaml.Backend
