/-
Oxcaml.Backend.CmmDivisionExpressions — the expressions that divide.

For a constant divisor, `div_int`, `mod_int`, `unsigned_div_int` and
`unsigned_mod_int` always return an expression, and it computes the quotient or
the remainder of whatever the dividend evaluates to. A zero divisor evaluates
the dividend and raises.

§1 has the words of the special cases. §2 says what an expression gives in an
environment, and what `bind` makes of it. §3 and §4 go through the cases of the
signed and the unsigned helpers.
-/
import Oxcaml.Backend.CmmDivisionTheorems
import Oxcaml.Backend.CmmAdditions

set_option linter.all false

namespace Oxcaml.Backend.CmmHelpers

open BitVec (eq_of_toInt_eq eq_of_toNat_eq intMin le_def ofNat toInt_eq_toNat_cond toInt_sdiv
  toInt_srem toNat_ofNat toNat_sub_of_le toNat_umod)

open Expression

/-! ## §1 Special divisors -/

theorem sub_sdiv_mul (n d : Nativeint) : n - n.sdiv d * d = n.srem d := by
  have hrange := toInt_bounds64 (n.srem d)
  have hrem := toInt_srem n d
  apply eq_of_toInt_eq
  rw [BitVec.toInt_sub, BitVec.toInt_mul, toInt_sdiv, hrem, Int.sub_bmod_bmod,
    Int.sub_bmod, Int.bmod_mul_bmod, ← Int.sub_bmod, Int.mul_comm, ← Int.tmod_def,
    Int.bmod_eq_of_le (by omega) (by omega)]

theorem sdiv_neg_one (n : Nativeint) : n.sdiv (-1) = -n := by
  apply eq_of_toInt_eq
  rw [toInt_sdiv, show (-1 : Nativeint).toInt = -1 by decide, BitVec.toInt_neg,
    Int.tdiv_neg, Int.tdiv_one]

variable {d : Nativeint}

theorem srem_one_or_neg_one (h : d = 1 ∨ d = -1) (n : Nativeint) : n.srem d = 0 := by
  apply eq_of_toInt_eq
  rw [toInt_srem]
  rcases h with rfl | rfl
  · rw [show (1 : Nativeint).toInt = 1 by decide, Int.tmod_one]; rfl
  · rw [show (-1 : Nativeint).toInt = -1 by decide, Int.tmod_neg, Int.tmod_one]; rfl

theorem srem_intMin (n : Nativeint) :
    n.srem (intMin 64) = if n = intMin 64 then 0 else n := by
  rw [← sub_sdiv_mul, BitVec.sdiv_intMin]
  split
  · rename_i h
    rw [h]
    decide
  · exact BitVec.sub_zero n

variable {l : Nat}

/-- Clearing the bits below a power of two. -/
theorem and_neg_twoPow (hl : l < 64) (hd : d.toNat = 2 ^ l)
    (x : Nativeint) : x &&& -d = x.sshiftRight l * d := by
  have hpow : 2 ^ l < 2 ^ 64 := Nat.pow_lt_pow_right (by omega) hl
  have hdeq : d = BitVec.twoPow 64 l := by
    apply eq_of_toNat_eq
    rw [hd, BitVec.toNat_twoPow, Nat.mod_eq_of_lt hpow]
  have hneg : -d = BitVec.allOnes 64 <<< l := by
    have hpos := Nat.two_pow_pos l
    apply eq_of_toNat_eq
    rw [BitVec.toNat_neg, hd, BitVec.toNat_shiftLeft, Nat.shiftLeft_eq, BitVec.toNat_allOnes,
      Nat.sub_mul, Nat.one_mul]
    have hmul : 2 ^ 64 * 2 ^ l - 2 ^ l = 2 ^ 64 - 2 ^ l + 2 ^ 64 * (2 ^ l - 1) := by
      omega
    rw [hmul, Nat.add_mul_mod_self_left]
  rw [hneg, hdeq, ← BitVec.shiftLeft_eq_mul_twoPow]
  ext i hi
  rw [BitVec.getElem_and, BitVec.getElem_shiftLeft, BitVec.getElem_shiftLeft]
  rcases Nat.lt_or_ge i l with hlt | hge
  · simp [hlt]
  have hnot : decide (i < l) = false := decide_eq_false (by omega)
  have hsub : l + (i - l) = i := by omega
  simp only [hnot, Bool.not_false, Bool.true_and, BitVec.getElem_allOnes, Bool.and_true,
    BitVec.getElem_sshiftRight, hsub, hi, dite_true]

theorem sub_udiv_mul (n d : Nativeint) : n - n.udiv d * d = n.umod d :=
  eq_of_toNat_eq ((divMod_udivmod n d).rem.trans toNat_umod.symm)

theorem isPowerOf2OrZero_iff (hd : d ≠ 0) :
    isPowerOf2OrZero d = true ↔ ∃ l < 64, d.toNat = 2 ^ l := by
  have hpos : d.toNat ≠ 0 := fun h => hd (eq_of_toNat_eq h)
  have hpred : (d - 1).toNat = d.toNat - 1 :=
    toNat_sub_of_le (le_def.2 (show 1 ≤ d.toNat by omega))
  rw [isPowerOf2OrZero, beq_iff_eq, ← BitVec.toNat_inj, BitVec.toNat_and, hpred]
  refine (Nat.and_sub_one_eq_zero_iff_isPowerOfTwo hpos).trans ⟨?_, ?_⟩
  · rintro ⟨l, hl⟩
    have hlt := d.isLt
    rw [hl] at hlt
    exact ⟨l, (Nat.pow_lt_pow_iff_right (by omega)).1 hlt, hl⟩
  · rintro ⟨l, -, hl⟩; exact ⟨l, hl⟩

/-- The sign of the dividend, spread over the bits below the divisor. -/
theorem toNat_rounding (hl : 1 ≤ l) (hl' : l ≤ 62) (n : Nativeint) :
    ((n.sshiftRight (l - 1)) >>> (64 - l)).toNat = if n.toInt < 0 then 2 ^ l - 1 else 0 := by
  have hq := toInt_sshiftRight_eq n (l - 1)
  have hn := toInt_bounds64 n
  rw [BitVec.toNat_ushiftRight, Nat.shiftRight_eq_div_pow]
  generalize n.sshiftRight (l - 1) = q at hq
  have hnat := toInt_eq_toNat_cond q
  obtain ⟨P, hP⟩ : ∃ P : Nat, 2 ^ (64 - l) = P := ⟨_, rfl⟩
  obtain ⟨Q, hQ⟩ : ∃ Q : Nat, 2 ^ (l - 1) = Q := ⟨_, rfl⟩
  have hPQ : P * Q = 2 ^ 63 := by
    rw [← hP, ← hQ, ← Nat.pow_add]
    congr 1
    omega
  have hl2 : 2 ^ l = 2 * Q := by
    rw [← hQ, ← Nat.pow_succ']
    congr 1
    omega
  have hQpos : 0 < Q := hQ ▸ Nat.two_pow_pos _
  have hPQ' : (P * Q : Int) = 2 ^ 63 := by exact_mod_cast hPQ
  have hQ' : (2 : Int) ^ (l - 1) = Q := by exact_mod_cast hQ
  rw [hQ'] at hq
  rw [hP, hl2]
  by_cases hneg : n.toInt < 0
  · have hge : -(P : Int) ≤ n.toInt / Q := by
      rw [Int.le_ediv_iff_mul_le (by omega), Int.neg_mul, hPQ']
      exact hn.1
    have hlt0 : n.toInt / Q < 0 := Int.ediv_neg_of_neg_of_pos hneg (by omega)
    have h64 : 2 * Q * P = 2 ^ 64 := by
      rw [Nat.mul_assoc, Nat.mul_comm Q P, hPQ]
      rfl
    have hpred : (2 * Q - 1) * P = 2 * Q * P - P := by rw [Nat.sub_mul, Nat.one_mul]
    rw [if_pos hneg]
    refine Nat.div_eq_of_lt_le ?_ ?_
    · split at hnat <;> lia
    · rw [Nat.sub_add_cancel (by omega)]; omega
  have hge : 0 ≤ n.toInt / Q := Int.ediv_nonneg (by omega) (by omega)
  have hlt' : n.toInt / Q < P := by
    rw [Int.ediv_lt_iff_lt_mul (by omega), hPQ']
    exact hn.2
  rw [if_neg hneg]
  refine Nat.div_eq_of_lt ?_
  split at hnat <;> omega

/-- The dividend rounded up to a multiple of the divisor, when it is negative. -/
theorem sdiv_twoPow (hl : 1 ≤ l) (hl' : l ≤ 62) (hd : d.toNat = 2 ^ l) (n : Nativeint) :
    (n + (n.sshiftRight (l - 1)) >>> (64 - l)).sshiftRight l = n.sdiv d := by
  have hr := toNat_rounding hl hl' n
  have hn := toInt_bounds64 n
  generalize (n.sshiftRight (l - 1)) >>> (64 - l) = r at hr
  have hnat := toInt_eq_toNat_cond r
  have hdnat := toInt_eq_toNat_cond d
  have hpow : 2 ^ l ≤ 2 ^ 62 := Nat.pow_le_pow_right (by omega) hl'
  have hpow' : 2 ^ 1 ≤ 2 ^ l := Nat.pow_le_pow_right (by omega) hl
  have hd' : d.toInt = (2 ^ l : Nat) := by
    split at hdnat <;> lia
  have hsum : (n + r).toInt = n.toInt + r.toInt := by
    refine toInt_add_of_range ?_ ?_
    all_goals split at hr <;> split at hnat <;> lia
  have hne : d ≠ -1 := by
    rintro rfl
    rw [show (-1 : Nativeint).toInt = -1 by decide] at hd'
    omega
  apply eq_of_toInt_eq
  rw [toInt_sshiftRight_eq, hsum, BitVec.toInt_sdiv_of_ne_or_ne n d (.inr hne), hd']
  have hcast : (2 : Int) ^ l = (2 ^ l : Nat) := by norm_cast
  rw [hcast]
  generalize 2 ^ l = D at hr hpow hpow' ⊢
  by_cases hneg : n.toInt < 0
  · obtain ⟨k, hk⟩ : ∃ k : Nat, n.toInt = -k := ⟨n.toInt.natAbs, by omega⟩
    have hr' : r.toInt = D - 1 := by
      rw [if_pos hneg] at hr
      split at hnat <;> lia
    have hdm := Nat.div_add_mod k D
    have hmod := Nat.mod_lt k (show 0 < D by omega)
    rw [hk, Int.neg_tdiv, ← Int.ofNat_tdiv, Int.ediv_eq_iff_of_pos (by omega), Int.neg_mul,
      Int.mul_comm]
    constructor <;> lia
  obtain ⟨k, hk⟩ : ∃ k : Nat, n.toInt = k := ⟨n.toInt.natAbs, by omega⟩
  have hr' : r.toInt = 0 := by
    rw [if_neg hneg] at hr
    split at hnat <;> lia
  rw [hk, hr', Int.add_zero]
  norm_cast

/-! ## §2 What an expression gives -/

variable {O X σ : Type}

/-- The expression has no effects and ends with the word, whatever the state. -/
def Machine.Gives (M : Machine O X σ) (env : Machine.Bindings X) (e : Expression O)
    (w : Nativeint) : Prop := ∀ s, M.Evaluates e env s (.value (.word w)) s

section

variable {M : Machine O X σ} {env : Machine.Bindings X} {x y : Expression O} {a b : Nativeint}

theorem gives_const {w : Nativeint} (h : getConst x = some w) : Machine.Gives M env x w :=
  fun _ => (Machine.evaluates_const (getConst_core h)).2 ⟨rfl, rfl⟩

theorem gives_natint (w : Nativeint) : Machine.Gives (O := O) M env (natintConstUntagged w) w :=
  gives_const (getConst_natintConstUntagged w)

variable {op : Operation O}

theorem gives_cop {v : Nativeint} (hop : op.isWord = true)
    (hv : M.word2 op a b = some v) (hx : Machine.Gives M env x a) (hy : Machine.Gives M env y b) :
    Machine.Gives M env (cop op [x, y]) v :=
  fun s => (Machine.evaluates_cop2 hop).2 (.inl ⟨a, b, v, s, hy s, hx s, hv, rfl⟩)

theorem gives_shift {f : Nativeint → Nat → Nativeint} {k : OcamlInt}
    (hk : isDefinedShift k = true) (hop : op.isWord = true) (hzero : ∀ a, f a 0 = a)
    (hword : ∀ a b, M.word2 op a b = some (M.shift op f a b)) (hx : Machine.Gives M env x a) :
    Machine.Gives M env (if k = 0 then x else cop op [x, cconstInt k]) (f a k.toNat) := by
  obtain ⟨hlt, hnat, -⟩ := toNat_of_isDefinedShift hk
  split
  · rename_i h0
    rw [h0, show (0 : OcamlInt).toNat = 0 from rfl, hzero]
    exact hx
  · refine gives_cop hop ?_ hx (gives_const rfl); rw [hword, Machine.shift, hnat, if_pos hlt]

end

/-- `e` gives `f` of what `n` gives. -/
def Maps (f : Nativeint → Nativeint) (n e : Expression O) : Prop :=
  ∀ {X σ : Type} (M : Machine O X σ) (env : Machine.Bindings X) (a : Nativeint),
    Machine.Gives M env n a → Machine.Gives M env e (f a)

/-- Atoms, as `bind` passes them on when they are no constants. -/
inductive Atom : Expression O → Prop
  | cvar (v : BackendVar) : Atom (cvar v)
  | cconstSymbol (sym : Symbol) : Atom (cconstSymbol sym)

variable {n : Expression O}

theorem Atom.plain (h : Atom n) : Plain n := by
  cases h with
  | cvar v => exact .cvar v
  | cconstSymbol sym => exact .cconstSymbol sym

theorem Atom.bind_eq (h : Atom n) (id : BackendVar)
    (fn : Expression O → Except (Fatal O) (Expression O)) : bind id n fn = fn n := by
  cases h <;> rfl

theorem Atom.isShifted_eq (h : Atom n) : isShifted n = false := by
  cases h <;> rfl

theorem noDebug_natint (w : Nativeint) :
    (natintConstUntagged w : Expression O).containsDebugOnlyConstructs = false := by
  unfold natintConstUntagged
  split <;> rfl

variable [DecidableEq O]

variable {f : Nativeint → Nativeint} {k : OcamlInt} {n x y c : Expression O}

/-- An arithmetic shift that there is nothing to simplify in. -/
theorem asrConst_maps (hk : isDefinedShift k = true) (hx : Plain x) (hshift : isShifted x = false)
    (hmaps : Maps f n x) :
    ∃ e, asrConst x k = .ok e ∧ Plain e ∧ (isShifted e = false ∨ ∃ args, e = cop .casr args) ∧
      Maps (fun a => (f a).sshiftRight k.toNat) n e := by
  refine ⟨_, asrConst_plain hx hk hshift, ?_, ?_, fun M env a ha => ?_⟩
  · split
    · exact hx
    · exact .cop (by simp) (by simp) hx.noDebug rfl
  · split
    · exact .inl hshift
    · exact .inr ⟨_, rfl⟩
  · exact gives_shift hk rfl (fun a => BitVec.sshiftRight_zero) (fun _ _ => rfl) (hmaps M env a ha)

theorem lsrConst_maps (hk : isDefinedShift k = true) (hx : Plain x)
    (hshift : isShifted x = false ∨ ∃ args, x = cop .casr args) (hmaps : Maps f n x) :
    ∃ e, lsrConst x k = .ok e ∧ Plain e ∧ Maps (fun a => f a >>> k.toNat) n e := by
  refine ⟨_, lsrConst_plain hx hk hshift, ?_, fun M env a ha => ?_⟩
  · split
    · exact hx
    · exact .cop (by simp) (by simp) hx.noDebug rfl
  · exact gives_shift hk rfl (fun a => BitVec.ushiftRight_zero a) (fun _ _ => rfl)
      (hmaps M env a ha)

variable {f g : Nativeint → Nativeint}

theorem addInt_maps (hx : Plain x) (hy : Plain y) (hf : Maps f n x) (hg : Maps g n y) :
    ∃ e, addInt x y = .ok e ∧ Plain e ∧ isShifted e = false ∧ Maps (fun a => f a + g a) n e :=
  ⟨_, addInt_plain hx hy, .caddi hx.noDebug hy, rfl, fun M env a ha =>
    gives_cop rfl rfl (hf M env a ha) (hg M env a ha)⟩

theorem subInt_maps (hx : Plain x) (hy : Plain y) (hf : Maps f n x) (hg : Maps g n y) :
    ∃ e, subInt x y = .ok e ∧ Plain e ∧ isShifted e = false ∧ Maps (fun a => f a - g a) n e :=
  ⟨_, subInt_plain hx hy, .cop (by simp) (by simp) hx.noDebug hy.noDebug, rfl, fun M env a ha =>
    gives_cop rfl rfl (hf M env a ha) (hg M env a ha)⟩

/-! ## §3 Signed division -/

theorem divByReciprocal_maps (hd : 2 ≤ d.toInt.natAbs) (hmin : d ≠ intMin 64) (hn : Atom n) :
    ∃ e, divByReciprocal d n = .ok e ∧ Plain e ∧ Maps (fun a => a.sdiv d) n e := by
  obtain ⟨m, s, hparams, hspec, hfirst⟩ := divimmParameters_spec hd hmin
  have hs := hspec.shift_le
  have hnat : (ofNat 63 s).toNat = s := by
    rw [toNat_ofNat, Nat.mod_eq_of_lt (by omega)]
  have hshift : isDefinedShift (ofNat 63 s) = true := isDefinedShift_of_toNat (by omega)
  have hself : Maps (fun a => a) n n := fun _ _ _ ha => ha
  have hmulhi : Maps (fun a => mulhi true a m) n
      (cop (.cmulhi true) [n, natintConstUntagged m]) := fun M env a ha =>
    gives_cop rfl rfl ha (gives_natint m)
  have hplain : Plain (cop (.cmulhi true) [n, natintConstUntagged m]) :=
    .cop (by simp) (by simp) hn.plain.noDebug (noDebug_natint m)
  -- the product, corrected for a multiplier that does not fit
  obtain ⟨q, hq, hqplain, hqshift, hqmaps⟩ : ∃ q,
      (if m.slt 0 && (0 : Nativeint).sle d then
        addInt (cop (.cmulhi true) [n, natintConstUntagged m]) n
      else if (0 : Nativeint).sle m && d.slt 0 then
        subInt (cop (.cmulhi true) [n, natintConstUntagged m]) n
      else pure (cop (.cmulhi true) [n, natintConstUntagged m])) = .ok q ∧ Plain q ∧
      isShifted q = false ∧ Maps (fun a => if m.slt 0 && (0 : Nativeint).sle d then
        mulhi true a m + a else if (0 : Nativeint).sle m && d.slt 0 then mulhi true a m - a
        else mulhi true a m) n q := by
    split
    · exact addInt_maps hplain hn.plain hmulhi hself
    split
    · exact subInt_maps hplain hn.plain hmulhi hself
    · exact ⟨_, rfl, hplain, rfl, hmulhi⟩
  obtain ⟨q₁, hq₁, hq₁plain, hq₁shift, hq₁maps⟩ := asrConst_maps hshift hqplain hqshift hqmaps
  rw [hnat] at hq₁maps
  have h63 : isDefinedShift 63 = true := by decide
  have hside : ∃ sign, lsrConst (if (0 : Nativeint).sle d then n else q₁) 63 = .ok sign ∧
      Plain sign ∧ Maps (fun a => (if (0 : Nativeint).sle d then a else
        BitVec.sshiftRight (if m.slt 0 && (0 : Nativeint).sle d then
        mulhi true a m + a else if (0 : Nativeint).sle m && d.slt 0 then mulhi true a m - a
        else mulhi true a m) s) >>> 63) n sign := by
    split
    · exact lsrConst_maps h63 hn.plain (.inl hn.isShifted_eq) hself
    · exact lsrConst_maps h63 hq₁plain hq₁shift hq₁maps
  obtain ⟨sign, hsign, hsignplain, hsignmaps⟩ := hside
  obtain ⟨e, he, heplain, -, hemaps⟩ := addInt_maps hq₁plain hsignplain hq₁maps hsignmaps
  refine ⟨e, ?_, heplain, fun M env a ha => ?_⟩
  · have hrest : (do
        let q ← asrConst q (ofNat 63 s)
        let signBit ← lsrConst (if (0 : Nativeint).sle d then n else q) 63
        addInt q signBit) = .ok e := by
      rw [hq₁]
      dsimp only [Bind.bind, Except.bind]
      rw [hsign]
      exact he
    rw [divByReciprocal, hparams]
    dsimp only
    split at hq
    · rename_i h
      rw [if_pos h, hq]
      exact hrest
    rename_i h
    rw [if_neg h]
    split at hq
    · rename_i h'
      rw [if_pos h', hq]
      exact hrest
    rename_i h'
    rw [if_neg h']
    cases hq
    exact hrest
  dsimp only
  rw [← signedQuotient_eq hspec hd hmin hfirst a]
  exact hemaps M env a ha

/-- Both `div_int` and `mod_int` round the dividend this way. -/
theorem addRounding_maps (hl : 1 ≤ l) (hl' : l ≤ 62) (hn : Atom n) :
    ∃ e, addRounding (ofNat 63 l) n = .ok e ∧ Plain e ∧ isShifted e = false ∧
      Maps (fun a => a + (a.sshiftRight (l - 1)) >>> (64 - l)) n e := by
  have hnat : (ofNat 63 l).toNat = l := by
    rw [toNat_ofNat, Nat.mod_eq_of_lt (by omega)]
  have hone : (1 : OcamlInt).toNat = 1 := rfl
  have h64 : (64 : OcamlInt).toNat = 64 := rfl
  have hpred : (ofNat 63 l - 1).toNat = l - 1 := by
    rw [toNat_sub_of_le (le_def.2 (by omega)), hnat, hone]
  have hrest : (64 - ofNat 63 l).toNat = 64 - l := by
    rw [toNat_sub_of_le (le_def.2 (by omega)), hnat, h64]
  have hle : (1 : OcamlInt).sle (ofNat 63 l) = true := by
    rw [BitVec.sle_iff_toInt_le, toInt_eq_toNat_cond, toInt_eq_toNat_cond, hnat]
    split <;> split <;> lia
  have hself : Maps (fun a => a) n n := fun _ _ _ ha => ha
  obtain ⟨t, ht, htplain, htshift, htmaps⟩ := asrConst_maps
    (isDefinedShift_of_toNat (n := ofNat 63 l - 1) (by omega)) hn.plain hn.isShifted_eq hself
  obtain ⟨t', ht', htplain', htmaps'⟩ := lsrConst_maps
    (isDefinedShift_of_toNat (n := 64 - ofNat 63 l) (by omega)) htplain htshift htmaps
  obtain ⟨e, he, heplain, heshift, hemaps⟩ := addInt_maps hn.plain htplain' hself htmaps'
  rw [hpred, hrest] at hemaps
  refine ⟨e, ?_, heplain, heshift, hemaps⟩
  rw [addRounding, if_pos hle, ht]
  dsimp only [Bind.bind, Except.bind]
  rw [ht']
  exact he

variable {s s' : σ} {env : Machine.Bindings X} {o : Outcome X} {M : Machine O X σ}

omit [DecidableEq O] in
theorem evaluates_cconstSymbol {sym : Symbol} :
    M.Evaluates (cconstSymbol sym) env s o s' ↔ o = .value (M.symbol sym) ∧ s' = s := by
  constructor
  · rintro ⟨_ | fuel, h⟩
    · cases h
    · cases h; exact ⟨rfl, rfl⟩
  · rintro ⟨rfl, rfl⟩; exact ⟨1, rfl⟩

omit [DecidableEq O] in
/-- An atom or a constant has no effects. -/
theorem gives_of_evaluates (h : Atom n ∨ (getConst n).isSome)
    (hn : M.Evaluates n env s o s') (hnarrow : o.Narrow) :
    ∃ a, o = .value (.word a) ∧ s' = s ∧ Machine.Gives M env n a := by
  rcases h with h | h
  · cases h with
    | cvar v =>
      obtain ⟨⟨x, hx, rfl⟩, rfl⟩ := Machine.evaluates_cvar.1 hn
      cases x with
      | word a => exact ⟨a, rfl, rfl, fun s => Machine.evaluates_cvar.2 ⟨⟨_, hx, rfl⟩, rfl⟩⟩
      | wide x => exact absurd rfl (hnarrow x)
    | cconstSymbol sym =>
      obtain ⟨rfl, rfl⟩ := evaluates_cconstSymbol.1 hn
      cases hx : M.symbol sym with
      | word a => exact ⟨a, rfl, rfl, fun s => evaluates_cconstSymbol.2 ⟨by rw [hx], rfl⟩⟩
      | wide x => exact absurd (congrArg Outcome.value hx) (hnarrow x)
  obtain ⟨w, hw⟩ := Option.isSome_iff_exists.1 h
  obtain ⟨rfl, rfl⟩ := (Machine.evaluates_const (getConst_core hw)).1 hn
  exact ⟨w, rfl, rfl, gives_const hw⟩

section

variable {f : Nativeint → Nativeint} {id : BackendVar} {arg e : Expression O}
  {fn : Expression O → Except (Fatal O) (Expression O)}

omit [DecidableEq O]

theorem Maps.relates (h : Maps f arg e) (harg : Atom arg ∨ (getConst arg).isSome)
    (M : Machine O X σ) : M.Relates (fun a b => b = f a) arg e := by
  intro env s o s' heval hnarrow
  obtain ⟨a, rfl, rfl, hgives⟩ := gives_of_evaluates harg heval hnarrow
  exact ⟨_, h M env a hgives _, .word rfl⟩

theorem relates_clet (h : Maps f (cvar id) e) (M : Machine O X σ) :
    M.Relates (fun a b => b = f a) arg (clet id arg e) := by
  intro env s o s' heval hnarrow
  rcases o with (a | x) | ⟨l, args⟩
  · have hgives : Machine.Gives M (Machine.Bindings.set env id (.word a)) (cvar id) a := fun s =>
      Machine.evaluates_cvar.2 ⟨⟨_, if_pos rfl, rfl⟩, rfl⟩
    exact ⟨_, Machine.evaluates_clet.2 (.inl ⟨_, _, heval, h M _ a hgives s'⟩), .word rfl⟩
  · exact absurd rfl (hnarrow x)
  · exact ⟨_, Machine.evaluates_clet.2 (.inr ⟨l, args, rfl, heval⟩), .exit l args⟩

/-- The atoms that `bind` hands to its function: its argument, or a variable. -/
def Bound (arg n : Expression O) : Prop := Atom n ∨ n = arg ∧ (getConst arg).isSome

/-- A function of an atom, applied to what `arg` evaluates to. -/
theorem bind_relates (h : ∀ n, Bound arg n → ∃ e, fn n = .ok e ∧ Maps f n e) :
    ∃ e, bind id arg fn = .ok e ∧ ∀ {X σ : Type} (M : Machine O X σ),
      M.Relates (fun a b => b = f a) arg e := by
  unfold bind
  split
  · obtain ⟨e, he, hmaps⟩ := h _ (.inl (.cvar _))
    exact ⟨e, he, fun M => hmaps.relates (.inl (.cvar _)) M⟩
  · obtain ⟨e, he, hmaps⟩ := h _ (.inr ⟨rfl, rfl⟩)
    exact ⟨e, he, fun M => hmaps.relates (.inr rfl) M⟩
  · obtain ⟨e, he, hmaps⟩ := h _ (.inr ⟨rfl, rfl⟩)
    exact ⟨e, he, fun M => hmaps.relates (.inr rfl) M⟩
  · obtain ⟨e, he, hmaps⟩ := h _ (.inl (.cconstSymbol _))
    exact ⟨e, he, fun M => hmaps.relates (.inl (.cconstSymbol _)) M⟩
  obtain ⟨e, he, hmaps⟩ := h _ (.inl (.cvar id))
  rw [he]
  exact ⟨_, rfl, fun M => relates_clet hmaps M⟩

end

theorem asrInt_tail (c : Expression O) (k : OcamlInt) :
    asrConst c k = (asrConst c.tail k).map fun t => c.setTail t := by
  rw [asrConst, asrConst, asrInt.eq_def c, asrInt.eq_def c.tail, mapTail2, mapTail2,
    mapTail1_eq (cconstInt k), mapTail1_eq (cconstInt k), mapTail1_eq c, mapTail1_eq c.tail,
    tail_tail, map_setTail_const, map_setTail_const, map_setTail_tail]

/-- The shift of a bound expression is the bound shift. -/
theorem asrConst_bind {id : BackendVar} {arg : Expression O}
    {fn : Expression O → Except (Fatal O) (Expression O)}
    (h : ∀ e, fn (cvar id) = .ok e → Plain e) :
    (do asrConst (← bind id arg fn) k) = bind id arg (fun n => do asrConst (← fn n) k) := by
  unfold bind
  split
  · rfl
  · rfl
  · rfl
  · rfl
  dsimp only
  cases he : fn (cvar id) with
  | error err => rfl
  | ok e =>
    show asrConst (clet id arg e) k = asrConst e k >>= fun t => pure (clet id arg t)
    rw [asrInt_tail, tail, (h e he).tail_eq]
    cases asrConst e k with
    | error err => rfl
    | ok t =>
      refine congrArg Except.ok ?_
      show clet id arg (e.setTail t) = clet id arg t
      rw [setTail_of_tail_eq (h e he).tail_eq]

/-- `e` evaluates the dividend and then raises `Division_by_zero`. -/
structure RaisesDivisionByZero (target : Target O) (c e : Expression O) : Prop where
  value : ∀ {X σ : Type} {M : Machine O X σ} {env s v s₁ r}, M.Evaluates c env s (.value v) s₁ →
    M.operation target.craiseRegular [M.symbol ⟨"caml_exn_Division_by_zero", true⟩] s₁ = some r →
    M.Evaluates e env s r.1 r.2
  exit : ∀ {X σ : Type} {M : Machine O X σ} {env s l args s'},
    M.Evaluates c env s (.exit l args) s' → M.Evaluates e env s (.exit l args) s'

variable {target : Target O}

omit [DecidableEq O] in
theorem evaluates_raiseSymbol {symb : String} {r : Outcome X × σ}
    (h : M.operation target.craiseRegular [M.symbol ⟨symb, true⟩] s = some r) :
    M.Evaluates (raiseSymbol target symb) env s r.1 r.2 := by
  refine Machine.evaluates_cop.2 (.inl ⟨[M.symbol ⟨symb, true⟩], s, ?_, h⟩)
  exact Machine.evaluatesArgs_cons.2 (.inr ⟨[], s, Machine.evaluatesArgs_nil.2 ⟨rfl, rfl⟩,
    .inl ⟨_, rfl, evaluates_cconstSymbol.2 ⟨rfl, rfl⟩⟩⟩)

omit [DecidableEq O] in
theorem raises_of_quiet
    (h : ∀ {X σ : Type} {M : Machine O X σ} {env s o s'}, M.Evaluates c env s o s' →
      s' = s ∧ ∃ v, o = .value v) :
    RaisesDivisionByZero target c (raiseSymbol target "caml_exn_Division_by_zero") := by
  refine ⟨fun heval hop => ?_, fun heval => ?_⟩
  · obtain ⟨rfl, -⟩ := h heval; exact evaluates_raiseSymbol hop
  · obtain ⟨-, v, hv⟩ := h heval; cases hv

omit [DecidableEq O] in
theorem divideByZero_raises (target : Target O) (fresh : BackendVar) (c : Expression O) :
    ∃ e, divideByZero target fresh c = .ok e ∧ RaisesDivisionByZero target c e := by
  unfold divideByZero bind
  split
  · refine ⟨_, rfl, raises_of_quiet fun heval => ?_⟩
    obtain ⟨⟨x, -, rfl⟩, rfl⟩ := Machine.evaluates_cvar.1 heval
    exact ⟨rfl, _, rfl⟩
  · refine ⟨_, rfl, raises_of_quiet fun heval => ?_⟩
    obtain ⟨rfl, rfl⟩ := Machine.evaluates_cconstInt.1 heval
    exact ⟨rfl, _, rfl⟩
  · refine ⟨_, rfl, raises_of_quiet fun heval => ?_⟩
    obtain ⟨rfl, rfl⟩ := Machine.evaluates_cconstNatint.1 heval
    exact ⟨rfl, _, rfl⟩
  · refine ⟨_, rfl, raises_of_quiet fun heval => ?_⟩
    obtain ⟨rfl, rfl⟩ := evaluates_cconstSymbol.1 heval
    exact ⟨rfl, _, rfl⟩
  · exact ⟨_, rfl, fun heval hop => Machine.evaluates_clet.2 (.inl ⟨_, _, heval,
      evaluates_raiseSymbol hop⟩), fun heval => Machine.evaluates_clet.2 (.inr ⟨_, _, rfl, heval⟩)⟩

/-- What a helper for a constant divisor should return. -/
def Divides (f : Nativeint → Nativeint) (c : Expression O)
    (result : Except (Fatal O) (Expression O)) : Prop :=
  ∃ e, result = .ok e ∧ ∀ {X σ : Type} (M : Machine O X σ), M.Relates (fun a b => b = f a) c e

omit [DecidableEq O] in
theorem divides_self (hf : ∀ a, f a = a) (c : Expression O) : Divides f c (.ok c) :=
  ⟨c, rfl, fun M => (M.relates_refl c).mono fun a b hb => by rw [hb, hf]⟩

omit [DecidableEq O] in
theorem divides_const {e : Expression O} {a b : Nativeint}
    (hc : getConst c = some a) (he : getConst e = some b) (hf : f a = b) :
    Divides f c (.ok e) :=
  ⟨e, rfl, fun M => (becomes_const (getConst_core hc) he hf.symm).relates M⟩

omit [DecidableEq O] in
/-- One if equal to a constant, zero otherwise. -/
theorem divides_ifEqual (c : Expression O) (d : Nativeint)
    (hf : ∀ a, f a = if a = d then 1 else 0) :
    Divides f c (.ok (cifthenelse (cop (.ccmpi .ceq) [c, cconstNatint d]) (cconstInt 1)
      (cconstInt 0))) := by
  refine ⟨_, rfl, fun M env s o s' heval hnarrow => ?_⟩
  have hconst : getConst (CmmPeepholeEngine.core (cconstNatint d : Expression O)) = some d := rfl
  rcases o with (a | x) | ⟨l, args⟩
  · have hcond : M.Evaluates (cop (.ccmpi .ceq) [c, cconstNatint d]) env s
        (.value (.word (if a = d then 1 else 0))) s' := by
      refine (Machine.evaluates_cop_const rfl hconst).2 (.inl ⟨a, _, heval, ?_, rfl⟩)
      exact congrArg some (if_congr beq_iff_eq rfl rfl)
    refine ⟨_, Machine.evaluates_cifthenelse.2 (.inl ⟨_, _, hcond, ?_⟩), .word (hf a).symm⟩
    split
    · rw [if_pos (by decide)]; exact Machine.evaluates_cconstInt.2 ⟨rfl, rfl⟩
    · rw [if_neg (by decide)]; exact Machine.evaluates_cconstInt.2 ⟨rfl, rfl⟩
  · exact absurd rfl (hnarrow x)
  · refine ⟨_, Machine.evaluates_cifthenelse.2 (.inr ⟨l, args, rfl, ?_⟩), .exit l args⟩
    exact (Machine.evaluates_cop_const rfl hconst).2 (.inr ⟨l, args, rfl, heval⟩)

/-- A divisor that is no special case. -/
structure Ordinary (d : Nativeint) : Prop where
  ne_zero : d ≠ 0
  ne_one : d ≠ 1
  ne_neg_one : d ≠ -1
  ne_min : d ≠ intMin 64
  not_power : isPowerOf2OrZero d = false

theorem Ordinary.two_le (h : Ordinary d) : 2 ≤ d.toInt.natAbs := by
  have h0 : d.toInt ≠ 0 := fun heq => h.ne_zero (eq_of_toInt_eq heq)
  have h1 : d.toInt ≠ 1 := fun heq => h.ne_one (eq_of_toInt_eq (heq.trans (by decide)))
  have h2 : d.toInt ≠ -1 := fun heq =>
    h.ne_neg_one (eq_of_toInt_eq (heq.trans (by decide)))
  omega

/-- A positive power of two, as the signed helpers meet it. -/
theorem signedPower (h0 : d ≠ 0) (h1 : d ≠ 1) (hmin : d ≠ intMin 64)
    (hpow : isPowerOf2OrZero d = true) :
    ∃ l, 1 ≤ l ∧ l ≤ 62 ∧ d.toNat = 2 ^ l ∧ log2Nativeint d = ofNat 63 l := by
  obtain ⟨l, hl, hd⟩ := (isPowerOf2OrZero_iff h0).1 hpow
  have hl0 : l ≠ 0 := by
    rintro rfl
    exact h1 (eq_of_toNat_eq hd)
  have hl63 : l ≠ 63 := by
    rintro rfl
    exact hmin (eq_of_toNat_eq (hd.trans (by decide)))
  refine ⟨l, by omega, by omega, hd, ?_⟩
  have hlt : 2 ^ l ≤ 2 ^ 62 := Nat.pow_le_pow_right (by omega) (by omega)
  have hint := toInt_eq_toNat_cond d
  rw [hd, if_pos (by omega)] at hint
  rw [log2Nativeint, log2_eq, hint, Int.toNat_natCast, Nat.log2_two_pow]

theorem divInt_divides (target : Target O) (fresh : BackendVar) (dividendCannotBeMinInt : Bool)
    (c1 c2 : Expression O) (hc2 : getConst c2 = some d) (hd : d ≠ 0) :
    Divides (fun a => a.sdiv d) c1 (divInt target fresh dividendCannotBeMinInt c1 c2) := by
  unfold divInt
  rw [hc2]
  dsimp only
  rw [if_neg hd]
  split
  · rename_i h1
    exact divides_self (fun a => by rw [h1]; exact BitVec.sdiv_one) c1
  rename_i h1
  split
  · exact divides_const ‹_› (getConst_natintConstUntagged _) rfl
  rename_i hconst
  have hbound : ∀ n, Bound c1 n → Atom n := fun n hn => hn.elim id fun h => by
    rw [hconst] at h
    cases h.2
  split
  · rename_i hneg
    obtain ⟨e, he⟩ := negInt_total c1
    refine ⟨e, he, fun M => (Machine.relates_negInt he).mono fun a b hb => ?_⟩
    dsimp only
    rw [hb, hneg, sdiv_neg_one, show ofInt (-1) = -1 by decide]
    grind
  rename_i hneg
  split
  · rename_i hmin
    subst hmin
    exact divides_ifEqual c1 _ fun a => BitVec.sdiv_intMin
  rename_i hmin
  split
  · rename_i hpow
    obtain ⟨l, hl, hl', hdl, hlog⟩ := signedPower hd h1 hmin hpow
    have hnat : (ofNat 63 l).toNat = l := by
      rw [toNat_ofNat, Nat.mod_eq_of_lt (by omega)]
    rw [hlog, asrConst_bind]
    · refine bind_relates fun n hn => ?_
      obtain ⟨t, ht, htplain, htshift, htmaps⟩ := addRounding_maps hl hl' (hbound n hn)
      obtain ⟨e, he, -, -, hmaps⟩ := asrConst_maps
        (isDefinedShift_of_toNat (n := ofNat 63 l) (by omega)) htplain htshift htmaps
      refine ⟨e, ?_, fun M env a ha => ?_⟩
      · rw [ht]; exact he
      have hgives := hmaps M env a ha
      dsimp only at hgives ⊢
      rw [hnat, sdiv_twoPow hl hl' hdl] at hgives
      exact hgives
    intro e he
    obtain ⟨t, ht, htplain, -, -⟩ := addRounding_maps (O := O) hl hl' (.cvar fresh)
    cases ht.symm.trans he
    exact htplain
  rename_i hpow
  have hord : Ordinary d := ⟨hd, h1, hneg, hmin, Bool.eq_false_iff.2 hpow⟩
  refine bind_relates fun n hn => ?_
  obtain ⟨e, he, -, hmaps⟩ := divByReciprocal_maps hord.two_le hmin (hbound n hn)
  exact ⟨e, he, hmaps⟩

/-- The remainder from the quotient. -/
theorem subMul_maps {c2 : Expression O} (hc2 : getConst c2 = some d)
    (hd : Ordinary d) {q : Expression O} (hn : Atom n)
    (hq : Plain q) (hmaps : Maps f n q) :
    ∃ e, (do subInt n (← mulInt q c2)) = .ok e ∧ Maps (fun a => a - f a * d) n e := by
  have hpow : ∀ k : OcamlInt, c2 = cconstInt k → isPower2 k = false := by
    rintro k rfl
    cases hk : isPower2 k with
    | false => rfl
    | true =>
      obtain ⟨l, hl, -, -, heq⟩ := isPower2_spec hk
      have hd' : d = BitVec.twoPow 64 l := (Option.some.inj hc2).symm.trans heq
      have hpow : isPowerOf2OrZero d = true := by
        refine (isPowerOf2OrZero_iff hd.ne_zero).2 ⟨l, by omega, ?_⟩
        rw [hd', BitVec.toNat_twoPow, Nat.mod_eq_of_lt (Nat.pow_lt_pow_right (by omega) (by omega))]
      rw [hd.not_power] at hpow
      cases hpow
  have hmul := mulInt_plain hq hc2 hd.ne_zero hd.ne_one hd.ne_neg_one hpow
  have hdebug : c2.containsDebugOnlyConstructs = false := by
    cases c2 <;> first | rfl | cases hc2
  have hmulmaps : Maps (fun a => f a * d) n (cop .cmuli [q, c2]) := fun M env a ha =>
    gives_cop rfl rfl (hmaps M env a ha) (gives_const hc2)
  obtain ⟨e, he, -, -, hemaps⟩ := subInt_maps hn.plain
    (.cop (by simp) (by simp) hq.noDebug hdebug) (fun _ _ _ ha => ha) hmulmaps
  refine ⟨e, ?_, hemaps⟩
  rw [hmul]
  exact he

omit [DecidableEq O] in
/-- Zero if equal to a constant, the dividend otherwise. -/
theorem zeroIfEqual_maps (d : Nativeint) : Maps (fun a => if a = d then 0 else a) n
      (cifthenelse (cop (.ccmpi .ceq) [n, cconstNatint d]) (cconstInt 0) n) := by
  intro X σ M env a ha s
  have hcond : M.Evaluates (cop (.ccmpi .ceq) [n, cconstNatint d]) env s
      (.value (.word (if a = d then 1 else 0))) s := by
    refine gives_cop (b := d) rfl ?_ ha (gives_const rfl) s
    exact congrArg some (if_congr beq_iff_eq rfl rfl)
  refine Machine.evaluates_cifthenelse.2 (.inl ⟨_, _, hcond, ?_⟩)
  dsimp only
  split
  · rw [if_pos (by decide)]; exact Machine.evaluates_cconstInt.2 ⟨rfl, rfl⟩
  · rw [if_neg (by decide)]; exact ha s

theorem modInt_divides (target : Target O) (fresh : BackendVar) (dividendCannotBeMinInt : Bool)
    (c1 c2 : Expression O) (hc2 : getConst c2 = some d) (hd : d ≠ 0) :
    Divides (fun a => a.srem d) c1 (modInt target fresh dividendCannotBeMinInt c1 c2) := by
  unfold modInt
  rw [hc2]
  dsimp only
  rw [if_neg hd]
  split
  · rename_i h1
    simp only [Bool.or_eq_true, decide_eq_true_eq] at h1
    refine bind_relates fun n hn => ⟨_, rfl, fun M env a ha => gives_const ?_⟩
    dsimp only
    rw [srem_one_or_neg_one h1 a]
    rfl
  rename_i h1
  simp only [Bool.or_eq_true, decide_eq_true_eq, not_or] at h1
  split
  · exact divides_const ‹_› (getConst_natintConstUntagged _) rfl
  rename_i hconst
  have hbound : ∀ n, Bound c1 n → Atom n := fun n hn => hn.elim id fun h => by
    rw [hconst] at h
    cases h.2
  split
  · rename_i hmin
    subst hmin
    refine bind_relates fun n hn => ⟨_, rfl, fun M env a ha => ?_⟩
    dsimp only
    rw [srem_intMin]
    exact zeroIfEqual_maps (intMin 64) M env a ha
  rename_i hmin
  split
  · rename_i hpow
    obtain ⟨l, hl, hl', hdl, hlog⟩ := signedPower hd h1.1 hmin hpow
    rw [hlog]
    refine bind_relates fun n hn => ?_
    have hn := hbound n hn
    obtain ⟨t, ht, htplain, -, htmaps⟩ := addRounding_maps hl hl' hn
    have handmaps : Maps (fun a => (a + (a.sshiftRight (l - 1)) >>> (64 - l)) &&& -d) n
        (cop .cand [t, cconstNatint (-d)]) := fun M env a ha =>
      gives_cop rfl rfl (htmaps M env a ha) (gives_const rfl)
    obtain ⟨e, he, -, -, hmaps⟩ := subInt_maps hn.plain
      (.cop (by simp) (by simp) htplain.noDebug rfl) (fun _ _ _ ha => ha) handmaps
    refine ⟨e, ?_, fun M env a ha => ?_⟩
    · rw [ht]; exact he
    have hgives := hmaps M env a ha
    dsimp only at hgives ⊢
    rw [and_neg_twoPow (by omega) hdl, sdiv_twoPow hl hl' hdl, sub_sdiv_mul] at hgives
    exact hgives
  rename_i hpow
  have hord : Ordinary d := ⟨hd, h1.1, h1.2, hmin, Bool.eq_false_iff.2 hpow⟩
  refine bind_relates fun n hn => ?_
  have hn := hbound n hn
  obtain ⟨q, hq, hqplain, hqmaps⟩ := divByReciprocal_maps hord.two_le hmin hn
  have hdiv : divInt target (fresh + 1) false n c2 = .ok q := by
    unfold divInt
    rw [hc2, hn.plain.getConst_eq]
    dsimp only
    rw [if_neg hd, if_neg h1.1, if_neg h1.2, if_neg hmin, if_neg hpow, hn.bind_eq]
    exact hq
  obtain ⟨e, he, hmaps⟩ := subMul_maps hc2 hord hn hqplain hqmaps
  refine ⟨e, ?_, fun M env a ha => ?_⟩
  · rw [hdiv]; exact he
  dsimp only
  rw [← sub_sdiv_mul]
  exact hmaps M env a ha

/-- Signed division and remainder by a constant. The loop of `divimm_parameters`
stops with a reciprocal; for a divisor other than zero, both helpers return, and
what they return computes the truncating quotient and remainder; for zero, it
raises. -/
theorem signedDivision_const (target : Target O) (fresh : BackendVar)
    (dividendCannotBeMinInt : Bool) (c1 c2 : Expression O) {d : Nativeint}
    (hc2 : getConst c2 = some d) :
    (1 < d.toInt.natAbs → d ≠ intMin 64 → ∃ m s, divimmParameters d = some (m, s) ∧
      ∀ n, (signedQuotient d m s n).toInt = n.toInt.tdiv d.toInt) ∧
    (d ≠ 0 → ∃ q r, divInt target fresh dividendCannotBeMinInt c1 c2 = .ok q ∧
      modInt target fresh dividendCannotBeMinInt c1 c2 = .ok r ∧
      ∀ {X σ : Type} (M : Machine O X σ),
        M.Relates (fun n v => v.toInt = (n.toInt.tdiv d.toInt).bmod (2 ^ 64)) c1 q ∧
        M.Relates (fun n v => v.toInt = n.toInt.tmod d.toInt) c1 r) ∧
    (d = 0 → ∃ q r, divInt target fresh dividendCannotBeMinInt c1 c2 = .ok q ∧
      modInt target fresh dividendCannotBeMinInt c1 c2 = .ok r ∧
      RaisesDivisionByZero target c1 q ∧ RaisesDivisionByZero target c1 r) := by
  refine ⟨fun hd hmin => ?_, fun hd => ?_, ?_⟩
  · obtain ⟨m, s, hparams, hspec, hfirst⟩ := divimmParameters_spec hd hmin
    refine ⟨m, s, hparams, fun n => ?_⟩
    have hne : d ≠ -1 := by
      rintro rfl
      exact absurd hd (by decide)
    rw [signedQuotient_eq hspec hd hmin hfirst, BitVec.toInt_sdiv_of_ne_or_ne n d (.inr hne)]
  · obtain ⟨q, hq, hqrel⟩ := divInt_divides target fresh dividendCannotBeMinInt c1 c2 hc2 hd
    obtain ⟨r, hr, hrrel⟩ := modInt_divides target fresh dividendCannotBeMinInt c1 c2 hc2 hd
    refine ⟨q, r, hq, hr, fun M => ⟨(hqrel M).mono ?_, (hrrel M).mono ?_⟩⟩
    · rintro n v rfl; exact toInt_sdiv n d
    · rintro n v rfl; exact toInt_srem n d
  rintro rfl
  obtain ⟨q, hq, hraises⟩ := divideByZero_raises target fresh c1
  refine ⟨q, q, ?_, ?_, hraises, hraises⟩
  · unfold divInt
    rw [hc2]
    exact hq
  unfold modInt
  rw [hc2]
  exact hq

theorem signedDivision_const_seven : getConst (cconstInt 7 : Expression Unit) = some 7 ∧
      ∃ q r, divInt (O := Unit) ⟨true, ()⟩ 1 false (cvar 0) (cconstInt 7) = .ok q ∧
        modInt (O := Unit) ⟨true, ()⟩ 1 false (cvar 0) (cconstInt 7) = .ok r ∧
        ∀ {X σ : Type} (M : Machine Unit X σ),
          M.Relates (fun n v => v.toInt = (n.toInt.tdiv 7).bmod (2 ^ 64)) (cvar 0) q ∧
          M.Relates (fun n v => v.toInt = n.toInt.tmod 7) (cvar 0) r :=
  ⟨rfl, (signedDivision_const ⟨true, ()⟩ 1 false (cvar 0) (cconstInt 7) (d := 7) rfl).2.1
    (by decide)⟩

/-! ## §4 Unsigned division -/

/-- A divisor that is neither zero nor a power of two. -/
structure Irregular (d : Nativeint) : Prop where
  ne_zero : d ≠ 0
  not_power : ∀ k, d.toNat ≠ 2 ^ k

theorem Irregular.pos (h : Irregular d) : 0 < d.toNat :=
  Nat.pos_of_ne_zero fun h0 => h.ne_zero (eq_of_toNat_eq h0)

theorem Irregular.mod_ne_zero (h : Irregular d) (p : Nat) : 2 ^ p % d.toNat ≠ 0 := fun h0 => by
  obtain ⟨k, -, hk⟩ := (Nat.dvd_prime_pow Nat.prime_two).1 (Nat.dvd_of_mod_eq_zero h0)
  exact h.not_power k hk

theorem mulByReciprocal_maps {d m : Nativeint} {nc s : Nat} {a : Bool}
    (hrange : UnsignedRange d.toNat nc) (hspec : UnsignedParameters d.toNat nc m a s)
      (hn : Atom n) :
    ∃ e, mulByReciprocal n (some (m, a, s)) = .ok e ∧ Plain e ∧ Maps (fun a => a.udiv d) n e := by
  have hvalue := unsignedQuotient_eq hspec hrange
  have hself : Maps (fun a => a) n n := fun _ _ _ ha => ha
  have hmulhi : Maps (fun a => mulhi false a m) n
      (cop (.cmulhi false) [n, natintConstUntagged m]) := fun M env a ha =>
    gives_cop rfl rfl ha (gives_natint m)
  have hplain : Plain (cop (.cmulhi false) [n, natintConstUntagged m]) :=
    .cop (by simp) (by simp) hn.plain.noDebug (noDebug_natint m)
  have hshift := hspec.shift
  rw [mulByReciprocal]
  cases a with
  | false =>
    have hs : s ≤ 63 := hshift
    have hnat : (ofNat 63 s).toNat = s := by
      rw [toNat_ofNat, Nat.mod_eq_of_lt (by omega)]
    obtain ⟨e, he, heplain, hemaps⟩ := lsrConst_maps
      (isDefinedShift_of_toNat (n := ofNat 63 s) (by omega)) hplain (.inl rfl) hmulhi
    refine ⟨e, he, heplain, fun M env a ha => ?_⟩
    have hgives := hemaps M env a ha
    dsimp only at hgives ⊢
    rw [hnat] at hgives
    rw [← hvalue]
    exact hgives
  | true =>
    obtain ⟨hs, hs'⟩ := hshift
    have hnat : (ofNat 63 (s - 1)).toNat = s - 1 := by
      rw [toNat_ofNat, Nat.mod_eq_of_lt (by omega)]
    obtain ⟨t, ht, htplain, htshift, htmaps⟩ := subInt_maps hn.plain hplain hself hmulhi
    obtain ⟨t₁, ht₁, ht₁plain, ht₁maps⟩ := lsrConst_maps (k := 1) (by decide) htplain
      (.inl htshift) htmaps
    obtain ⟨t₂, ht₂, ht₂plain, ht₂shift, ht₂maps⟩ := addInt_maps ht₁plain hplain ht₁maps hmulhi
    obtain ⟨e, he, heplain, hemaps⟩ := lsrConst_maps
      (isDefinedShift_of_toNat (n := ofNat 63 (s - 1)) (by omega)) ht₂plain
      (.inl ht₂shift) ht₂maps
    refine ⟨e, ?_, heplain, fun M env a ha => ?_⟩
    · rw [ht]
      dsimp only [Bind.bind, Except.bind]
      rw [ht₁]
      dsimp only
      rw [ht₂]
      exact he
    have hgives := hemaps M env a ha
    dsimp only at hgives ⊢
    rw [hnat] at hgives
    rw [← hvalue, unsignedQuotient]
    exact hgives

theorem unsignedDivByReciprocal_maps (hd : Irregular d) (hn : Atom n) :
    ∃ e, unsignedDivByReciprocal d n = .ok e ∧ Plain e ∧ Maps (fun a => a.udiv d) n e := by
  obtain ⟨nc, m, a, s, hparams, hrange, hspec⟩ := udivimmParameters_spec hd.pos hd.mod_ne_zero
  obtain ⟨e, he, hplain, hmaps⟩ := mulByReciprocal_maps hrange hspec hn
  refine ⟨e, ?_, hplain, hmaps⟩
  rw [unsignedDivByReciprocal, hparams, he]

theorem irregular_of_not_power (h0 : d ≠ 0) (hpow : ¬ isPowerOf2OrZero d = true) : Irregular d := by
  refine ⟨h0, fun k hk => hpow ((isPowerOf2OrZero_iff h0).2 ⟨k, ?_, hk⟩)⟩
  have hlt := d.isLt
  rw [hk] at hlt
  exact (Nat.pow_lt_pow_iff_right (by omega)).1 hlt

theorem udiv_neg_one (n : Nativeint) : n.udiv (-1) = if n = -1 then 1 else 0 := by
  have hneg : (-1 : Nativeint).toNat = 2 ^ 64 - 1 := by decide
  apply eq_of_toNat_eq
  split
  · rename_i h
    rw [h]
    decide
  rename_i h
  have hne : n.toNat ≠ 2 ^ 64 - 1 := fun heq => h (eq_of_toNat_eq (heq.trans hneg.symm))
  exact Nat.div_eq_of_lt (by omega)

theorem umod_neg_one (n : Nativeint) : n.umod (-1) = if n = -1 then 0 else n := by
  split
  · rename_i h
    rw [h]
    decide
  · grind

theorem udiv_twoPow (hd : d.toNat = 2 ^ l) (n : Nativeint) : n >>> l = n.udiv d := by
  apply eq_of_toNat_eq
  rw [BitVec.toNat_ushiftRight, Nat.shiftRight_eq_div_pow, ← hd]
  exact BitVec.toNat_udiv.symm

theorem umod_twoPow (hd : d.toNat = 2 ^ l) (n : Nativeint) : n &&& (d - 1) = n.umod d := by
  have hpos : 0 < 2 ^ l := Nat.two_pow_pos l
  have hpred : (d - 1).toNat = 2 ^ l - 1 := by
    have hle : (1 : Nativeint) ≤ d := le_def.2 (show 1 ≤ d.toNat by omega)
    rw [toNat_sub_of_le hle, hd]
    rfl
  apply eq_of_toNat_eq
  rw [BitVec.toNat_and, hpred, Nat.and_two_pow_sub_one_eq_mod, ← hd]
  exact toNat_umod.symm

/-- A logical shift by a constant, which always returns. -/
theorem divides_lsrConst (hl : l < 64) (hd : d.toNat = 2 ^ l)
    (c : Expression O) : Divides (fun a => a.udiv d) c (lsrConst c (ofNat 63 l)) := by
  have hnat : (ofNat 63 l).toNat = l := by
    rw [toNat_ofNat, Nat.mod_eq_of_lt (by omega)]
  obtain ⟨e, he⟩ := ok_of_ne_error (lsrInt_ne_error c (ofNat 63 l))
  have hdefined := isDefinedShift_of_toNat (n := ofNat 63 l) (by omega)
  refine ⟨e, he, fun M => ((lsrInt_becomes hdefined he).relates M).mono fun a b hb => ?_⟩
  rw [hb, hnat, udiv_twoPow hd]

theorem unsignedDivInt_divides (target : Target O) (fresh : BackendVar) (c1 c2 : Expression O)
    (hc2 : getConst c2 = some d) (hd : d ≠ 0) :
    Divides (fun a => a.udiv d) c1 (unsignedDivInt target fresh c1 c2) := by
  unfold unsignedDivInt
  rw [hc2]
  dsimp only
  rw [if_neg hd]
  split
  · rename_i h1
    exact divides_self (fun a => by rw [h1]; exact BitVec.udiv_one) c1
  rename_i h1
  split
  · exact divides_const ‹_› (getConst_natintConstUntagged _) rfl
  rename_i hconst
  split
  · rename_i hneg
    subst hneg
    exact divides_ifEqual c1 _ udiv_neg_one
  split
  · rename_i hpow
    split
    · rename_i hmin
      exact divides_lsrConst (l := 63) (by omega) (hmin ▸ by decide) c1
    rename_i hmin
    obtain ⟨l, -, hl, hdl, hlog⟩ := signedPower hd h1 hmin hpow
    rw [hlog]
    exact divides_lsrConst (by omega) hdl c1
  rename_i hpow
  refine bind_relates fun n hn => ?_
  have hatom : Atom n := hn.elim id fun h => by
    rw [hconst] at h
    cases h.2
  obtain ⟨e, he, -, hmaps⟩ :=
    unsignedDivByReciprocal_maps (irregular_of_not_power hd hpow) hatom
  exact ⟨e, he, hmaps⟩

theorem unsignedModInt_divides (target : Target O) (fresh : BackendVar) (c1 c2 : Expression O)
    (hc2 : getConst c2 = some d) (hd : d ≠ 0) :
    Divides (fun a => a.umod d) c1 (unsignedModInt target fresh c1 c2) := by
  unfold unsignedModInt
  rw [hc2]
  dsimp only
  rw [if_neg hd]
  split
  · rename_i h1
    refine bind_relates fun n hn => ⟨_, rfl, fun M env a ha => gives_const ?_⟩
    dsimp only
    rw [h1, show a.umod 1 = 0 from BitVec.umod_one]
    rfl
  rename_i h1
  split
  · exact divides_const ‹_› (getConst_natintConstUntagged _) rfl
  rename_i hconst
  have hbound : ∀ n, Bound c1 n → Atom n := fun n hn => hn.elim id fun h => by
    rw [hconst] at h
    cases h.2
  split
  · rename_i hneg
    subst hneg
    refine bind_relates fun n hn => ⟨_, rfl, fun M env a ha => ?_⟩
    dsimp only
    rw [umod_neg_one]
    exact zeroIfEqual_maps (-1) M env a ha
  rename_i hneg
  split
  · rename_i hpow
    obtain ⟨l, -, hdl⟩ := (isPowerOf2OrZero_iff hd).1 hpow
    obtain ⟨e, he⟩ := ok_of_ne_error (andConst_ne_error c1 (d - 1))
    refine ⟨e, he, fun M => ((andConst_becomes he).relates M).mono fun a b hb => ?_⟩
    rw [hb, umod_twoPow hdl]
  rename_i hpow
  have hirr := irregular_of_not_power hd hpow
  have hmin : d ≠ intMin 64 := fun h => hirr.not_power 63 (h ▸ by decide)
  have hord : Ordinary d := ⟨hd, h1, hneg, hmin, Bool.eq_false_iff.2 hpow⟩
  refine bind_relates fun n hn => ?_
  have hn := hbound n hn
  obtain ⟨q, hq, hqplain, hqmaps⟩ := unsignedDivByReciprocal_maps hirr hn
  have hdiv : unsignedDivInt target (fresh + 1) n c2 = .ok q := by
    unfold unsignedDivInt
    rw [hc2, hn.plain.getConst_eq]
    dsimp only
    rw [if_neg hd, if_neg h1, if_neg hneg, if_neg hpow, hn.bind_eq]
    exact hq
  obtain ⟨e, he, hmaps⟩ := subMul_maps hc2 hord hn hqplain hqmaps
  refine ⟨e, ?_, fun M env a ha => ?_⟩
  · rw [hdiv]; exact he
  dsimp only
  rw [← sub_udiv_mul]
  exact hmaps M env a ha

/-- Unsigned division and remainder by a constant. The loop of `udivimm_parameters`
stops with a legal shift and a reciprocal that is exact for every dividend, and both
helpers return code that computes the unsigned quotient and remainder. -/
theorem unsignedDivision_const (target : Target O) (fresh : BackendVar) (c1 c2 : Expression O)
    {d : Nativeint} (hc2 : getConst c2 = some d) (hd : d ≠ 0) :
    ((∀ k, d.toNat ≠ 2 ^ k) → ∃ m a s, udivimmParameters d = some (m, a, s) ∧
      (if a then 1 ≤ s ∧ s ≤ 64 else s ≤ 63) ∧
      ∀ n : Nativeint, n.toNat * (m.toNat + a.toNat * 2 ^ 64) / 2 ^ (64 + s) = n.toNat / d.toNat) ∧
    ∃ q r, unsignedDivInt target fresh c1 c2 = .ok q ∧ unsignedModInt target fresh c1 c2 = .ok r ∧
      ∀ {X σ : Type} (M : Machine O X σ), M.Relates (fun n v => v.toNat = n.toNat / d.toNat) c1 q ∧
        M.Relates (fun n v => v.toNat = n.toNat % d.toNat) c1 r := by
  refine ⟨fun hpow => ?_, ?_⟩
  · have hirr : Irregular d := ⟨hd, hpow⟩
    obtain ⟨nc, m, a, s, hparams, hrange, hspec⟩ :=
      udivimmParameters_spec hirr.pos hirr.mod_ne_zero
    exact ⟨m, a, s, hparams, hspec.shift, hspec.mul_div_eq hrange⟩
  obtain ⟨q, hq, hqrel⟩ := unsignedDivInt_divides target fresh c1 c2 hc2 hd
  obtain ⟨r, hr, hrrel⟩ := unsignedModInt_divides target fresh c1 c2 hc2 hd
  refine ⟨q, r, hq, hr, fun M => ⟨(hqrel M).mono ?_, (hrrel M).mono ?_⟩⟩
  · rintro n v rfl; exact BitVec.toNat_udiv
  · rintro n v rfl; exact toNat_umod

theorem unsignedDivision_const_seven :
    getConst (cconstInt 7 : Expression Unit) = some 7 ∧ (7 : Nativeint) ≠ 0 ∧
      ∃ q r, unsignedDivInt (O := Unit) ⟨true, ()⟩ 1 (cvar 0) (cconstInt 7) = .ok q ∧
        unsignedModInt (O := Unit) ⟨true, ()⟩ 1 (cvar 0) (cconstInt 7) = .ok r ∧
        ∀ {X σ : Type} (M : Machine Unit X σ),
          M.Relates (fun n v => v.toNat = n.toNat / 7) (cvar 0) q ∧
          M.Relates (fun n v => v.toNat = n.toNat % 7) (cvar 0) r :=
  ⟨rfl, by decide,
    (unsignedDivision_const ⟨true, ()⟩ 1 (cvar 0) (cconstInt 7) (d := 7) rfl (by decide)).2⟩

end Oxcaml.Backend.CmmHelpers
