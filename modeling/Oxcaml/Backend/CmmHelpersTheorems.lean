/-
Oxcaml.Backend.CmmHelpersTheorems — the peepholes keep what they compute.

One theorem for each helper of `CmmHelpers`. With a constant operand it is a
`Becomes`; with two operands it is a `Computes2`, for `Independent` operands.
Both versions of a helper, by hand and by the engine, have the same theorem.
-/
import Oxcaml.Backend.CmmRefinement
import Oxcaml.Backend.CmmWords

set_option linter.all false

namespace Oxcaml.Backend

open BitVec (and_zero or_zero shiftLeft_add shiftRight_add xor_zero)
open Option (ite_none_right_eq_some map_eq_some_iff)
open Nat (strongRecOn)

open Expression CmmPeepholeEngine CmmHelpers

variable {O X σ : Type}

/-! ## §1 Additions against disjunctions -/

section

variable {R : Nativeint → Nativeint → Prop} {n : Nat} {c d e : Expression O}

/-- The same behaviour and shape. -/
theorem becomes_of_evaluates (hw : e.weight = c.weight)
    (hΦ : ∀ {Φ : Expression O → Prop}, Hereditary Φ → Φ c → Φ e)
    (hev : ∀ {X σ : Type} {M : Machine O X σ} {env s o s'}, M.Evaluates c env s o s' →
      M.Evaluates e env s o s') : Becomes (fun a b => b = a) 0 c e := by
  refine ⟨Nat.le_of_eq hw, hΦ, fun M env s o s' hc hn => ?_⟩
  exact Machine.relates_refl e env s o s' (hev hc) hn

theorem Becomes.after (h : Becomes (fun a b => b = a) 0 c d) (h' : Becomes R n d e) :
    Becomes R n c e := by
  refine (h.trans h').mono ?_ (by omega)
  rintro a b ⟨x, rfl, hR⟩
  exact hR

/-- Only the words that the source can end with matter. -/
theorem Becomes.of_values {P : Nativeint → Prop} (h : Becomes R n c e)
    (hP : ∀ (X σ : Type) (M : Machine O X σ) env s a s',
      M.Evaluates c env s (.value (.word a)) s' → P a) :
    Becomes (fun a b => P a ∧ R a b) n c e := by
  refine ⟨h.weight_le, h.hereditary, fun M env s o s' hc hn => ?_⟩
  obtain ⟨o', he, hrel⟩ := h.relates M env s o s' hc hn
  refine ⟨o', he, ?_⟩
  cases hrel with
  | word hab => exact .word ⟨hP _ _ _ _ _ _ _ hc, hab⟩
  | exit l args => exact .exit l args

theorem Becomes.value_congr (h : Becomes R n c e) {S : Nativeint → Nativeint → Prop}
    (hRS : ∀ a b, R a b → S a b) : Becomes S n c e := h.mono hRS (Nat.le_refl _)

end

namespace Machine

variable {M : Machine O X σ} {s s' : σ} {env : Bindings X}

theorem add_eq_or_of_canInterchange {c : Expression O} {n : OcamlInt}
    (h : canInterchangeAddWithOr c n = true) {a : Nativeint}
    (hc : M.Evaluates c env s (.value (.word a)) s') : a + ofInt n = a ||| ofInt n := by
  unfold canInterchangeAddWithOr at h
  split at h
  · rw [Bool.and_eq_true, beq_iff_eq] at h
    obtain ⟨hdef, hzero⟩ := h
    obtain ⟨hlt, hnat, -⟩ := toNat_of_isDefinedShift hdef
    rcases (evaluates_cop_const rfl rfl).1 hc with ⟨v, w, -, hw, heq⟩ | ⟨l, args, heq, -⟩
    · cases heq
      rw [word2, shift, if_pos (by omega), hnat, Option.some.injEq] at hw
      rw [← hw]
      exact add_eq_or_of_interchange hzero v
    · cases heq
  · cases h

theorem evaluates_interchange {c : Expression O} {n : OcamlInt}
    (h : canInterchangeAddWithOr c n = true) {o : Outcome X} :
    M.Evaluates (cop .caddi [c, cconstInt n]) env s o s' ↔
      M.Evaluates (cop .cor [c, cconstInt n]) env s o s' := by
  rw [evaluates_cop_const rfl rfl, evaluates_cop_const rfl rfl]
  refine or_congr (exists_congr fun a => exists_congr fun v => and_congr_right fun hc => ?_) Iff.rfl
  rw [word2, word2, add_eq_or_of_canInterchange h hc]

end Machine

namespace Machine

variable {M : Machine O X σ}

theorem refines_preferAdd (c : Expression O) : M.Refines c (preferAdd c) := by
  intro env s o s' hc
  unfold preferAdd
  split
  · split
    · exact (evaluates_interchange ‹_›).2 hc
    · exact hc
  · exact hc

theorem refines_preferOr (c : Expression O) : M.Refines c (preferOr c) := by
  intro env s o s' hc
  unfold preferOr
  split
  · split
    · exact (evaluates_interchange ‹_›).1 hc
    · exact hc
  · exact hc

theorem refines_core (c : Expression O) : M.Refines c (core c) :=
  fun _ _ _ _ hc => (evaluates_core c).2 hc

end Machine

theorem becomes_preferAdd (c : Expression O) : Becomes (fun a b => b = a) 0 c (preferAdd c) := by
  refine becomes_of_evaluates (weight_preferAdd c) (fun hΦ hc => ?_)
    (Machine.refines_preferAdd c _ _ _ _)
  unfold preferAdd
  split
  · split
    · exact (hΦ.cop_const rfl rfl).2 ((hΦ.cop_const rfl rfl).1 hc)
    · exact hc
  · exact hc

theorem becomes_preferOr (c : Expression O) : Becomes (fun a b => b = a) 0 c (preferOr c) := by
  refine becomes_of_evaluates (weight_preferOr c) (fun hΦ hc => ?_)
    (Machine.refines_preferOr c _ _ _ _)
  unfold preferOr
  split
  · split
    · exact (hΦ.cop_const rfl rfl).2 ((hΦ.cop_const rfl rfl).1 hc)
    · exact hc
  · exact hc

/-! ## §2 What a rule of the engine reads -/

section

variable {env env' : Env O} {e : Expression O} {n : OcamlInt} {v : PatternVar .int}

theorem core_of_fits_int (h : Fits env (.constInt v) e)
    (hv : env.int v = .ok n) : core e = cconstInt n := by
  obtain ⟨m, he, hm⟩ := h
  cases hm.symm.trans (int_eq.1 hv)
  exact he

/-- The guard was tried on fewer variables, with the same values. -/
theorem int_of_extends (h : env'.Extends env)
    (hv : env'.int v = .ok n) : env.int v = .ok n := int_eq.2 (h.ints _ _ (int_eq.1 hv))

variable {pat : CmmPattern O}

theorem guard_of_fits {guard : Env O → Except (Fatal O) Bool}
    (h : Fits env (.guarded pat guard) e) :
    Fits env pat e ∧ ∃ env', env'.Extends env ∧ guard env' = .ok true := h

/-- The guard on one integer, at the value that the rule reads. -/
theorem guard1_of_fits {p : OcamlInt → Bool}
    (h : Fits env (.guarded pat fun env => do pure (p (← env.int v))) e)
    (hv : env.int v = .ok n) : p n = true := by
  obtain ⟨-, env', hext, hguard⟩ := h
  obtain ⟨n', hn', hguard⟩ := bind_ok hguard
  cases (int_of_extends hext hn').symm.trans hv
  exact Except.ok.inj hguard

/-- The guard on two integers. -/
theorem guard2_of_fits {v' : PatternVar .int} {p : OcamlInt → OcamlInt → Bool}
    (h : Fits env (.guarded pat fun env => do pure (p (← env.int v) (← env.int v'))) e)
    {n' : OcamlInt} (hv : env.int v = .ok n) (hv' : env.int v' = .ok n') : p n n' = true := by
  obtain ⟨-, env', hext, hguard⟩ := h
  obtain ⟨m, hm, hguard⟩ := bind_ok hguard
  obtain ⟨m', hm', hguard⟩ := bind_ok hguard
  cases (int_of_extends hext hm).symm.trans hv
  cases (int_of_extends hext hm').symm.trans hv'
  exact Except.ok.inj hguard

end

/-! ## §3 Additions of a constant -/

variable [DecidableEq O]

/-- `e` adds the constant `n` to `c`. -/
def Adds (n : Nativeint) (c e : Expression O) : Prop := Becomes (fun a b => b = a + n) 2 c e

omit [DecidableEq O] in
theorem adds_addNoOverflow {n x : OcamlInt} (h : noOverflowAdd n x = true) (c : Expression O) :
    Adds (ofInt n + ofInt x) c (addNoOverflow n x c) := by
  rw [← ofInt_add h]
  unfold addNoOverflow
  dsimp only
  split
  · rename_i h0
    rw [h0]
    exact (becomes_refl c).mono (fun a b hb => by rw [hb]; exact (BitVec.add_zero a).symm)
      (by omega)
  · exact becomes_cop rfl rfl

variable {n : OcamlInt} {c e arg1 arg2 c1 c2 d : Expression O}

omit [DecidableEq O] in
theorem addConstDirect_adds (h : addConstDirect c n = .ok e) : Adds (ofInt n) c e := by
  induction hw : c.weight using strongRecOn generalizing c e n with | ind w ih =>
rw [addConstDirect] at h
split at h
· rename_i h0
  subst h0
  cases h
  exact (becomes_refl c).mono (fun a b hb => by rw [hb]; exact (BitVec.add_zero a).symm)
    (by omega)
obtain ⟨t, ht, rfl⟩ := mapTail1_ok h
apply Becomes.setTail
have hle := weight_tail_le c
have hwt := weight_preferAdd c.tail
have hdefault : Adds (ofInt n) c.tail (cop .caddi [c.tail, cconstInt n]) := becomes_cop rfl rfl
have hprefer := becomes_preferAdd c.tail
split at ht
· rename_i x hc
  rw [hc] at hprefer
  split at ht
  · rename_i hov
    cases ht
    refine hprefer.after ((becomes_const rfl rfl ?_).mono (fun _ _ h => h) (by omega))
    exact ofInt_add hov
  · cases ht; exact hdefault
· rename_i x c' hc
  rw [hc] at hprefer
  split at ht
  · rename_i hov
    cases ht
    refine hprefer.after (.of_const_cop rfl rfl ?_ (Nat.le_add_right 2 2))
    exact (adds_addNoOverflow hov c').value_congr fun a b hb => by rw [hb]; grind
  split at ht
  · rename_i x' _
    split at ht
    · rename_i hov
      cases ht
      refine hprefer.after (.of_cop rfl rfl ?_ (Nat.le_add_right 2 2))
      exact (adds_addNoOverflow hov (cconstInt x)).value_congr fun a b hb => by
        rw [hb]; grind
    · cases ht; exact hdefault
  · cases ht; exact hdefault
· rename_i c' x _ hc
  rw [hc] at hprefer
  split at ht
  · rename_i hov
    cases ht
    refine hprefer.after (.of_cop rfl rfl ?_ (Nat.le_add_right 2 2))
    exact (adds_addNoOverflow hov c').value_congr fun a b hb => by rw [hb]; grind
  · cases ht; exact hdefault
· rename_i x c' hc
  rw [hc] at hprefer
  split at ht
  · rename_i hov
    cases ht
    refine hprefer.after (.of_const_cop rfl rfl (n := 2) ?_ (Nat.le_add_right 2 2))
    refine (becomes_const_cop rfl rfl).value_congr fun a b hb => ?_
    rw [hb, ofInt_add hov]
    grind
  split at ht
  · rename_i x' _
    split at ht
    · rename_i hov
      have hlt : (cconstInt x : Expression O).weight < w := by
        rw [hc] at hwt
        simp only [weight, weightList] at hwt ⊢
        omega
      refine hprefer.after (.of_cop rfl rfl ?_ (Nat.le_add_right 2 2))
      refine (ih _ hlt ht rfl).value_congr fun a b hb => ?_
      rw [hb, ofInt_sub hov]
      grind
    · cases ht; exact hdefault
  · cases ht; exact hdefault
· rename_i c' x _ hc
  rw [hc] at hprefer
  split at ht
  · rename_i hov
    have hlt : c'.weight < w := by
      rw [hc] at hwt
      simp only [weight, weightList] at hwt ⊢
      omega
    refine hprefer.after (.of_cop rfl rfl ?_ (Nat.le_add_right 2 2))
    refine (ih _ hlt ht rfl).value_congr fun a b hb => ?_
    rw [hb, ofInt_sub hov]
    grind
  · cases ht; exact hdefault
· cases ht; exact hdefault

omit [DecidableEq O] in
theorem addConst'_adds {arg : Expression O} {k : OcamlInt} (h : addConst' arg k = .ok e) :
    Adds (ofInt k) arg e := by
  induction hw : arg.weight using strongRecOn generalizing arg e k with | ind w ih =>
rw [addConst'] at h
obtain ⟨t, ht, rfl⟩ := mapTail1_ok h
apply Becomes.setTail
have hle := weight_tail_le arg
have hwt := weight_preferAdd arg.tail
refine (becomes_preferAdd arg.tail).after ?_
generalize preferAdd arg.tail = d at ht hwt
rcases matchClausesInOrder_ok ht with rfl | ⟨clause, hmem, env, hmatch, a, ha, rfl⟩
· exact becomes_cop rfl rfl
apply Becomes.placePhantomLets
have hfits := (match_fits hmatch).2
simp only [List.mem_cons, List.not_mem_nil, or_false] at hmem
rcases hmem with rfl | rfl | rfl | rfl | rfl | rfl
· obtain ⟨h1, h2⟩ := fits_cop hfits
  cases h2
  rw [eq_core_of_fits h1 ha]
  refine (Becomes.of_core (becomes_refl (core d))).mono (fun a b hb => ?_) (by omega)
  rw [hb]
  exact (BitVec.add_zero a).symm
· obtain ⟨x, hx, ha⟩ := bind_ok ha
  obtain ⟨m, hm, ha⟩ := bind_ok ha
  cases ha
  have hov := guard2_of_fits hfits hm hx
  obtain ⟨h1, h2⟩ := fits_cop (guard_of_fits hfits).1
  cases core_of_fits_int h2 hm
  have hd : getConst (core d) = some (ofInt x) := by rw [core_of_fits_int h1 hx]; rfl
  refine (becomes_const hd rfl ?_).mono (fun _ _ h => h) (by omega)
  rw [BitVec.add_comm, ofInt_add hov, BitVec.add_comm]
· obtain ⟨m, hm, ha⟩ := bind_ok ha
  obtain ⟨x, hx, ha⟩ := bind_ok ha
  obtain ⟨c, hc, ha⟩ := bind_ok ha
  cases ha
  have hov := guard2_of_fits hfits hm hx
  obtain ⟨h1, h2⟩ := fits_cop (guard_of_fits hfits).1
  cases core_of_fits_int h2 hm
  obtain ⟨e1, e2, hd, h1, h2⟩ := fits_binop rfl h1
  rw [eq_core_of_fits h2 hc]
  apply Becomes.of_core
  rw [hd]
  refine .of_const_cop rfl (by rw [core_of_fits_int h1 hx]; rfl) (.of_core ?_)
    (Nat.le_add_right 2 2)
  exact (adds_addNoOverflow hov _).value_congr fun a b hb => by rw [hb]; grind
· obtain ⟨m, hm, ha⟩ := bind_ok ha
  obtain ⟨x, hx, ha⟩ := bind_ok ha
  obtain ⟨c, hc, ha⟩ := bind_ok ha
  cases ha
  have hov := guard2_of_fits hfits hm hx
  obtain ⟨h1, h2⟩ := fits_cop (guard_of_fits hfits).1
  cases core_of_fits_int h2 hm
  obtain ⟨e1, e2, hd, h1, h2⟩ := fits_binop rfl h1
  rw [eq_core_of_fits h1 hc]
  apply Becomes.of_core
  rw [hd]
  refine .of_cop rfl (by rw [core_of_fits_int h2 hx]; rfl) (.of_core ?_) (Nat.le_add_right 2 2)
  exact (adds_addNoOverflow hov _).value_congr fun a b hb => by rw [hb]; grind
· obtain ⟨m, hm, ha⟩ := bind_ok ha
  obtain ⟨x, hx, ha⟩ := bind_ok ha
  obtain ⟨c, hc, ha⟩ := bind_ok ha
  cases ha
  have hov := guard2_of_fits hfits hm hx
  obtain ⟨h1, h2⟩ := fits_cop (guard_of_fits hfits).1
  cases core_of_fits_int h2 hm
  obtain ⟨e1, e2, hd, h1, h2⟩ := fits_binop rfl h1
  rw [eq_core_of_fits h2 hc]
  apply Becomes.of_core
  rw [hd]
  refine .of_const_cop rfl (by rw [core_of_fits_int h1 hx]; rfl) (.of_core (n := 2) ?_)
    (Nat.le_add_right 2 2)
  refine (becomes_const_cop rfl rfl).value_congr fun a b hb => ?_
  rw [hb, ofInt_add hov]
  grind
obtain ⟨c, hc, ha⟩ := withExpr_ok ha
obtain ⟨m, hm, ha⟩ := bind_ok ha
obtain ⟨x, hx, ha⟩ := bind_ok ha
have hov := guard2_of_fits hfits hm hx
obtain ⟨h1, h2⟩ := fits_cop (guard_of_fits hfits).1
cases core_of_fits_int h2 hm
have hlt := weight_lt_of_fits h1 hc
obtain ⟨e1, e2, hd, h1, h2⟩ := fits_binop rfl h1
apply Becomes.of_core
rw [hd]
refine .of_cop rfl (by rw [core_of_fits_int h2 hx]; rfl) (.of_core ?_) (Nat.le_add_right 2 2)
rw [← eq_core_of_fits h1 hc]
refine (ih _ (by omega) ha rfl).value_congr fun a b hb => ?_
rw [hb, ofInt_sub hov]
grind

theorem addConst_adds (h : addConst c n = .ok e) : Adds (ofInt n) c e := by
  rcases checkEqual1_ok h with h | h
  · exact addConstDirect_adds h
  · exact addConst'_adds h

/-! ## §4 Sums and differences -/

namespace Machine

variable {M : Machine O X σ} {g : Nativeint → Nativeint → Option Nativeint}

variable {c1 c2 e : Expression O}

omit [DecidableEq O] in
theorem Computes2.placePhantomLets (h : M.Computes2 g c1 c2 e)
    (env : Env O) : M.Computes2 g c1 c2 (env.placePhantomLets e) :=
  ⟨fun h2 h1 hv => (evaluates_placePhantomLets env e).2 (h.values h2 h1 hv),
    fun h2 h1 => (evaluates_placePhantomLets env e).2 (h.left h2 h1),
    fun h2 h1 => (evaluates_placePhantomLets env e).2 (h.right h2 h1)⟩

/-- The sum of two words. -/
def sum (a b : Nativeint) : Option Nativeint := some (a + b)

variable {c1 c2 d e k : Expression O}

/-- A constant of the left operand is added at the end. -/
theorem Computes2.sum_left (h : M.Computes2 sum c1 c2 d) (he : addConst d n = .ok e)
    (hk : getConst (core k) = some (ofInt n)) : M.Computes2 sum (cop .caddi [c1, k]) c2 e := by
  refine .of_cop_left rfl hk ((h.andThen ((addConst_adds he).relates M)).mono ?_)
  intro a b v hv
  rw [← hv, sum]
  exact congrArg some (show a + b + ofInt n = a + ofInt n + b by ac_rfl)

/-- A constant of the right operand is added at the end. -/
theorem Computes2.sum_right (h : M.Computes2 sum c1 c2 d) (he : addConst d n = .ok e)
    (hk : getConst (core k) = some (ofInt n)) : M.Computes2 sum c1 (cop .caddi [c2, k]) e := by
  refine .of_cop_right rfl hk ((h.andThen ((addConst_adds he).relates M)).mono ?_)
  intro a b v hv
  rw [← hv, sum]
  exact congrArg some (BitVec.add_assoc a b _)

theorem addIntDirect_computes (h : addIntDirect c1 c2 = .ok e)
    (hind : M.Independent c1 c2) : M.Computes2 sum c1 c2 e := by
  induction hw : c1.weight + c2.weight using strongRecOn generalizing c1 c2 e with | ind w ih =>
rw [addIntDirect] at h
obtain ⟨t, ht, rfl⟩ := mapTail2_ok h
apply Computes2.setTail hind
have hle1 := weight_tail_le c1
have hle2 := weight_tail_le c2
have hwt1 := weight_preferAdd c1.tail
have hwt2 := weight_preferAdd c2.tail
have hind := hind.tails.becomes (becomes_preferAdd c1.tail) (becomes_preferAdd c2.tail)
have hcongr := fun t => Computes2.congr (e := t) (g := sum)
  (refines_preferAdd (M := M) c1.tail) (refines_preferAdd c2.tail)
split at ht
· rename_i n hc1
  refine hcongr _ (.of_const_left (by rw [hc1]; rfl) ?_)
  refine ((addConst_adds ht).relates M).mono fun a b hb v hv => ?_
  cases hv
  rw [hb, BitVec.add_comm]
· rename_i n hc2 _
  refine hcongr _ (.of_const_right (by rw [hc2]; rfl) ?_)
  refine ((addConst_adds ht).relates M).mono fun a b hb v hv => ?_
  cases hv
  exact hb
· rename_i c1' n1 hc1 _
  obtain ⟨d, hd, ht⟩ := bind_ok ht
  rw [hc1] at hwt1 hind hcongr
  simp only [weight, weightList] at hwt1
  have hind' := hind.operand_left rfl rfl
  exact hcongr _ ((ih _ (by omega) hd hind' rfl).sum_left ht rfl)
· rename_i c2' n2 hc2 _ _
  obtain ⟨d, hd, ht⟩ := bind_ok ht
  rw [hc2] at hwt2 hind hcongr
  simp only [weight, weightList] at hwt2
  have hind' := hind.operand_right rfl rfl
  exact hcongr _ ((ih _ (by omega) hd hind' rfl).sum_right ht rfl)
· cases ht; exact (computes2_cop rfl _ _).mono id

theorem addInt'_computes (h : addInt' arg1 arg2 = .ok e)
    (hind : M.Independent arg1 arg2) : M.Computes2 sum arg1 arg2 e := by
  induction hw : arg1.weight + arg2.weight using strongRecOn generalizing arg1 arg2 e with
  | ind w ih =>
    rw [addInt'] at h
    obtain ⟨t, ht, rfl⟩ := mapTail2_ok h
    apply Computes2.setTail hind
    have hle1 := weight_tail_le arg1
    have hle2 := weight_tail_le arg2
    have hwt1 := weight_preferAdd arg1.tail
    have hwt2 := weight_preferAdd arg2.tail
    have hind := hind.tails.becomes (becomes_preferAdd arg1.tail) (becomes_preferAdd arg2.tail)
    refine Computes2.congr (refines_preferAdd arg1.tail) (refines_preferAdd arg2.tail) ?_
    generalize preferAdd arg1.tail = d1 at *
    generalize preferAdd arg2.tail = d2 at *
    rcases matchClausesInOrder_ok ht with rfl | ⟨clause, hmem, env, hmatch, a, ha, rfl⟩
    · exact (computes2_cop rfl _ _).mono id
    apply Computes2.placePhantomLets
    have hfits := (match_fits hmatch).2
    have hcoreind := independent_core.2 hind
    have hcore := Computes2.congr (e := a) (g := sum) (refines_core (M := M) d1) (refines_core d2)
    simp only [List.mem_cons, List.not_mem_nil, or_false] at hmem
    rcases hmem with rfl | rfl | rfl | rfl
    · obtain ⟨h1, h2⟩ := fits_cop hfits
      obtain ⟨c, hc, ha⟩ := bind_ok ha
      obtain ⟨n, hn, ha⟩ := bind_ok ha
      refine hcore (.of_const_left (by rw [core_of_fits_int h1 hn]; rfl) ?_)
      rw [← eq_core_of_fits h2 hc]
      refine ((addConst_adds ha).relates M).mono fun a b hb v hv => ?_
      cases hv
      rw [hb, BitVec.add_comm]
    · obtain ⟨h1, h2⟩ := fits_cop hfits
      obtain ⟨c, hc, ha⟩ := bind_ok ha
      obtain ⟨n, hn, ha⟩ := bind_ok ha
      refine hcore (.of_const_right (by rw [core_of_fits_int h2 hn]; rfl) ?_)
      rw [← eq_core_of_fits h1 hc]
      refine ((addConst_adds ha).relates M).mono fun a b hb v hv => ?_
      cases hv
      exact hb
    · obtain ⟨h1, h2⟩ := fits_cop hfits
      obtain ⟨e1, hc1, ha⟩ := withExpr_ok ha
      obtain ⟨e2, hc2, ha⟩ := withExpr_ok ha
      obtain ⟨d, hd, ha⟩ := bind_ok ha
      obtain ⟨n, hn, ha⟩ := bind_ok ha
      have hlt := weight_lt_of_fits h1 hc1
      have heq := weight_of_fits_any h2 hc2
      obtain ⟨d1', k, hd1, h1, hk⟩ := fits_binop rfl h1
      have hk : getConst (core k) = some (ofInt n) := by rw [core_of_fits_int hk hn]; rfl
      have hind' := hcoreind
      rw [hd1] at hind'
      have hind' := independent_core.2 (hind'.operand_left rfl (by rw [hk]; rfl))
      rw [core_core, ← eq_core_of_fits h1 hc1, ← eq_core_of_fits h2 hc2] at hind'
      have hsum := ih _ (by omega) hd hind' rfl
      rw [eq_core_of_fits h1 hc1, eq_core_of_fits h2 hc2] at hsum
      refine hcore ?_
      rw [hd1]
      exact (hsum.congr (refines_core d1') fun _ _ _ _ h => h).sum_left ha hk
    obtain ⟨h1, h2⟩ := fits_cop hfits
    obtain ⟨e1, hc1, ha⟩ := withExpr_ok ha
    obtain ⟨e2, hc2, ha⟩ := withExpr_ok ha
    obtain ⟨d, hd, ha⟩ := bind_ok ha
    obtain ⟨n, hn, ha⟩ := bind_ok ha
    have heq := weight_of_fits_any h1 hc1
    have hlt := weight_lt_of_fits h2 hc2
    obtain ⟨d2', k, hd2, h2, hk⟩ := fits_binop rfl h2
    have hk : getConst (core k) = some (ofInt n) := by rw [core_of_fits_int hk hn]; rfl
    have hind' := hcoreind
    rw [hd2] at hind'
    have hind' := independent_core.2 (hind'.operand_right rfl (by rw [hk]; rfl))
    rw [core_core, ← eq_core_of_fits h1 hc1, ← eq_core_of_fits h2 hc2] at hind'
    have hsum := ih _ (by omega) hd hind' rfl
    rw [eq_core_of_fits h1 hc1, eq_core_of_fits h2 hc2] at hsum
    refine hcore ?_
    rw [hd2]
    exact (hsum.congr (fun _ _ _ _ h => h) (refines_core d2')).sum_right ha hk

theorem addInt_computes (h : addInt c1 c2 = .ok e)
    (hind : M.Independent c1 c2) : M.Computes2 sum c1 c2 e := by
  rcases checkEqual1_ok h with h | h
  · exact addIntDirect_computes h hind
  · exact addInt'_computes h hind

/-- The difference of two words. -/
def diff (a b : Nativeint) : Option Nativeint := some (a - b)

theorem Computes2.diff_left (h : M.Computes2 diff c1 c2 d) (he : addConst d n = .ok e)
    (hk : getConst (core k) = some (ofInt n)) : M.Computes2 diff (cop .caddi [c1, k]) c2 e := by
  refine .of_cop_left rfl hk ((h.andThen ((addConst_adds he).relates M)).mono ?_)
  intro a b v hv
  rw [← hv, diff]
  exact congrArg some (show a - b + ofInt n = a + ofInt n - b by grind)

theorem Computes2.diff_right (hn : n ≠ minInt)
    (h : M.Computes2 diff c1 c2 d) (he : addConst d (-n) = .ok e)
    (hk : getConst (core k) = some (ofInt n)) : M.Computes2 diff c1 (cop .caddi [c2, k]) e := by
  refine .of_cop_right rfl hk ((h.andThen ((addConst_adds he).relates M)).mono ?_)
  intro a b v hv
  rw [← hv, ofInt_neg hn]
  exact congrArg some (show a - b + -ofInt n = a - (b + ofInt n) by grind)

theorem computes2_diff_const (hn : n ≠ minInt)
    (he : addConst c1 (-n) = .ok e) (hk : getConst (core c2) = some (ofInt n)) :
    M.Computes2 diff c1 c2 e := by
  refine .of_const_right hk (((addConst_adds he).relates M).mono fun a b hb v hv => ?_)
  cases hv
  rw [hb, ofInt_neg hn, BitVec.sub_eq_add_neg]

theorem subIntDirect_computes (h : subIntDirect c1 c2 = .ok e)
    (hind : M.Independent c1 c2) : M.Computes2 diff c1 c2 e := by
  induction hw : c1.weight + c2.weight using strongRecOn generalizing c1 c2 e with | ind w ih =>
rw [subIntDirect] at h
obtain ⟨t, ht, rfl⟩ := mapTail2_ok h
apply Computes2.setTail hind
have hle1 := weight_tail_le c1
have hle2 := weight_tail_le c2
have hwt1 := weight_preferAdd c1.tail
have hwt2 := weight_preferAdd c2.tail
have hind := hind.tails
-- the constant of either operand, when it has one
have hright : ∀ {n2 : OcamlInt}, preferAdd c2.tail = cconstInt n2 → n2 ≠ minInt →
    addConst c1.tail (-n2) = .ok t → M.Computes2 diff c1.tail c2.tail t := by
  intro n2 hc2 hn2 ht
  refine .congr (fun _ _ _ _ h => h) (refines_preferAdd c2.tail) ?_
  exact computes2_diff_const hn2 ht (by rw [hc2]; rfl)
have hright' : ∀ {n2 : OcamlInt} {c2' d : Expression O},
    preferAdd c2.tail = cop .caddi [c2', cconstInt n2] → n2 ≠ minInt →
    subIntDirect c1.tail c2' = .ok d → addConst d (-n2) = .ok t →
    M.Computes2 diff c1.tail c2.tail t := by
  intro n2 c2' d hc2 hn2 hd ht
  have hind := hind.becomes (becomes_refl _) (becomes_preferAdd c2.tail)
  refine .congr (fun _ _ _ _ h => h) (refines_preferAdd c2.tail) ?_
  rw [hc2] at hwt2 hind ⊢
  simp only [weight, weightList] at hwt2
  exact (ih _ (by omega) hd (hind.operand_right rfl rfl) rfl).diff_right hn2 ht rfl
have hleft : ∀ {n1 : OcamlInt} {c1' d : Expression O},
    preferAdd c1.tail = cop .caddi [c1', cconstInt n1] → subIntDirect c1' c2.tail = .ok d →
    addConst d n1 = .ok t → M.Computes2 diff c1.tail c2.tail t := by
  intro n1 c1' d hc1 hd ht
  have hind := hind.becomes (becomes_preferAdd c1.tail) (becomes_refl _)
  refine .congr (refines_preferAdd c1.tail) (fun _ _ _ _ h => h) ?_
  rw [hc1] at hwt1 hind ⊢
  simp only [weight, weightList] at hwt1
  exact (ih _ (by omega) hd (hind.operand_left rfl rfl) rfl).diff_left ht rfl
have hdefault : M.Computes2 diff c1.tail c2.tail (cop .csubi [c1.tail, c2.tail]) :=
  (computes2_cop rfl _ _).mono id
split at ht
· rename_i c1' n1 n2 hc1 hc2
  split at ht
  · exact hright hc2 ‹_› ht
  · obtain ⟨d, hd, ht⟩ := bind_ok ht; exact hleft hc1 hd ht
· rename_i c1' n1 c2' n2 hc1 hc2
  split at ht
  · obtain ⟨d, hd, ht⟩ := bind_ok ht; exact hright' hc2 ‹_› hd ht
  · obtain ⟨d, hd, ht⟩ := bind_ok ht; exact hleft hc1 hd ht
· rename_i n2 hc2 _
  split at ht
  · exact hright hc2 ‹_› ht
  · cases ht; exact hdefault
· rename_i c2' n2 hc2 _
  split at ht
  · obtain ⟨d, hd, ht⟩ := bind_ok ht; exact hright' hc2 ‹_› hd ht
  · cases ht; exact hdefault
· obtain ⟨d, hd, ht⟩ := bind_ok ht; exact hleft ‹_› hd ht
· cases ht; exact hdefault

theorem subInt'_computes (h : subInt' arg1 arg2 = .ok e)
    (hind : M.Independent arg1 arg2) : M.Computes2 diff arg1 arg2 e := by
  induction hw : arg1.weight + arg2.weight using strongRecOn generalizing arg1 arg2 e with
  | ind w ih =>
    rw [subInt'] at h
    obtain ⟨t, ht, rfl⟩ := mapTail2_ok h
    apply Computes2.setTail hind
    have hle1 := weight_tail_le arg1
    have hle2 := weight_tail_le arg2
    have hwt1 := weight_preferAdd arg1.tail
    have hwt2 := weight_preferAdd arg2.tail
    have hind := hind.tails.becomes (becomes_preferAdd arg1.tail) (becomes_preferAdd arg2.tail)
    refine Computes2.congr (refines_preferAdd arg1.tail) (refines_preferAdd arg2.tail) ?_
    generalize preferAdd arg1.tail = d1 at *
    generalize preferAdd arg2.tail = d2 at *
    rcases matchClausesInOrder_ok ht with rfl | ⟨clause, hmem, env, hmatch, a, ha, rfl⟩
    · exact (computes2_cop rfl _ _).mono id
    apply Computes2.placePhantomLets
    have hfits := (match_fits hmatch).2
    have hcoreind := independent_core.2 hind
    have hcore := Computes2.congr (e := a) (g := diff) (refines_core (M := M) d1) (refines_core d2)
    simp only [List.mem_cons, List.not_mem_nil, or_false] at hmem
    rcases hmem with rfl | rfl | rfl
    · obtain ⟨h1, h2⟩ := fits_cop (guard_of_fits hfits).1
      obtain ⟨c, hc, ha⟩ := bind_ok ha
      obtain ⟨n, hn, ha⟩ := bind_ok ha
      have hne := of_decide_eq_true (guard1_of_fits hfits hn)
      rw [eq_core_of_fits h1 hc] at ha
      refine hcore (computes2_diff_const hne ha ?_)
      rw [core_of_fits_int h2 hn]
      rfl
    · obtain ⟨h1, h2⟩ := fits_cop (guard_of_fits hfits).1
      obtain ⟨e1, hc1, ha⟩ := withExpr_ok ha
      obtain ⟨e2, hc2, ha⟩ := withExpr_ok ha
      obtain ⟨d, hd, ha⟩ := bind_ok ha
      obtain ⟨n, hn, ha⟩ := bind_ok ha
      have hne := of_decide_eq_true (guard1_of_fits hfits hn)
      have heq := weight_of_fits_any h1 hc1
      have hlt := weight_lt_of_fits h2 hc2
      obtain ⟨d2', k, hd2, h2, hk⟩ := fits_binop rfl h2
      have hk : getConst (core k) = some (ofInt n) := by rw [core_of_fits_int hk hn]; rfl
      have hind' := hcoreind
      rw [hd2] at hind'
      have hind' := independent_core.2 (hind'.operand_right rfl (by rw [hk]; rfl))
      rw [core_core, ← eq_core_of_fits h1 hc1, ← eq_core_of_fits h2 hc2] at hind'
      have hdiff := ih _ (by omega) hd hind' rfl
      rw [eq_core_of_fits h1 hc1, eq_core_of_fits h2 hc2] at hdiff
      refine hcore ?_
      rw [hd2]
      exact (hdiff.congr (fun _ _ _ _ h => h) (refines_core d2')).diff_right hne ha hk
    obtain ⟨h1, h2⟩ := fits_cop hfits
    obtain ⟨e1, hc1, ha⟩ := withExpr_ok ha
    obtain ⟨e2, hc2, ha⟩ := withExpr_ok ha
    obtain ⟨d, hd, ha⟩ := bind_ok ha
    obtain ⟨n, hn, ha⟩ := bind_ok ha
    have hlt := weight_lt_of_fits h1 hc1
    have heq := weight_of_fits_any h2 hc2
    obtain ⟨d1', k, hd1, h1, hk⟩ := fits_binop rfl h1
    have hk : getConst (core k) = some (ofInt n) := by rw [core_of_fits_int hk hn]; rfl
    have hind' := hcoreind
    rw [hd1] at hind'
    have hind' := independent_core.2 (hind'.operand_left rfl (by rw [hk]; rfl))
    rw [core_core, ← eq_core_of_fits h1 hc1, ← eq_core_of_fits h2 hc2] at hind'
    have hdiff := ih _ (by omega) hd hind' rfl
    rw [eq_core_of_fits h1 hc1, eq_core_of_fits h2 hc2] at hdiff
    refine hcore ?_
    rw [hd1]
    exact (hdiff.congr (refines_core d1') fun _ _ _ _ h => h).diff_left ha hk

theorem subInt_computes (h : subInt c1 c2 = .ok e)
    (hind : M.Independent c1 c2) : M.Computes2 diff c1 c2 e := by
  rcases checkEqual1_ok h with h | h
  · exact subIntDirect_computes h hind
  · exact subInt'_computes h hind

end Machine

/-! ## §5 Significant bits -/

/-- Every word that `e` can end with has at most `m` bits and a sign. -/
def HasBits (m : Nat) (e : Expression O) : Prop :=
  ∀ (X σ : Type) (M : Machine O X σ) env s a s', M.Evaluates e env s (.value (.word a)) s' →
    SignBits m a

section

omit [DecidableEq O]

variable {m m' : Nat} {c d e k : Expression O} {op : Operation O} {w : Nativeint}

theorem hasBits_archBits (e : Expression O) : HasBits archBits e :=
  fun _ _ _ _ _ a _ _ => signBits_archBits a

theorem HasBits.of_core (h : HasBits m (core e)) : HasBits m e :=
  fun _ _ _ _ _ _ _ he => h _ _ _ _ _ _ _ ((Machine.evaluates_core e).2 he)

theorem HasBits.of_preferOr (hd : preferOr e = d) (h : HasBits m d) : HasBits m e :=
  fun _ _ _ _ _ _ _ he => h _ _ _ _ _ _ _ (hd ▸ Machine.refines_preferOr e _ _ _ _ he)

theorem signBits_bool (b : Bool) : SignBits 1 (if b then 1 else 0) := by
  cases b <;> exact signBits_of_lt (by decide)

theorem hasBits_comparison (h : matchesBinop .comparison op = true) (args : List (Expression O)) :
    HasBits 1 (cop op args) := by
  intro X σ M env s a s' he
  rcases Machine.evaluates_cop.1 he with ⟨vs, s₁, -, ha⟩ | ⟨l, vs, hx, -⟩
  · cases op with
    | ccmpi cmp =>
      obtain ⟨x, y, v, -, hv, ha, -⟩ := (Machine.apply_isWord rfl).1 ha
      cases ha
      cases hv
      exact signBits_bool _
    | ccmpf width cmp =>
      obtain ⟨b, -, ha⟩ := map_eq_some_iff.1 ha
      cases ha
      exact signBits_bool b
    | _ => cases h
  · cases hx

theorem HasBits.cop_const {g : Nativeint → Nativeint} (h : HasBits m c)
    (hg : opWithConst op w = some g) (hk : getConst (core k) = some w)
    (hm : ∀ a, SignBits m a → SignBits m' (g a)) : HasBits m' (cop op [c, k]) := by
  intro X σ M env s a s' he
  have hop := Machine.isWord_of_opWithConst hg
  rcases (Machine.evaluates_cop_const hop hk).1 he with ⟨x, v, hx, hv, ha⟩ | ⟨l, args, ha, -⟩
  · cases ha
    rw [Machine.word2_of_opWithConst hg, Option.some.injEq] at hv
    rw [← hv]
    exact hm x (h _ _ _ _ _ _ _ hx)
  · cases ha

theorem HasBits.bitwise (hop : matchesBinop .bitwiseOp op = true) (hc : HasBits m c)
    (hd : HasBits m' d) : HasBits (max m m') (cop op [c, d]) := by
  intro X σ M env s a s' he
  have hword : op.isWord = true := by cases op <;> first | rfl | cases hop
  rcases (Machine.evaluates_cop2 hword).1 he with ⟨x, y, v, s₁, hy, hx, hv, ha⟩ | ⟨l, args, ha, -⟩
  · cases ha
    have hc := hc _ _ _ _ _ _ _ hx
    have hd := hd _ _ _ _ _ _ _ hy
    cases op with
    | cand => cases hv; exact hc.and hd
    | cor => cases hv; exact hc.or hd
    | cxor => cases hv; exact hc.xor hd
    | _ => cases hop
  · cases ha

theorem opWithConst_shift (hn : isDefinedShift n = true) :
    opWithConst (O := O) .clsl (ofInt n) = some (fun a : Nativeint => a <<< n.toNat) ∧
    opWithConst (O := O) .clsr (ofInt n) = some (fun a : Nativeint => a >>> n.toNat) ∧
    opWithConst (O := O) .casr (ofInt n) = some fun a => a.sshiftRight n.toNat := by
  obtain ⟨hlt, hnat, -⟩ := toNat_of_isDefinedShift hn
  unfold opWithConst
  rw [hnat, if_pos hlt, if_pos hlt, if_pos hlt]
  exact ⟨rfl, rfl, rfl⟩

theorem HasBits.clsl (h : HasBits m c) (hk : core k = cconstInt n)
    (hn : isDefinedShift n = true) : HasBits (min archBits (m + n.toNat)) (cop .clsl [c, k]) :=
  h.cop_const (opWithConst_shift hn).1 (by rw [hk]; rfl) fun _ ha => ha.shiftLeft _

theorem HasBits.casr (h : HasBits m c) (hk : core k = cconstInt n)
    (hn : isDefinedShift n = true) : HasBits (m - n.toNat) (cop .casr [c, k]) :=
  h.cop_const (opWithConst_shift hn).2.2 (by rw [hk]; rfl) fun _ ha => ha.sshiftRight _

theorem HasBits.clsr_zero (h : HasBits m c) (hk : core k = cconstInt 0) :
    HasBits m (cop .clsr [c, k]) :=
  h.cop_const (opWithConst_shift (n := 0) (by decide)).2.1 (by rw [hk]; rfl) fun _ ha => ha

theorem hasBits_clsr (hk : core k = cconstInt n) (hn : isDefinedShift n = true) :
    HasBits (archBits - n.toNat) (cop .clsr [c, k]) :=
  (hasBits_archBits c).cop_const (opWithConst_shift hn).2.1 (by rw [hk]; rfl) fun a _ =>
    signBits_ushiftRight a _

theorem hasBits_cand (hk : core k = cconstInt n)
    (hn : (0 : OcamlInt).slt n = true) : HasBits (1 + log2 n.toInt) (cop .cand [c, k]) :=
  (hasBits_archBits c).cop_const rfl (by rw [hk]; rfl) fun a _ => signBits_and_ofInt hn a

theorem maxSignedBitLengthDirect_hasBits (e : Expression O) :
    HasBits (maxSignedBitLengthDirect e) e := by
  fun_induction maxSignedBitLengthDirect e with
  | case1 e cmp args he
  | case2 e width cmp args he => exact .of_preferOr he (hasBits_comparison rfl args)
  | case3 e x n he hn => exact .of_preferOr he (hasBits_cand rfl hn)
  | case4 e x n he hn ihx ihn => exact .of_preferOr he (.bitwise rfl ihx ihn)
  | case5 e c n he hn ih => exact .of_preferOr he (ih.clsl rfl hn)
  | case7 e c n he hn ih => exact .of_preferOr he (ih.casr rfl hn)
  | case9 e c he hn ih => exact .of_preferOr he (ih.clsr_zero rfl)
  | case10 e c n he hn hn0 => exact .of_preferOr he (hasBits_clsr rfl hn)
  | case12 e x y hy he ihx ihy | case13 e x y he ihx ihy
  | case14 e x y he ihx ihy => exact .of_preferOr he (.bitwise rfl ihx ihy)
  | _ => exact hasBits_archBits _

theorem maxSignedBitLength'_hasBits {m : Nat}
    (h : maxSignedBitLength' e = .ok m) : HasBits m e := by
  induction hw : e.weight using strongRecOn generalizing e m with | ind w ih =>
rw [maxSignedBitLength'] at h
have hwt := weight_preferOr e
refine .of_preferOr rfl ?_
rcases matchClausesInOrder_ok h with rfl | ⟨clause, hmem, env, hmatch, a, ha, rfl⟩
· exact hasBits_archBits _
have hfits := (match_fits hmatch).2
apply HasBits.of_core
simp only [List.mem_cons, List.not_mem_nil, or_false] at hmem
rcases hmem with rfl | rfl | rfl | rfl | rfl | rfl
· obtain ⟨op, x, y, hd, hop, -, -⟩ := hfits
  cases ha
  rw [hd]
  exact hasBits_comparison hop _
· obtain ⟨n, hn, ha⟩ := bind_ok ha
  cases ha
  obtain ⟨x, k, hd, -, hk⟩ := fits_binop rfl (guard_of_fits hfits).1
  rw [hd]
  exact hasBits_cand (core_of_fits_int hk hn) (guard1_of_fits hfits hn)
· obtain ⟨c, hc, ha⟩ := withExpr_ok ha
  obtain ⟨m, hm, ha⟩ := bind_ok ha
  obtain ⟨n, hn, ha⟩ := bind_ok ha
  cases ha
  have hlt := weight_lt_of_fits (guard_of_fits hfits).1 hc
  obtain ⟨x, k, hd, hx, hk⟩ := fits_binop rfl (guard_of_fits hfits).1
  have hbits := ih _ (by omega) hm rfl
  rw [eq_core_of_fits hx hc] at hbits
  rw [hd]
  exact hbits.of_core.clsl (core_of_fits_int hk hn) (guard1_of_fits hfits hn)
· obtain ⟨c, hc, ha⟩ := withExpr_ok ha
  obtain ⟨m, hm, ha⟩ := bind_ok ha
  obtain ⟨n, hn, ha⟩ := bind_ok ha
  cases ha
  have hlt := weight_lt_of_fits (guard_of_fits hfits).1 hc
  obtain ⟨x, k, hd, hx, hk⟩ := fits_binop rfl (guard_of_fits hfits).1
  have hbits := ih _ (by omega) hm rfl
  rw [eq_core_of_fits hx hc] at hbits
  rw [hd]
  exact hbits.of_core.casr (core_of_fits_int hk hn) (guard1_of_fits hfits hn)
· obtain ⟨c, hc, ha⟩ := withExpr_ok ha
  obtain ⟨n, hn, ha⟩ := bind_ok ha
  have hlt := weight_lt_of_fits (guard_of_fits hfits).1 hc
  obtain ⟨x, k, hd, hx, hk⟩ := fits_binop rfl (guard_of_fits hfits).1
  have hk := core_of_fits_int hk hn
  rw [hd]
  split at ha
  · rename_i h0
    subst h0
    have hbits := ih _ (by omega) ha rfl
    rw [eq_core_of_fits hx hc] at hbits
    exact hbits.of_core.clsr_zero hk
  obtain ⟨n', hn', ha⟩ := bind_ok ha
  cases hn.symm.trans hn'
  cases ha
  exact hasBits_clsr hk (guard1_of_fits hfits hn)
obtain ⟨c1, hc1, ha⟩ := withExpr_ok ha
obtain ⟨c2, hc2, ha⟩ := withExpr_ok ha
obtain ⟨m1, hm1, ha⟩ := bind_ok ha
obtain ⟨m2, hm2, ha⟩ := bind_ok ha
cases ha
have hlt1 := weight_lt_of_fits hfits hc1
have hlt2 := weight_lt_of_fits_right hfits hc2
obtain ⟨op, x, y, hd, hop, hx, hy⟩ := hfits
have hbits1 := ih _ (by omega) hm1 rfl
have hbits2 := ih _ (by omega) hm2 rfl
rw [eq_core_of_fits hx hc1] at hbits1
rw [eq_core_of_fits hy hc2] at hbits2
rw [hd]
exact .bitwise hop hbits1.of_core hbits2.of_core

theorem maxSignedBitLength_hasBits {m : Nat} (h : maxSignedBitLength e = .ok m) : HasBits m e := by
  obtain ⟨m', hm', h⟩ := bind_ok h
  split at h
  · cases h; exact maxSignedBitLengthDirect_hasBits e
  split at h
  · cases h; exact maxSignedBitLength'_hasBits hm'
  · cases h

end

/-! ## §6 The low bit -/

section

omit [DecidableEq O]

theorem CmmHelpers.LowBitStep.becomes {t : Expression O} (h : LowBitStep e t) :
    Becomes AgreeButLowBit 0 e t := by
  cases h with
  | @add e₁ x k kn n _ he hk he₁ hkn hn hdef ht =>
    have hpos : 0 < n.toNat := toNat_pos_of_ne_zero fun h0 => by
      rw [h0] at hn
      exact absurd hn (by decide)
    have hkn : getConst (core kn) = some (ofInt n) := by rw [hkn]; rfl
    have hshift := (opWithConst_shift (O := O) hdef).1
    refine .of_core ?_
    rw [he]
    refine .of_cop rfl (by rw [hk]; rfl) (n := 0) (.of_core ?_) (by omega)
    rw [he₁]
    refine .of_cop hshift hkn (n := 2) (.core_result ?_) (by omega)
    rw [ht, he₁]
    refine (becomes_cop hshift hkn).value_congr fun a b hb => ?_
    rw [hb]
    exact agreeButLowBit_shiftLeft_add_one a hpos
  | @or e₁ k _ he hk ht =>
    refine .of_core ?_
    rw [he]
    refine .of_cop rfl (by rw [hk]; rfl) (n := 0) (.congr_core ht.symm ?_) (by omega)
    refine (becomes_refl t).value_congr fun a b hb => ?_
    rw [hb]
    exact agreeButLowBit_or_one a
  | @shift op e₁ e₂ k k' _ hop he hk he₁ hk' ht =>
    have h1 := opWithConst_shift (O := O) (n := 1) (by decide)
    have hk : getConst (core k) = some (ofInt 1) := by rw [hk]; rfl
    have hk' : getConst (core k') = some (ofInt 1) := by rw [hk']; rfl
    refine .of_core ?_
    rw [he]
    refine .of_cop h1.1 hk (n := 0) (.of_core ?_) (by omega)
    rw [he₁]
    rcases hop with rfl | rfl
    · refine .of_cop h1.2.1 hk' (n := 0) (.congr_core ht.symm ?_) (by omega)
      refine (becomes_refl t).value_congr fun a b hb => ?_
      rw [hb]
      exact agreeButLowBit_lsr_lsl a
    refine .of_cop h1.2.2 hk' (n := 0) (.congr_core ht.symm ?_) (by omega)
    refine (becomes_refl t).value_congr fun a b hb => ?_
    rw [hb]
    exact agreeButLowBit_asr_lsl a

theorem CmmHelpers.IgnoresLowBit.becomes {r : Expression O} (h : IgnoresLowBit e r) :
    Becomes AgreeButLowBit 0 e r := by
  induction h with
  | done e => exact (becomes_refl e).value_congr fun a b hb i _ => by rw [hb]
  | step hstep _ ih =>
    refine (hstep.becomes.trans ih).value_congr ?_
    rintro a b ⟨x, hax, hxb⟩
    exact hax.trans hxb
  | phantom v exp _ ih => exact ih.phantom v exp

end

/-! ## §7 Bitwise operations with a constant -/

section

variable {e : Expression O}

omit [DecidableEq O] in
/-- A constant operand is folded. -/
theorem becomes_fold {k : Nativeint} (g : Nativeint → Nativeint) (he : getConst e = some k) :
    Becomes (fun a b => b = g a) 2 e (natintConstUntagged (g k)) := by
  refine Becomes.mono (R := fun a b => b = g a)
    (becomes_const ?_ (getConst_natintConstUntagged (g k)) rfl) (fun _ _ h => h) (by omega)
  rw [core_const (by rw [he]; rfl), he]

omit [DecidableEq O] in
theorem becomes_cop_natint {op : Operation O} {w : Nativeint} {g : Nativeint → Nativeint}
    (hg : opWithConst op w = some g) :
    Becomes (fun a b => b = g a) 2 e (cop op [e, natintConstUntagged w]) := by
  refine becomes_cop hg ?_
  rw [core_const (by rw [getConst_natintConstUntagged]; rfl), getConst_natintConstUntagged]

omit [DecidableEq O] in
theorem getConst_core {w : Nativeint} (he : getConst e = some w) : getConst (core e) = some w := by
  rw [core_const (by rw [he]; rfl), he]

end

variable {e r : Expression O}

omit [DecidableEq O] in
theorem xorConst_becomes {n : Nativeint} (h : xorConst e n = .ok r) :
    Becomes (fun a b => b = a ^^^ n) 2 e r := by
  induction hw : e.weight using strongRecOn generalizing e r n with | ind w ih =>
rw [xorConst] at h
split at h
· rename_i h0
  cases h
  exact (becomes_refl e).mono (fun a b hb => by rw [hb, h0]; exact (xor_zero).symm)
    (by omega)
obtain ⟨t, ht, rfl⟩ := mapTail1_ok h
apply Becomes.setTail
have hle := weight_tail_le e
split at ht
· cases ht; exact becomes_fold (· ^^^ n) ‹_›
split at ht
· rename_i x y _ hc _
  split at ht
  · cases ht; exact becomes_cop_natint rfl
  rename_i k hk
  rw [hc] at hle ⊢
  simp only [weight, weightList] at hle
  refine .of_cop rfl (getConst_core hk) ?_ (Nat.le_add_right 2 2)
  exact (ih _ (by omega) ht rfl).value_congr fun a b hb => by rw [hb, BitVec.xor_assoc]
· cases ht; exact becomes_cop_natint rfl

theorem orConstDefault_becomes {n : Nativeint}
    (h : orConstDefault e n = .ok r) : Becomes (fun a b => b = a ||| n) 2 e r := by
  unfold orConstDefault at h
  split at h
  · rename_i hbit
    obtain ⟨d, hd, h⟩ := bind_ok h
    cases h
    refine ((ignoresLowBit hd).becomes.trans (becomes_cop_natint rfl)).value_congr ?_
    rintro a b ⟨x, hax, rfl⟩
    exact (hax.or hbit).symm
  · cases h; exact becomes_cop_natint rfl

theorem orConst_becomes {n : Nativeint} (h : orConst e n = .ok r) :
    Becomes (fun a b => b = a ||| n) 2 e r := by
  induction hw : e.weight using strongRecOn generalizing e r n with | ind w ih =>
rw [orConst] at h
split at h
· rename_i h0
  cases h
  exact (becomes_refl e).mono (fun a b hb => by rw [hb, h0]; exact (or_zero).symm)
    (by omega)
split at h
· rename_i h1
  cases h
  refine becomes_replace (w := -1) (congrArg some (by decide)) fun a => ?_
  rw [h1]
  exact (BitVec.or_allOnes).symm
obtain ⟨t, ht, rfl⟩ := mapTail1_ok h
apply Becomes.setTail
have hle := weight_tail_le e
split at ht
· cases ht; exact becomes_fold (· ||| n) ‹_›
split at ht
· rename_i x y _ hc _
  split at ht
  · exact orConstDefault_becomes ht
  rename_i k hk
  rw [hc] at hle ⊢
  simp only [weight, weightList] at hle
  refine .of_cop rfl (getConst_core hk) ?_ (Nat.le_add_right 2 2)
  exact (ih _ (by omega) ht rfl).value_congr fun a b hb => by rw [hb, BitVec.or_assoc]
· exact orConstDefault_becomes ht

theorem andConstDefault_becomes {n : Nativeint}
    (h : andConstDefault e n = .ok r) : Becomes (fun a b => b = a &&& n) 2 e r := by
  unfold andConstDefault at h
  split at h
  · rename_i hbit
    obtain ⟨d, hd, h⟩ := bind_ok h
    cases h
    refine ((ignoresLowBit hd).becomes.trans (becomes_cop_natint rfl)).value_congr ?_
    rintro a b ⟨x, hax, rfl⟩
    exact (hax.and hbit).symm
  · cases h; exact becomes_cop_natint rfl

variable {chunk chunk' : MemoryChunk} {mutability isAtomic : Bool} {M : Machine O X σ}

omit [DecidableEq O] in
theorem load_unsignedChunk {n a : Nativeint}
    (h : unsignedChunk chunk n = some chunk') {args : List (Value X)}
    {s : σ} (ha : M.load chunk mutability isAtomic args s = some (.word a)) :
    M.load chunk' mutability isAtomic args s = some (.word (a &&& n)) := by
  have hmask : ∀ {k : Nat} {f : BitVec k → Nativeint}, (∀ b, f b &&& n = b.setWidth 64) →
      (M.readBits k mutability isAtomic args s).map (fun b => Value.word (f b)) =
        some (.word a : Value X) →
      (M.readBits k mutability isAtomic args s).map (fun b => Value.word (b.setWidth 64)) =
        some (.word (a &&& n) : Value X) := by
    intro k f hf ha
    obtain ⟨b, hb, heq⟩ := map_eq_some_iff.1 ha
    cases heq
    rw [hb, Option.map_some, hf]
  cases chunk with
  | byteSigned | sixteenSigned | thirtytwoSigned =>
    obtain ⟨rfl, heq⟩ := ite_none_right_eq_some.1 h
    cases heq
    exact hmask signExtend_and_mask ha
  | byteUnsigned | sixteenUnsigned | thirtytwoUnsigned =>
    obtain ⟨rfl, heq⟩ := ite_none_right_eq_some.1 h
    cases heq
    exact hmask setWidth_and_mask ha
  | _ => cases h

omit [DecidableEq O] in
/-- A load of another chunk, where the words that the two read are related. -/
theorem becomes_cload {R : Nativeint → Nativeint → Prop}
    (hload : ∀ {X σ : Type} (M : Machine O X σ) args s a,
      M.load chunk mutability isAtomic args s = some (.word a) →
        ∃ b, M.load chunk' mutability isAtomic args s = some (.word b) ∧ R a b)
    (args : List (Expression O)) :
    Becomes R 0 (cop (.cload chunk mutability isAtomic) args)
      (cop (.cload chunk' mutability isAtomic) args) := by
  refine ⟨?_, fun hΦ hc => hΦ.cload hc, fun M env s o s' hc hn => ?_⟩
  · simp only [weight]; omega
  rcases Machine.evaluates_cop.1 hc with ⟨vs, s₁, hvs, ha⟩ | ⟨l, vs, rfl, hvs⟩
  · obtain ⟨v, hv, ha⟩ := map_eq_some_iff.1 ha
    cases ha
    cases v with
    | word a =>
      obtain ⟨b, hb, hR⟩ := hload M vs s' a hv
      exact ⟨_, Machine.evaluates_cop.2 (.inl ⟨vs, _, hvs,
        map_eq_some_iff.2 ⟨_, hb, rfl⟩⟩), .word hR⟩
    | wide x => exact absurd rfl (hn x)
  · exact ⟨_, Machine.evaluates_cop.2 (.inr ⟨l, vs, rfl, hvs⟩), .exit l vs⟩

omit [DecidableEq O] in
theorem becomes_unsignedChunk {n : Nativeint}
    (h : unsignedChunk chunk n = some chunk') (mutability isAtomic : Bool)
    (args : List (Expression O)) :
    Becomes (fun a b => b = a &&& n) 2 (cop (.cload chunk mutability isAtomic) args)
      (cop (.cload chunk' mutability isAtomic) args) :=
  (becomes_cload (R := fun a b => b = a &&& n)
    (fun _ _ _ _ ha => ⟨_, load_unsignedChunk h ha, rfl⟩) args).mono (fun _ _ hb => hb)
    (Nat.zero_le 2)

theorem andConst_becomes {n : Nativeint} (h : andConst e n = .ok r) :
    Becomes (fun a b => b = a &&& n) 2 e r := by
  induction hw : e.weight using strongRecOn generalizing e r n with | ind w ih =>
rw [andConst] at h
split at h
· rename_i h0
  cases h
  refine becomes_replace (w := 0) (congrArg some (by decide)) fun a => ?_
  rw [h0]
  exact (and_zero).symm
split at h
· rename_i h1
  cases h
  exact (becomes_refl e).mono (fun a b hb => by rw [hb, h1]; exact (BitVec.and_allOnes).symm)
    (by omega)
obtain ⟨t, ht, rfl⟩ := mapTail1_ok h
apply Becomes.setTail
have hle := weight_tail_le e
split at ht
· cases ht; exact becomes_fold (· &&& n) ‹_›
split at ht
· rename_i x y _ hc _
  split at ht
  · rename_i k hk
    rw [hc] at hle ⊢
    simp only [weight, weightList] at hle
    refine .of_cop rfl (getConst_core hk) ?_ (Nat.le_add_right 2 2)
    exact (ih _ (by omega) ht rfl).value_congr fun a b hb => by rw [hb, BitVec.and_assoc]
  · exact andConstDefault_becomes ht
· rename_i hc _
  split at ht
  · cases ht
    rw [hc]
    exact becomes_unsignedChunk ‹_› _ _ _
  · exact andConstDefault_becomes ht
· exact andConstDefault_becomes ht

/-! ## §8 Bitwise operations -/

omit [DecidableEq O] in
theorem Machine.bitwiseInt_computes {op : Operation O} {f : Nativeint → Nativeint → Nativeint}
    {const : Expression O → Nativeint → Except (Fatal O) (Expression O)}
    (hword : op.isWord = true) (hop : ∀ a b, M.word2 op a b = some (f a b))
    (hcomm : ∀ a b, f a b = f b a)
    (hconst : ∀ {e r n}, const e n = .ok r → Becomes (fun a b => b = f a n) 2 e r)
      (h : bitwiseInt op f const c1 c2 = .ok e)
    (hind : M.Independent c1 c2) : M.Computes2 (fun a b => some (f a b)) c1 c2 e := by
  obtain ⟨t, ht, rfl⟩ := mapTail2_ok h
  apply Computes2.setTail hind
  split at ht
  · rename_i k1 k2 hk1 hk2
    cases ht
    refine .of_const_right (getConst_core hk2) ?_
    refine ((becomes_fold (f · k2) hk1).relates M).mono fun a b hb v hv => ?_
    cases hv
    exact hb
  · rename_i k2 hk1 hk2
    refine .of_const_right (getConst_core hk2) (((hconst ht).relates M).mono fun a b hb v hv => ?_)
    cases hv
    exact hb
  · rename_i k1 hk1 hk2
    refine .of_const_left (getConst_core hk1) (((hconst ht).relates M).mono fun a b hb v hv => ?_)
    cases hv
    rw [hb, hcomm]
  · cases ht; exact (computes2_cop hword _ _).mono fun hv => by rw [hop]; exact hv

namespace Machine

variable {M : Machine O X σ} {c1 c2 e : Expression O}

omit [DecidableEq O] in
theorem xorInt_computes (h : xorInt c1 c2 = .ok e) (hind : M.Independent c1 c2) :
    M.Computes2 (fun a b => some (a ^^^ b)) c1 c2 e :=
  bitwiseInt_computes rfl (fun _ _ => rfl) BitVec.xor_comm xorConst_becomes h hind

theorem orInt_computes (h : orInt c1 c2 = .ok e) (hind : M.Independent c1 c2) :
    M.Computes2 (fun a b => some (a ||| b)) c1 c2 e :=
  bitwiseInt_computes rfl (fun _ _ => rfl) BitVec.or_comm orConst_becomes h hind

theorem andInt_computes (h : andInt c1 c2 = .ok e) (hind : M.Independent c1 c2) :
    M.Computes2 (fun a b => some (a &&& b)) c1 c2 e :=
  bitwiseInt_computes rfl (fun _ _ => rfl) BitVec.and_comm andConst_becomes h hind

end Machine

/-! ## §9 Shifts by a constant -/

theorem lsrInt_becomes (hn : isDefinedShift n = true)
    (h : lsrInt c1 (cconstInt n) = .ok e) : Becomes (fun a b => b = a >>> n.toNat) 2 c1 e := by
  induction hw : c1.weight using strongRecOn generalizing c1 e n with | ind w ih =>
rw [lsrInt] at h
obtain ⟨t, ht, rfl⟩ := mapTail2_ok h
apply Becomes.setTail
have hle := weight_tail_le c1
dsimp only [tail] at ht
split at ht
· rename_i h0
  cases ht
  subst h0
  exact (becomes_refl _).mono (fun a b hb => by rw [hb]; exact (BitVec.ushiftRight_zero a).symm)
    (by omega)
rename_i hn0
split at ht
· cases ht
rename_i d hi
have hlow := (ignoresLowBit hi).becomes
have hpos := toNat_pos_of_ne_zero hn0
have hled := hlow.weight_le
suffices hd : Becomes (fun a b => b = a >>> n.toNat) 2 d t by
  refine (hlow.trans hd).value_congr ?_
  rintro a b ⟨x, hax, rfl⟩
  exact (hax.ushiftRight hpos).symm
have hdefault : Becomes (fun a b => b = a >>> n.toNat) 2 d (cop .clsr [d, cconstInt n]) :=
  becomes_cop (opWithConst_shift hn).2.1 rfl
have hwd := weight_preferOr d
have hprefer := becomes_preferOr d
split at ht
· cases ht; exact becomes_fold (· >>> n.toNat) ‹_›
split at ht
· rename_i inner n' hc
  rw [hc] at hwd hprefer
  simp only [weight, weightList] at hwd
  split at ht
  · rename_i hn'
    obtain ⟨hadd, hdef⟩ := toNat_add_of_isDefinedShift hn hn'
    refine hprefer.after (.of_cop (opWithConst_shift hn').2.1 rfl (n := 2) ?_ (by omega))
    split at ht
    · refine (ih _ (by omega) ‹_› ht rfl).value_congr fun a b hb => ?_
      rw [hb, hadd, Nat.add_comm, shiftRight_add]
    rename_i hlt
    cases ht
    refine becomes_replace (w := 0) (congrArg some (by decide)) fun a => ?_
    have hge := mt hdef.2 hlt
    rw [← shiftRight_add]
    exact (BitVec.ushiftRight_eq_zero (by omega)).symm
  · cases ht; exact hdefault
· rename_i x y hc
  split at ht
  · rename_i k hk
    split at ht
    · rename_i hk0
      rw [hc] at hwd hprefer
      simp only [weight, weightList] at hwd
      refine hprefer.after (.of_cop rfl (getConst_core hk) ?_ (Nat.le_add_right 2 2))
      refine (ih _ (by omega) hn ht rfl).value_congr fun a b hb => ?_
      rw [hb, BitVec.ushiftRight_or_distrib, hk0]
      exact (or_zero).symm
    · cases ht; exact hdefault
  · cases ht; exact hdefault
· rename_i x y hc
  split at ht
  · rename_i k hk
    split at ht
    · rename_i hk0
      rw [hc] at hwd hprefer
      simp only [weight, weightList] at hwd
      refine hprefer.after (.of_cop rfl (getConst_core hk) ?_ (Nat.le_add_right 2 2))
      refine (ih _ (by omega) hn ht rfl).value_congr fun a b hb => ?_
      rw [hb, BitVec.ushiftRight_xor_distrib, hk0]
      exact (xor_zero).symm
    · cases ht; exact hdefault
  · cases ht; exact hdefault
· rename_i x y hc
  split at ht
  · rename_i k hk
    split at ht
    · rename_i hk0
      cases ht
      rw [hc] at hprefer
      refine hprefer.after (.of_cop rfl (getConst_core hk) (n := 2) ?_ (by omega))
      refine becomes_replace (w := 0) (congrArg some (by decide)) fun a => ?_
      rw [BitVec.ushiftRight_and_distrib, ushiftRight_eq_zero_of_sshiftRight hk0]
      exact (and_zero).symm
    · cases ht; exact hdefault
  · cases ht; exact hdefault
· cases ht; exact hdefault

theorem lslInt_becomes (hn : isDefinedShift n = true)
    (h : lslInt c1 (cconstInt n) = .ok e) : Becomes (fun a b => b = a <<< n.toNat) 2 c1 e := by
  induction hw : c1.weight using strongRecOn generalizing c1 e n with | ind w ih =>
rw [lslInt] at h
obtain ⟨t, ht, rfl⟩ := mapTail2_ok h
apply Becomes.setTail
have hle := weight_tail_le c1
dsimp only [tail] at ht
have hdefault : Becomes (fun a b => b = a <<< n.toNat) 2 c1.tail
    (cop .clsl [c1.tail, cconstInt n]) := becomes_cop (opWithConst_shift hn).1 rfl
split at ht
· rename_i h0
  cases ht
  subst h0
  exact (becomes_refl _).mono (fun a b hb => by rw [hb]; exact (BitVec.shiftLeft_zero a).symm)
    (by lia)
split at ht
· cases ht; exact becomes_fold (· <<< n.toNat) ‹_›
split at ht
· rename_i inner n' _ hc _
  split at ht
  · rename_i hn'
    obtain ⟨hadd, hdef⟩ := toNat_add_of_isDefinedShift hn hn'
    rw [hc] at hle ⊢
    simp only [weight, weightList] at hle
    refine .of_cop (opWithConst_shift hn').1 rfl (n := 2) ?_ (by lia)
    split at ht
    · refine (ih _ (by lia) ‹_› ht rfl).value_congr fun a b hb => ?_
      rw [hb, hadd, Nat.add_comm, shiftLeft_add]
    rename_i hlt
    cases ht
    refine becomes_replace (w := 0) (congrArg some (by decide)) fun a => ?_
    have hge := mt hdef.2 hlt
    rw [← shiftLeft_add]
    exact (BitVec.shiftLeft_eq_zero (by lia)).symm
  · cases ht; exact hdefault
· rename_i c offset _ hc _
  split at ht
  · rename_i hov
    obtain ⟨d, hd, ht⟩ := bind_ok ht
    rw [hc] at hle ⊢
    simp only [weight, weightList] at hle
    have hshift := ih _ (by lia) hn hd rfl
    refine .of_cop rfl rfl (n := 4) ?_ (by lia)
    refine (hshift.trans (addConst_adds ht)).value_congr ?_
    rintro a b ⟨x, rfl, rfl⟩
    rw [ofInt_shiftLeft hov, BitVec.shiftLeft_add_distrib]
  · cases ht; exact hdefault
· rename_i x y _ hc _
  split at ht
  · rename_i k hk
    split at ht
    · rename_i hk0
      rw [hc] at hle ⊢
      simp only [weight, weightList] at hle
      refine .of_cop rfl (getConst_core hk) ?_ (Nat.le_add_right 2 2)
      refine (ih _ (by lia) hn ht rfl).value_congr fun a b hb => ?_
      rw [hb, BitVec.shiftLeft_or_distrib, hk0]
      exact (or_zero).symm
    · cases ht; exact hdefault
  · cases ht; exact hdefault
· rename_i x y _ hc _
  split at ht
  · rename_i k hk
    split at ht
    · rename_i hk0
      rw [hc] at hle ⊢
      simp only [weight, weightList] at hle
      refine .of_cop rfl (getConst_core hk) ?_ (Nat.le_add_right 2 2)
      refine (ih _ (by lia) hn ht rfl).value_congr fun a b hb => ?_
      rw [hb, BitVec.shiftLeft_xor_distrib, hk0]
      exact (xor_zero).symm
    · cases ht; exact hdefault
  · cases ht; exact hdefault
· rename_i x y _ hc _
  split at ht
  · rename_i k hk
    split at ht
    · rename_i hk0
      cases ht
      rw [hc]
      refine .of_cop rfl (getConst_core hk) (n := 2) ?_ (by lia)
      refine becomes_replace (w := 0) (congrArg some (by decide)) fun a => ?_
      rw [BitVec.shiftLeft_and_distrib, hk0]
      exact (and_zero).symm
    · cases ht; exact hdefault
  · cases ht; exact hdefault
· cases ht; exact hdefault

omit [DecidableEq O] in
/-- A logical shift clears the sign bit. -/
theorem msb_of_clsr {inner : Expression O}
    (hd : preferOr d = cop .clsr [inner, cconstInt n]) (hpos : (0 : OcamlInt).slt n = true)
    (hn : isDefinedShift n = true) {env : Machine.Bindings X} {s s' : σ} {a : Nativeint}
    (h : M.Evaluates d env s (.value (.word a)) s') : a.msb = false := by
  have h := Machine.refines_preferOr d _ _ _ _ h
  rw [hd] at h
  have hne : n ≠ 0 := fun h0 => by
    rw [h0] at hpos
    exact absurd hpos (by decide)
  have hshift := (opWithConst_shift (O := O) hn).2.1
  rcases (Machine.evaluates_cop_const rfl rfl).1 h with ⟨x, v, -, hv, heq⟩ | ⟨l, args, heq, -⟩
  · cases heq
    rw [Machine.word2_of_opWithConst hshift, Option.some.injEq] at hv
    rw [← hv, BitVec.msb_ushiftRight]
    have hn0 := toNat_pos_of_ne_zero hne
    simp [Nat.pos_iff_ne_zero.1 hn0]
  · cases heq

theorem asrInt_becomes (hn : isDefinedShift n = true) (h : asrInt c1 (cconstInt n) = .ok e) :
    Becomes (fun a b => b = a.sshiftRight n.toNat) 2 c1 e := by
  induction hw : c1.weight using strongRecOn generalizing c1 e n with | ind w ih =>
rw [asrInt] at h
obtain ⟨t, ht, rfl⟩ := mapTail2_ok h
apply Becomes.setTail
have hle := weight_tail_le c1
obtain ⟨hn64, -, hnint⟩ := toNat_of_isDefinedShift hn
dsimp only [tail] at ht
split at ht
· rename_i h0
  cases ht
  subst h0
  exact (becomes_refl _).mono (fun a b hb => by rw [hb]; exact (BitVec.sshiftRight_zero).symm)
    (by lia)
rename_i hn0
split at ht
· cases ht
rename_i d hi
have hlow := (ignoresLowBit hi).becomes
have hpos := toNat_pos_of_ne_zero hn0
have hled := hlow.weight_le
suffices hd : Becomes (fun a b => b = a.sshiftRight n.toNat) 2 d t by
  refine (hlow.trans hd).value_congr ?_
  rintro a b ⟨x, hax, rfl⟩
  exact (hax.sshiftRight hpos).symm
have hdefault : Becomes (fun a b => b = a.sshiftRight n.toNat) 2 d
    (cop .casr [d, cconstInt n]) := becomes_cop (opWithConst_shift hn).2.2 rfl
have hwd := weight_preferOr d
have hprefer := becomes_preferOr d
split at ht
· cases ht; exact becomes_fold (fun a => a.sshiftRight n.toNat) ‹_›
split at ht
· rename_i inner n' hc
  rw [hc] at hwd hprefer
  simp only [weight, weightList] at hwd
  split at ht
  · rename_i hn'
    obtain ⟨hsum, hdef⟩ := toNat_saturating hn hn'
    refine hprefer.after (.of_cop (opWithConst_shift hn').2.2 rfl (n := 2) ?_ (by lia))
    refine (ih _ (by lia) hdef ht rfl).value_congr fun a b hb => ?_
    rw [hb, hsum, ← BitVec.sshiftRight_add, Nat.add_comm n'.toNat]
    rcases Nat.le_total (n.toNat + n'.toNat) 63 with hle | hge
    · rw [Nat.min_eq_right hle]
    · rw [Nat.min_eq_left hge, sshiftRight_saturates a hge]
  · cases ht; exact hdefault
· rename_i inner n' hc
  split at ht
  · rename_i hn'
    rw [Bool.and_eq_true] at hn'
    refine ((lsrInt_becomes hn ht).of_values fun _ _ _ _ _ _ _ =>
      msb_of_clsr hc hn'.1 hn'.2).value_congr ?_
    rintro a b ⟨hmsb, rfl⟩
    exact (BitVec.sshiftRight_eq_of_msb_false hmsb).symm
  · cases ht; exact hdefault
· rename_i c x hc
  split at ht
  · rename_i hx
    obtain ⟨m, hm, ht⟩ := bind_ok ht
    split at ht
    · have harch : archBits = 64 := rfl
      rw [hc] at hwd hprefer
      simp only [weight, weightList] at hwd
      have hbits := maxSignedBitLength_hasBits hm
      refine hprefer.after (.of_cop (opWithConst_shift hx).1 rfl (n := 2) ?_ (by lia))
      split at ht
      · rename_i hnx
        rw [slt_iff_of_isDefinedShift hn hx] at hnx
        obtain ⟨hsub, hdef⟩ := toNat_sub_of_isDefinedShift (n := n) hx (by lia)
        refine ((lslInt_becomes hdef ht).of_values hbits).value_congr ?_
        rintro a b ⟨ha, rfl⟩
        rw [ha.lsl_asr (by lia) hn64, if_pos hnx, hsub]
      rename_i hnx
      rw [slt_iff_of_isDefinedShift hn hx] at hnx
      obtain ⟨hsub, hdef⟩ := toNat_sub_of_isDefinedShift (n := x) hn (by lia)
      refine ((ih _ (by lia) hdef ht rfl).of_values hbits).value_congr ?_
      rintro a b ⟨ha, rfl⟩
      rw [ha.lsl_asr (by lia) hn64, if_neg hnx, hsub]
    · cases ht; exact hdefault
  · cases ht; exact hdefault
· rename_i x y hc
  split at ht
  · rename_i k hk
    rw [hc] at hwd hprefer
    simp only [weight, weightList] at hwd
    split at ht
    · rename_i hk0
      refine hprefer.after (.of_cop rfl (getConst_core hk) ?_ (Nat.le_add_right 2 2))
      refine (ih _ (by lia) hn ht rfl).value_congr fun a b hb => ?_
      rw [hb, BitVec.sshiftRight_or_distrib, hk0]
      exact (or_zero).symm
    split at ht
    · rename_i hk1
      cases ht
      refine hprefer.after (.of_cop rfl (getConst_core hk) (n := 2) ?_ (by lia))
      refine becomes_replace (w := -1) (congrArg some (by decide)) fun a => ?_
      rw [BitVec.sshiftRight_or_distrib, hk1]
      exact (BitVec.or_allOnes).symm
    · cases ht; exact hdefault
  · cases ht; exact hdefault
· rename_i x y hc
  split at ht
  · rename_i k hk
    split at ht
    · rename_i hk0
      rw [hc] at hwd hprefer
      simp only [weight, weightList] at hwd
      refine hprefer.after (.of_cop rfl (getConst_core hk) ?_ (Nat.le_add_right 2 2))
      refine (ih _ (by lia) hn ht rfl).value_congr fun a b hb => ?_
      rw [hb, BitVec.sshiftRight_xor_distrib, hk0]
      exact (xor_zero).symm
    · cases ht; exact hdefault
  · cases ht; exact hdefault
· rename_i x y hc
  split at ht
  · rename_i k hk
    rw [hc] at hwd hprefer
    simp only [weight, weightList] at hwd
    split at ht
    · rename_i hk1
      refine hprefer.after (.of_cop rfl (getConst_core hk) ?_ (Nat.le_add_right 2 2))
      refine (ih _ (by lia) hn ht rfl).value_congr fun a b hb => ?_
      rw [hb, BitVec.sshiftRight_and_distrib, hk1]
      exact (BitVec.and_allOnes).symm
    split at ht
    · rename_i hk0
      cases ht
      refine hprefer.after (.of_cop rfl (getConst_core hk) (n := 2) ?_ (by lia))
      refine becomes_replace (w := 0) (congrArg some (by decide)) fun a => ?_
      rw [BitVec.sshiftRight_and_distrib, hk0]
      exact (and_zero).symm
    · cases ht; exact hdefault
  · cases ht; exact hdefault
· cases ht; exact hdefault

/-! ## §10 Shifts -/

/-- A shift by an amount below 64. -/
def shifted (f : Nativeint → Nat → Nativeint) (a b : Nativeint) : Option Nativeint :=
  if b.toNat < 64 then some (f a b.toNat) else none

section

variable {M : Machine O X σ} {op : Operation O} {f : Nativeint → Nat → Nativeint}

/-- What the three shifts have in common. -/
structure IsShift (M : Machine O X σ) (op : Operation O) (f : Nativeint → Nat → Nativeint)
    (shiftInt : Expression O → Expression O → Except (Fatal O) (Expression O)) : Prop where
  isWord : op.isWord = true
  word2 : ∀ {a b}, b.toNat < 64 → M.word2 op a b = some (f a b.toNat)
  withConst : ∀ {n}, isDefinedShift n = true → opWithConst op (ofInt n) = some (f · n.toNat)
  comm : ∀ a m n, f (f a m) n = f (f a n) m
  tails : ∀ c1 c2, shiftInt c1 c2 =
    (shiftInt c1.tail c2.tail).map fun t => c2.setTail (c1.setTail t)
  const : ∀ {c e n}, isDefinedShift n = true → shiftInt c (cconstInt n) = .ok e →
    Becomes (fun a b => b = f a n.toNat) 2 c e
  outside : ∀ {c1 c2 e}, c1.tail = c1 → (∀ t, c1.setTail t = t) → (∀ t, c2.setTail t = t) →
    shiftInt c1 c2 = .ok e →
    (∃ n, c2 = cconstInt n ∧ isDefinedShift n = true) ∨ e = shiftOutside op c1 c2

variable {shiftInt : Expression O → Expression O → Except (Fatal O) (Expression O)}

theorem IsShift.shiftOutside_computes (hs : IsShift M op f shiftInt) (c1 c2 : Expression O) :
    M.Computes2 (shifted f) c1 c2 (shiftOutside op c1 c2) := by
  have hplain : ∀ c1, M.Computes2 (shifted f) c1 c2 (cop op [c1, c2]) := by
    refine fun c1 => (Machine.computes2_cop hs.isWord c1 c2).mono fun {a b v} hv => ?_
    obtain ⟨hb, hv⟩ := ite_none_right_eq_some.1 hv
    rw [hs.word2 hb, hv]
  unfold shiftOutside
  split
  · rename_i op' x n'
    split
    · rename_i hop
      rw [Bool.and_eq_true, decide_eq_true_eq] at hop
      obtain ⟨rfl, hn'⟩ := hop
      have hconst := hs.withConst hn'
      refine .of_cop_left hconst rfl (((hplain x).andThen (Machine.relates_cop hconst rfl)).mono ?_)
      intro a b v hv
      obtain ⟨hb, hv⟩ := ite_none_right_eq_some.1 hv
      rw [shifted, if_pos hb, Option.map_some, ← hv, hs.comm]
    · exact hplain _
  · exact hplain _

theorem IsShift.computes (hs : IsShift M op f shiftInt)
    (h : shiftInt c1 c2 = .ok e) (hind : M.Independent c1 c2) :
    M.Computes2 (shifted f) c1 c2 e := by
  rw [hs.tails] at h
  cases ht : shiftInt c1.tail c2.tail with
  | error err => rw [ht] at h; cases h
  | ok t =>
    rw [ht] at h
    cases h
    apply Machine.Computes2.setTail hind
    rcases hs.outside (tail_tail c1) (setTail_tail c1) (setTail_tail c2) ht with ⟨n, hc2, hn⟩ | rfl
    · obtain ⟨hlt, hnat, -⟩ := toNat_of_isDefinedShift hn
      rw [hc2] at ht ⊢
      refine .of_const_right rfl (((hs.const hn ht).relates M).mono fun a b hb v hv => ?_)
      obtain ⟨-, hv⟩ := ite_none_right_eq_some.1 hv
      rw [hnat] at hv
      rw [hb, ← Option.some.inj hv]
    · exact hs.shiftOutside_computes _ _

end

/-- A shift whose operands are their own tails, when only a defined amount is special. -/
theorem outside_of_mapTail2 {op : Operation O}
    {f : (x : Expression O) → x.weight ≤ c1.weight → (y : Expression O) → y.weight ≤ c2.weight →
      Except (Fatal O) (Expression O)}
    (h1 : c1.tail = c1) (hset1 : ∀ t, c1.setTail t = t) (hset2 : ∀ t, c2.setTail t = t)
    (hf : ∀ x hx y hy, (∃ n, y = cconstInt n ∧ isDefinedShift n = true) ∨
      f x hx y hy = .ok (shiftOutside op x y)) (h : mapTail2 c1 c2 f = .ok e) :
    (∃ n, c2 = cconstInt n ∧ isDefinedShift n = true) ∨ e = shiftOutside op c1 c2 := by
  have h2 : c2.tail = c2 := (hset2 c2.tail).symm.trans (setTail_self c2)
  obtain ⟨t, ht, rfl⟩ := mapTail2_ok h
  rw [hset1, hset2]
  rcases hf c1.tail (weight_tail_le c1) c2.tail (weight_tail_le c2) with hn | hout
  · exact .inl (h2 ▸ hn)
  · rw [hout, h1, h2] at ht
    exact .inr (Except.ok.inj ht).symm

theorem ne_zero_of_not_isDefinedShift (h : ¬ isDefinedShift n = true) : n ≠ 0 :=
  fun h0 => h (by rw [h0]; decide)

section

variable (M : Machine O X σ)

theorem isShift_lsr : IsShift M .clsr (· >>> ·) lsrInt where
  isWord := rfl
  word2 hb := by rw [Machine.word2, Machine.shift, if_pos hb]
  withConst hn := (opWithConst_shift hn).2.1
  comm a m n := by rw [← shiftRight_add, ← shiftRight_add, Nat.add_comm]
  tails c1 c2 := by
    rw [lsrInt.eq_def c1 c2, lsrInt.eq_def c1.tail c2.tail]
    exact mapTail2_tails fun x y _ _ _ _ => by cases y <;> rfl
  const hn h := lsrInt_becomes hn h
  outside := by
    intro c1 c2 e h1 hset1 hset2 h
    rw [lsrInt] at h
    refine outside_of_mapTail2 h1 hset1 hset2 (fun x _ y _ => ?_) h
    cases y with
    | cconstInt n =>
      by_cases hn : isDefinedShift n = true
      · exact .inl ⟨n, rfl, hn⟩
      · exact .inr ((if_neg (ne_zero_of_not_isDefinedShift hn)).trans (if_neg hn))
    | _ => exact .inr rfl

theorem isShift_lsl : IsShift M .clsl (· <<< ·) lslInt where
  isWord := rfl
  word2 hb := by rw [Machine.word2, Machine.shift, if_pos hb]
  withConst hn := (opWithConst_shift hn).1
  comm a m n := by rw [← shiftLeft_add, ← shiftLeft_add, Nat.add_comm]
  tails c1 c2 := by
    rw [lslInt.eq_def c1 c2, lslInt.eq_def c1.tail c2.tail]
    refine mapTail2_tails fun x y _ _ _ _ => ?_
    cases y <;> try rfl
    cases x with
    | cop op args =>
      cases op <;> try rfl
      all_goals rcases args with _ | ⟨a, _ | ⟨b, _ | ⟨c, args⟩⟩⟩ <;> try rfl
      all_goals cases b <;> rfl
    | _ => rfl
  const hn h := lslInt_becomes hn h
  outside := by
    intro c1 c2 e h1 hset1 hset2 h
    rw [lslInt] at h
    refine outside_of_mapTail2 h1 hset1 hset2 (fun x _ y _ => ?_) h
    cases y with
    | cconstInt n =>
      by_cases hn : isDefinedShift n = true
      · exact .inl ⟨n, rfl, hn⟩
      · exact .inr ((if_neg (ne_zero_of_not_isDefinedShift hn)).trans (if_neg hn))
    | _ => exact .inr rfl

theorem isShift_asr : IsShift M .casr BitVec.sshiftRight asrInt where
  isWord := rfl
  word2 hb := by rw [Machine.word2, Machine.shift, if_pos hb]
  withConst hn := (opWithConst_shift hn).2.2
  comm a m n := by rw [← BitVec.sshiftRight_add, ← BitVec.sshiftRight_add, Nat.add_comm]
  tails c1 c2 := by
    rw [asrInt.eq_def c1 c2, asrInt.eq_def c1.tail c2.tail]
    exact mapTail2_tails fun x y _ _ _ _ => by cases y <;> rfl
  const hn h := asrInt_becomes hn h
  outside := by
    intro c1 c2 e h1 hset1 hset2 h
    rw [asrInt] at h
    refine outside_of_mapTail2 h1 hset1 hset2 (fun x _ y _ => ?_) h
    cases y with
    | cconstInt n =>
      by_cases hn : isDefinedShift n = true
      · exact .inl ⟨n, rfl, hn⟩
      · exact .inr ((if_neg (ne_zero_of_not_isDefinedShift hn)).trans (if_neg hn))
    | _ => exact .inr rfl

end

/-! ## §11 Products -/

namespace Machine

variable {M : Machine O X σ} {g : Nativeint → Nativeint → Option Nativeint}
  {c1 c2 c k e : Expression O} {w : Nativeint}

omit [DecidableEq O] in
/-- Two operands of which the left one is a constant. -/
theorem Computes2.relates_right (h : M.Computes2 g k c e) (hk : getConst (core k) = some w)
    (hg : ∀ a, (g w a).isSome) : M.Relates (fun a b => g w a = some b) c e := by
  intro env s o s' hc hn
  have heval : ∀ s, M.Evaluates k env s (.value (.word w)) s := fun s =>
    (evaluates_const hk).2 ⟨rfl, rfl⟩
  rcases o with (a | x) | ⟨l, args⟩
  · obtain ⟨v, hv⟩ := Option.isSome_iff_exists.1 (hg a)
    exact ⟨_, h.values hc (heval s') hv, .word hv⟩
  · exact absurd rfl (hn x)
  · exact ⟨_, h.right hc (heval s), .exit l args⟩

omit [DecidableEq O] in
/-- Two operands of which the right one is a constant. -/
theorem Computes2.relates_left (h : M.Computes2 g c k e) (hk : getConst (core k) = some w)
    (hg : ∀ a, (g a w).isSome) : M.Relates (fun a b => g a w = some b) c e := by
  intro env s o s' hc hn
  have heval : M.Evaluates k env s (.value (.word w)) s := (evaluates_const hk).2 ⟨rfl, rfl⟩
  rcases o with (a | x) | ⟨l, args⟩
  · obtain ⟨v, hv⟩ := Option.isSome_iff_exists.1 (hg a)
    exact ⟨_, h.values heval hc hv, .word hv⟩
  · exact absurd rfl (hn x)
  · exact ⟨_, h.left heval hc, .exit l args⟩

/-- The product of two words. -/
def product (a b : Nativeint) : Option Nativeint := some (a * b)

omit [DecidableEq O] in
/-- One operand is a constant, whichever it is. -/
theorem computes2_product {w : Nativeint} (h : M.Relates (fun a b => b = a * w) c e) :
    (getConst (core k) = some w → M.Computes2 product c k e) ∧
      (getConst (core k) = some w → M.Computes2 product k c e) := by
  refine ⟨fun hk => .of_const_right hk (h.mono fun a b hb v hv => ?_),
    fun hk => .of_const_left hk (h.mono fun a b hb v hv => ?_)⟩
  · cases hv; exact hb
  · cases hv; rw [hb, BitVec.mul_comm]

omit [DecidableEq O] in
theorem eq_of_isConstInt (h : isConstInt n e = true) : e = cconstInt n := by
  cases e with
  | cconstInt m => rw [eq_of_beq h]
  | _ => cases h

omit [DecidableEq O] in
theorem eq_of_constPower2 (h : constPower2 e = some n) : e = cconstInt n ∧ isPower2 n = true := by
  cases e with
  | cconstInt m =>
    obtain ⟨hpow, heq⟩ := ite_none_right_eq_some.1 h
    cases heq
    exact ⟨rfl, hpow⟩
  | _ => cases h

omit [DecidableEq O] in
theorem relates_csequence_zero (c : Expression O) :
    M.Relates (fun a b => b = a * ofInt 0) c (csequence c (cconstInt 0)) := by
  intro env s o s' hc hn
  rcases o with (a | x) | ⟨l, args⟩
  · refine ⟨_, evaluates_csequence.2 (.inl ⟨_, s', hc, evaluates_cconstInt.2 ⟨rfl, rfl⟩⟩), .word ?_⟩
    rw [show ofInt 0 = 0 by decide]
    exact (BitVec.mul_zero).symm
  · exact absurd rfl (hn x)
  · exact ⟨_, evaluates_csequence.2 (.inr ⟨l, args, rfl, hc⟩), .exit l args⟩

theorem relates_negInt (h : negInt c = .ok e) : M.Relates (fun a b => b = a * ofInt (-1)) c e := by
  have hind : M.Independent (cconstInt 0) c := (hereditary_independent c).const rfl
  refine ((subInt_computes h hind).relates_right rfl fun _ => rfl).mono fun a b hb => ?_
  rw [← Option.some.inj hb, show ofInt (-1) = -1 by decide, show ofInt 0 = 0 by decide]
  grind

theorem relates_multPower2 (hn : isPower2 n = true) (h : multPower2 c n = .ok e) :
    M.Relates (fun a b => b = a * ofInt n) c e := by
  obtain ⟨m, -, hm, hdef, hword⟩ := isPower2_spec hn
  refine ((lslInt_becomes hdef h).relates M).mono fun a b hb => ?_
  rw [hb, hm, hword, BitVec.shiftLeft_eq_mul_twoPow]

omit [DecidableEq O] in
theorem relates_one (c : Expression O) : M.Relates (fun a b => b = a * ofInt 1) c c := by
  refine (relates_refl c).mono fun a b hb => ?_
  rw [hb, show ofInt 1 = 1 by decide]
  exact (BitVec.mul_one a).symm

/-- A constant summand is multiplied on its own. -/
theorem relates_mulInt_caddi {n k : OcamlInt} (hov : noOverflowMul n k = true)
    (hd : M.Relates (fun a b => b = a * ofInt k) c d) (h : addConst d (n * k) = .ok e) :
    M.Relates (fun a b => b = a * ofInt k) (cop .caddi [c, cconstInt n]) e := by
  refine .of_cop rfl rfl ((hd.trans ((addConst_adds h).relates M)).mono ?_)
  rintro a b ⟨x, rfl, rfl⟩
  rw [ofInt_mul hov]
  grind

theorem mulInt_computes (h : mulInt c1 c2 = .ok e) : M.Computes2 product c1 c2 e := by
  induction hw : c1.weight + c2.weight using strongRecOn generalizing c1 c2 e with | ind w ih =>
have hrec : ∀ {c d : Expression O} {k : OcamlInt}, c.weight + 1 < w →
    mulInt c (cconstInt k) = .ok d → M.Relates (fun a b => b = a * ofInt k) c d := by
  intro c d k hlt hd
  refine ((ih _ hlt hd rfl).relates_left rfl fun _ => rfl).mono fun a b hb => ?_
  exact (Option.some.inj hb).symm
rw [mulInt.eq_def] at h
split at h
· rename_i hk
  rw [eq_of_isConstInt hk]
  cases h
  exact (computes2_product (relates_csequence_zero c1)).1 rfl
split at h
· rename_i hk
  rw [eq_of_isConstInt hk]
  cases h
  exact (computes2_product (relates_csequence_zero c2)).2 rfl
split at h
· rename_i hk
  rw [eq_of_isConstInt hk]
  cases h
  exact (computes2_product (relates_one c1)).1 rfl
split at h
· rename_i hk
  rw [eq_of_isConstInt hk]
  cases h
  exact (computes2_product (relates_one c2)).2 rfl
split at h
· rename_i hk
  rw [eq_of_isConstInt hk]
  exact (computes2_product (relates_negInt h)).1 rfl
split at h
· rename_i hk
  rw [eq_of_isConstInt hk]
  exact (computes2_product (relates_negInt h)).2 rfl
split at h
· obtain ⟨rfl, hn⟩ := eq_of_constPower2 ‹_›
  exact (computes2_product (relates_multPower2 hn h)).1 rfl
· rename_i hpow
  obtain ⟨rfl, hn⟩ := eq_of_constPower2 hpow
  exact (computes2_product (relates_multPower2 hn h)).2 rfl
split at h
· split at h
  · rename_i hov
    obtain ⟨d, hd, h⟩ := bind_ok h
    simp only [weight, weightList] at hw
    exact (computes2_product (relates_mulInt_caddi hov (hrec (by omega) hd) h)).1 rfl
  · cases h; exact (computes2_cop rfl _ _).mono id
· split at h
  · rename_i hov
    obtain ⟨d, hd, h⟩ := bind_ok h
    simp only [weight, weightList] at hw
    exact (computes2_product (relates_mulInt_caddi hov (hrec (by omega) hd) h)).2 rfl
  · cases h; exact (computes2_cop rfl _ _).mono id
· cases h; exact (computes2_cop rfl _ _).mono id

end Machine

end Oxcaml.Backend
