/-
Oxcaml.Backend.CmmPeepholes — the smart constructors against plain operations.

What a smart constructor builds ends with what the plain operation ends with,
and leaves the machine in the same state (§2): for all of `add_const`,
`add_int`, `sub_int`, `xor_int`, `or_int`, `and_int`, `lsl_int`, `lsr_int`,
`asr_int` below 64, `mul_int`, `tag_int` and `untag_int`.

The constructors of two operands evaluate what surrounds the right tail, then
what surrounds the left one, and the tails last; the plain operation evaluates
the right operand first, whole. So the operands have to be independent, and §2
ends with a load and a store that are not.
-/
import Oxcaml.Backend.CmmExtensionTheorems

set_option linter.all false

namespace Oxcaml.Backend

open Expression CmmHelpers CmmPeepholeEngine

variable {O X σ : Type}

/-! ## §1 Tags -/

/-- A tagged constant. -/
theorem getConst_intConst (n : OcamlInt) :
    getConst (intConst n : Expression O) = some ((ofInt n <<< 1) + 1) := by
  rw [intConst]
  split
  · rename_i h
    rw [Bool.and_eq_true] at h
    have hshift : ofInt (n <<< 1) = ofInt n <<< 1 :=
      ofInt_shiftLeft (k := 1) (by
        simp only [noOverflowLsl, Bool.and_eq_true]
        exact ⟨⟨by decide, h.2⟩, h.1⟩)
    have hadd : ofInt (n <<< 1 + 1) = ofInt (n <<< 1) + 1 := by
      -- An even number is not the largest one.
      have heven := toInt_shiftLeft_eq n 1
      have hbounds := toInt_bounds (n <<< 1)
      have hone : (1 : OcamlInt).toInt = 1 := by decide
      have hone' : (1 : Nativeint).toInt = 1 := by decide
      rw [Int.bmod_def] at heven
      apply BitVec.eq_of_toInt_eq
      rw [toInt_ofInt, BitVec.toInt_add, BitVec.toInt_add, toInt_ofInt, hone, hone',
        Int.bmod_eq_of_le (by omega) (by split at heven <;> lia),
        Int.bmod_eq_of_le (by omega) (by omega)]
    rw [getConst, hadd, hshift]
  · rfl

/-- The low 63 bits decide the tagged word. -/
theorem tagged_of_agree {a b : Nativeint} (h : AgreeOnLowBits 63 a b) :
    (a <<< 1) + 1 = (b <<< 1) + 1 := by
  rw [agreeOnLowBits_iff] at h
  congr 1
  apply BitVec.eq_of_getLsbD_eq
  intro i hi
  rw [BitVec.getLsbD_shiftLeft, BitVec.getLsbD_shiftLeft]
  by_cases h1 : i < 1
  · simp [h1]
  · rw [h (i - 1) (by omega)]

variable [DecidableEq O]

variable {i e : Expression O}

theorem tagInt_simplifies (h : tagInt i = .ok e) :
    Simplifies (fun a b => b = (a <<< 1) + 1) i e := by
  obtain ⟨low, hlow, h⟩ := bind_ok h
  have htag : Becomes (fun a b => b = (a <<< 1) + 1) 4 low e := by
    split at h
    · rename_i n
      cases h
      exact (becomes_const (R := fun a b => b = (a <<< 1) + 1) (a := ofInt n) rfl
        (getConst_intConst n) rfl).mono (fun _ _ hb => hb) (Nat.zero_le 4)
    obtain ⟨c, hc, h⟩ := bind_ok h
    refine ((lslInt_becomes (by decide) hc).trans (addConst_adds h)).mono ?_ (Nat.le_refl 4)
    rintro a b ⟨x, rfl, rfl⟩
    rfl
  refine ((lowBits_narrows (by decide) hlow).before htag.narrows.toSimplifies).mono ?_
  rintro a b ⟨x, hax, rfl⟩
  exact (tagged_of_agree hax).symm

variable {op : Operation O} {g : Nativeint → Nativeint}

omit [DecidableEq O] in
/-- A right shift, the tag, and a right shift by one: the tag is shifted out. -/
theorem becomes_untagged {n : OcamlInt} (hg : opWithConst op (ofInt n) = some g) {c : Expression O}
    (h : Becomes (fun a b => b = (g a).sshiftRight 1) 2 c e) :
    Becomes (fun a b => b = a.sshiftRight 1) 2 (cop .cor [cop op [c, cconstInt n], cconstInt 1]) e
      := by
  refine .of_cop rfl rfl (.of_cop hg rfl (h.value_congr fun a b hb => ?_) (Nat.le_refl 2))
    (Nat.zero_le _)
  rw [hb]
  exact ((agreeButLowBit_or_one (g a)).sshiftRight (Nat.le_refl 1)).symm

omit [DecidableEq O] in
theorem ofInt_sshiftRight (n : OcamlInt) (k : Nat) :
    ofInt (n.sshiftRight k) = (ofInt n).sshiftRight k := by
  apply BitVec.eq_of_toInt_eq
  rw [toInt_ofInt, BitVec.toInt_sshiftRight, BitVec.toInt_sshiftRight, toInt_ofInt]

omit [DecidableEq O] in
/-- The guard of `untag_int`. -/
theorem untag_guard {n : OcamlInt} (h : ((0 : OcamlInt).slt n && isDefinedShift (n + 1)) = true) :
    0 < n.toNat ∧ isDefinedShift n = true ∧ isDefinedShift (n + 1) = true ∧
      (n + 1).toNat = n.toNat + 1 := by
  rw [Bool.and_eq_true, BitVec.slt_iff_toInt_lt] at h
  obtain ⟨hpos, hdef⟩ := h
  obtain ⟨hlt, -, -⟩ := toNat_of_isDefinedShift hdef
  have hzero : (0 : OcamlInt).toInt = 0 := by decide
  have hnat := BitVec.toInt_eq_toNat_cond n
  have hn := n.isLt
  have hadd : (n + 1).toNat = (n.toNat + 1) % 2 ^ 63 := BitVec.toNat_add n 1
  have hsum : (n + 1).toNat = n.toNat + 1 := by
    rw [hadd]
    exact Nat.mod_eq_of_lt (by split at hnat <;> lia)
  exact ⟨by split at hnat <;> lia, isDefinedShift_of_toNat (by omega), hdef, hsum⟩

theorem untagInt_becomes (h : untagInt i = .ok e) :
    Becomes (fun a b => b = a.sshiftRight 1) 2 i e := by
  have hplain : ∀ {c : Expression O}, asrConst c 1 = .ok e →
      Becomes (fun a b => b = a.sshiftRight 1) 2 c e := fun h => asrInt_becomes (by decide) h
  unfold untagInt at h
  split at h
  · rename_i n
    cases h
    have hconst : getConst (cconstInt (n.sshiftRight 1) : Expression O) =
        some ((ofInt n).sshiftRight 1) := congrArg some (ofInt_sshiftRight n 1)
    exact (becomes_const (R := fun a b => b = a.sshiftRight 1) (a := ofInt n) rfl
      hconst rfl).mono (fun _ _ hb => hb) (Nat.zero_le 2)
  · split at h
    · obtain ⟨hpos, hn, hn', hsum⟩ := untag_guard ‹_›
      refine becomes_untagged (opWithConst_shift hn).2.2
        ((asrInt_becomes hn' h).value_congr fun a b hb => ?_)
      rw [hb, hsum, BitVec.sshiftRight_add]
    · exact hplain h
  · rename_i c n
    split at h
    · obtain ⟨hpos, hn, hn', hsum⟩ := untag_guard ‹_›
      refine becomes_untagged (opWithConst_shift hn).2.1
        ((lsrInt_becomes hn' h).value_congr fun a b hb => ?_)
      have hmsb : (a >>> n.toNat).msb = false := by
        rw [BitVec.msb_ushiftRight, decide_eq_true hpos, Bool.not_true, Bool.false_and]
      rw [hb, hsum, BitVec.sshiftRight_eq_of_msb_false hmsb, BitVec.shiftRight_add]
    · exact hplain h
  · exact hplain h

/-! ## §2 Plain operations -/

namespace Machine

/-- `e` ends with what the operation on `c1` and `c2` ends with, if the right
operand ends with a word as `P` says. When the right operand exits, the left
one must not be stuck. -/
def DoesPlain (M : Machine O X σ) (op : Operation O) (P : Nativeint → Prop)
    (c1 c2 e : Expression O) : Prop :=
  ∀ env s o s', M.Evaluates (cop op [c1, c2]) env s o s' →
    (∀ b s₁, M.Evaluates c2 env s (.value (.word b)) s₁ → P b) →
    (∀ l args s₁, M.Evaluates c2 env s (.exit l args) s₁ →
      ∃ x s₂, M.Evaluates c1 env s (.value x) s₂) →
    M.Evaluates e env s o s'

variable {M : Machine O X σ} {op : Operation O} {c1 c2 e k : Expression O}
  {f : Nativeint → Nativeint → Nativeint} {P : Nativeint → Prop}

omit [DecidableEq O] in
theorem Computes2.doesPlain {g : Nativeint → Nativeint → Option Nativeint}
    (h : M.Computes2 g c1 c2 e) (hop : op.isWord = true)
    (hg : ∀ {a b v}, P b → M.word2 op a b = some v → g a b = some v) :
    M.DoesPlain op P c1 c2 e := by
  intro env s o s' hplain hP hstuck
  exact h.evaluates hop hplain (fun h2 hv => hg (hP _ _ h2) hv) hstuck

omit [DecidableEq O] in
theorem Relates.doesPlain {w : Nativeint}
    (h : M.Relates (fun a b => b = g a) c1 e) (hg : opWithConst op w = some g)
    (hk : getConst (core k) = some w) : M.DoesPlain op P c1 k e := by
  intro env s o s' hplain _ _
  rcases (evaluates_cop_const (isWord_of_opWithConst hg) hk).1 hplain with
    ⟨a, v, h1, hv, rfl⟩ | ⟨l, args, rfl, h1⟩
  · obtain ⟨_, he, rfl⟩ := h.value h1
    rw [word2_of_opWithConst hg, Option.some.injEq] at hv
    exact hv ▸ he
  · exact h.exit h1

/-- Shifts below 64. -/
theorem shift_doesPlain {f : Nativeint → Nat → Nativeint}
    {shiftInt : Expression O → Expression O → Except (Fatal O) (Expression O)}
    (hs : IsShift M op f shiftInt) (hind : M.Independent c1 c2) (h : shiftInt c1 c2 = .ok e) :
    M.DoesPlain op (·.toNat < 64) c1 c2 e := by
  refine (hs.computes h hind).doesPlain hs.isWord fun {a b v} hb hv => ?_
  rw [hs.word2 hb] at hv
  rw [shifted, if_pos hb, hv]

theorem tagInt_doesPlain (hop : M.OperandsIndependent c1) (h : tagInt c1 = .ok e) :
    M.DoesPlain .caddi (fun _ => True) (cop .clsl [c1, cconstInt 1]) (cconstInt 1) e := by
  refine Relates.doesPlain (w := ofInt 1) (g := (· + ofInt 1)) ?_ rfl rfl
  refine .of_cop (opWithConst_shift (n := 1) (by decide)).1 rfl ?_
  exact ((tagInt_simplifies h).relates M hop).mono fun a b hb => hb

end Machine

/-- What the smart constructors build ends as the plain operation does. The
shifts are by less than 64. -/
theorem peepholes_plain (M : Machine O X σ) (c1 c2 e : Expression O) (n : OcamlInt)
    (w : Nativeint) :
    ((addConst c1 n = .ok e → M.DoesPlain .caddi (fun _ => True) c1 (cconstInt n) e) ∧
      (xorConst c1 w = .ok e → M.DoesPlain .cxor (fun _ => True) c1 (natintConstUntagged w) e) ∧
      (orConst c1 w = .ok e → M.DoesPlain .cor (fun _ => True) c1 (natintConstUntagged w) e) ∧
      (andConst c1 w = .ok e → M.DoesPlain .cand (fun _ => True) c1 (natintConstUntagged w) e)) ∧
    (M.Independent c1 c2 → (addInt c1 c2 = .ok e → M.DoesPlain .caddi (fun _ => True) c1 c2 e) ∧
      (subInt c1 c2 = .ok e → M.DoesPlain .csubi (fun _ => True) c1 c2 e) ∧
      (xorInt c1 c2 = .ok e → M.DoesPlain .cxor (fun _ => True) c1 c2 e) ∧
      (orInt c1 c2 = .ok e → M.DoesPlain .cor (fun _ => True) c1 c2 e) ∧
      (andInt c1 c2 = .ok e → M.DoesPlain .cand (fun _ => True) c1 c2 e) ∧
      (lslInt c1 c2 = .ok e → M.DoesPlain .clsl (·.toNat < 64) c1 c2 e) ∧
      (lsrInt c1 c2 = .ok e → M.DoesPlain .clsr (·.toNat < 64) c1 c2 e) ∧
      (asrInt c1 c2 = .ok e → M.DoesPlain .casr (·.toNat < 64) c1 c2 e)) ∧
    (mulInt c1 c2 = .ok e → M.DoesPlain .cmuli (fun _ => True) c1 c2 e) ∧
    (M.OperandsIndependent c1 → tagInt c1 = .ok e →
      M.DoesPlain .caddi (fun _ => True) (cop .clsl [c1, cconstInt 1]) (cconstInt 1) e) ∧
    (untagInt c1 = .ok e → M.DoesPlain .casr (fun _ => True) c1 (cconstInt 1) e) := by
  have hconst : getConst (core (natintConstUntagged w : Expression O)) = some w :=
    getConst_core (getConst_natintConstUntagged w)
  have hone : opWithConst (O := O) .casr (ofInt 1) = some fun a => a.sshiftRight 1 :=
    (opWithConst_shift (by decide)).2.2
  refine ⟨⟨fun h => ?_, fun h => ?_, fun h => ?_, fun h => ?_⟩,
    fun hind => ⟨fun h => ?_, fun h => ?_, fun h => ?_, fun h => ?_, fun h => ?_,
      Machine.shift_doesPlain (isShift_lsl M) hind,
      Machine.shift_doesPlain (isShift_lsr M) hind,
      Machine.shift_doesPlain (isShift_asr M) hind⟩,
    fun h => ?_, Machine.tagInt_doesPlain, fun h => ?_⟩
  · exact ((addConst_adds h).relates M).doesPlain rfl rfl
  · exact ((xorConst_becomes h).relates M).doesPlain rfl hconst
  · exact ((orConst_becomes h).relates M).doesPlain rfl hconst
  · exact ((andConst_becomes h).relates M).doesPlain rfl hconst
  · exact (Machine.addInt_computes h hind).doesPlain rfl fun _ hv => hv
  · exact (Machine.subInt_computes h hind).doesPlain rfl fun _ hv => hv
  · exact (Machine.xorInt_computes h hind).doesPlain rfl fun _ hv => hv
  · exact (Machine.orInt_computes h hind).doesPlain rfl fun _ hv => hv
  · exact (Machine.andInt_computes h hind).doesPlain rfl fun _ hv => hv
  · exact (Machine.mulInt_computes h).doesPlain rfl fun _ hv => hv
  · exact ((untagInt_becomes h).relates M).doesPlain hone rfl

/-- On two variables. -/
theorem peepholes_plain_vars : ∃ e, andInt (cvar 0) (cvar 1 : Expression Unit) = .ok e ∧
    cellMachine.Evaluates e (fun v => some (.word (if v = 0 then 12 else 10))) true
      (.value (.word 8)) true := by
  have hind : cellMachine.Independent (cvar 0) (cvar 1) := ⟨nofun, nofun, .inr (.inl rfl)⟩
  refine ⟨_, rfl, ((peepholes_plain cellMachine (cvar 0) (cvar 1) _ 0 0).2.1 hind).2.2.2.2.1 rfl
    _ _ _ _ ⟨3, rfl⟩ (fun _ _ _ => trivial) fun l args s₁ h => ?_⟩
  obtain ⟨⟨_, -, hx⟩, -⟩ := Machine.evaluates_cvar.1 h
  cases hx

/-- A load and, after it, a store: the store comes before the load. -/
theorem andInt_store_load : ∃ c1 c2 e : Expression Unit,
    c1 = csequence (cop (.other ()) []) (cvar 0) ∧
    c2 = cop (.cload .byteUnsigned false false) [cconstInt 0] ∧ andInt c1 c2 = .ok e ∧
      cellMachine.Evaluates (cop .cand [c1, c2]) (fun _ => some (.word 1)) true
        (.value (.word 1)) false ∧
      ¬ cellMachine.Evaluates e (fun _ => some (.word 1)) true (.value (.word 1)) false := by
  refine ⟨_, _, csequence (cop (.other ()) []) (cop .cand [cvar 0,
    cop (.cload .byteUnsigned false false) [cconstInt 0]]), rfl, rfl, rfl, ⟨4, rfl⟩, ?_⟩
  intro h
  have h0 : cellMachine.Evaluates (csequence (cop (.other ()) []) (cop .cand [cvar 0,
      cop (.cload .byteUnsigned false false) [cconstInt 0]]))
      (fun _ => some (.word 1)) true (.value (.word 0)) false := ⟨4, rfl⟩
  exact absurd (Value.word.inj (Outcome.value.inj (h.unique h0).1)) (by decide)

end Oxcaml.Backend
