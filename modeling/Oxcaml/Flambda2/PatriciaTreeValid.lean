/-
Oxcaml.Flambda2.PatriciaTreeValid — what the checker `valid` accepts.

`check_deep` threads a prefix and the next bit. Below the lowest bit the bit
is 0, and a mask over 0 keeps no bit at all, so under the prefix 0 a leaf is
accepted whatever its key. This concerns two places: the left child of a branch
on the word 1, and both children of a branch on the word 0 (which has no bit).
`Tree.fill` gives such leaves the key 0 and makes such a branch a leaf, and
§24 shows that `valid` accepts a tree exactly when the filled tree is well
formed.
-/
import Oxcaml.Flambda2.PatriciaTreeComparison

set_option linter.all false

namespace Oxcaml.Flambda2.PatriciaTree

open BitVec (getLsbD twoPow)

open Oxcaml.Lib

variable {α : Type}

/-! ## §23 The checker -/

def checkDeep (pre bit : Key) : Tree α → Bool
  | .leaf i _ => (bit == 0 && pre == i) || matchPrefix i pre bit
  | .branch prefixAndBit' t0 t1 =>
    let (prefix', bit') := unpack prefixAndBit'
    let prefix0 := prefix' &&& ~~~bit'
    let prefix1 := prefix' ||| bit'
    let bit0 := bit' >>> 1
    let bit1 := bit0
    prefix0 == prefix' && (bit == bit' || higher bit bit') && bit != 0 &&
      matchPrefix prefix' pre bit && checkDeep prefix0 bit0 t0 && checkDeep prefix1 bit1 t1

def valid : T α → Bool
  | .empty => true
  | .tree t => checkDeep 0 (BitVec.intMin 63) t

/-- Leaves whose keys the checker does not look at get the key 0. -/
def Tree.fill : Tree α → Tree α
  | leaf i d => leaf i d
  | branch prefixAndBit t0 t1 =>
    if prefixAndBit = 0 then
      match t0, t1 with
      | leaf _ d, leaf _ _ => leaf 0 d
      | t0, t1 => branch 0 t0 t1
    else if prefixAndBit = 1 then
      match t0 with
      | leaf _ d => branch 1 (leaf 0 d) t1.fill
      | t0 => branch 1 t0 t1.fill
    else branch prefixAndBit t0.fill t1.fill

attribute [local grind =] Tree.fill

def T.fill : T α → T α
  | .empty => .empty
  | .tree t => .tree t.fill

/-! ## §24 What it accepts -/

theorem Tree.exists_hasKey (t : Tree α) : ∃ k, t.HasKey k := by
  induction t with
  | leaf i d => exact ⟨i, rfl⟩
  | branch pb t0 t1 ih0 _ => obtain ⟨k, hk⟩ := ih0; exact ⟨k, .inl hk⟩

variable {i pre pb : Key} {t : Tree α}

/-- A well-formed tree with one key is a leaf. -/
theorem wf_one_key_iff : (t.WF ∧ ∀ k, t.HasKey k → k = i) ↔ ∃ d, t = .leaf i d := by
  constructor
  · rintro ⟨hwf, hkey⟩
    cases t with
    | leaf j d => exact ⟨d, by rw [hkey j rfl]⟩
    | branch pb t0 t1 =>
      obtain ⟨k, hk, hne⟩ := exists_key_ne hwf i
      exact absurd (hkey k ((hwf.hasKey_iff k).2 hk)) hne
  · rintro ⟨d, rfl⟩; exact ⟨trivial, fun k hk => hk.symm⟩

theorem isLowest_one : IsLowest (1 : Key) 0 :=
  ⟨by decide, fun m hm => absurd hm (Nat.not_lt_zero m)⟩

theorem zero_matchPrefix (pre bit : Key) : matchPrefix 0 pre bit = true ↔ pre = 0 := by
  have hmask : mask 0 bit = 0 := BitVec.zero_and
  rw [matchPrefix, hmask, beq_iff_eq, eq_comm]

theorem matchPrefix_zero (i pre : Key) : matchPrefix i pre 0 = true ↔ pre = 0 := by
  rw [matchPrefix, mask, beq_iff_eq, eq_comm]
  simp

/-- Below the lowest bit there are leaves only; under the prefix 0, any leaf. -/
theorem checkDeep_zero : checkDeep pre 0 t = true ↔ ∃ i d, t = .leaf i d ∧ (pre = i ∨ pre = 0) := by
  cases t with
  | leaf i d => rw [checkDeep, Bool.or_eq_true, matchPrefix_zero]; simp
  | branch pb t0 t1 => simp [checkDeep]

section Positions

variable {n : Nat}

theorem twoPow_ne_zero (hn : n < 63) : twoPow 63 n ≠ 0 := by
  intro h
  have hbit := congrArg (fun x => getLsbD x n) h
  simp [hn] at hbit

theorem matchPrefix_twoPow (hn : n < 63) (hpre : ∀ m ≤ n, pre.getLsbD m = false)
    (i : Key) : matchPrefix i pre (twoPow 63 n) = true ↔ AgreeFrom (n + 1) i pre := by
  rw [matchPrefix, beq_iff_eq]
  constructor
  · rintro rfl m hm
    rw [mask_twoPow_getLsbD hn]
    simp [show n < m from hm]
  intro hag
  refine BitVec.eq_of_getLsbD_eq fun m _ => ?_
  rw [mask_twoPow_getLsbD hn]
  by_cases hm : n < m
  · simp [hm, hag m hm]
  · simp [hm, hpre m (by omega)]

variable {m : Nat}

theorem higher_twoPow (hn : n < 63) (hm : m < 63) :
    (twoPow 63 n == twoPow 63 m || higher (twoPow 63 n) (twoPow 63 m)) =
      true ↔ m ≤ n := by
  have heq : twoPow 63 n = twoPow 63 m ↔ n = m := by
    refine ⟨fun h => ?_, fun h => by rw [h]⟩
    have hbit := congrArg (fun x => getLsbD x n) h
    simpa [Pow, hn] using hbit
  rw [Bool.or_eq_true, beq_iff_eq, heq, higher, twoPow_sub_one_slt hm hn, decide_eq_true_iff]
  omega

/-- The prefixes below the two sides of a branch. -/
theorem side_iff_agreeFrom (h : IsLowest pb n) (b : Bool) (k : Key) : Side pb b k ↔
      AgreeFrom n k (if b then (unpack pb).1 ||| twoPow 63 n else (unpack pb).1) := by
  have hval : ∀ m, (if b then (unpack pb).1 ||| twoPow 63 n else (unpack pb).1).getLsbD m =
      (pb.getLsbD m && decide (n < m) || b && decide (n = m)) := by
    intro m
    have hlt := h.lt
    cases b <;> simp only [Bool.false_eq_true, if_false, if_true, BitVec.getLsbD_or,
      unpack_fst_getLsbD h, BitVec.getLsbD_twoPow, hlt, decide_true, Bool.false_and, Bool.or_false]
  rw [side_iff h]
  constructor
  · rintro ⟨hag, hbit⟩ m hm
    rw [hval]
    rcases Nat.eq_or_lt_of_le hm with rfl | hlt
    · simp [hbit]
    · simp [hag m hlt, hlt, Nat.ne_of_lt hlt]
  intro hag
  refine ⟨fun m hm => ?_, ?_⟩
  · have hlt : n < m := hm
    rw [hag m hlt.le, hval]
    simp [hlt, Nat.ne_of_lt hlt]
  · rw [hag n le_rfl, hval]
    simp

theorem twoPow_shiftRight_one (n : Nat) :
    twoPow 63 (n + 1) >>> 1 = if n + 1 < 63 then twoPow 63 n else 0 := by
  refine BitVec.eq_of_getLsbD_eq fun m hm => ?_
  split
  case isTrue h => simp [h, show n < 63 by omega, Nat.add_comm 1 m]
  case isFalse h => simp [h]

/-- The tests on a branch with a bit. -/
theorem checkDeep_branch (hn : n < 63) (hm : IsLowest pb m)
    (hpre : ∀ j ≤ n, pre.getLsbD j = false) (t0 t1 : Tree α) :
    checkDeep pre (twoPow 63 n) (.branch pb t0 t1) = true ↔
      m ≤ n ∧ AgreeFrom (n + 1) (unpack pb).1 pre ∧
        checkDeep (unpack pb).1 (twoPow 63 m >>> 1) t0 = true ∧
        checkDeep ((unpack pb).1 ||| twoPow 63 m) (twoPow 63 m >>> 1) t1 = true := by
  have hclear : (unpack pb).1 &&& ~~~(twoPow 63 m) = (unpack pb).1 := by
    refine BitVec.eq_of_getLsbD_eq fun j hj => ?_
    rw [BitVec.getLsbD_and, BitVec.getLsbD_not, BitVec.getLsbD_twoPow, unpack_fst_getLsbD hm]
    by_cases hmj : m = j
    · simp [hmj]
    · simp [hmj, hj]
  have hne : (twoPow 63 n != 0) = true := bne_iff_ne.2 (twoPow_ne_zero hn)
  rw [checkDeep]
  simp only [unpack_snd hm, hclear, hne, Bool.and_eq_true, higher_twoPow hn hm.lt,
    matchPrefix_twoPow hn hpre, beq_self_eq_true, true_and, and_assoc]

/-- The sides of a branch, seen from the prefix above it. -/
theorem branch_wf_iff (hm : IsLowest pb m) (t0 t1 : Tree α) : ((Tree.branch pb t0 t1).WF ∧
        ∀ k, (Tree.branch pb t0 t1).HasKey k → AgreeFrom (n + 1) k pre) ↔
      m ≤ n ∧ AgreeFrom (n + 1) (unpack pb).1 pre ∧
        (t0.WF ∧ ∀ k, t0.HasKey k → AgreeFrom m k (unpack pb).1) ∧
        (t1.WF ∧ ∀ k, t1.HasKey k → AgreeFrom m k ((unpack pb).1 ||| twoPow 63 m)) := by
  have hside0 : ∀ k, Side pb false k ↔ AgreeFrom m k (unpack pb).1 := side_iff_agreeFrom hm false
  have hside1 : ∀ k, Side pb true k ↔ AgreeFrom m k ((unpack pb).1 ||| twoPow 63 m) :=
    side_iff_agreeFrom hm true
  have hne : pb ≠ 0 := by
    rintro rfl
    simp [IsLowest] at hm
  have hupper : ∀ k b, Side pb b k → AgreeFrom (m + 1) k (unpack pb).1 := by
    intro k b hk j hj
    rw [((side_iff hm).1 hk).1 j hj, unpack_fst_getLsbD hm]
    simp [show m < j from hj]
  constructor
  · rintro ⟨⟨-, h0, h1, hwf0, hwf1⟩, hkey⟩
    obtain ⟨k0, hk0⟩ := t0.exists_hasKey
    obtain ⟨k1, hk1⟩ := t1.exists_hasKey
    have hle : m ≤ n := by
      -- The two sides differ in the bit of the branch.
      by_contra hlt
      have hagree := (hkey k0 (.inl hk0)).trans (hkey k1 (.inr hk1)).symm
      have hbit := hagree m (by omega)
      rw [((side_iff hm).1 (h0 k0 hk0)).2, ((side_iff hm).1 (h1 k1 hk1)).2] at hbit
      cases hbit
    refine ⟨hle, ?_, ⟨hwf0, fun k hk => (hside0 k).1 (h0 k hk)⟩,
      hwf1, fun k hk => (hside1 k).1 (h1 k hk)⟩
    exact ((hupper k0 _ (h0 k0 hk0)).symm.mono (by omega)).trans (hkey k0 (.inl hk0))
  rintro ⟨hle, hpre, ⟨hwf0, h0⟩, hwf1, h1⟩
  refine ⟨⟨hne, fun k hk => (hside0 k).2 (h0 k hk), fun k hk => (hside1 k).2 (h1 k hk), hwf0,
    hwf1⟩, fun k hk => ?_⟩
  rcases hk with hk | hk
  · exact ((hupper k _ ((hside0 k).2 (h0 k hk))).mono (by omega)).trans hpre
  · exact ((hupper k _ ((hside1 k).2 (h1 k hk))).mono (by omega)).trans hpre

end Positions

/-- A filled branch is a branch, or a leaf with the key 0. -/
theorem eq_zero_of_fill_branch {t0 t1 : Tree α} {d : α}
    (h : (Tree.branch pb t0 t1).fill = .leaf i d) : i = 0 := by
  cases t0 <;> cases t1 <;> simp only [Tree.fill] at h <;> split at h <;> try split at h
  all_goals cases h
  all_goals rfl

/-- A tree below the lowest bit, under a prefix other than 0. -/
theorem checkDeep_zero_of_ne (hpre : pre ≠ 0) (t : Tree α) :
    checkDeep pre 0 t = true ↔ t.fill.WF ∧ ∀ k, t.fill.HasKey k → AgreeFrom 0 k pre := by
  simp only [agreeFrom_zero_iff, checkDeep_zero, hpre, or_false, wf_one_key_iff]
  cases t with
  | leaf i d => simp [Tree.fill]
  | branch pb t0 t1 =>
    refine iff_of_false (by simp) ?_
    rintro ⟨d, hd⟩
    exact hpre (eq_zero_of_fill_branch hd)

/-- A branch on the word 0 is taken for a leaf with the key 0. -/
theorem checkDeep_branch_zero {n : Nat} (hn : n < 63) (t0 t1 : Tree α) :
    checkDeep pre (twoPow 63 n) (.branch 0 t0 t1) = true ↔
      pre = 0 ∧ checkDeep 0 0 t0 = true ∧ checkDeep 0 0 t1 = true := by
  have hne : (twoPow 63 n != 0) = true := bne_iff_ne.2 (twoPow_ne_zero hn)
  have hhigher : higher (twoPow 63 n) 0 = true := by
    rw [higher, BitVec.slt_eq_decide, twoPow_sub_one_toInt hn, decide_eq_true_iff]
    have hpos : (0 : Int) < 2 ^ n := Int.pow_pos (by decide)
    have hminus : ((0 : Key) - 1).toInt = -1 := by decide
    omega
  have hunpack : unpack 0 = (0, 0) := by decide
  have hclear : (0 : Key) &&& ~~~0 = 0 ∧ (0 : Key) ||| 0 = 0 ∧ (0 : Key) >>> 1 = 0 := by decide
  rw [checkDeep]
  simp only [hunpack, hhigher, hne, hclear, Bool.and_eq_true, Bool.or_true, zero_matchPrefix,
    beq_self_eq_true, true_and, and_assoc]

/-- The left child of a branch on the word 1. -/
def Tree.fillLeft : Tree α → Tree α
  | leaf _ d => leaf 0 d
  | branch prefixAndBit t0 t1 => branch prefixAndBit t0 t1

theorem checkDeep_fillLeft (t : Tree α) :
    checkDeep 0 0 t = true ↔ t.fillLeft.WF ∧ ∀ k, t.fillLeft.HasKey k → AgreeFrom 0 k 0 := by
  simp only [agreeFrom_zero_iff, checkDeep_zero, wf_one_key_iff]
  cases t <;> simp [Tree.fillLeft]

theorem fill_branch_one (t0 t1 : Tree α) :
    (Tree.branch 1 t0 t1).fill = .branch 1 t0.fillLeft t1.fill := by
  cases t0 <;> rfl

/-- The checker accepts a tree under a prefix when the filled tree is well formed and its
keys carry the prefix. -/
theorem checkDeep_iff {n : Nat} (hn : n < 63) (hpre : ∀ m ≤ n, pre.getLsbD m = false)
    (t : Tree α) : checkDeep pre (twoPow 63 n) t = true ↔
      t.fill.WF ∧ ∀ k, t.fill.HasKey k → AgreeFrom (n + 1) k pre := by
  induction t generalizing n pre with
  | leaf i d =>
    rw [checkDeep, beq_eq_false_iff_ne.2 (twoPow_ne_zero hn), Bool.false_and, Bool.false_or,
      matchPrefix_twoPow hn hpre]
    simp [Tree.fill, Tree.WF, Tree.HasKey]
  | branch pb t0 t1 ih0 ih1 =>
    by_cases hzero : pb = 0
    · -- A branch without a bit stands for a leaf with the key 0.
      subst hzero
      rw [checkDeep_branch_zero hn, checkDeep_zero, checkDeep_zero]
      have hagree : AgreeFrom (n + 1) 0 pre ↔ pre = 0 := by
        rw [← matchPrefix_twoPow hn hpre, zero_matchPrefix]
      cases t0 with
      | leaf i d =>
        cases t1 with
        | leaf j e =>
          constructor
          · exact fun h => ⟨trivial, fun k hk => hk ▸ hagree.2 h.1⟩
          · exact fun h => ⟨hagree.1 (h.2 0 rfl), ⟨i, d, rfl, .inr rfl⟩, j, e, rfl, .inr rfl⟩
        | branch => exact iff_of_false (by simp) fun h => h.1.1 rfl
      | branch => exact iff_of_false (by simp) fun h => h.1.1 rfl
    obtain ⟨m, hm⟩ := exists_isLowest hzero
    rw [checkDeep_branch hn hm hpre]
    by_cases hone : pb = 1
    · subst hone
      obtain rfl := hm.unique isLowest_one
      have hbelow : twoPow 63 0 >>> 1 = 0 := by decide
      have hunpack : (unpack 1).1 = 0 := by decide
      have hright : (0 : Key) ||| twoPow 63 0 ≠ 0 := by decide
      rw [fill_branch_one, branch_wf_iff hm, hbelow, hunpack, checkDeep_fillLeft,
        checkDeep_zero_of_ne hright]
    have hfill : (Tree.branch pb t0 t1).fill = .branch pb t0.fill t1.fill := by
      simp only [Tree.fill, if_neg hzero, if_neg hone]
    rw [hfill, branch_wf_iff hm]
    have hlt := hm.lt
    have hlow0 : ∀ j < m, (unpack pb).1.getLsbD j = false := by
      intro j hj
      rw [unpack_fst_getLsbD hm]
      simp [Nat.lt_asymm hj]
    have hlow1 : ∀ j < m, ((unpack pb).1 ||| twoPow 63 m).getLsbD j = false := by
      intro j hj
      rw [BitVec.getLsbD_or, hlow0 j hj]
      simp [Nat.ne_of_gt hj]
    cases m with
    | zero =>
      have hbelow : twoPow 63 0 >>> 1 = 0 := by decide
      rw [hbelow, checkDeep_zero_of_ne, checkDeep_zero_of_ne]
      · intro h
        have hbit := congrArg (fun x => getLsbD x 0) h
        simp at hbit
      intro h
      rw [← xor_unpack pb, h, unpack_snd hm] at hone
      exact hone (by decide)
    | succ m =>
      rw [twoPow_shiftRight_one, if_pos hlt, ih0 (by omega) fun j hj => hlow0 j (by omega),
        ih1 (by omega) fun j hj => hlow1 j (by omega)]

theorem valid_iff_fill (t : T α) : valid t = true ↔ t.fill.WF := by
  cases t with
  | empty => exact iff_of_true rfl trivial
  | tree t =>
    have htop : (BitVec.intMin 63 : Key) = twoPow 63 62 := by decide
    have hzero : ∀ m ≤ 62, (0 : Key).getLsbD m = false := fun m _ => BitVec.getLsbD_zero
    rw [valid, htop, checkDeep_iff (by decide) hzero]
    refine and_iff_left fun k _ m hm => ?_
    rw [BitVec.getLsbD_of_ge _ _ hm, BitVec.getLsbD_of_ge _ _ hm]

/-- A well-formed tree has nothing to fill. -/
theorem Tree.WF.fill_eq (h : t.WF) : t.fill = t := by
  induction t with
  | leaf i d => rfl
  | branch pb t0 t1 ih0 ih1 =>
    obtain ⟨hne, hside0, -, hwf0, hwf1⟩ := h
    by_cases hone : pb = 1
    · subst hone
      have hleft : t0.fillLeft = t0 := by
        cases t0 with
        | leaf i d =>
          have hi := (side_iff_agreeFrom isLowest_one false i).1 (hside0 i rfl)
          have hzero : i = 0 := agreeFrom_zero_iff.1 hi
          rw [hzero, Tree.fillLeft]
        | branch => rfl
      rw [fill_branch_one, hleft, ih1 hwf1]
    · simp only [Tree.fill, if_neg hne, if_neg hone, ih0 hwf0, ih1 hwf1]

theorem T.WF.fill_eq {t : T α} (h : t.WF) : t.fill = t := by
  cases t with
  | empty => rfl
  | tree t => exact congrArg T.tree (Tree.WF.fill_eq h)

/-- The checker is right about a tree when there is nothing to fill in it, or filling does
not make it well formed. -/
theorem valid_correct_iff (t : T α) : (valid t = true ↔ t.WF) ↔ t.fill = t ∨ ¬ t.fill.WF := by
  rw [valid_iff_fill]
  constructor
  · intro h
    by_cases hfill : t.fill.WF
    · exact .inl (h.1 hfill).fill_eq
    · exact .inr hfill
  rintro (heq | hfill)
  · rw [heq]
  · refine iff_of_false hfill fun h => hfill ?_; rwa [h.fill_eq]

/-- The key 42 below a branch on the lowest bit, and keys below a branch without a bit. -/
theorem valid_accepts_ill_formed : let t : T Unit := .tree (.branch 1 (.leaf 42 ()) (.leaf 1 ()))
    let u : T Unit := .tree (.branch 0 (.leaf 5 ()) (.leaf 7 ()))
    valid t = true ∧ ¬ t.WF ∧ valid u = true ∧ ¬ u.WF := by
  refine ⟨by decide, fun h => ?_, by decide, fun h => h.1 rfl⟩
  have hside : Side 1 false 42 := h.2.1 42 rfl
  exact absurd hside (by decide)

end Oxcaml.Flambda2.PatriciaTree
