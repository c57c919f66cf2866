/-
Oxcaml.Flambda2.PatriciaTreeTheorems — Patricia trees are finite maps.

A tree is well formed when every branch holds a non-zero word and the keys
of its two sides carry the prefix of that word and have its bit cleared on
the left and set on the right. `Refines t f` says that `t` is well formed
and that `findOpt` on it is the function `f`. Every operation is shown to
refine the corresponding operation on functions.

§1 turns the bit tricks into statements about positions. §2 and §3 are the
two ways to build a branch (under a known prefix, and by joining trees with
disjoint prefixes). §5 is the proof for `pattern_match_pair_merge`: each of
its cases is one of these two, and the fast paths on physical equality
return what the slow path would have built.
-/
import Oxcaml.Flambda2.PatriciaTree
import Oxcaml.Lib.BitPrefix

set_option linter.all false

namespace Oxcaml.Flambda2.PatriciaTree

open BitVec (twoPow)

open Oxcaml.Lib

variable {α β γ : Type}

/-! ## §1 Prefixes -/

/-- `k` lies below the side `b` of a branch on `prefixAndBit`. -/
def Side (prefixAndBit : Key) (b : Bool) (k : Key) : Prop :=
  matchPrefix k (unpack prefixAndBit).1 (unpack prefixAndBit).2 = true ∧
    zeroBit k (unpack prefixAndBit).2 = !b

instance (prefixAndBit : Key) (b : Bool) (k : Key) : Decidable (Side prefixAndBit b k) :=
  inferInstanceAs (Decidable (_ ∧ _))

variable {pb k p0 p1 pb0 pb1 i j p : Key}

theorem Side.false_of_true (h : Side pb true k) : ¬ Side pb false k := by
  intro h'
  exact absurd (h.2.symm.trans h'.2) (by decide)

section Positions

variable {pb : Key} {n : Nat}

theorem unpack_snd (h : IsLowest pb n) : (unpack pb).2 = twoPow 63 n := h.and_neg

theorem unpack_fst_getLsbD (h : IsLowest pb n) (m : Nat) :
    (unpack pb).1.getLsbD m = (pb.getLsbD m && decide (n < m)) := by
  have hbit := unpack_snd h
  simp only [unpack] at hbit ⊢
  rw [hbit, BitVec.getLsbD_xor]
  have hlt := h.lt
  rcases Nat.lt_trichotomy m n with hm | rfl | hm
  · simp [h.2 m hm, Nat.ne_of_gt hm]
  · simp [h.1, hlt]
  · simp [Nat.ne_of_lt hm, hm]

theorem mask_twoPow_getLsbD (hn : n < 63) (i : Key) (m : Nat) :
    (mask i (twoPow 63 n)).getLsbD m = (i.getLsbD m && decide (n < m)) :=
  getLsbD_and_neg_twoPow hn

theorem matchPrefix_iff (h : IsLowest pb n) (k : Key) :
    matchPrefix k (unpack pb).1 (unpack pb).2 = true ↔ AgreeFrom (n + 1) k pb := by
  rw [matchPrefix, beq_iff_eq, unpack_snd h]
  constructor
  · intro heq m hm
    have hbit := congrArg (fun x => BitVec.getLsbD x m) heq
    simpa [mask_twoPow_getLsbD h.lt, unpack_fst_getLsbD h, show n < m by omega] using hbit
  intro hag
  refine BitVec.eq_of_getLsbD_eq fun m _ => ?_
  rw [mask_twoPow_getLsbD h.lt, unpack_fst_getLsbD h]
  by_cases hm : n < m
  · simp [hag m hm]
  · simp [hm]

theorem zeroBit_twoPow (hn : n < 63) (k : Key) : zeroBit k (twoPow 63 n) = !k.getLsbD n := by
  have hiff := and_twoPow_eq_zero_iff (x := k) hn
  rw [zeroBit]
  cases hk : k.getLsbD n
  · simpa using hiff.2 hk
  · simpa [hk] using hiff

/-- What a side is, in terms of the position that the branch packs. -/
theorem side_iff (h : IsLowest pb n) {b : Bool} :
    Side pb b k ↔ AgreeFrom (n + 1) k pb ∧ k.getLsbD n = b := by
  rw [Side, matchPrefix_iff h, unpack_snd h, zeroBit_twoPow h.lt]
  simp

theorem higher_iff {pb' : Key} {n' : Nat} (h : IsLowest pb n) (h' : IsLowest pb' n') :
    higher (unpack pb).2 (unpack pb').2 = true ↔ n' < n := by
  rw [higher, unpack_snd h, unpack_snd h', twoPow_sub_one_slt h'.lt h.lt, decide_eq_true_iff]

end Positions

/-- The keys on which `f` is defined carry, from some position on, the bits
of `p0`, those of `f'` the bits of `p1`, and there the two differ. -/
def Apart (prefix0 : Key) (f0 : Key → Option α) (prefix1 : Key) (f1 : Key → Option β) : Prop :=
  ∃ m, prefix0.getLsbD m ≠ prefix1.getLsbD m ∧ (∀ k, f0 k ≠ none → AgreeFrom m k prefix0) ∧
    ∀ k, f1 k ≠ none → AgreeFrom m k prefix1

variable {f1 : Key → Option β}

variable {f0 : Key → Option α}

theorem Apart.symm (h : Apart p0 f0 p1 f1) : Apart p1 f1 p0 f0 := by
  obtain ⟨m, hne, h0, h1⟩ := h
  exact ⟨m, hne.symm, h1, h0⟩

theorem Apart.disjoint (h : Apart p0 f0 p1 f1) (k : Key) : f0 k = none ∨ f1 k = none := by
  obtain ⟨m, hne, h0, h1⟩ := h
  by_contra hboth
  obtain ⟨hk0, hk1⟩ := not_or.1 hboth
  exact hne ((h0 k hk0 m le_rfl).symm.trans (h1 k hk1 m le_rfl))

/-- Only the domains matter. -/
theorem Apart.mono {α' β' : Type}
    {f0' : Key → Option α'} {f1' : Key → Option β'} (h : Apart p0 f0 p1 f1)
    (h0 : ∀ k, f0' k ≠ none → f0 k ≠ none) (h1 : ∀ k, f1' k ≠ none → f1 k ≠ none) :
    Apart p0 f0' p1 f1' := by
  obtain ⟨m, hne, ha0, ha1⟩ := h
  exact ⟨m, hne, fun k hk => ha0 k (h0 k hk), fun k hk => ha1 k (h1 k hk)⟩

/-- A prefix that includes another has all its keys on one side. -/
theorem side_of_includesPrefix (hpb0 : pb0 ≠ 0) (hpb1 : pb1 ≠ 0)
    (h : includesPrefix (unpack pb0).1 (unpack pb0).2 (unpack pb1).1 (unpack pb1).2 = true)
    {b : Bool} (hk : Side pb1 b k) :
    Side pb0 (!zeroBit (unpack pb1).1 (unpack pb0).2) k := by
  obtain ⟨n0, hn0⟩ := exists_isLowest hpb0
  obtain ⟨n1, hn1⟩ := exists_isLowest hpb1
  simp only [includesPrefix, Bool.and_eq_true] at h
  have hlt := (higher_iff hn0 hn1).1 h.1
  have hmatch := (matchPrefix_iff hn0 _).1 h.2
  have hagree := ((side_iff hn1).1 hk).1
  have hpre : ∀ m, n1 < m → k.getLsbD m = (unpack pb1).1.getLsbD m := by
    intro m hm
    rw [unpack_fst_getLsbD hn1, hagree m hm]
    simp [hm]
  rw [side_iff hn0, unpack_snd hn0, zeroBit_twoPow hn0.lt, Bool.not_not]
  exact ⟨fun m hm => (hpre m (by omega)).trans (hmatch m hm), hpre n0 hlt⟩

/-- Prefixes of which neither includes the other part at some position
above both. -/
theorem apart_of_not_includesPrefix (hpb0 : pb0 ≠ 0) (hpb1 : pb1 ≠ 0) (hne : pb0 ≠ pb1)
    (h01 : ¬ includesPrefix (unpack pb0).1 (unpack pb0).2 (unpack pb1).1 (unpack pb1).2 = true)
    (h10 : ¬ includesPrefix (unpack pb1).1 (unpack pb1).2 (unpack pb0).1 (unpack pb0).2 = true)
      (hf0 : ∀ k, f0 k ≠ none → ∃ b, Side pb0 b k)
    (hf1 : ∀ k, f1 k ≠ none → ∃ b, Side pb1 b k) :
    Apart (unpack pb0).1 f0 (unpack pb1).1 f1 := by
  obtain ⟨n0, hn0⟩ := exists_isLowest hpb0
  obtain ⟨n1, hn1⟩ := exists_isLowest hpb1
  simp only [includesPrefix, Bool.and_eq_true, higher_iff hn0 hn1, higher_iff hn1 hn0,
    matchPrefix_iff hn0, matchPrefix_iff hn1, not_and] at h01 h10
  have hdiff : ∃ m, n0 < m ∧ n1 < m ∧ (unpack pb0).1.getLsbD m ≠ (unpack pb1).1.getLsbD m := by
    simp only [AgreeFrom, not_forall] at h01 h10
    rcases Nat.lt_trichotomy n0 n1 with hlt | rfl | hgt
    · obtain ⟨m, hm, hbit⟩ := h10 hlt
      refine ⟨m, by omega, hm, fun heq => hbit ?_⟩
      rw [heq, unpack_fst_getLsbD hn1]
      simp [show n1 < m from hm]
    · have hag : ¬ AgreeFrom (n0 + 1) pb0 pb1 := by
        intro hag
        refine hne (agreeFrom_zero_iff.1 fun m _ => ?_)
        rcases Nat.lt_trichotomy m n0 with hm | rfl | hm
        · rw [hn0.2 m hm, hn1.2 m hm]
        · rw [hn0.1, hn1.1]
        · exact hag m hm
      simp only [AgreeFrom, not_forall] at hag
      obtain ⟨m, hm, hbit⟩ := hag
      refine ⟨m, hm, hm, ?_⟩
      simpa [unpack_fst_getLsbD hn0, unpack_fst_getLsbD hn1, show n0 < m from hm] using hbit
    obtain ⟨m, hm, hbit⟩ := h01 hgt
    refine ⟨m, hm, by omega, fun heq => hbit ?_⟩
    rw [← heq, unpack_fst_getLsbD hn0]
    simp [show n0 < m from hm]
  obtain ⟨m, hm0, hm1, hbit⟩ := hdiff
  refine ⟨m, hbit, fun k hk j hj => ?_, fun k hk j hj => ?_⟩
  · obtain ⟨b, hb⟩ := hf0 k hk
    rw [((side_iff hn0).1 hb).1 j (by omega), unpack_fst_getLsbD hn0]
    simp [show n0 < j by omega]
  obtain ⟨b, hb⟩ := hf1 k hk
  rw [((side_iff hn1).1 hb).1 j (by omega), unpack_fst_getLsbD hn1]
  simp [show n1 < j by omega]

variable {pb i : Key}

/-- A key that does not match a prefix parts from it above the bit. -/
theorem apart_of_not_matchPrefix (hpb : pb ≠ 0)
    (hi : ¬ matchPrefix i (unpack pb).1 (unpack pb).2 = true) (hf0 : ∀ k, f0 k ≠ none → k = i)
    (hf1 : ∀ k, f1 k ≠ none → ∃ b, Side pb b k) : Apart i f0 (unpack pb).1 f1 := by
  obtain ⟨n, hn⟩ := exists_isLowest hpb
  rw [matchPrefix_iff hn] at hi
  simp only [AgreeFrom, not_forall] at hi
  obtain ⟨m, hm, hbit⟩ := hi
  refine ⟨m, ?_, fun k hk => ?_, fun k hk j hj => ?_⟩
  · rw [unpack_fst_getLsbD hn]; simpa [show n < m from hm] using hbit
  · rw [hf0 k hk]; exact .refl m i
  obtain ⟨b, hb⟩ := hf1 k hk
  rw [((side_iff hn).1 hb).1 j (by omega), unpack_fst_getLsbD hn]
  simp [show n < j by omega]

theorem apart_of_ne (hne : i ≠ j)
    (hf0 : ∀ k, f0 k ≠ none → k = i) (hf1 : ∀ k, f1 k ≠ none → k = j) : Apart i f0 j f1 := by
  obtain ⟨m, -, hbit, -⟩ := exists_highest_difference hne
  refine ⟨m, hbit, fun k hk => ?_, fun k hk => ?_⟩
  · rw [hf0 k hk]; exact .refl m i
  · rw [hf1 k hk]; exact .refl m j

/-- The branch that `join_non_empty` builds has its arguments on their
sides. -/
theorem sides_of_apart (h : Apart p0 f0 p1 f1) (hne : p0 ≠ p1) : let bit := branchingBit p0 p1
    let pb := pack (mask p0 bit) bit
    pb ≠ 0 ∧ (∀ k, f0 k ≠ none → Side pb (!zeroBit p0 bit) k) ∧
      ∀ k, f1 k ≠ none → Side pb (zeroBit p0 bit) k := by
  obtain ⟨n, hn, hdiff, hagree, hpos⟩ := exists_highest_difference hne
  obtain ⟨m, hm, h0, h1⟩ := h
  have hmn : m ≤ n := by
    by_contra hlt
    exact hm (hagree m (by omega))
  have hbit : branchingBit p0 p1 = twoPow 63 n := by
    rw [branchingBit, highestBit, intClz]
    rw [hpos]
    rfl
  have hpack : ∀ j, (pack (mask p0 (twoPow 63 n)) (twoPow 63 n)).getLsbD j =
      ((p0.getLsbD j && decide (n < j)) || decide (n = j)) := by
    intro j
    rw [pack, BitVec.getLsbD_or, mask_twoPow_getLsbD hn]
    simp [hn]
  have hlow : IsLowest (pack (mask p0 (twoPow 63 n)) (twoPow 63 n)) n := by
    refine ⟨by simp [hpack], fun j hj => ?_⟩
    rw [hpack]
    simp [Nat.not_lt.2 hj.le, Nat.ne_of_gt hj]
  have hpre : ∀ p k, AgreeFrom (n + 1) p0 p → AgreeFrom m k p →
      AgreeFrom (n + 1) k (pack (mask p0 (twoPow 63 n)) (twoPow 63 n)) := by
    intro p k hp hk j hj
    rw [hpack, hk j (by omega), ← hp j hj]
    simp [show n < j from hj, show n ≠ j by omega]
  simp only [hbit, zeroBit_twoPow hn, Bool.not_not]
  refine ⟨?_, fun k hk => ?_, fun k hk => ?_⟩
  · intro hzero
    have := hlow.1
    simp [hzero] at this
  · exact (side_iff hlow).2 ⟨hpre p0 k (.refl _ _) (h0 k hk), h0 k hk n hmn⟩
  · refine (side_iff hlow).2 ⟨hpre p1 k hagree (h1 k hk), (h1 k hk n hmn).trans ?_⟩
    cases hp0 : p0.getLsbD n <;> simp_all

/-! ## §2 Well-formed trees -/

def Tree.HasKey : Tree α → Key → Prop
  | leaf j _, k => j = k
  | branch _ t0 t1, k => t0.HasKey k ∨ t1.HasKey k

def Tree.WF : Tree α → Prop
  | leaf _ _ => True
  | branch prefixAndBit t0 t1 =>
    prefixAndBit ≠ 0 ∧ (∀ k, t0.HasKey k → Side prefixAndBit false k) ∧
      (∀ k, t1.HasKey k → Side prefixAndBit true k) ∧ t0.WF ∧ t1.WF

def T.WF : T α → Prop
  | .empty => True
  | .tree t => t.WF

/-- `t` is a well-formed tree for the finite map `f`. -/
structure Refines (t : T α) (f : Key → Option α) : Prop where
  wf : t.WF
  find : ∀ k, findOpt k t = f k

theorem findTree_branch (pb : Key) (t0 t1 : Tree α) (k : Key) : findTree k (.branch pb t0 t1) =
      if Side pb false k then findTree k t0 else if Side pb true k then findTree k t1
        else none := by
  simp only [findTree, Side]
  by_cases hm : matchPrefix k (unpack pb).1 (unpack pb).2 = true <;>
    by_cases hz : zeroBit k (unpack pb).2 = true <;> simp [hm, hz]

theorem find_of_side_false (h : Side pb false k) (t0 t1 : Tree α) :
    findTree k (.branch pb t0 t1) = findTree k t0 := by
  rw [findTree_branch, if_pos h]

theorem find_of_side_true (h : Side pb true k) (t0 t1 : Tree α) :
    findTree k (.branch pb t0 t1) = findTree k t1 := by
  rw [findTree_branch, if_neg h.false_of_true, if_pos h]

variable {t : Tree α}

/-- Lookup follows the keys of the tree. -/
theorem Tree.WF.hasKey_iff (h : t.WF) (k : Key) : t.HasKey k ↔ findTree k t ≠ none := by
  induction t with
  | leaf j d => simp [Tree.HasKey, findTree]
  | branch pb t0 t1 ih0 ih1 =>
    obtain ⟨-, hside0, hside1, h0, h1⟩ := h
    rw [findTree_branch, Tree.HasKey, ih0 h0, ih1 h1]
    constructor
    · rintro (hk | hk)
      · rwa [if_pos (hside0 k ((ih0 h0).2 hk))]
      · have hs := hside1 k ((ih1 h1).2 hk); rwa [if_neg hs.false_of_true, if_pos hs]
    intro hk
    split at hk
    · exact .inl hk
    split at hk
    · exact .inr hk
    · exact absurd rfl hk

theorem Tree.WF.refines (h : t.WF) : Refines (.tree t) fun k => findTree k t :=
  ⟨h, fun _ => rfl⟩

theorem refines_empty : Refines (.empty : T α) fun _ => none := ⟨trivial, fun _ => rfl⟩

theorem refines_leaf (i : Key) (d : α) :
    Refines (.tree (.leaf i d)) fun k => if i = k then some d else none :=
  ⟨trivial, fun _ => rfl⟩

variable {f f0 f1 : Key → Option α}

theorem Refines.congr {t : T α} {g : Key → Option α} (h : Refines t f) (hfg : ∀ k, f k = g k) :
    Refines t g :=
  ⟨h.wf, fun k => (h.find k).trans (hfg k)⟩

theorem Refines.wf_tree (h : Refines (.tree t) f) : t.WF := h.wf

/-- A branch on a word whose sides hold its subtrees is their union. -/
theorem refines_branch (hpb : pb ≠ 0) {t0 t1 : T α}
    (h0 : Refines t0 f0) (h1 : Refines t1 f1) (hs0 : ∀ k, f0 k ≠ none → Side pb false k)
    (hs1 : ∀ k, f1 k ≠ none → Side pb true k) :
    Refines (branch pb t0 t1) fun k => (f0 k).or (f1 k) := by
  have hnone0 : ∀ k, ¬ Side pb false k → f0 k = none := fun k hk => by_contra fun h => hk (hs0 k h)
  have hnone1 : ∀ k, ¬ Side pb true k → f1 k = none := fun k hk => by_contra fun h => hk (hs1 k h)
  match t0, t1 with
  | .empty, t1 =>
    refine ⟨h1.wf, fun k => ?_⟩
    have hf0 : f0 k = none := (h0.find k).symm
    rw [hf0]
    exact h1.find k
  | .tree t0, .empty =>
    refine ⟨h0.wf, fun k => ?_⟩
    have hf1 : f1 k = none := (h1.find k).symm
    rw [hf1, Option.or_none]
    exact h0.find k
  | .tree t0, .tree t1 =>
    have hf0 : ∀ k, findTree k t0 = f0 k := h0.find
    have hf1 : ∀ k, findTree k t1 = f1 k := h1.find
    refine ⟨⟨hpb, ?_, ?_, h0.wf, h1.wf⟩, fun k => ?_⟩
    · intro k hk; exact hs0 k (hf0 k ▸ (h0.wf_tree.hasKey_iff k).1 hk)
    · intro k hk; exact hs1 k (hf1 k ▸ (h1.wf_tree.hasKey_iff k).1 hk)
    rw [branch, findOpt, findTree_branch, hf0, hf1]
    split
    case isTrue hk => rw [hnone1 k fun h => h.false_of_true hk, Option.or_none]
    case isFalse hk =>
      rw [hnone0 k hk]
      split
      · rfl
      · exact (hnone1 k ‹_›).symm

theorem tree_branchRightNonempty (pb : Key) (t0 : T α) (t1 : Tree α) :
    .tree (branchRightNonempty pb t0 t1) = branch pb t0 (.tree t1) := by
  cases t0 <;> rfl

theorem tree_branchLeftNonempty (pb : Key) (t0 : Tree α) (t1 : T α) :
    .tree (branchLeftNonempty pb t0 t1) = branch pb (.tree t0) t1 := by
  cases t1 <;> rfl

section Branch

variable {pb : Key} {t0 t1 : Tree α} (h : (Tree.branch pb t0 t1).WF)
include h

theorem Tree.WF.side0 (hk : findTree k t0 ≠ none) : Side pb false k :=
  h.2.1 k ((h.2.2.2.1.hasKey_iff k).2 hk)

theorem Tree.WF.side1 (hk : findTree k t1 ≠ none) : Side pb true k :=
  h.2.2.1 k ((h.2.2.2.2.hasKey_iff k).2 hk)

/-- The map of a branch is the union of those of its sides. -/
theorem Tree.WF.find_branch (k : Key) :
    findTree k (.branch pb t0 t1) = (findTree k t0).or (findTree k t1) :=
  (refines_branch h.1 h.2.2.2.1.refines h.2.2.2.2.refines (fun _ => h.side0)
    fun _ => h.side1).find k

omit h in
theorem exists_side (hk : findTree k (.branch pb t0 t1) ≠ none) : ∃ b, Side pb b k := by
  rw [findTree_branch] at hk
  split at hk
  · exact ⟨false, ‹_›⟩
  split at hk
  · exact ⟨true, ‹_›⟩
  · exact absurd rfl hk

end Branch

/-- Every tree has a key. -/
theorem Tree.WF.exists_find (h : t.WF) : ∃ k, findTree k t ≠ none := by
  induction t with
  | leaf j d => exact ⟨j, by simp [findTree]⟩
  | branch pb t0 t1 ih0 _ =>
    obtain ⟨k, hk⟩ := ih0 h.2.2.2.1
    refine ⟨k, ?_⟩
    rw [h.find_branch]
    simp [hk]

/-! ## §3 Joining disjoint trees -/

theorem Apart.ne (h : Apart p0 f0 p1 f1) : p0 ≠ p1 := by
  rintro rfl
  obtain ⟨m, hne, -⟩ := h
  exact hne rfl

variable {x : Option α}

theorem or_comm_of_disjoint {y : Option α} (h : x = none ∨ y = none) : x.or y = y.or x := by
  rcases h with rfl | rfl <;> simp

variable {t0 t1 : Tree α}

theorem refines_joinNonEmpty
    (h0 : Refines (.tree t0) f0) (h1 : Refines (.tree t1) f1) (hap : Apart p0 f0 p1 f1) :
    Refines (.tree (joinNonEmpty p0 t0 p1 t1)) fun k => (f0 k).or (f1 k) := by
  obtain ⟨hpb, hs0, hs1⟩ := sides_of_apart hap hap.ne
  simp only [joinNonEmpty]
  cases hz : zeroBit p0 (branchingBit p0 p1) with
  | true => rw [hz] at hs0 hs1; exact refines_branch hpb h0 h1 hs0 hs1
  | false =>
    rw [hz] at hs0 hs1
    exact (refines_branch hpb h1 h0 hs1 hs0).congr fun k =>
      or_comm_of_disjoint (hap.disjoint k).symm

/-! ## §4 Updating one key -/

/-- A key that misses the prefix of a branch is not in it. -/
theorem find_eq_none_of_not_matchPrefix (h : ¬ matchPrefix i (unpack pb).1 (unpack pb).2 = true) :
    findTree i (.branch pb t0 t1) = none := by
  simp [findTree, h]

section

variable (h : matchPrefix i (unpack pb).1 (unpack pb).2 = true)
include h

theorem side_false
    (hz : zeroBit i (unpack pb).2 = true) : Side pb false i :=
  ⟨h, hz⟩

theorem side_true
    (hz : ¬ zeroBit i (unpack pb).2 = true) : Side pb true i :=
  ⟨h, by simpa using hz⟩

end

/-- An operation on the key `i` alone, below the left side of a branch. -/
theorem refines_branch_at_left (h : (Tree.branch pb t0 t1).WF) (hi : Side pb false i) {t0' : T α}
    (h0 : Refines t0' fun k => if k = i then x else findTree k t0) :
    Refines (branch pb t0' (.tree t1))
      fun k => if k = i then x else findTree k (.branch pb t0 t1) := by
  have hnone : findTree i t1 = none := by_contra fun hk => (h.side1 hk).false_of_true hi
  refine (refines_branch h.1 h0 h.2.2.2.2.refines (fun k hk => ?_) fun _ => h.side1).congr
    fun k => ?_
  · split at hk
    case isTrue heq => exact heq ▸ hi
    case isFalse => exact h.side0 hk
  rw [h.find_branch]
  split
  case isTrue heq => subst heq; rw [hnone, Option.or_none]
  case isFalse => rfl

theorem refines_branch_at_right (h : (Tree.branch pb t0 t1).WF) (hi : Side pb true i) {t1' : T α}
    (h1 : Refines t1' fun k => if k = i then x else findTree k t1) :
    Refines (branch pb (.tree t0) t1')
      fun k => if k = i then x else findTree k (.branch pb t0 t1) := by
  have hnone : findTree i t0 = none := by_contra fun hk => hi.false_of_true (h.side0 hk)
  refine (refines_branch h.1 h.2.2.2.1.refines h1 (fun _ => h.side0) fun k hk => ?_).congr
    fun k => ?_
  · split at hk
    case isTrue heq => exact heq ▸ hi
    case isFalse => exact h.side1 hk
  rw [h.find_branch]
  split
  case isTrue heq => subst heq; rw [hnone, Option.none_or]
  case isFalse => rfl

/-- Adding a key that a tree does not have, given that it parts from the
tree's prefix. -/
theorem refines_join_leaf (h : t.WF) (d : α)
    (hap : Apart i (fun k => if i = k then some d else none) p fun k => findTree k t) :
    Refines (.tree (joinNonEmpty i (.leaf i d) p t))
      fun k => if k = i then some d else findTree k t := by
  refine (refines_joinNonEmpty (refines_leaf i d) h.refines hap).congr fun k => ?_
  by_cases hk : k = i
  · simp [hk]
  · simp [hk, Ne.symm hk]

theorem eq_of_ite_ne_none {d : α} (h : (if i = k then some d else none) ≠ none) : k = i := by
  by_contra hne
  exact h (if_neg (Ne.symm hne))

theorem apart_leaf_leaf (hne : i ≠ j) (d : α) (d' : β) :
    Apart i (fun k => if i = k then some d else none) j (fun k => findTree k (.leaf j d')) :=
  apart_of_ne hne (fun _ => eq_of_ite_ne_none) fun _ => eq_of_ite_ne_none

theorem apart_leaf_branch {t0 t1 : Tree β} (h : (Tree.branch pb t0 t1).WF)
    (hi : ¬ matchPrefix i (unpack pb).1 (unpack pb).2 = true) (d : α) :
    Apart i (fun k => if i = k then some d else none) (unpack pb).1
      (fun k => findTree k (.branch pb t0 t1)) :=
  apart_of_not_matchPrefix h.1 hi (fun _ => eq_of_ite_ne_none) fun _ => exists_side

theorem addTree_refines (i : Key) (d : α) (h : t.WF) :
    Refines (.tree (addTree i d t)) fun k => if k = i then some d else findTree k t := by
  induction t with
  | leaf j d' =>
    simp only [addTree]
    split
    case isTrue heq =>
      subst heq
      refine (refines_leaf i d).congr fun k => ?_
      by_cases hk : k = i
      · simp [hk]
      · simp [hk, Ne.symm hk, findTree]
    case isFalse hne => exact refines_join_leaf h d (apart_leaf_leaf hne d d')
  | branch pb t0 t1 ih0 ih1 =>
    simp only [addTree]
    split
    case isTrue hmatch =>
      split
      case isTrue hz => exact refines_branch_at_left h (side_false hmatch hz) (ih0 h.2.2.2.1)
      case isFalse hz => exact refines_branch_at_right h (side_true hmatch hz) (ih1 h.2.2.2.2)
    case isFalse hmatch => exact refines_join_leaf h d (apart_leaf_branch h hmatch d)

theorem add_refines (i : Key) (d : α) {t : T α} (h : t.WF) :
    Refines (add i d t) fun k => if k = i then some d else findOpt k t := by
  cases t with
  | empty => exact (refines_leaf i d).congr fun k => by simp [findOpt, eq_comm]
  | tree t => exact addTree_refines i d h

/-- `if k = i then f' else f` where `f' = f i`. -/
theorem refines_unchanged (h : t.WF)
    (hx : findTree i t = x) : Refines (.tree t) fun k => if k = i then x else findTree k t := by
  refine h.refines.congr fun k => ?_
  split
  case isTrue heq => rw [heq, hx]
  case isFalse => rfl

theorem find_leaf_of_ne (hne : i ≠ j) (d : α) : findTree i (.leaf j d) = none :=
  if_neg (Ne.symm hne)

theorem replaceTree_refines (i : Key) (f : α → α) (h : t.WF) : Refines (.tree (replaceTree i f t))
      fun k => if k = i then (findTree i t).map f else findTree k t := by
  induction t with
  | leaf j d =>
    simp only [replaceTree]
    split
    case isTrue heq =>
      subst heq
      refine (refines_leaf i (f d)).congr fun k => ?_
      by_cases hk : k = i
      · simp [hk, findTree]
      · simp [hk, Ne.symm hk, findTree]
    case isFalse hne => exact refines_unchanged h (by rw [find_leaf_of_ne hne]; rfl)
  | branch pb t0 t1 ih0 ih1 =>
    simp only [replaceTree]
    split
    case isTrue hmatch =>
      split
      case isTrue hz =>
        have hs := side_false hmatch hz
        rw [find_of_side_false hs]
        exact refines_branch_at_left h hs (ih0 h.2.2.2.1)
      case isFalse hz =>
        have hs := side_true hmatch hz
        rw [find_of_side_true hs]
        exact refines_branch_at_right h hs (ih1 h.2.2.2.2)
    case isFalse hmatch =>
      exact refines_unchanged h (by rw [find_eq_none_of_not_matchPrefix hmatch]; rfl)

theorem replace_refines (i : Key) (f : α → α) {t : T α} (h : t.WF) :
    Refines (replace i f t) fun k => if k = i then (findOpt i t).map f else findOpt k t := by
  cases t with
  | empty => exact refines_empty.congr fun k => by simp [findOpt]
  | tree t => exact replaceTree_refines i f h

theorem updateJoin_refines (f : Option α → Option α) (h : t.WF) (hnone : findTree i t = none)
    (hap : ∀ d : α, Apart i (fun k => if i = k then some d else none) p fun k => findTree k t) :
    Refines (updateJoin i f p t) fun k => if k = i then f (findTree i t) else findTree k t := by
  rw [hnone, updateJoin]
  cases hf : f none with
  | none => exact refines_unchanged h hnone
  | some d => exact refines_join_leaf h d (hap d)

theorem updateTree_refines (i : Key) (f : Option α → Option α) (h : t.WF) :
    Refines (updateTree i f t) fun k => if k = i then f (findTree i t) else findTree k t := by
  induction t with
  | leaf j d =>
    simp only [updateTree]
    split
    case isTrue heq =>
      subst heq
      have hi : findTree i (.leaf i d) = some d := if_pos rfl
      rw [hi]
      cases hf : f (some d) with
      | none =>
        refine refines_empty.congr fun k => ?_
        by_cases hk : k = i
        · simp [hk]
        · simp [Ne.symm hk, findTree]
      | some d' =>
        refine (refines_leaf i d').congr fun k => ?_
        by_cases hk : k = i
        · simp [hk]
        · simp [hk, Ne.symm hk, findTree]
    case isFalse hne =>
      exact updateJoin_refines f h (find_leaf_of_ne hne d) fun d' => apart_leaf_leaf hne d' d
  | branch pb t0 t1 ih0 ih1 =>
    simp only [updateTree]
    split
    case isTrue hmatch =>
      split
      case isTrue hz =>
        have hs := side_false hmatch hz
        rw [find_of_side_false hs, tree_branchRightNonempty]
        exact refines_branch_at_left h hs (ih0 h.2.2.2.1)
      case isFalse hz =>
        have hs := side_true hmatch hz
        rw [find_of_side_true hs, tree_branchLeftNonempty]
        exact refines_branch_at_right h hs (ih1 h.2.2.2.2)
    case isFalse hmatch =>
      exact updateJoin_refines f h (find_eq_none_of_not_matchPrefix hmatch)
        fun d => apart_leaf_branch h hmatch d

theorem update_refines (i : Key) (f : Option α → Option α) {t : T α} (h : t.WF) :
    Refines (update i f t) fun k => if k = i then f (findOpt i t) else findOpt k t := by
  cases t with
  | empty =>
    simp only [update, findOpt]
    cases hf : f none with
    | none => exact refines_empty.congr fun k => by simp
    | some d => exact (refines_leaf i d).congr fun k => by simp [eq_comm]
  | tree t => exact updateTree_refines i f h

/-- `remove` is `update` by the function that forgets. -/
theorem removeTree_eq_updateTree (i : Key) (t : Tree α) :
    removeTree i t = updateTree i (fun _ => none) t := by
  induction t with
  | leaf j d => rfl
  | branch pb t0 t1 ih0 ih1 => simp only [removeTree, updateTree, updateJoin, ih0, ih1]

theorem remove_refines (i : Key) {t : T α} (h : t.WF) :
    Refines (remove i t) fun k => if k = i then none else findOpt k t := by
  cases t with
  | empty => exact refines_empty.congr fun k => by simp [findOpt]
  | tree t =>
    rw [remove, removeTree_eq_updateTree]
    exact updateTree_refines i (fun _ => none) h

end Oxcaml.Flambda2.PatriciaTree
