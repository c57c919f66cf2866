/-
Oxcaml.Flambda2.PatriciaTreeComparison — comparing two Patricia trees.

§12 defines `subset_domain`, `inter_domain_is_non_empty`, `equal` and
`compare`. §13 is canonicity: what a branch holds is determined by the keys
below it, so well-formed trees for one map are equal. Everything else rests
on `exists_key_not_mem`: a tree is not included in one whose prefix does not
lead to it. §14 follows `equal` and `compare`, which walk two trees in step,
and §15 the functions on domains, which prune by inclusion of prefixes.
-/
import Oxcaml.Lib.IntCompare
import Oxcaml.Flambda2.PatriciaTreeMaps

set_option linter.all false

namespace Oxcaml.Flambda2.PatriciaTree

open Oxcaml.Lib

variable {α β γ : Type}

/-! ## §12 Comparisons -/

def subsetDomainTree (t0 : Tree α) (t1 : Tree β) : Bool :=
  match t0, t1 with
  | .branch .., .leaf .. => false
  | .leaf i _, t1 => memTree i t1
  | .branch prefixAndBit0 t00 t01, .branch prefixAndBit1 t10 t11 =>
    if prefixAndBit0 = prefixAndBit1 then subsetDomainTree t00 t10 && subsetDomainTree t01 t11
    else
      let (prefix0, bit0) := unpack prefixAndBit0
      let (prefix1, bit1) := unpack prefixAndBit1
      if includesPrefix prefix1 bit1 prefix0 bit0 then
        if zeroBit prefix0 bit1 then subsetDomainTree (.branch prefixAndBit0 t00 t01) t10
        else subsetDomainTree (.branch prefixAndBit0 t00 t01) t11
      else false
termination_by t0.size + t1.size
decreasing_by all_goals (simp only [Tree.size]; omega)

def subsetDomain (t0 : T α) (t1 : T β) : Bool :=
  match t0, t1 with
  | .empty, _ => true
  | .tree _, .empty => false
  | .tree t0, .tree t1 => subsetDomainTree t0 t1

def interDomainIsNonEmptyTree (t0 : Tree α) (t1 : Tree β) : Bool :=
  match t0, t1 with
  | .leaf i _, t1 => memTree i t1
  | .branch prefixAndBit0 t00 t01, .leaf i _ => memTree i (.branch prefixAndBit0 t00 t01)
  | .branch prefixAndBit0 t00 t01, .branch prefixAndBit1 t10 t11 =>
    if prefixAndBit0 = prefixAndBit1 then
      interDomainIsNonEmptyTree t00 t10 || interDomainIsNonEmptyTree t01 t11
    else
      let (prefix0, bit0) := unpack prefixAndBit0
      let (prefix1, bit1) := unpack prefixAndBit1
      if includesPrefix prefix0 bit0 prefix1 bit1 then
        if zeroBit prefix1 bit0 then
          interDomainIsNonEmptyTree t00 (.branch prefixAndBit1 t10 t11)
        else interDomainIsNonEmptyTree t01 (.branch prefixAndBit1 t10 t11)
      else if includesPrefix prefix1 bit1 prefix0 bit0 then
        if zeroBit prefix0 bit1 then
          interDomainIsNonEmptyTree (.branch prefixAndBit0 t00 t01) t10
        else interDomainIsNonEmptyTree (.branch prefixAndBit0 t00 t01) t11
      else false
termination_by t0.size + t1.size
decreasing_by all_goals (simp only [Tree.size]; omega)

def interDomainIsNonEmpty (t0 : T α) (t1 : T β) : Bool :=
  match t0, t1 with
  | .empty, _ => false
  | .tree _, .empty => false
  | .tree t0, .tree t1 => interDomainIsNonEmptyTree t0 t1

def equalTree (peq : PhysEq α) (f : α → α → Bool) (t0 t1 : Tree α) : Bool :=
  if peq.tree t0 t1 then true
  else
    match t0, t1 with
    | .leaf i d0, .leaf j d1 => i == j && f d0 d1
    | .branch prefixAndBit0 t00 t01, .branch prefixAndBit1 t10 t11 =>
      if prefixAndBit0 = prefixAndBit1 then equalTree peq f t00 t10 && equalTree peq f t01 t11
      else false
    | .leaf .., .branch .. => false
    | .branch .., .leaf .. => false

def equal (peq : PhysEq α) (f : α → α → Bool) (t0 t1 : T α) : Bool :=
  match t0, t1 with
  | .empty, .empty => true
  | .empty, .tree _ => false
  | .tree _, .empty => false
  | .tree t0, .tree t1 => equalTree peq f t0 t1

/-- `compare` on integers, which is signed. -/
def compareInt (i j : Key) : Int := if i = j then 0 else if i.slt j then -1 else 1

def comparePrefix (prefix0 bit0 prefix1 bit1 : Key) : Int :=
  let c := compareInt bit0 bit1
  if c = 0 then compareInt prefix0 prefix1 else c

def compareTree (peq : PhysEq α) (f : α → α → Int) (t0 t1 : Tree α) : Int :=
  if peq.tree t0 t1 then 0
  else
    match t0, t1 with
    | .leaf i d0, .leaf j d1 =>
      let c := if i = j then 0 else if i.slt j then -1 else 1
      if c ≠ 0 then c else f d0 d1
    | .branch prefixAndBit0 t00 t01, .branch prefixAndBit1 t10 t11 =>
      let (prefix0, bit0) := unpack prefixAndBit0
      let (prefix1, bit1) := unpack prefixAndBit1
      let c := comparePrefix prefix0 bit0 prefix1 bit1
      if c = 0 then
        let c := compareTree peq f t00 t10
        if c = 0 then compareTree peq f t01 t11 else c
      else c
    | .leaf .., .branch .. => 1
    | .branch .., .leaf .. => -1

/-- `compare`. -/
def compareT (peq : PhysEq α) (f : α → α → Int) (t0 t1 : T α) : Int :=
  match t0, t1 with
  | .empty, .empty => 0
  | .empty, .tree _ => 1
  | .tree _, .empty => -1
  | .tree t0, .tree t1 => compareTree peq f t0 t1

/-! ## §13 Canonicity -/

variable {t0 t1 : Tree α} {pb i j : Key}

theorem Tree.WF.exists_side_key (h : (Tree.branch pb t0 t1).WF)
    (b : Bool) : ∃ k, findTree k (.branch pb t0 t1) ≠ none ∧ Side pb b k := by
  cases b with
  | false =>
    obtain ⟨k, hk⟩ := h.2.2.2.1.exists_find
    exact ⟨k, by rwa [find_of_side_false (h.side0 hk)], h.side0 hk⟩
  | true =>
    obtain ⟨k, hk⟩ := h.2.2.2.2.exists_find
    exact ⟨k, by rwa [find_of_side_true (h.side1 hk)], h.side1 hk⟩

theorem Side.unique {k : Key} {b b' : Bool} (h : Side pb b k) (h' : Side pb b' k) : b = b' := by
  have heq := h.2.symm.trans h'.2
  simpa using heq

/-- A branch has two keys. -/
theorem exists_key_ne (h : (Tree.branch pb t0 t1).WF) (i : Key) :
    ∃ k, findTree k (.branch pb t0 t1) ≠ none ∧ k ≠ i := by
  obtain ⟨k0, hk0, hs0⟩ := h.exists_side_key false
  obtain ⟨k1, hk1, hs1⟩ := h.exists_side_key true
  by_cases hi : k0 = i
  · refine ⟨k1, hk1, fun heq => ?_⟩
    subst hi heq
    exact Bool.noConfusion (hs0.unique hs1)
  · exact ⟨k0, hk0, hi⟩

section Branches

variable {pb0 pb1 : Key} {t00 t01 : Tree α} {t10 t11 : Tree β}

/-- A branch has a key outside another one whose prefix does not lead to it. -/
theorem exists_key_not_mem (h0 : (Tree.branch pb0 t00 t01).WF) (h1 : (Tree.branch pb1 t10 t11).WF)
    (hne : pb0 ≠ pb1)
    (hinc : ¬ includesPrefix (unpack pb1).1 (unpack pb1).2 (unpack pb0).1 (unpack pb0).2 = true) :
    ∃ k, findTree k (.branch pb0 t00 t01) ≠ none ∧ findTree k (.branch pb1 t10 t11) = none := by
  by_cases hinc' : includesPrefix (unpack pb0).1 (unpack pb0).2 (unpack pb1).1 (unpack pb1).2 = true
  · -- The keys of the second branch are on one side of the first.
    have hside := side_of_branch h0.1 h1 hinc'
    obtain ⟨k, hk, hs⟩ := h0.exists_side_key (zeroBit (unpack pb1).1 (unpack pb0).2)
    refine ⟨k, hk, by_contra fun hk' => ?_⟩
    have heq := hs.unique (hside k hk')
    simp at heq
  have hap := apart_of_not_includesPrefix h0.1 h1.1 hne hinc' hinc
    (fun k (hk : findTree k (.branch pb0 t00 t01) ≠ none) => exists_side hk)
    fun k (hk : findTree k (.branch pb1 t10 t11) ≠ none) => exists_side hk
  obtain ⟨k, hk, -⟩ := h0.exists_side_key false
  exact ⟨k, hk, (hap.disjoint k).resolve_left hk⟩

/-- The word of a branch is determined by its keys. -/
theorem prefixAndBit_eq (h0 : (Tree.branch pb0 t00 t01).WF) (h1 : (Tree.branch pb1 t10 t11).WF)
    (hdom : ∀ k,
      findTree k (.branch pb0 t00 t01) = none ↔ findTree k (.branch pb1 t10 t11) = none) :
    pb0 = pb1 := by
  by_contra hne
  by_cases hinc : includesPrefix (unpack pb1).1 (unpack pb1).2 (unpack pb0).1 (unpack pb0).2 = true
  · have hinc' : ¬ includesPrefix (unpack pb0).1 (unpack pb0).2 (unpack pb1).1 (unpack pb1).2 =
        true := by
      obtain ⟨n0, hn0⟩ := exists_isLowest h0.1
      obtain ⟨n1, hn1⟩ := exists_isLowest h1.1
      simp only [includesPrefix, Bool.and_eq_true, higher_iff hn0 hn1, higher_iff hn1 hn0] at hinc ⊢
      omega
    obtain ⟨k, hk, hk'⟩ := exists_key_not_mem h1 h0 (Ne.symm hne) hinc'
    exact hk ((hdom k).1 hk')
  · obtain ⟨k, hk, hk'⟩ := exists_key_not_mem h0 h1 hne hinc; exact hk ((hdom k).2 hk')

end Branches

theorem findTree_side0 (h : (Tree.branch pb t0 t1).WF) (k : Key) :
    findTree k t0 = if Side pb false k then findTree k (.branch pb t0 t1) else none := by
  split
  case isTrue hs => rw [find_of_side_false hs]
  case isFalse hs => exact by_contra fun hk => hs (h.side0 hk)

theorem findTree_side1 (h : (Tree.branch pb t0 t1).WF) (k : Key) :
    findTree k t1 = if Side pb true k then findTree k (.branch pb t0 t1) else none := by
  split
  case isTrue hs => rw [find_of_side_true hs]
  case isFalse hs => exact by_contra fun hk => hs (h.side1 hk)

/-- Trees of one shape and with the same keys, whose data are related by `r`. -/
def Tree.Rel (r : α → β → Prop) : Tree α → Tree β → Prop
  | leaf i d, leaf j e => i = j ∧ r d e
  | branch pb0 t00 t01, branch pb1 t10 t11 => pb0 = pb1 ∧ t00.Rel r t10 ∧ t01.Rel r t11
  | leaf .., branch .. => False
  | branch .., leaf .. => False

theorem Tree.rel_eq_iff : t0.Rel Eq t1 ↔ t0 = t1 := by
  induction t0 generalizing t1 with
  | leaf i d => cases t1 <;> simp [Tree.Rel]
  | branch pb t0 t1 ih0 ih1 => cases t1 <;> simp [Tree.Rel, ih0, ih1]

theorem Tree.Rel.refl {r : α → α → Prop} (hr : ∀ d, r d d) (t : Tree α) : t.Rel r t := by
  induction t with
  | leaf i d => exact ⟨rfl, hr d⟩
  | branch pb t0 t1 ih0 ih1 => exact ⟨rfl, ih0, ih1⟩

variable {r : α → β → Prop}

theorem none_iff_of_rel {x : Option α} {y : Option β} (h : Option.Rel r x y) :
    x = none ↔ y = none := by
  cases h <;> simp

variable {t10 t11 : Tree β} {t00 t01 : Tree α}

/-- Two branches on one word are related as their sides are. -/
theorem forall_rel_branch (h0 : (Tree.branch pb t00 t01).WF) (h1 : (Tree.branch pb t10 t11).WF) :
    (∀ k, Option.Rel r (findTree k (.branch pb t00 t01)) (findTree k (.branch pb t10 t11))) ↔
      (∀ k, Option.Rel r (findTree k t00) (findTree k t10)) ∧
        ∀ k, Option.Rel r (findTree k t01) (findTree k t11) := by
  constructor
  · intro h
    refine ⟨fun k => ?_, fun k => ?_⟩
    · rw [findTree_side0 h0, findTree_side0 h1]
      split
      · exact h k
      · exact .none
    rw [findTree_side1 h0, findTree_side1 h1]
    split
    · exact h k
    · exact .none
  rintro ⟨hleft, hright⟩ k
  rw [findTree_branch, findTree_branch]
  split
  · exact hleft k
  split
  · exact hright k
  · exact .none

/-- Related maps have trees of one shape. -/
theorem Tree.WF.rel_iff {t0 : Tree α} {t1 : Tree β} (h0 : t0.WF) (h1 : t1.WF) :
    t0.Rel r t1 ↔ ∀ k, Option.Rel r (findTree k t0) (findTree k t1) := by
  induction t0 generalizing t1 with
  | leaf i d =>
    cases t1 with
    | leaf j e =>
      constructor
      · rintro ⟨rfl, hde⟩ k
        simp only [findTree]
        split
        · exact .some hde
        · exact .none
      intro h
      have hi := h i
      simp only [findTree, if_true] at hi
      split at hi
      case isTrue hij =>
        cases hi with
        | some hde => exact ⟨hij.symm, hde⟩
      case isFalse => cases hi
    | branch pb t10 t11 =>
      refine iff_of_false id fun h => ?_
      obtain ⟨k, hk, hne⟩ := exists_key_ne h1 i
      exact hk ((none_iff_of_rel (h k)).1 (if_neg hne.symm))
  | branch pb t00 t01 ih0 ih1 =>
    cases t1 with
    | leaf j e =>
      refine iff_of_false id fun h => ?_
      obtain ⟨k, hk, hne⟩ := exists_key_ne h0 j
      exact hk ((none_iff_of_rel (h k)).2 (if_neg hne.symm))
    | branch pb' t10 t11 =>
      have hsides : pb = pb' → ((t00.Rel r t10 ∧ t01.Rel r t11) ↔ ∀ k,
          Option.Rel r (findTree k (.branch pb t00 t01)) (findTree k (.branch pb' t10 t11))) := by
        rintro rfl
        rw [forall_rel_branch h0 h1, ih0 h0.2.2.2.1 h1.2.2.2.1, ih1 h0.2.2.2.2 h1.2.2.2.2]
      constructor
      · rintro ⟨heq, hrel⟩; exact (hsides heq).1 hrel
      intro h
      have heq := prefixAndBit_eq h0 h1 fun k => none_iff_of_rel (h k)
      exact ⟨heq, (hsides heq).2 h⟩

/-- `Tree.Rel` for trees that may be empty. -/
def T.Rel (r : α → β → Prop) : T α → T β → Prop
  | .empty, .empty => True
  | .tree t0, .tree t1 => t0.Rel r t1
  | .empty, .tree _ => False
  | .tree _, .empty => False

theorem T.rel_eq_iff {t0 t1 : T α} : t0.Rel Eq t1 ↔ t0 = t1 := by
  cases t0 <;> cases t1 <;> simp [T.Rel, Tree.rel_eq_iff]

theorem T.WF.rel_iff {t0 : T α} {t1 : T β} (h0 : t0.WF) (h1 : t1.WF) :
    t0.Rel r t1 ↔ ∀ k, Option.Rel r (findOpt k t0) (findOpt k t1) := by
  cases t0 with
  | empty =>
    cases t1 with
    | empty => exact iff_of_true trivial fun _ => .none
    | tree t1 =>
      refine iff_of_false id fun h => ?_
      obtain ⟨k, hk⟩ := Tree.WF.exists_find h1
      exact hk ((none_iff_of_rel (h k)).1 rfl)
  | tree t0 =>
    cases t1 with
    | empty =>
      refine iff_of_false id fun h => ?_
      obtain ⟨k, hk⟩ := Tree.WF.exists_find h0
      exact hk ((none_iff_of_rel (h k)).2 rfl)
    | tree t1 => exact Tree.WF.rel_iff h0 h1

/-- Well-formed trees for one map are equal. -/
theorem T.WF.eq_of_find_eq {t0 t1 : T α} (h0 : t0.WF) (h1 : t1.WF)
    (h : ∀ k, findOpt k t0 = findOpt k t1) : t0 = t1 := by
  refine T.rel_eq_iff.1 ((h0.rel_iff h1).2 fun k => ?_)
  rw [h k]
  cases findOpt k t1 with
  | none => exact .none
  | some d => exact .some rfl

/-! ## §14 `equal` and `compare` -/

section Equal

variable (peq : PhysEq α) {f : α → α → Bool} (hf : ∀ d, f d d = true)
include hf

theorem equalTree_iff : equalTree peq f t0 t1 = true ↔ t0.Rel (fun x y => f x y = true) t1 := by
  induction t0 generalizing t1 with
  | leaf i d =>
    rw [equalTree.eq_def]
    split
    case isTrue heq =>
      obtain rfl := peq.tree_sound _ _ heq
      exact iff_of_true rfl (Tree.Rel.refl hf _)
    case isFalse => cases t1 <;> simp [Tree.Rel]
  | branch pb t00 t01 ih0 ih1 =>
    rw [equalTree.eq_def]
    split
    case isTrue heq =>
      obtain rfl := peq.tree_sound _ _ heq
      exact iff_of_true rfl (Tree.Rel.refl hf _)
    case isFalse => cases t1 <;> simp [Tree.Rel, ih0, ih1]

theorem equal_iff {t0 t1 : T α} :
    equal peq f t0 t1 = true ↔ t0.Rel (fun x y => f x y = true) t1 := by
  cases t0 <;> cases t1 <;> simp [equal, T.Rel, equalTree_iff peq hf]

end Equal

theorem compareInt_totalOrder : TotalOrder compareInt := by
  have hint : ∀ i j : Key, (i.slt j = true ↔ i.toInt < j.toInt) ∧ (i = j ↔ i.toInt = j.toInt) :=
    fun i j => ⟨by rw [BitVec.slt_eq_decide, decide_eq_true_iff], BitVec.toInt_inj.symm⟩
  constructor
  · intro i j
    simp only [compareInt, (hint i j).1, (hint i j).2, (hint j i).1, (hint j i).2]
    split <;> split <;> (try split) <;> (try split) <;> lia
  intro i j k
  simp only [compareInt, (hint i j).1, (hint i j).2, (hint j k).1, (hint j k).2, (hint i k).1,
    (hint i k).2]
  split <;> split <;> split <;> lia

theorem compareInt_opposite (i j : Key) : Lib.Opposite (compareInt i j) (compareInt j i) :=
  TotalOrder.opposite compareInt_totalOrder i j

theorem compareInt_chain (i j k : Key) : Chain (compareInt i j) (compareInt j k) (compareInt i k) :=
  TotalOrder.chain compareInt_totalOrder i j k

theorem compareInt_eq_zero_iff : compareInt i j = 0 ↔ i = j := by
  simp only [compareInt]
  split
  · simp [*]
  · split <;> simp [*]

theorem compareInt_neg_iff : compareInt i j < 0 ↔ i.slt j = true := by
  simp only [compareInt]
  split
  case isTrue h => simpa using fun hlt => ne_of_slt hlt h
  case isFalse h => split <;> simp [*]

/-- The comparison of the words of two branches. -/
def compareWord (pb0 pb1 : Key) : Int :=
  comparePrefix (unpack pb0).1 (unpack pb0).2 (unpack pb1).1 (unpack pb1).2

theorem compareWord_totalOrder : TotalOrder compareWord := by
  have hlex : ∀ pb0 pb1, compareWord pb0 pb1 = lexInt
      (compareInt (unpack pb0).2 (unpack pb1).2) (compareInt (unpack pb0).1 (unpack pb1).1) :=
    fun _ _ => rfl
  refine .of_chain (fun x y => ?_) fun x y z => ?_
  · rw [hlex]; exact (compareInt_opposite _ _).lex (compareInt_opposite _ _)
  · rw [hlex]; exact (compareInt_chain _ _ _).lex (compareInt_chain _ _ _)

theorem compareWord_opposite (pb0 pb1 : Key) :
    Lib.Opposite (compareWord pb0 pb1) (compareWord pb1 pb0) :=
  TotalOrder.opposite compareWord_totalOrder pb0 pb1

theorem compareWord_chain (pb0 pb1 pb2 : Key) :
    Chain (compareWord pb0 pb1) (compareWord pb1 pb2) (compareWord pb0 pb2) :=
  TotalOrder.chain compareWord_totalOrder pb0 pb1 pb2

theorem compareWord_self (pb : Key) : compareWord pb pb = 0 :=
  TotalOrder.self compareWord_totalOrder pb

theorem xor_unpack (pb : Key) : (unpack pb).1 ^^^ (unpack pb).2 = pb := by
  simp [unpack, BitVec.xor_assoc]

theorem compareWord_eq_zero_iff {pb0 pb1 : Key} : compareWord pb0 pb1 = 0 ↔ pb0 = pb1 := by
  constructor
  · intro h
    simp only [compareWord, comparePrefix] at h
    split at h
    case isTrue hbit =>
      have hbit' := compareInt_eq_zero_iff.1 hbit
      have hpre := compareInt_eq_zero_iff.1 h
      rw [← xor_unpack pb0, ← xor_unpack pb1, hpre, hbit']
    case isFalse hbit => exact absurd h hbit
  · rintro rfl; exact compareWord_self pb0

section Compare

variable (peq : PhysEq α) {f : α → α → Int} (hf : TotalOrder f)
include hf

omit hf in
theorem compareTree_shared (h : peq.tree t0 t1 = true) : compareTree peq f t0 t1 = 0 := by
  unfold compareTree
  exact if_pos h

omit hf in
/-- Trees are compared by their constructors, then by their words, and then by their parts. -/
theorem compareTree_unshared (h : ¬ peq.tree t0 t1 = true) : compareTree peq f t0 t1 =
      match t0, t1 with
      | .leaf i d, .leaf j e => lexInt (compareInt i j) (f d e)
      | .branch pb0 t00 t01, .branch pb1 t10 t11 =>
        lexInt (compareWord pb0 pb1)
          (lexInt (compareTree peq f t00 t10) (compareTree peq f t01 t11))
      | .leaf .., .branch .. => 1
      | .branch .., .leaf .. => -1 := by
  rw [compareTree.eq_def, if_neg h]
  cases t0 with
  | leaf i d =>
    cases t1 with
    | leaf j e => simp only [lexInt, ne_eq, ite_not]; rfl
    | branch pb t10 t11 => rfl
  | branch pb t00 t01 => cases t1 <;> rfl

theorem compareTree_self (t : Tree α) : compareTree peq f t t = 0 := by
  by_cases hshared : peq.tree t t = true
  · exact compareTree_shared peq hshared
  induction t with
  | leaf i d => rw [compareTree_unshared peq hshared]; simp [lexInt, compareInt, hf.self]
  | branch pb t0 t1 ih0 ih1 =>
    have hself : ∀ t, (¬ peq.tree t t = true → compareTree peq f t t = 0) →
        compareTree peq f t t = 0 := fun t ih =>
      if h : peq.tree t t = true then compareTree_shared peq h else ih h
    rw [compareTree_unshared peq hshared]
    simp [lexInt, hself t0 ih0, hself t1 ih1, compareWord_self]

theorem compareTree_leaf_leaf (i j : Key) (d e : α) :
    compareTree peq f (.leaf i d) (.leaf j e) = lexInt (compareInt i j) (f d e) := by
  by_cases hshared : peq.tree (.leaf i d) (.leaf j e) = true
  · rw [compareTree_shared peq hshared]
    cases peq.tree_sound _ _ hshared
    simp [lexInt, compareInt, hf.self]
  · rw [compareTree_unshared peq hshared]

theorem compareTree_branch_branch (pb0 pb1 : Key) (t00 t01 t10 t11 : Tree α) :
    compareTree peq f (.branch pb0 t00 t01) (.branch pb1 t10 t11) = lexInt (compareWord pb0 pb1)
        (lexInt (compareTree peq f t00 t10) (compareTree peq f t01 t11)) := by
  by_cases hshared : peq.tree (.branch pb0 t00 t01) (.branch pb1 t10 t11) = true
  · cases peq.tree_sound _ _ hshared; simp [lexInt, compareTree_self peq hf, compareWord_self]
  · rw [compareTree_unshared peq hshared]

omit hf in
theorem compareTree_leaf_branch (i pb : Key) (d : α) (t0 t1 : Tree α) :
    compareTree peq f (.leaf i d) (.branch pb t0 t1) = 1 ∧
      compareTree peq f (.branch pb t0 t1) (.leaf i d) = -1 := by
  have h0 : ¬ peq.tree (.leaf i d) (.branch pb t0 t1) = true := fun h => by
    cases peq.tree_sound _ _ h
  have h1 : ¬ peq.tree (.branch pb t0 t1) (.leaf i d) = true := fun h => by
    cases peq.tree_sound _ _ h
  constructor
  · rw [compareTree_unshared peq h0]
  · rw [compareTree_unshared peq h1]

theorem compareTree_opposite (t0 t1 : Tree α) :
    Lib.Opposite (compareTree peq f t0 t1) (compareTree peq f t1 t0) := by
  induction t0 generalizing t1 with
  | leaf i d =>
    cases t1 with
    | leaf j e =>
      rw [compareTree_leaf_leaf peq hf, compareTree_leaf_leaf peq hf]
      exact (compareInt_opposite i j).lex (hf.opposite d e)
    | branch pb t10 t11 =>
      rw [(compareTree_leaf_branch peq i pb d t10 t11).1,
        (compareTree_leaf_branch peq i pb d t10 t11).2]
      simp [Lib.Opposite]
  | branch pb t00 t01 ih0 ih1 =>
    cases t1 with
    | leaf j e =>
      rw [(compareTree_leaf_branch peq j pb e t00 t01).1,
        (compareTree_leaf_branch peq j pb e t00 t01).2]
      simp [Lib.Opposite]
    | branch pb' t10 t11 =>
      rw [compareTree_branch_branch peq hf, compareTree_branch_branch peq hf]
      exact (compareWord_opposite pb pb').lex ((ih0 t10).lex (ih1 t11))

theorem compareTree_chain (t0 t1 t2 : Tree α) :
    Chain (compareTree peq f t0 t1) (compareTree peq f t1 t2) (compareTree peq f t0 t2) := by
  -- A leaf comes after every branch.
  induction t0 generalizing t1 t2 with
  | leaf i d =>
    cases t1 with
    | leaf j e =>
      cases t2 with
      | leaf k g =>
        simp only [compareTree_leaf_leaf peq hf]
        exact (compareInt_chain i j k).lex (hf.chain d e g)
      | branch pb t20 t21 =>
        simp only [(compareTree_leaf_branch peq _ pb _ t20 t21).1]
        constructor <;> lia
    | branch pb t10 t11 =>
      simp only [(compareTree_leaf_branch peq _ pb _ t10 t11).1]
      constructor <;> lia
  | branch pb t00 t01 ih0 ih1 =>
    cases t1 with
    | leaf j e =>
      cases t2 with
      | leaf k g =>
        simp only [(compareTree_leaf_branch peq _ pb _ t00 t01).2]
        constructor <;> lia
      | branch pb' t20 t21 =>
        simp only [(compareTree_leaf_branch peq _ pb' _ t20 t21).1]
        constructor <;> lia
    | branch pb' t10 t11 =>
      cases t2 with
      | leaf k g =>
        simp only [(compareTree_leaf_branch peq _ pb _ t00 t01).2]
        constructor <;> lia
      | branch pb'' t20 t21 =>
        simp only [compareTree_branch_branch peq hf]
        exact (compareWord_chain pb pb' pb'').lex ((ih0 t10 t20).lex (ih1 t11 t21))

omit hf in
theorem lexInt_eq_zero_iff {a b : Int} : lexInt a b = 0 ↔ a = 0 ∧ b = 0 := by
  unfold lexInt
  split <;> simp [*]

theorem compareTree_eq_zero_iff :
    compareTree peq f t0 t1 = 0 ↔ t0.Rel (fun x y => f x y = 0) t1 := by
  induction t0 generalizing t1 with
  | leaf i d =>
    cases t1 with
    | leaf j e =>
      rw [compareTree_leaf_leaf peq hf, lexInt_eq_zero_iff, compareInt_eq_zero_iff]
      exact Iff.rfl
    | branch pb t10 t11 => simp [(compareTree_leaf_branch peq _ pb _ t10 t11).1, Tree.Rel]
  | branch pb t00 t01 ih0 ih1 =>
    cases t1 with
    | leaf j e => simp [(compareTree_leaf_branch peq _ pb _ t00 t01).2, Tree.Rel]
    | branch pb' t10 t11 =>
      rw [compareTree_branch_branch peq hf, lexInt_eq_zero_iff, lexInt_eq_zero_iff,
        compareWord_eq_zero_iff, ih0, ih1]
      exact Iff.rfl

theorem compareT_totalOrder : TotalOrder (compareT peq f) := by
  refine .of_chain (fun t0 t1 => ?_) fun t0 t1 t2 => ?_
  · cases t0 <;> cases t1 <;>
      first | exact compareTree_opposite peq hf _ _ | simp [compareT, Lib.Opposite]
  cases t0 <;> cases t1 <;> cases t2 <;> first
    | exact compareTree_chain peq hf _ _ _
    | (simp only [compareT]; constructor <;> lia)

theorem compareT_eq_zero_iff {t0 t1 : T α} :
    compareT peq f t0 t1 = 0 ↔ t0.Rel (fun x y => f x y = 0) t1 := by
  cases t0 <;> cases t1 <;> simp [compareT, T.Rel, compareTree_eq_zero_iff peq hf]

end Compare

/-! ## §15 Domains -/

/-- Every key of `t0` is in `t1`. -/
def DomainLe (t0 : Tree α) (t1 : Tree β) : Prop :=
  ∀ k, findTree k t0 ≠ none → findTree k t1 ≠ none

theorem domainLe_leaf {d : α} {t : Tree β} : DomainLe (.leaf i d) t ↔ memTree i t = true := by
  rw [memTree_eq, Option.isSome_iff_ne_none]
  constructor
  · exact fun h => h i (by simp [findTree])
  · intro h k hk; rwa [eq_of_ite_ne_none hk]

/-- All keys of `t0` lie on one side of the branch. -/
theorem domainLe_branch_right {t0 : Tree α} {b : Bool}
    (hside : ∀ k, findTree k t0 ≠ none → Side pb b k) :
    DomainLe t0 (.branch pb t10 t11) ↔ DomainLe t0 (if b then t11 else t10) := by
  refine forall₂_congr fun k hk => ?_
  cases b with
  | false => rw [find_of_side_false (hside k hk), if_neg Bool.false_ne_true]
  | true => rw [find_of_side_true (hside k hk), if_pos rfl]

theorem domainLe_branch_branch (h0 : (Tree.branch pb t00 t01).WF) :
    DomainLe (.branch pb t00 t01) (.branch pb t10 t11) ↔ DomainLe t00 t10 ∧ DomainLe t01 t11 := by
  constructor
  · intro h
    refine ⟨fun k hk => ?_, fun k hk => ?_⟩
    · have hs := h0.side0 hk
      have hfind := h k (by rwa [find_of_side_false hs])
      rwa [find_of_side_false hs] at hfind
    have hs := h0.side1 hk
    have hfind := h k (by rwa [find_of_side_true hs])
    rwa [find_of_side_true hs] at hfind
  rintro ⟨hleft, hright⟩ k hk
  obtain ⟨b, hs⟩ := exists_side hk
  cases b with
  | false => rw [find_of_side_false hs] at hk ⊢; exact hleft k hk
  | true => rw [find_of_side_true hs] at hk ⊢; exact hright k hk

theorem subsetDomainTree_iff {t0 : Tree α} {t1 : Tree β} (h0 : t0.WF) (h1 : t1.WF) :
    subsetDomainTree t0 t1 = true ↔ DomainLe t0 t1 := by
  fun_induction subsetDomainTree t0 t1 with
  | case1 pb t00 t01 j e =>
    refine iff_of_false Bool.false_ne_true fun h => ?_
    obtain ⟨k, hk, hne⟩ := exists_key_ne h0 j
    exact h k hk (if_neg hne.symm)
  | case2 t1 i d => exact domainLe_leaf.symm
  | case3 t00 t01 pb t10 t11 ih0 ih1 =>
    rw [Bool.and_eq_true, ih0 h0.2.2.2.1 h1.2.2.2.1, ih1 h0.2.2.2.2 h1.2.2.2.2,
      domainLe_branch_branch h0]
  | case4 pb0 t00 t01 pb1 t10 t11 hne prefix0 bit0 hun0 prefix1 bit1 hun1 hinc hz ih =>
    obtain ⟨rfl, rfl⟩ : (unpack pb0).1 = prefix0 ∧ (unpack pb0).2 = bit0 := by simp [hun0]
    obtain ⟨rfl, rfl⟩ : (unpack pb1).1 = prefix1 ∧ (unpack pb1).2 = bit1 := by simp [hun1]
    have hside := side_of_branch h1.1 h0 hinc
    rw [hz] at hside
    rw [ih h0 h1.2.2.2.1, domainLe_branch_right hside]
    rfl
  | case5 pb0 t00 t01 pb1 t10 t11 hne prefix0 bit0 hun0 prefix1 bit1 hun1 hinc hz ih =>
    obtain ⟨rfl, rfl⟩ : (unpack pb0).1 = prefix0 ∧ (unpack pb0).2 = bit0 := by simp [hun0]
    obtain ⟨rfl, rfl⟩ : (unpack pb1).1 = prefix1 ∧ (unpack pb1).2 = bit1 := by simp [hun1]
    have hside := side_of_branch h1.1 h0 hinc
    rw [Bool.eq_false_iff.2 hz] at hside
    rw [ih h0 h1.2.2.2.2, domainLe_branch_right hside]
    rfl
  | case6 pb0 t00 t01 pb1 t10 t11 hne prefix0 bit0 hun0 prefix1 bit1 hun1 hinc =>
    obtain ⟨rfl, rfl⟩ : (unpack pb0).1 = prefix0 ∧ (unpack pb0).2 = bit0 := by simp [hun0]
    obtain ⟨rfl, rfl⟩ : (unpack pb1).1 = prefix1 ∧ (unpack pb1).2 = bit1 := by simp [hun1]
    refine iff_of_false Bool.false_ne_true fun h => ?_
    obtain ⟨k, hk, hk'⟩ := exists_key_not_mem h0 h1 hne hinc
    exact h k hk hk'

theorem subsetDomain_iff {t0 : T α} {t1 : T β} (h0 : t0.WF) (h1 : t1.WF) :
    subsetDomain t0 t1 = true ↔ ∀ k, findOpt k t0 ≠ none → findOpt k t1 ≠ none := by
  cases t0 with
  | empty => exact iff_of_true rfl fun k hk => absurd rfl hk
  | tree t0 =>
    cases t1 with
    | empty =>
      refine iff_of_false Bool.false_ne_true fun h => ?_
      obtain ⟨k, hk⟩ := Tree.WF.exists_find h0
      exact h k hk rfl
    | tree t1 => exact subsetDomainTree_iff h0 h1

/-- The test walks the trees as `inter` does. -/
theorem interDomainIsNonEmptyTree_iff (t0 : Tree α) (t1 : Tree β) :
    interDomainIsNonEmptyTree t0 t1 = true ↔ interTree (fun _ _ _ => ()) t0 t1 ≠ .empty := by
  have hbranch : ∀ (pb : Key) (u0 u1 : T Unit),
      branch pb u0 u1 ≠ .empty ↔ u0 ≠ .empty ∨ u1 ≠ .empty := by
    intro pb u0 u1
    cases u0 <;> cases u1 <;> simp [branch]
  fun_induction interDomainIsNonEmptyTree t0 t1 with
  | case1 i d t1 =>
    rw [memTree_eq, interTree.eq_def]
    cases hfind : findTree i t1 <;> simp [hfind]
  | case2 pb t00 t01 i e =>
    rw [memTree_eq, interTree.eq_def]
    cases hfind : findTree i (.branch pb t00 t01) <;> simp [hfind]
  | case3 t00 t01 pb t10 t11 ih0 ih1 => rw [interTree.eq_def]; simp [hbranch, ih0, ih1]
  | case4 pb0 t00 t01 pb1 t10 t11 hne prefix0 bit0 hun0 prefix1 bit1 hun1 hinc hz ih =>
    refine ih.trans ?_
    rw [interTree.eq_def _ (.branch pb0 t00 t01)]
    simp only [hun0, hun1, if_neg hne, if_pos hinc, if_pos hz]
  | case5 pb0 t00 t01 pb1 t10 t11 hne prefix0 bit0 hun0 prefix1 bit1 hun1 hinc hz ih =>
    refine ih.trans ?_
    rw [interTree.eq_def _ (.branch pb0 t00 t01)]
    simp only [hun0, hun1, if_neg hne, if_pos hinc, if_neg hz]
  | case6 pb0 t00 t01 pb1 t10 t11 hne prefix0 bit0 hun0 prefix1 bit1 hun1 hinc hinc' hz ih =>
    refine ih.trans ?_
    rw [interTree.eq_def _ (.branch pb0 t00 t01) (.branch pb1 t10 t11)]
    simp only [hun0, hun1, if_neg hne, if_neg hinc, if_pos hinc', if_pos hz]
  | case7 pb0 t00 t01 pb1 t10 t11 hne prefix0 bit0 hun0 prefix1 bit1 hun1 hinc hinc' hz ih =>
    refine ih.trans ?_
    rw [interTree.eq_def _ (.branch pb0 t00 t01) (.branch pb1 t10 t11)]
    simp only [hun0, hun1, if_neg hne, if_neg hinc, if_pos hinc', if_neg hz]
  | case8 pb0 t00 t01 pb1 t10 t11 hne prefix0 bit0 hun0 prefix1 bit1 hun1 hinc hinc' =>
    rw [interTree.eq_def]
    simp [hun0, hun1, hne, hinc, hinc']

/-- A well-formed tree is empty when its map is. -/
theorem Refines.ne_empty_iff {t : T α} {f : Key → Option α} (h : Refines t f) :
    t ≠ .empty ↔ ∃ k, f k ≠ none := by
  cases t with
  | empty => simp [← h.find, findOpt]
  | tree t =>
    obtain ⟨k, hk⟩ := h.wf_tree.exists_find
    exact iff_of_true (by simp) ⟨k, h.find k ▸ hk⟩

theorem interDomainIsNonEmpty_iff {t0 : T α} {t1 : T β} (h0 : t0.WF) (h1 : t1.WF) :
    interDomainIsNonEmpty t0 t1 = true ↔ ∃ k, findOpt k t0 ≠ none ∧ findOpt k t1 ≠ none := by
  cases t0 with
  | empty => simp [interDomainIsNonEmpty, findOpt]
  | tree t0 =>
    cases t1 with
    | empty => simp [interDomainIsNonEmpty, findOpt]
    | tree t1 =>
      refine (interDomainIsNonEmptyTree_iff t0 t1).trans
        ((interTree_refines (fun _ _ _ => ()) t0 t1 h0 h1).ne_empty_iff.trans
          (exists_congr fun k => ?_))
      simp only [mergeAt, findOpt]
      cases findTree k t0 <;> cases findTree k t1 <;> simp [interAt]

/-! ## §16 All comparisons -/

/-- What the functions on two trees decide. -/
structure Compared (peq : PhysEq α) (t0 t1 : T α) : Prop where
  canonical : (∀ k, findOpt k t0 = findOpt k t1) → t0 = t1
  equal : ∀ f : α → α → Bool, Equivalence (fun x y => f x y = true) → (equal peq f t0 t1 = true ↔
      ∀ k, Option.Rel (fun x y => f x y = true) (findOpt k t0) (findOpt k t1))
  compare : ∀ f : α → α → Int, TotalOrder f → (compareT peq f t0 t1 = 0 ↔
      ∀ k, Option.Rel (fun x y => f x y = 0) (findOpt k t0) (findOpt k t1))

/-- What the functions on the domains of two trees decide. -/
structure DomainsCompared (t0 : T α) (t1 : T β) : Prop where
  subset : subsetDomain t0 t1 = true ↔ ∀ k, findOpt k t0 ≠ none → findOpt k t1 ≠ none
  inter : interDomainIsNonEmpty t0 t1 = true ↔ ∃ k, findOpt k t0 ≠ none ∧ findOpt k t1 ≠ none

/-- Well-formed trees are canonical, and their comparisons are those of the maps. -/
theorem patricia_tree_comparisons :
    (∀ (peq : PhysEq α) (t0 t1 : T α), t0.WF → t1.WF → Compared peq t0 t1) ∧
      (∀ (peq : PhysEq α) (f : α → α → Int), TotalOrder f → TotalOrder (compareT peq f)) ∧
      ∀ (t0 : T α) (t1 : T β), t0.WF → t1.WF → DomainsCompared t0 t1 := by
  refine ⟨fun peq t0 t1 h0 h1 => ⟨h0.eq_of_find_eq h1, fun f hf => ?_, fun f hf => ?_⟩,
    fun peq f hf => compareT_totalOrder peq hf,
    fun t0 t1 h0 h1 => ⟨subsetDomain_iff h0 h1, interDomainIsNonEmpty_iff h0 h1⟩⟩
  · rw [equal_iff peq hf.refl, h0.rel_iff h1]
  · rw [compareT_eq_zero_iff peq hf, h0.rel_iff h1]

/-- Blocks that are never found to be shared. -/
def PhysEq.never : PhysEq α where
  datum _ _ := false
  tree _ _ := false
  datum_sound _ _ h := absurd h Bool.false_ne_true
  tree_sound _ _ h := absurd h Bool.false_ne_true

/-- A tree with keys of both signs, and one of its subtrees. -/
theorem patricia_tree_comparisons_signed : let t0 : T Key := ofList [(5, 1), (-1, 2)]
    let t1 : T Key := ofList [(-1, 2)]
    Compared .never t0 t1 ∧ TotalOrder (compareT (α := Key) .never compareInt) ∧
      DomainsCompared t1 t0 :=
  have h0 := (ofList_refines [((5 : Key), (1 : Key)), (-1, 2)]).wf
  have h1 := (ofList_refines [((-1 : Key), (2 : Key))]).wf
  ⟨(patricia_tree_comparisons (β := Key)).1 _ _ _ h0 h1,
    (patricia_tree_comparisons (β := Key)).2.1 _ _ compareInt_totalOrder,
    patricia_tree_comparisons.2.2 _ _ h1 h0⟩

end Oxcaml.Flambda2.PatriciaTree
