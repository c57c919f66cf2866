/-
Oxcaml.Flambda2.PatriciaTreeOperations — the operations on whole trees.

§5 proves `pattern_match_pair_merge` once, for any arguments that are the
parts of one function on pairs of optional data (`Merge.Sound`). §6 reads
off unions, differences, `merge` and `update_many`. §7 and §8 are the
operations that walk two trees or one tree on their own, §9 is `split`, and
§10 collects the result.
-/
import Oxcaml.Flambda2.PatriciaTreeTheorems

set_option linter.all false

namespace Oxcaml.Flambda2.PatriciaTree

open Tree (size)

open Oxcaml.Lib

variable {α β γ ρ : Type}

/-! ## §5 Merging two trees -/

section Yields

variable {m : Type → Type} [Monad m]

/-- The computation returns, with a value that satisfies `P`. -/
def Yields (x : m α) (P : α → Prop) : Prop := ∃ a, x = pure a ∧ P a

variable {P : α → Prop}

theorem Yields.pure {a : α} (h : P a) : Yields (Pure.pure a : m α) P := ⟨a, rfl, h⟩

theorem Yields.mono {x : m α} {Q : α → Prop} (h : Yields x P) (hPQ : ∀ a, P a → Q a) :
    Yields x Q := by
  obtain ⟨a, hx, ha⟩ := h
  exact ⟨a, hx, hPQ a ha⟩

/-- A computation that returns may be run before another one. -/
theorem Yields.map_bind [LawfulMonad m] {x : m α} {f : α → β} {g : β → m γ}
    {Q : γ → Prop} (h : Yields x P) (hg : ∀ a, P a → Yields (g (f a)) Q) :
    Yields (f <$> x >>= g) Q := by
  obtain ⟨a, rfl, ha⟩ := h
  simpa using hg a ha

theorem Yields.id {x : Id α} (h : Yields x P) : P x := by
  obtain ⟨a, rfl, ha⟩ := h
  exact ha

end Yields

variable {m : Type → Type} [Monad m]

/-- The arguments of a merge are the parts of the function `g`, and its
hooks return what the merge would build. -/
structure Merge.Sound (h : Merge m α β γ ρ) (g : Key → Option α → Option β → Option γ) : Prop where
  absent : ∀ k, g k none none = none
  combine : ∀ k x y, h.combine k x y = g k (some x) (some y)
  onlyLeft : ∀ t : Tree α, t.WF → Refines (h.onlyLeft t) fun k => g k (findTree k t) none
  onlyRight : ∀ t : Tree β, t.WF → Refines (h.onlyRight t) fun k => g k none (findTree k t)
  descr : ∀ t, h.descr (h.ofTree t) = .tree t
  /-- `empty` is an answer where it may be needed. -/
  empty : ∀ t0 t1, t0.WF → t1.WF → (∀ k, g k (findTree k t0) (findTree k t1) = none) →
    Yields h.empty fun r => h.descr r = .empty
  shortcut : ∀ t0 t1 r, t0.WF → t1.WF → h.physEqShortcut t0 t1 = some r →
    Refines (h.descr r) fun k => g k (findTree k t0) (findTree k t1)
  branchLeft : ∀ pb o0 o1 t0 t1 t',
    h.physEqCheckBranchLeft (.branch pb o0 o1) o0 o1 t0 t1 = some t' →
    t' = .branch pb t0 t1
  branchRight : ∀ pb o0 o1 t0 t1 t',
    h.physEqCheckBranchRight (.branch pb o0 o1) o0 o1 t0 t1 = some t' → t' = .branch pb t0 t1
  leafLeft : ∀ i d0 d t', h.physEqCheckLeafLeft (.leaf i d0) d0 d = some t' → t' = .leaf i d
  leafRight : ∀ i d1 d t', h.physEqCheckLeafRight (.leaf i d1) d1 d = some t' → t' = .leaf i d

/-- The merge of `t0` and `t1` at the key `k`. -/
def mergeAt (g : Key → Option α → Option β → Option γ) (t0 : Tree α) (t1 : Tree β) (k : Key) :
    Option γ :=
  g k (findTree k t0) (findTree k t1)

/-- What a merge of `t0` and `t1` has to return. -/
def Correct (h : Merge m α β γ ρ) (g : Key → Option α → Option β → Option γ) (t0 : Tree α)
    (t1 : Tree β) (x : m ρ) : Prop :=
  Yields x fun r => Refines (h.descr r) (mergeAt g t0 t1)

section Parts

variable {h : Merge m α β γ ρ} {g : Key → Option α → Option β → Option γ} (hs : h.Sound g)
  {t0 : Tree α} {t1 : Tree β} (h0 : t0.WF) (h1 : t1.WF)
include hs

theorem correct_ofTree {t : Tree γ} (ht : Refines (.tree t) (mergeAt g t0 t1)) :
    Correct h g t0 t1 (pure (h.ofTree t)) :=
  .pure (by rwa [hs.descr])

include h0 h1

theorem correct_empty (hnone : ∀ k, mergeAt g t0 t1 k = none) : Correct h g t0 t1 h.empty :=
  (hs.empty t0 t1 h0 h1 hnone).mono fun r hr => by
    rw [hr]
    exact refines_empty.congr fun k => (hnone k).symm

/-- Both sides of a branch are merged, and put back under its word. -/
theorem correct_rebuildBranch {pb : Key} (hpb : pb ≠ 0) {f0 f1 : Key → Option γ} {t0' t1' : T γ}
    (ht0 : Refines t0' f0) (ht1 : Refines t1' f1) (hs0 : ∀ k, f0 k ≠ none → Side pb false k)
    (hs1 : ∀ k, f1 k ≠ none → Side pb true k)
    {share : Tree γ → Tree γ → Option (Tree γ)}
    (hshare : ∀ a b t', share a b = some t' → t' = .branch pb a b)
    (hmerge : ∀ k, mergeAt g t0 t1 k = (f0 k).or (f1 k)) :
    Correct h g t0 t1 (rebuildBranch h share pb t0' t1') := by
  have hbranch := (refines_branch hpb ht0 ht1 hs0 hs1).congr fun k => (hmerge k).symm
  match t0', t1' with
  | .empty, .empty => exact correct_empty hs h0 h1 fun k => (hbranch.find k).symm
  | .empty, .tree b => exact correct_ofTree hs hbranch
  | .tree a, .empty => exact correct_ofTree hs hbranch
  | .tree a, .tree b =>
    simp only [rebuildBranch]
    split
    case h_1 t' heq => rw [hshare a b t' heq]; exact correct_ofTree hs hbranch
    case h_2 => exact correct_ofTree hs hbranch

/-- Trees with disjoint prefixes are merged apart, and joined. -/
theorem correct_joinDescr {p0 p1 : Key}
    (hap : Apart p0 (fun k => findTree k t0) p1 fun k => findTree k t1) :
    Correct h g t0 t1 (joinDescr h p0 (h.onlyLeft t0) p1 (h.onlyRight t1)) := by
  have hl := hs.onlyLeft t0 h0
  have hr := hs.onlyRight t1 h1
  have hap' : Apart p0 (fun k => g k (findTree k t0) none) p1 fun k =>
    g k none (findTree k t1) := by
    refine hap.mono (fun k hk hnone => hk ?_) fun k hk hnone => hk ?_
    · rw [hnone, hs.absent]
    · rw [hnone, hs.absent]
  have hmerge : ∀ k, (g k (findTree k t0) none).or (g k none (findTree k t1)) =
      mergeAt g t0 t1 k := by
    intro k
    rcases hap.disjoint k with hk | hk
    · simp [mergeAt, hk, hs.absent]
    · simp [mergeAt, hk, hs.absent]
  generalize h.onlyLeft t0 = a at hl
  generalize h.onlyRight t1 = b at hr
  match a, b with
  | .empty, .empty =>
    refine correct_empty hs h0 h1 fun k => ?_
    rw [← hmerge, ← hl.find, ← hr.find]
    rfl
  | .tree a, .empty =>
    refine correct_ofTree hs (hl.congr fun k => ?_)
    rw [← hmerge, ← hr.find]
    exact Option.or_none.symm
  | .empty, .tree b =>
    refine correct_ofTree hs (hr.congr fun k => ?_)
    rw [← hmerge, ← hl.find]
    exact Option.none_or.symm
  | .tree a, .tree b => exact correct_ofTree hs ((refines_joinNonEmpty hl hr hap').congr hmerge)

end Parts

variable {g : Key → Option α → Option β → Option γ} {h : Merge m α β γ ρ}

theorem correct_combineLeaves (hs : h.Sound g) (i : Key) (d0 : α) (d1 : β) :
    Correct h g (.leaf i d0) (.leaf i d1) (combineLeaves h i d0 d1) := by
  have hmerge : ∀ k, mergeAt g (.leaf i d0) (.leaf i d1) k =
      if i = k then g i (some d0) (some d1) else none := by
    intro k
    by_cases hk : i = k
    · subst hk; simp [mergeAt, findTree]
    · simp [mergeAt, findTree, hk, hs.absent]
  rw [combineLeaves, hs.combine]
  cases hg : g i (some d0) (some d1) with
  | none => exact correct_empty hs trivial trivial fun k => by simp [hmerge, hg]
  | some d =>
    have hleaf : Refines (.tree (.leaf i d)) (mergeAt g (.leaf i d0) (.leaf i d1)) :=
      (refines_leaf i d).congr fun k => by rw [hmerge, hg]
    dsimp only
    split
    case h_1 t' heq => rw [hs.leafLeft i d0 d t' heq]; exact correct_ofTree hs hleaf
    case h_2 =>
      split
      case h_1 t' heq => rw [hs.leafRight i d1 d t' heq]; exact correct_ofTree hs hleaf
      case h_2 => exact correct_ofTree hs hleaf

/-! Where one tree lies below a side of the other, that side is merged with
it and the other side is passed to `only_left` or `only_right`. -/

section Below

variable {g : Key → Option α → Option β → Option γ} (hg : ∀ k, g k none none = none)
include hg

theorem ne_none_of_merge {k : Key} {x : Option α} {y : Option β} (h : g k x y ≠ none) :
    x ≠ none ∨ y ≠ none := by
  by_contra hboth
  simp only [not_or, not_not] at hboth
  rw [hboth.1, hboth.2] at h
  exact h (hg k)

variable {pb : Key}

/-- The right tree lies below one side of the left branch. -/
theorem mergeAt_branch_left {t00 t01 : Tree α} {t1 : Tree β} {b : Bool}
    (h0 : (Tree.branch pb t00 t01).WF) (h1 : ∀ k, findTree k t1 ≠ none → Side pb b k) (k : Key) :
    mergeAt g (.branch pb t00 t01) t1 k =
      if b then (g k (findTree k t00) none).or (mergeAt g t01 t1 k)
      else (mergeAt g t00 t1 k).or (g k (findTree k t01) none) := by
  have hside : ∀ c, ¬ Side pb c k → (if c then findTree k t01 else findTree k t00) = none := by
    rintro (_ | _) hc
    · exact by_contra fun hk => hc (h0.side0 hk)
    · exact by_contra fun hk => hc (h0.side1 hk)
  have hnone1 : ¬ Side pb b k → findTree k t1 = none := fun hb => by_contra fun hk => hb (h1 k hk)
  have h00 : ¬ Side pb false k → findTree k t00 = none := hside false
  have h01 : ¬ Side pb true k → findTree k t01 = none := hside true
  simp only [mergeAt]
  by_cases hf : Side pb false k
  · have ht : ¬ Side pb true k := fun ht => ht.false_of_true hf
    rw [find_of_side_false hf]
    cases b with
    | false => simp [h01 ht, hg]
    | true => simp [h01 ht, hnone1 ht, hg]
  by_cases ht : Side pb true k
  · rw [find_of_side_true ht]
    cases b with
    | false => simp [h00 hf, hnone1 hf, hg]
    | true => simp [h00 hf, hg]
  rw [findTree_branch, h00 hf, h01 ht]
  cases b with
  | false => simp [hnone1 hf]
  | true => simp [hnone1 ht]

/-- The left tree lies below one side of the right branch. -/
theorem mergeAt_branch_right {t0 : Tree α} {t10 t11 : Tree β} {b : Bool}
    (h1 : (Tree.branch pb t10 t11).WF) (h0 : ∀ k, findTree k t0 ≠ none → Side pb b k) (k : Key) :
    mergeAt g t0 (.branch pb t10 t11) k =
      if b then (g k none (findTree k t10)).or (mergeAt g t0 t11 k)
      else (mergeAt g t0 t10 k).or (g k none (findTree k t11)) :=
  mergeAt_branch_left (g := fun k y x => g k x y) hg h1 h0 k

/-- Both trees branch on the same word. -/
theorem mergeAt_branch_branch {t00 t01 : Tree α} {t10 t11 : Tree β}
    (h0 : (Tree.branch pb t00 t01).WF) (h1 : (Tree.branch pb t10 t11).WF) (k : Key) :
    mergeAt g (.branch pb t00 t01) (.branch pb t10 t11) k =
      (mergeAt g t00 t10 k).or (mergeAt g t01 t11 k) := by
  simp only [mergeAt]
  by_cases hf : Side pb false k
  · have ht : ¬ Side pb true k := fun ht => ht.false_of_true hf
    have h01 : findTree k t01 = none := by_contra fun hk => ht (h0.side1 hk)
    have h11 : findTree k t11 = none := by_contra fun hk => ht (h1.side1 hk)
    rw [find_of_side_false hf, find_of_side_false hf]
    simp [h01, h11, hg]
  have h00 : findTree k t00 = none := by_contra fun hk => hf (h0.side0 hk)
  have h10 : findTree k t10 = none := by_contra fun hk => hf (h1.side0 hk)
  rw [h0.find_branch, h1.find_branch]
  simp [h00, h10, hg]

end Below

section Recursion

variable {h : Merge m α β γ ρ} {g : Key → Option α → Option β → Option γ} (hs : h.Sound g)
include hs

variable {pb : Key} {t0' t1' : T γ}

/-- The results of the cases `branch_x0` and `branch_x1`, given the merge of
one side. -/
theorem correct_x0 {t00 t01 : Tree α} {t1 : Tree β} (h0 : (Tree.branch pb t00 t01).WF)
    (h1 : t1.WF) (hside : ∀ k, findTree k t1 ≠ none → Side pb false k)
    (ht : Refines t0' (mergeAt g t00 t1)) :
    Correct h g (.branch pb t00 t01) t1
      (rebuildBranch h (h.physEqCheckBranchLeft (.branch pb t00 t01) t00 t01) pb t0'
        (h.onlyLeft t01)) := by
  refine correct_rebuildBranch hs h0 h1 h0.1 ht (hs.onlyLeft t01 h0.2.2.2.2) (fun k hk => ?_)
    (fun k hk => ?_) (hs.branchLeft pb t00 t01) (mergeAt_branch_left hs.absent h0 hside)
  · exact (ne_none_of_merge hs.absent hk).elim h0.side0 (hside k)
  · exact (ne_none_of_merge hs.absent hk).elim h0.side1 (fun hne => absurd rfl hne)

theorem correct_x1 {t00 t01 : Tree α} {t1 : Tree β} (h0 : (Tree.branch pb t00 t01).WF)
    (h1 : t1.WF) (hside : ∀ k, findTree k t1 ≠ none → Side pb true k)
    (ht : Refines t1' (mergeAt g t01 t1)) :
    Correct h g (.branch pb t00 t01) t1
      (rebuildBranch h (h.physEqCheckBranchLeft (.branch pb t00 t01) t00 t01) pb
        (h.onlyLeft t00) t1') := by
  refine correct_rebuildBranch hs h0 h1 h0.1 (hs.onlyLeft t00 h0.2.2.2.1) ht (fun k hk => ?_)
    (fun k hk => ?_) (hs.branchLeft pb t00 t01) (mergeAt_branch_left hs.absent h0 hside)
  · exact (ne_none_of_merge hs.absent hk).elim h0.side0 (fun hne => absurd rfl hne)
  · exact (ne_none_of_merge hs.absent hk).elim h0.side1 (hside k)

variable {t10 t11 : Tree β}

theorem correct_0x {t0 : Tree α} (h0 : t0.WF)
    (h1 : (Tree.branch pb t10 t11).WF) (hside : ∀ k, findTree k t0 ≠ none → Side pb false k)
      (ht : Refines t0' (mergeAt g t0 t10)) :
    Correct h g t0 (.branch pb t10 t11)
      (rebuildBranch h (h.physEqCheckBranchRight (.branch pb t10 t11) t10 t11) pb t0'
        (h.onlyRight t11)) := by
  refine correct_rebuildBranch hs h0 h1 h1.1 ht (hs.onlyRight t11 h1.2.2.2.2) (fun k hk => ?_)
    (fun k hk => ?_) (hs.branchRight pb t10 t11) (mergeAt_branch_right hs.absent h1 hside)
  · exact (ne_none_of_merge hs.absent hk).elim (hside k) h1.side0
  · exact (ne_none_of_merge hs.absent hk).elim (fun hne => absurd rfl hne) h1.side1

theorem correct_1x {t0 : Tree α} (h0 : t0.WF)
    (h1 : (Tree.branch pb t10 t11).WF) (hside : ∀ k, findTree k t0 ≠ none → Side pb true k)
      (ht : Refines t1' (mergeAt g t0 t11)) :
    Correct h g t0 (.branch pb t10 t11)
      (rebuildBranch h (h.physEqCheckBranchRight (.branch pb t10 t11) t10 t11) pb
        (h.onlyRight t10) t1') := by
  refine correct_rebuildBranch hs h0 h1 h1.1 (hs.onlyRight t10 h1.2.2.2.1) ht (fun k hk => ?_)
    (fun k hk => ?_) (hs.branchRight pb t10 t11) (mergeAt_branch_right hs.absent h1 hside)
  · exact (ne_none_of_merge hs.absent hk).elim (fun hne => absurd rfl hne) h1.side0
  · exact (ne_none_of_merge hs.absent hk).elim (hside k) h1.side1

theorem correct_branches {t00 t01 : Tree α}
    (h0 : (Tree.branch pb t00 t01).WF) (h1 : (Tree.branch pb t10 t11).WF)
    (ht0 : Refines t0' (mergeAt g t00 t10)) (ht1 : Refines t1' (mergeAt g t01 t11)) :
    Correct h g (.branch pb t00 t01) (.branch pb t10 t11) (rebuildBranch h
        (fun a b => (h.physEqCheckBranchLeft (.branch pb t00 t01) t00 t01 a b).or
          (h.physEqCheckBranchRight (.branch pb t10 t11) t10 t11 a b)) pb t0' t1') := by
  refine correct_rebuildBranch hs h0 h1 h0.1 ht0 ht1 (fun k hk => ?_) (fun k hk => ?_)
    (fun a b t' heq => ?_) (mergeAt_branch_branch hs.absent h0 h1)
  · exact (ne_none_of_merge hs.absent hk).elim h0.side0 h1.side0
  · exact (ne_none_of_merge hs.absent hk).elim h0.side1 h1.side1
  rcases Option.or_eq_some_iff.1 heq with heq | ⟨-, heq⟩
  · exact hs.branchLeft pb t00 t01 a b t' heq
  · exact hs.branchRight pb t10 t11 a b t' heq

end Recursion

theorem side_of_leaf {pb i : Key} {b : Bool} (h : Side pb b i) (d : α) (k : Key)
    (hk : findTree k (.leaf i d) ≠ none) : Side pb b k := by
  rw [eq_of_ite_ne_none hk]
  exact h

variable {t0 t' : Tree α}

/-- A tree whose branch is included in another one lies on a side of it. -/
theorem side_of_branch {pb0 pb1 : Key} {t1 : Tree α} (hpb0 : pb0 ≠ 0)
    (h : (Tree.branch pb1 t0 t1).WF)
    (hinc : includesPrefix (unpack pb0).1 (unpack pb0).2 (unpack pb1).1 (unpack pb1).2 = true)
    (k : Key) (hk : findTree k (.branch pb1 t0 t1) ≠ none) :
    Side pb0 (!zeroBit (unpack pb1).1 (unpack pb0).2) k := by
  obtain ⟨b, hb⟩ := exists_side hk
  exact side_of_includesPrefix hpb0 h.1 hinc hb

theorem patternMatchPairMerge_correct [LawfulMonad m] (hs : h.Sound g) :
    ∀ (t0 : Tree α) (t1 : Tree β), t0.WF → t1.WF →
      Correct h g t0 t1 (patternMatchPairMerge h t0 t1) := by
  -- every recursive call is on smaller trees
  suffices hsize : ∀ n t0 t1, t0.size + t1.size = n → t0.WF → t1.WF →
      Correct h g t0 t1 (patternMatchPairMerge h t0 t1) from
    fun t0 t1 => hsize _ t0 t1 rfl
  intro n
  induction n using Nat.strongRecOn with
  | ind n ih =>
  intro t0 t1 hn h0 h1
  have ih' : ∀ (a : Tree α) (b : Tree β), a.size + b.size < n → a.WF → b.WF →
      Correct h g a b (patternMatchPairMerge h a b) :=
    fun a b hlt => ih _ hlt a b rfl
  rw [patternMatchPairMerge.eq_def]
  cases hsc : h.physEqShortcut t0 t1 with
  | some r => exact .pure (hs.shortcut t0 t1 r h0 h1 hsc)
  | none =>
  match t0, t1 with
  | .leaf i0 d0, .leaf i1 d1 =>
    dsimp only
    split
    case isTrue heq => subst heq; exact correct_combineLeaves hs i0 d0 d1
    case isFalse hne => exact correct_joinDescr hs h0 h1 (apart_leaf_leaf hne d0 d1)
  | .leaf i d, .branch pb t10 t11 =>
    simp only [size] at hn
    dsimp only
    split
    case isTrue hmatch =>
      split
      case isTrue hz =>
        exact (ih' _ t10 (by simp only [size]; lia) h0 h1.2.2.2.1).map_bind fun r hr =>
          correct_0x hs h0 h1 (side_of_leaf (side_false hmatch hz) d) hr
      case isFalse hz =>
        exact (ih' _ t11 (by simp only [size]; lia) h0 h1.2.2.2.2).map_bind fun r hr =>
          correct_1x hs h0 h1 (side_of_leaf (side_true hmatch hz) d) hr
    case isFalse hmatch => exact correct_joinDescr hs h0 h1 (apart_leaf_branch h1 hmatch d)
  | .branch pb t00 t01, .leaf i d =>
    simp only [size] at hn
    dsimp only
    split
    case isTrue hmatch =>
      split
      case isTrue hz =>
        exact (ih' t00 _ (by simp only [size]; lia) h0.2.2.2.1 h1).map_bind fun r hr =>
          correct_x0 hs h0 h1 (side_of_leaf (side_false hmatch hz) d) hr
      case isFalse hz =>
        exact (ih' t01 _ (by simp only [size]; lia) h0.2.2.2.2 h1).map_bind fun r hr =>
          correct_x1 hs h0 h1 (side_of_leaf (side_true hmatch hz) d) hr
    case isFalse hmatch => exact correct_joinDescr hs h0 h1 (apart_leaf_branch h0 hmatch d).symm
  | .branch pb0 t00 t01, .branch pb1 t10 t11 =>
    simp only [size] at hn
    dsimp only
    split
    case isTrue heq =>
      subst heq
      exact (ih' t00 t10 (by lia) h0.2.2.2.1 h1.2.2.2.1).map_bind fun r hr =>
        (ih' t01 t11 (by lia) h0.2.2.2.2 h1.2.2.2.2).map_bind fun r' hr' =>
          correct_branches hs h0 h1 hr hr'
    case isFalse hne =>
    split
    case isTrue hinc =>
      have hside := side_of_branch h0.1 h1 hinc
      split
      case isTrue hz =>
        rw [hz] at hside
        exact (ih' t00 _ (by simp only [size]; lia) h0.2.2.2.1 h1).map_bind fun r hr =>
          correct_x0 hs h0 h1 hside hr
      case isFalse hz =>
        rw [Bool.eq_false_iff.2 hz] at hside
        exact (ih' t01 _ (by simp only [size]; lia) h0.2.2.2.2 h1).map_bind fun r hr =>
          correct_x1 hs h0 h1 hside hr
    case isFalse hinc0 =>
    split
    case isTrue hinc =>
      have hside := side_of_branch h1.1 h0 hinc
      split
      case isTrue hz =>
        rw [hz] at hside
        exact (ih' _ t10 (by simp only [size]; lia) h0 h1.2.2.2.1).map_bind fun r hr =>
          correct_0x hs h0 h1 hside hr
      case isFalse hz =>
        rw [Bool.eq_false_iff.2 hz] at hside
        exact (ih' _ t11 (by simp only [size]; lia) h0 h1.2.2.2.2).map_bind fun r hr =>
          correct_1x hs h0 h1 hside hr
    case isFalse hinc1 =>
      exact correct_joinDescr hs h0 h1 (apart_of_not_includesPrefix h0.1 h1.1 hne hinc0 hinc1
        (fun _ => exists_side) fun _ => exists_side)

/-! ## §6 Unions, differences, `merge` and `update_many` -/

/-- The union of two finite maps, at one key. -/
def unionAt (f : Key → α → α → Option α) (k : Key) : Option α → Option α → Option α
  | some x, some y => f k x y
  | some x, none => some x
  | none, y => y

/-- The difference of two finite maps, at one key. -/
def diffAt (f : Key → α → β → Option α) (k : Key) : Option α → Option β → Option α
  | some x, some y => f k x y
  | some x, none => some x
  | none, _ => none

def mergeFun (f : Key → Option α → Option β → Option γ) (k : Key) : Option α → Option β → Option γ
  | none, none => none
  | x, y => f k x y

def updateManyAt (f : Key → Option α → β → Option α) (k : Key) : Option α → Option β → Option α
  | x, some y => f k x y
  | x, none => x

section Sound

variable {g : Key → Option α → Option β → Option γ} {onlyLeft : Tree α → T γ}
  {onlyRight : Tree β → T γ} {combine : Key → α → β → Option γ} (habs : ∀ k, g k none none = none)
  (hcombine : ∀ k x y, combine k x y = g k (some x) (some y))
  (hleft : ∀ t : Tree α, t.WF → Refines (onlyLeft t) fun k => g k (findTree k t) none)
  (hright : ∀ t : Tree β, t.WF → Refines (onlyRight t) fun k => g k none (findTree k t))
include habs hcombine hleft hright

theorem pairMerge_sound : (pairMerge onlyLeft onlyRight combine).Sound g where
  absent := habs
  combine := hcombine
  onlyLeft := hleft
  onlyRight := hright
  descr := fun _ => rfl
  empty := fun _ _ _ _ _ => .pure rfl
  shortcut := fun _ _ _ _ _ h => by cases h
  branchLeft := fun _ _ _ _ _ _ h => by cases h
  branchRight := fun _ _ _ _ _ _ h => by cases h
  leafLeft := fun _ _ _ _ h => by cases h
  leafRight := fun _ _ _ _ h => by cases h

/-- Where `g` keeps every key of the left tree, `assert false` is not
reached. -/
theorem pairMergeTotal_sound (htotal : ∀ k x y, g k (some x) y ≠ none) :
    (pairMergeTotal onlyLeft onlyRight combine).Sound g where
  absent := habs
  combine := hcombine
  onlyLeft := hleft
  onlyRight := hright
  descr := fun _ => rfl
  empty := fun t0 t1 h0 _ hnone => by
    obtain ⟨k, hk⟩ := h0.exists_find
    obtain ⟨x, hx⟩ := Option.ne_none_iff_exists'.1 hk
    exact absurd (hx ▸ hnone k) (htotal k x _)
  shortcut := fun _ _ _ _ _ h => by cases h
  branchLeft := fun _ _ _ _ _ _ h => by cases h
  branchRight := fun _ _ _ _ _ _ h => by cases h
  leafLeft := fun _ _ _ _ h => by cases h
  leafRight := fun _ _ _ _ h => by cases h

end Sound

section PhysEq

variable (peq : PhysEq α)

theorem physEqCheckBranch_sound {pb : Key} {o0 o1 t1 : Tree α}
    (h : physEqCheckBranch peq (.branch pb o0 o1) o0 o1 t0 t1 = some t') :
    t' = .branch pb t0 t1 := by
  simp only [physEqCheckBranch] at h
  split at h
  · cases h
  rename_i hcond
  simp only [Bool.or_eq_true, Bool.not_eq_true', not_or, Bool.not_eq_false] at hcond
  rw [peq.tree_sound _ _ hcond.1, peq.tree_sound _ _ hcond.2]
  exact (Option.some.inj h).symm

theorem physEqCheckLeaf_sound {i : Key} {d0 d : α}
    (h : physEqCheckLeaf peq (.leaf i d0) d0 d = some t') : t' = .leaf i d := by
  simp only [physEqCheckLeaf] at h
  split at h
  · cases h
  rename_i hcond
  simp only [Bool.not_eq_true', Bool.not_eq_false] at hcond
  rw [peq.datum_sound _ _ hcond]
  exact (Option.some.inj h).symm

theorem Merge.Sound.sharingLeft {h : Merge m α β α ρ} {g : Key → Option α → Option β → Option α}
    (hs : h.Sound g) : (sharingLeft peq h).Sound g :=
  { hs with
    branchLeft := fun _ _ _ _ _ _ => physEqCheckBranch_sound peq
    leafLeft := fun _ _ _ _ => physEqCheckLeaf_sound peq }

theorem Merge.Sound.sharingRight {h : Merge m β α α ρ} {g : Key → Option β → Option α → Option α}
    (hs : h.Sound g) : (sharingRight peq h).Sound g :=
  { hs with
    branchRight := fun _ _ _ _ _ _ => physEqCheckBranch_sound peq
    leafRight := fun _ _ _ _ => physEqCheckLeaf_sound peq }

theorem Merge.Sound.withShortcut (hs : h.Sound g) {shortcut : Tree α → Tree β → Option ρ}
    (hshortcut : ∀ t0 t1 r, t0.WF → t1.WF → shortcut t0 t1 = some r →
      Refines (h.descr r) fun k => g k (findTree k t0) (findTree k t1)) :
    (withShortcut shortcut h).Sound g :=
  { hs with shortcut := hshortcut }

end PhysEq

/-- A shortcut that `if !peq.tree t0 t1` guards runs on equal trees. -/
theorem eq_of_shortcut {peq : PhysEq α} {t1 : Tree α} {x r : ρ}
    (h : (if !peq.tree t0 t1 then none else some x) = some r) : t0 = t1 ∧ x = r := by
  split at h
  · cases h
  rename_i hcond
  simp only [Bool.not_eq_true', Bool.not_eq_false] at hcond
  exact ⟨peq.tree_sound _ _ hcond, Option.some.inj h⟩

theorem merge_refines {h : Merge Id α β γ (T γ)}
    (hs : h.Sound g) (hdescr : h.descr = id) {t1 : Tree β} (h0 : t0.WF)
    (h1 : t1.WF) :
    Refines (patternMatchPairMerge (m := Id) h t0 t1)
      fun k => g k (findTree k t0) (findTree k t1) := by
  have hcorrect := (patternMatchPairMerge_correct hs t0 t1 h0 h1).id
  rwa [hdescr] at hcorrect

theorem mergeTotal_refines {h : Merge Option α β γ (Tree γ)} (hs : h.Sound g)
    (hdescr : h.descr = .tree) {t1 : Tree β} (h0 : t0.WF) (h1 : t1.WF) :
    ∃ t, patternMatchPairMerge h t0 t1 = some t ∧
      Refines (.tree t) fun k => g k (findTree k t0) (findTree k t1) := by
  obtain ⟨t, heq, ht⟩ := patternMatchPairMerge_correct hs t0 t1 h0 h1
  rw [hdescr] at ht
  exact ⟨t, heq, ht⟩

section Union

variable {f : Key → α → α → Option α}

theorem unionMerge_sound (f : Key → α → α → Option α) : (unionMerge f).Sound (unionAt f) := by
  refine pairMerge_sound (fun _ => rfl) (fun _ _ _ => rfl) (fun t ht => ?_) fun t ht => ht.refines
  refine ht.refines.congr fun k => ?_
  cases findTree k t <;> rfl

variable {t0 t1 : T α}

theorem toplevelUnion_refines {u : Tree α → Tree α → T α} (hu : ∀ t0 t1, t0.WF → t1.WF →
      Refines (u t0 t1) fun k => unionAt f k (findTree k t0) (findTree k t1)) (h0 : t0.WF)
        (h1 : t1.WF) :
    Refines (toplevelUnion u t0 t1) fun k => unionAt f k (findOpt k t0) (findOpt k t1) := by
  match t0, t1 with
  | .empty, t1 => exact ⟨h1, fun k => rfl⟩
  | .tree t0, .empty =>
    have ht0 : t0.WF := h0
    refine ht0.refines.congr fun k => ?_
    show findTree k t0 = unionAt f k (findTree k t0) none
    cases findTree k t0 <;> rfl
  | .tree t0, .tree t1 => exact hu t0 t1 h0 h1

theorem union_refines (f : Key → α → α → Option α) (h0 : t0.WF) (h1 : t1.WF) :
    Refines (union f t0 t1) fun k => unionAt f k (findOpt k t0) (findOpt k t1) :=
  toplevelUnion_refines (fun _ _ => merge_refines (unionMerge_sound f) rfl) h0 h1

theorem unionSharing_refines (peq : PhysEq α) (f : Key → α → α → Option α)
    (h0 : t0.WF) (h1 : t1.WF) :
    Refines (unionSharing peq f t0 t1) fun k => unionAt f k (findOpt k t0) (findOpt k t1) :=
  toplevelUnion_refines (fun _ _ => merge_refines
    (((unionMerge_sound f).sharingLeft peq).sharingRight peq) rfl) h0 h1

theorem unionAt_self (hf : ∀ k x, f k x x = some x) (k : Key) (x : Option α) :
    unionAt f k x x = x := by
  cases x with
  | none => rfl
  | some x => exact hf k x

theorem unionShared_refines (peq : PhysEq α) (hf : ∀ k x, f k x x = some x)
    (h0 : t0.WF) (h1 : t1.WF) :
    Refines (unionShared peq f t0 t1) fun k => unionAt f k (findOpt k t0) (findOpt k t1) := by
  refine toplevelUnion_refines (fun _ _ => merge_refines
    ((((unionMerge_sound f).sharingLeft peq).sharingRight peq).withShortcut ?_) rfl) h0 h1
  intro t0 t1 r ht0 _ heq
  obtain ⟨rfl, rfl⟩ := eq_of_shortcut heq
  exact ht0.refines.congr fun k => (unionAt_self hf k _).symm

/-- The union of total functions. -/
def unionTotalAt (f : Key → α → α → α) (k : Key) : Option α → Option α → Option α :=
  unionAt (fun k x y => some (f k x y)) k

theorem unionTotalMerge_sound (f : Key → α → α → α) :
    (unionTotalMerge f).Sound (unionTotalAt f) := by
  refine pairMergeTotal_sound (fun _ => rfl) (fun _ _ _ => rfl) (fun t ht => ?_)
    (fun t ht => ht.refines) fun k x y => ?_
  · refine ht.refines.congr fun k => ?_; cases findTree k t <;> rfl
  · cases y <;> exact Option.some_ne_none _

variable {f : Key → α → α → α}

theorem toplevelUnionTotal_refines {u : Tree α → Tree α → Option (Tree α)}
    (hu : ∀ t0 t1, t0.WF → t1.WF → ∃ t, u t0 t1 = some t ∧
      Refines (.tree t) fun k => unionTotalAt f k (findTree k t0) (findTree k t1)) (h0 : t0.WF)
        (h1 : t1.WF) :
    ∃ t, toplevelUnionTotal u t0 t1 = some t ∧
      Refines t fun k => unionTotalAt f k (findOpt k t0) (findOpt k t1) := by
  match t0, t1 with
  | .empty, t1 => exact ⟨t1, rfl, h1, fun k => rfl⟩
  | .tree t0, .empty =>
    refine ⟨.tree t0, rfl, h0, fun k => ?_⟩
    simp only [findOpt]
    cases findTree k t0 <;> rfl
  | .tree t0, .tree t1 =>
    obtain ⟨t, heq, ht⟩ := hu t0 t1 h0 h1
    exact ⟨.tree t, by simp only [toplevelUnionTotal, heq]; rfl, ht⟩

theorem unionTotal_refines (f : Key → α → α → α) (h0 : t0.WF) (h1 : t1.WF) :
    ∃ t, unionTotal f t0 t1 = some t ∧
      Refines t fun k => unionTotalAt f k (findOpt k t0) (findOpt k t1) :=
  toplevelUnionTotal_refines (fun _ _ => mergeTotal_refines (unionTotalMerge_sound f) rfl) h0 h1

theorem unionTotalShared_refines (peq : PhysEq α)
    (hf : ∀ k x, f k x x = x) (h0 : t0.WF) (h1 : t1.WF) :
    ∃ t, unionTotalShared peq f t0 t1 = some t ∧
      Refines t fun k => unionTotalAt f k (findOpt k t0) (findOpt k t1) := by
  refine toplevelUnionTotal_refines (fun _ _ => mergeTotal_refines
    ((((unionTotalMerge_sound f).sharingLeft peq).sharingRight peq).withShortcut ?_) rfl) h0 h1
  intro t0 t1 r ht0 _ heq
  obtain ⟨rfl, rfl⟩ := eq_of_shortcut heq
  refine ht0.refines.congr fun k => (unionAt_self (f := fun k x y => some (f k x y)) ?_ k _).symm
  exact fun k x => congrArg some (hf k x)

theorem unionLeftBiased_refines (peq : PhysEq α) (h0 : t0.WF) (h1 : t1.WF) :
    ∃ t, unionLeftBiased peq t0 t1 = some t ∧
      Refines t fun k => (findOpt k t0).or (findOpt k t1) := by
  obtain ⟨t, heq, ht⟩ := unionTotalShared_refines peq (f := fun _ x _ => x) (fun _ _ => rfl) h0 h1
  refine ⟨t, heq, ht.congr fun k => ?_⟩
  cases findOpt k t0 <;> cases findOpt k t1 <;> rfl

theorem unionRightBiased_refines (peq : PhysEq α) (h0 : t0.WF) (h1 : t1.WF) :
    ∃ t, unionRightBiased peq t0 t1 = some t ∧
      Refines t fun k => (findOpt k t1).or (findOpt k t0) := by
  obtain ⟨t, heq, ht⟩ := unionTotalShared_refines peq (f := fun _ _ y => y) (fun _ _ => rfl) h0 h1
  refine ⟨t, heq, ht.congr fun k => ?_⟩
  cases findOpt k t0 <;> cases findOpt k t1 <;> rfl

end Union

section Diff

theorem diffMerge_sound (f : Key → α → β → Option α) : (diffMerge f).Sound (diffAt f) := by
  refine pairMerge_sound (fun _ => rfl) (fun _ _ _ => rfl) (fun t ht => ?_) fun t _ => refines_empty
  refine ht.refines.congr fun k => ?_
  cases findTree k t <;> rfl

theorem toplevelDiff_refines {f : Key → α → β → Option α} {d : Tree α → Tree β → T α}
    (hd : ∀ t0 t1, t0.WF → t1.WF →
      Refines (d t0 t1) fun k => diffAt f k (findTree k t0) (findTree k t1))
    {t0 : T α} {t1 : T β} (h0 : t0.WF) (h1 : t1.WF) :
    Refines (toplevelDiff d t0 t1) fun k => diffAt f k (findOpt k t0) (findOpt k t1) := by
  match t0, t1 with
  | .empty, t1 => exact refines_empty
  | .tree t0, .empty =>
    have ht0 : t0.WF := h0
    refine ht0.refines.congr fun k => ?_
    show findTree k t0 = diffAt f k (findTree k t0) none
    cases findTree k t0 <;> rfl
  | .tree t0, .tree t1 => exact hd t0 t1 h0 h1

theorem diff_refines (f : Key → α → β → Option α) {t0 : T α} {t1 : T β} (h0 : t0.WF)
    (h1 : t1.WF) : Refines (diff f t0 t1) fun k => diffAt f k (findOpt k t0) (findOpt k t1) :=
  toplevelDiff_refines (fun _ _ => merge_refines (diffMerge_sound f) rfl) h0 h1

theorem diffSharing_refines (peq : PhysEq α) (f : Key → α → β → Option α) {t0 : T α} {t1 : T β}
    (h0 : t0.WF) (h1 : t1.WF) :
    Refines (diffSharing peq f t0 t1) fun k => diffAt f k (findOpt k t0) (findOpt k t1) :=
  toplevelDiff_refines (fun _ _ => merge_refines ((diffMerge_sound f).sharingLeft peq) rfl) h0 h1

theorem diffShared_refines (peq : PhysEq α) {f : Key → α → α → Option α}
    (hf : ∀ k x, f k x x = none) {t0 t1 : T α} (h0 : t0.WF) (h1 : t1.WF) :
    Refines (diffShared peq f t0 t1) fun k => diffAt f k (findOpt k t0) (findOpt k t1) := by
  refine toplevelDiff_refines (fun _ _ => merge_refines
    (((diffMerge_sound f).sharingLeft peq).withShortcut ?_) rfl) h0 h1
  intro t0 t1 r _ _ heq
  obtain ⟨rfl, rfl⟩ := eq_of_shortcut heq
  refine refines_empty.congr fun k => ?_
  cases hfind : findTree k t0 with
  | none => rfl
  | some x => exact (hf k x).symm

end Diff

/-! ## §7 One pass over a tree -/

theorem refines_leafOrEmpty (i : Key) (x : Option α) :
    Refines (leafOrEmpty i x) fun k => if i = k then x else none := by
  cases x with
  | none => exact refines_empty.congr fun k => by simp
  | some d => exact refines_leaf i d

theorem filterMapTree_refines (f : Key → α → Option β) {t : Tree α} (h : t.WF) :
    Refines (filterMapTree f t) fun k => (findTree k t).bind (f k) := by
  induction t with
  | leaf i d =>
    refine (refines_leafOrEmpty i (f i d)).congr fun k => ?_
    by_cases hk : i = k
    · subst hk; simp [findTree]
    · simp [findTree, hk]
  | branch pb t0 t1 ih0 ih1 =>
    refine (refines_branch h.1 (ih0 h.2.2.2.1) (ih1 h.2.2.2.2) (fun k hk => ?_)
      fun k hk => ?_).congr fun k => ?_
    · exact h.side0 fun hnone => hk (by rw [hnone]; rfl)
    · exact h.side1 fun hnone => hk (by rw [hnone]; rfl)
    rw [h.find_branch]
    cases hfind : findTree k t0 with
    | none => rfl
    | some x =>
      have hside := h.side0 (k := k) (by simp [hfind])
      have hnone : findTree k t1 = none := by_contra fun hk => (h.side1 hk).false_of_true hside
      simp [hnone]

variable {t : T α}

theorem filterMap_refines (f : Key → α → Option β) (h : t.WF) :
    Refines (filterMap f t) fun k => (findOpt k t).bind (f k) := by
  cases t with
  | empty => exact refines_empty
  | tree t => exact filterMapTree_refines f h

section

variable (p : Key → α → Bool)

theorem filterTree_eq (t : Tree α) :
    filterTree p t = filterMapTree (fun k d => if p k d then some d else none) t := by
  induction t with
  | leaf i d => simp only [filterTree, filterMapTree]; split <;> rfl
  | branch pb t0 t1 ih0 ih1 => simp only [filterTree, filterMapTree, ih0, ih1]

theorem filter_refines (h : t.WF) :
    Refines (filter p t) fun k => (findOpt k t).filter (p k) := by
  cases t with
  | empty => exact refines_empty
  | tree t =>
    rw [filter, filterTree_eq]
    refine (filterMapTree_refines _ h).congr fun k => ?_
    rw [findOpt]
    cases findTree k t <;> rfl

theorem partitionTree_eq (t : Tree α) :
    partitionTree p t = (filterTree p t, filterTree (fun k d => !p k d) t) := by
  induction t with
  | leaf i d =>
    simp only [partitionTree, filterTree]
    by_cases h : p i d = true <;> simp [h]
  | branch pb t0 t1 ih0 ih1 => simp only [partitionTree, filterTree, ih0, ih1]

theorem partition_eq (t : T α) :
    partition p t = (filter p t, filter (fun k d => !p k d) t) := by
  cases t with
  | empty => rfl
  | tree t => exact partitionTree_eq p t

end

theorem tree_mapTree (f : α → β) (t : Tree α) :
    .tree (mapTree f t) = filterMapTree (fun _ d => some (f d)) t := by
  induction t with
  | leaf i d => rfl
  | branch pb t0 t1 ih0 ih1 => rw [filterMapTree, ← ih0, ← ih1]; rfl

theorem map_refines (f : α → β) (h : t.WF) : Refines (map f t) fun k => (findOpt k t).map f := by
  cases t with
  | empty => exact refines_empty
  | tree t =>
    rw [map, tree_mapTree]
    refine (filterMapTree_refines _ h).congr fun k => ?_
    rw [findOpt]
    cases findTree k t <;> rfl

section Sharing

variable (peq : PhysEq α)

theorem eq_of_physEq_ofTree (h : peq.ofTree t t' = true) : t = .tree t' := by
  cases t with
  | empty => cases h
  | tree t => rw [peq.tree_sound t t' h]

/-- Sharing changes no result. -/
theorem mapSharingTree_eq (f : α → α) (t : Tree α) : mapSharingTree peq f t = mapTree f t := by
  induction t with
  | leaf i d =>
    simp only [mapSharingTree, mapTree]
    split
    case isTrue heq => rw [← peq.datum_sound _ _ heq]
    case isFalse => rfl
  | branch pb t0 t1 ih0 ih1 =>
    simp only [mapSharingTree, mapTree, ih0, ih1]
    split
    case isTrue heq =>
      rw [Bool.and_eq_true] at heq
      rw [peq.tree_sound _ _ heq.1, peq.tree_sound _ _ heq.2]
    case isFalse => rfl

theorem mapSharing_eq (f : α → α) (t : T α) : mapSharing peq f t = map f t := by
  cases t with
  | empty => rfl
  | tree t => rw [mapSharing, mapSharingTree_eq, map]

theorem filterMapSharingTree_eq (f : Key → α → Option α) (t : Tree α) :
    filterMapSharingTree peq f t = filterMapTree f t := by
  induction t with
  | leaf i d =>
    simp only [filterMapSharingTree, filterMapTree]
    cases hf : f i d with
    | none => rfl
    | some d' =>
      dsimp only
      split
      case isTrue heq => rw [peq.datum_sound _ _ heq]; rfl
      case isFalse => rfl
  | branch pb t0 t1 ih0 ih1 =>
    simp only [filterMapSharingTree, filterMapTree, ih0, ih1]
    split
    case isTrue heq =>
      rw [Bool.and_eq_true] at heq
      rw [eq_of_physEq_ofTree peq heq.1, eq_of_physEq_ofTree peq heq.2]
      rfl
    case isFalse => rfl

theorem filterMapSharing_eq (f : Key → α → Option α) (t : T α) :
    filterMapSharing peq f t = filterMap f t := by
  cases t with
  | empty => rfl
  | tree t => exact filterMapSharingTree_eq peq f t

end Sharing

variable {t1 : T β}

theorem merge_refines_mergeFun (f : Key → Option α → Option β → Option γ) {t0 : T α}
    (h0 : t0.WF) (h1 : t1.WF) :
    Refines (merge f t0 t1) fun k => mergeFun f k (findOpt k t0) (findOpt k t1) := by
  have hleft : ∀ t : Tree α,
    t.WF → Refines (mergeLeft f t) fun k => mergeFun f k (findTree k t) none := by
    intro t ht
    refine (filterMapTree_refines _ ht).congr fun k => ?_
    cases findTree k t <;> rfl
  have hright : ∀ t : Tree β, t.WF →
      Refines (mergeRight f t) fun k => mergeFun f k none (findTree k t) := by
    intro t ht
    refine (filterMapTree_refines _ ht).congr fun k => ?_
    cases findTree k t <;> rfl
  match t0, t1 with
  | .empty, .empty => exact refines_empty
  | .empty, .tree t1 => exact hright t1 h1
  | .tree t0, .empty => exact hleft t0 h0
  | .tree t0, .tree t1 =>
    exact merge_refines (pairMerge_sound (fun _ => rfl) (fun _ _ _ => rfl) hleft hright) rfl h0 h1

theorem updateMany_refines (f : Key → Option α → β → Option α) {t0 : T α}
    (h0 : t0.WF) (h1 : t1.WF) :
    Refines (updateMany f t0 t1) fun k => updateManyAt f k (findOpt k t0) (findOpt k t1) := by
  have hright : ∀ t : Tree β, t.WF →
      Refines (updateManyRight f t) fun k => updateManyAt f k none (findTree k t) := by
    intro t ht
    refine (filterMapTree_refines _ ht).congr fun k => ?_
    cases findTree k t <;> rfl
  match t0, t1 with
  | .empty, .empty => exact refines_empty
  | .tree t0, .empty => exact ⟨h0, fun k => rfl⟩
  | .empty, .tree t1 => exact hright t1 h1
  | .tree t0, .tree t1 =>
    exact merge_refines (g := updateManyAt f) (pairMerge_sound (fun _ => rfl) (fun _ _ _ => rfl)
      (fun t ht => ht.refines) hright) rfl h0 h1

/-! ## §8 Two trees without a merge -/

theorem memTree_eq (i : Key) (t : Tree α) : memTree i t = (findTree i t).isSome := by
  induction t with
  | leaf j d =>
    by_cases h : j = i
    · simp [memTree, findTree, h]
    · simp [memTree, findTree, h]
  | branch pb t0 t1 ih0 ih1 =>
    simp only [memTree, findTree]
    split
    · rfl
    split
    · exact ih0
    · exact ih1

/-- The intersection of two finite maps, at one key. -/
def interAt (f : Key → α → β → γ) (k : Key) : Option α → Option β → Option γ
  | some x, some y => some (f k x y)
  | _, _ => none

theorem interAt_none_left (f : Key → α → β → γ) (k : Key) (y : Option β) :
    interAt f k none y = none := rfl

theorem interAt_none_right (f : Key → α → β → γ) (k : Key) (x : Option α) :
    interAt f k x none = none := by
  cases x <;> rfl

/-- One key of the left tree against the whole right tree. -/
theorem mergeAt_leaf_left
    (hnone : ∀ k y, g k none y = none) (i : Key) (d : α) (t1 : Tree β) (k : Key) :
    mergeAt g (.leaf i d) t1 k = if i = k then g i (some d) (findTree i t1) else none := by
  by_cases hk : i = k
  · subst hk; simp [mergeAt, findTree]
  · simp [mergeAt, findTree, hk, hnone]

theorem interTree_refines (f : Key → α → β → γ) : ∀ (t0 : Tree α) (t1 : Tree β), t0.WF → t1.WF →
    Refines (interTree f t0 t1) (mergeAt (interAt f) t0 t1) := by
  have habs : ∀ k, interAt f k none none = none := fun _ => rfl
  suffices hsize : ∀ n (t0 : Tree α) (t1 : Tree β), t0.size + t1.size = n → t0.WF → t1.WF →
      Refines (interTree f t0 t1) (mergeAt (interAt f) t0 t1) from
    fun t0 t1 => hsize _ t0 t1 rfl
  intro n
  induction n using Nat.strongRecOn with
  | ind n ih =>
  intro t0 t1 hn h0 h1
  rw [interTree.eq_def]
  match t0, t1 with
  | .leaf i d0, t1 =>
    have hat := mergeAt_leaf_left (interAt_none_left f) i d0 t1
    dsimp only
    cases hfind : findTree i t1 with
    | none => exact refines_empty.congr fun k => by simp [hat, hfind, interAt]
    | some d1 => exact (refines_leaf i (f i d0 d1)).congr fun k => by simp [hat, hfind, interAt]
  | .branch pb0 t00 t01, .leaf i d1 =>
    -- the same with the sides exchanged
    have hat : ∀ k, mergeAt (interAt f) (.branch pb0 t00 t01) (.leaf i d1) k =
        if i = k then interAt f i (findTree i (.branch pb0 t00 t01)) (some d1) else none :=
      mergeAt_leaf_left (g := fun k y x => interAt f k x y) (interAt_none_right f) i d1 _
    dsimp only
    cases hfind : findTree i (.branch pb0 t00 t01) with
    | none => exact refines_empty.congr fun k => by simp [hat, hfind, interAt]
    | some d0 => exact (refines_leaf i (f i d0 d1)).congr fun k => by simp [hat, hfind, interAt]
  | .branch pb0 t00 t01, .branch pb1 t10 t11 =>
    simp only [size] at hn
    dsimp only
    split
    case isTrue heq =>
      subst heq
      have ih0 := ih _ (by omega) t00 t10 rfl h0.2.2.2.1 h1.2.2.2.1
      have ih1 := ih _ (by omega) t01 t11 rfl h0.2.2.2.2 h1.2.2.2.2
      refine (refines_branch h0.1 ih0 ih1 (fun k hk => ?_) fun k hk => ?_).congr
        fun k => (mergeAt_branch_branch habs h0 h1 k).symm
      · exact (ne_none_of_merge habs hk).elim h0.side0 h1.side0
      · exact (ne_none_of_merge habs hk).elim h0.side1 h1.side1
    case isFalse hne =>
    split
    case isTrue hinc =>
      have hside := side_of_branch h0.1 h1 hinc
      split
      case isTrue hz =>
        rw [hz] at hside
        refine (ih _ (by simp only [size]; omega) t00 _ rfl h0.2.2.2.1 h1).congr fun k => ?_
        simp [mergeAt_branch_left habs h0 hside, interAt_none_right]
      case isFalse hz =>
        rw [Bool.eq_false_iff.2 hz] at hside
        refine (ih _ (by simp only [size]; omega) t01 _ rfl h0.2.2.2.2 h1).congr fun k => ?_
        simp [mergeAt_branch_left habs h0 hside, interAt_none_right]
    case isFalse hinc0 =>
    split
    case isTrue hinc =>
      have hside := side_of_branch h1.1 h0 hinc
      split
      case isTrue hz =>
        rw [hz] at hside
        refine (ih _ (by simp only [size]; omega) _ t10 rfl h0 h1.2.2.2.1).congr fun k => ?_
        simp [mergeAt_branch_right habs h1 hside, interAt_none_left]
      case isFalse hz =>
        rw [Bool.eq_false_iff.2 hz] at hside
        refine (ih _ (by simp only [size]; omega) _ t11 rfl h0 h1.2.2.2.2).congr fun k => ?_
        simp [mergeAt_branch_right habs h1 hside, interAt_none_left]
    case isFalse hinc1 =>
      have hap := apart_of_not_includesPrefix h0.1 h1.1 hne hinc0 hinc1
        (fun k (hk : findTree k (.branch _ t00 t01) ≠ none) => exists_side hk)
        fun k (hk : findTree k (.branch _ t10 t11) ≠ none) => exists_side hk
      refine refines_empty.congr fun k => ?_
      rcases hap.disjoint k with hk | hk
      · rw [mergeAt, hk, interAt_none_left]
      · rw [mergeAt, hk, interAt_none_right]

theorem inter_refines (f : Key → α → β → γ) {t0 : T α} (h0 : t0.WF) (h1 : t1.WF) :
    Refines (inter f t0 t1) fun k => interAt f k (findOpt k t0) (findOpt k t1) := by
  match t0, t1 with
  | .empty, t1 => exact refines_empty
  | .tree t0, .empty => exact refines_empty.congr fun k => (interAt_none_right f k _).symm
  | .tree t0, .tree t1 => exact interTree_refines f t0 t1 h0 h1

/-- The difference that drops every common key. -/
def diffDomainsAt (x : Option α) (y : Option β) : Option α := if y.isSome then none else x

theorem diffDomainsAt_none_right (x : Option α) : diffDomainsAt x (none : Option β) = x := rfl

theorem diffDomainsAt_none_left (y : Option β) : diffDomainsAt (none : Option α) y = none :=
  ite_self _

theorem diffDomainsTree_refines : ∀ (t0 : Tree α) (t1 : Tree β), t0.WF → t1.WF →
    Refines (diffDomainsTree t0 t1) (mergeAt (fun _ => diffDomainsAt) t0 t1) := by
  have habs : ∀ _ : Key, diffDomainsAt (none : Option α) (none : Option β) = none := fun _ => rfl
  suffices hsize : ∀ n (t0 : Tree α) (t1 : Tree β), t0.size + t1.size = n → t0.WF → t1.WF →
      Refines (diffDomainsTree t0 t1) (mergeAt (fun _ => diffDomainsAt) t0 t1) from
    fun t0 t1 => hsize _ t0 t1 rfl
  intro n
  induction n using Nat.strongRecOn with
  | ind n ih =>
  intro t0 t1 hn h0 h1
  rw [diffDomainsTree.eq_def]
  match t0, t1 with
  | .leaf i d0, t1 =>
    have hat := mergeAt_leaf_left (fun _ : Key => diffDomainsAt_none_left (α := α)) i d0 t1
    dsimp only
    rw [memTree_eq]
    split
    case isTrue hmem => exact refines_empty.congr fun k => by simp [hat, diffDomainsAt, hmem]
    case isFalse hmem =>
      exact (refines_leaf i d0).congr fun k => by simp [hat, diffDomainsAt, hmem]
  | .branch pb0 t00 t01, .leaf i d1 =>
    dsimp only
    rw [removeTree_eq_updateTree]
    refine (updateTree_refines i (fun _ => none) h0).congr fun k => ?_
    by_cases hk : k = i
    · simp [mergeAt, diffDomainsAt, findTree, hk]
    · simp [mergeAt, diffDomainsAt, hk, find_leaf_of_ne hk]
  | .branch pb0 t00 t01, .branch pb1 t10 t11 =>
    simp only [size] at hn
    dsimp only
    split
    case isTrue heq =>
      subst heq
      have ih0 := ih _ (by omega) t00 t10 rfl h0.2.2.2.1 h1.2.2.2.1
      have ih1 := ih _ (by omega) t01 t11 rfl h0.2.2.2.2 h1.2.2.2.2
      refine (refines_branch h0.1 ih0 ih1 (fun k hk => ?_) fun k hk => ?_).congr
        fun k => (mergeAt_branch_branch habs h0 h1 k).symm
      · exact (ne_none_of_merge (k := k) habs hk).elim h0.side0 h1.side0
      · exact (ne_none_of_merge (k := k) habs hk).elim h0.side1 h1.side1
    case isFalse hne =>
    split
    case isTrue hinc =>
      have hside := side_of_branch h0.1 h1 hinc
      split
      case isTrue hz =>
        rw [hz] at hside
        have ih0 := ih _ (by simp only [size]; omega) t00 _ rfl h0.2.2.2.1 h1
        refine (refines_branch h0.1 ih0 h0.2.2.2.2.refines (fun k hk => ?_)
          fun _ => h0.side1).congr fun k => (mergeAt_branch_left habs h0 hside k).symm
        exact (ne_none_of_merge (k := k) habs hk).elim h0.side0 (hside k)
      case isFalse hz =>
        rw [Bool.eq_false_iff.2 hz] at hside
        have ih1 := ih _ (by simp only [size]; omega) t01 _ rfl h0.2.2.2.2 h1
        refine (refines_branch h0.1 h0.2.2.2.1.refines ih1 (fun _ => h0.side0)
          fun k hk => ?_).congr fun k => (mergeAt_branch_left habs h0 hside k).symm
        exact (ne_none_of_merge (k := k) habs hk).elim h0.side1 (hside k)
    case isFalse hinc0 =>
    split
    case isTrue hinc =>
      have hside := side_of_branch h1.1 h0 hinc
      split
      case isTrue hz =>
        rw [hz] at hside
        refine (ih _ (by simp only [size]; omega) _ t10 rfl h0 h1.2.2.2.1).congr fun k => ?_
        simp [mergeAt_branch_right habs h1 hside, diffDomainsAt_none_left]
      case isFalse hz =>
        rw [Bool.eq_false_iff.2 hz] at hside
        refine (ih _ (by simp only [size]; omega) _ t11 rfl h0 h1.2.2.2.2).congr fun k => ?_
        simp [mergeAt_branch_right habs h1 hside, diffDomainsAt_none_left]
    case isFalse hinc1 =>
      have hap := apart_of_not_includesPrefix h0.1 h1.1 hne hinc0 hinc1
        (fun k (hk : findTree k (.branch _ t00 t01) ≠ none) => exists_side hk)
        fun k (hk : findTree k (.branch _ t10 t11) ≠ none) => exists_side hk
      refine h0.refines.congr fun k => ?_
      rcases hap.disjoint k with hk | hk
      · rw [mergeAt, hk, diffDomainsAt_none_left]
      · rw [mergeAt, hk, diffDomainsAt_none_right]

theorem diffDomains_refines {t0 : T α} (h0 : t0.WF) (h1 : t1.WF) :
    Refines (diffDomains t0 t1) fun k => diffDomainsAt (findOpt k t0) (findOpt k t1) := by
  match t0, t1 with
  | .empty, t1 => exact refines_empty.congr fun k => (diffDomainsAt_none_left _).symm
  | .tree t0, .empty => exact h0.refines
  | .tree t0, .tree t1 => exact diffDomainsTree_refines t0 t1 h0 h1

end Oxcaml.Flambda2.PatriciaTree
