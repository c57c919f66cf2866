/-
Oxcaml.Flambda2.PermutationTheorems — permutations of names compose.

`Represents t π`: the two maps of `t` are a permutation `π` of all names and its inverse,
without the names that `π` leaves alone. Each operation of the source represents the
operation on permutations that it is named after, and what is claimed of permutations is
read off the permutation that is represented.
-/
import Mathlib.Tactic
import Oxcaml.Flambda2.Permutation
import Oxcaml.Lib.Outcome
import Mathlib.Algebra.Group.End

set_option linter.all false

namespace Oxcaml.Flambda2

namespace Permutation

open Equiv (Perm swap)

variable {ν : Type} [LinearOrder ν] {t first second : T ν} {π π1 π2 : Perm ν}

/-- The binding of `n` in the map of `π`. -/
def moved (π : Perm ν) (n : ν) : Option ν := if π n = n then none else some (π n)

theorem getD_moved (π : Perm ν) (n : ν) : (moved π n).getD n = π n := by
  unfold moved
  split
  · next h => exact h.symm
  · rfl

structure Represents (t : T ν) (π : Perm ν) : Prop where
  forwards : ∀ n, t.forwards[n]? = moved π n
  backwards : ∀ n, t.backwards[n]? = moved π⁻¹ n

/-- The maps are inverse, without identity bindings. -/
structure WellFormed (t : T ν) : Prop where
  inverse : ∀ n1 n2 : ν, t.forwards[n1]? = some n2 ↔ t.backwards[n2]? = some n1
  irreflexive : ∀ n1 n2 : ν, t.forwards[n1]? = some n2 → n1 ≠ n2

/-! ## §1 What is read off -/

theorem moved_eq_some {n1 n2 : ν} : moved π n1 = some n2 ↔ π n1 = n2 ∧ n1 ≠ n2 := by
  unfold moved
  split
  · next h => simp [h]
  next h =>
  rw [Option.some.injEq]
  constructor
  · intro heq; exact ⟨heq, fun hne => h (by rw [heq, hne])⟩
  · exact And.left

theorem Represents.wellFormed (h : Represents t π) : WellFormed t := by
  constructor
  · intro n1 n2
    rw [h.forwards, h.backwards, moved_eq_some, moved_eq_some, Equiv.Perm.inv_eq_iff_eq]
    exact ⟨fun heq => ⟨heq.1.symm, heq.2.symm⟩, fun heq => ⟨heq.1.symm, heq.2.symm⟩⟩
  intro n1 n2 heq
  rw [h.forwards, moved_eq_some] at heq
  exact heq.2

theorem apply_eq_getD (t : T ν) (n : ν) : apply t n = (t.forwards[n]?).getD n := by
  unfold apply
  cases t.forwards[n]? <;> rfl

theorem applyBackwards_eq_getD (t : T ν) (n : ν) :
    applyBackwards t n = (t.backwards[n]?).getD n := by
  unfold applyBackwards
  cases t.backwards[n]? <;> rfl

theorem Represents.apply (h : Represents t π) (n : ν) : apply t n = π n := by
  rw [apply_eq_getD, h.forwards, getD_moved]

theorem Represents.applyBackwards (h : Represents t π) (n : ν) : applyBackwards t n = π⁻¹ n := by
  rw [applyBackwards_eq_getD, h.backwards, getD_moved]

theorem Represents.isEmpty_iff (h : Represents t π) : isEmpty t ↔ ∀ n, π n = n := by
  rw [isEmpty, Std.ExtTreeMap.isEmpty_iff, Std.ExtTreeMap.eq_empty_iff_forall_not_mem]
  refine forall_congr' fun n => ?_
  rw [Std.ExtTreeMap.mem_iff_isSome_getElem?, h.forwards, moved]
  split <;> simp_all

/-! ## §2 The operations -/

theorem represents_empty : Represents (empty : T ν) 1 where
  forwards n := by simp [empty, moved]
  backwards n := by simp [empty, moved]

theorem Represents.inverse (h : Represents t π) : Represents (inverse t) π⁻¹ where
  forwards := h.backwards
  backwards n := by
    exact h.forwards n

theorem getElem?_addToMap (n1 n2 : ν) (map : Std.ExtTreeMap ν ν) (k : ν) :
    (addToMap n1 n2 map)[k]? = if n1 = k then (if n1 = n2 then none else some n2) else map[k]? := by
  unfold addToMap
  split
  · rw [Lib.getElem?_erase]
  · rw [Lib.getElem?_insert]

theorem Represents.postSwap (h : Represents t π) (n1 n2 : ν) :
    Represents (postSwap t n1 n2) (swap n1 n2 * π) where
  forwards k := by
    simp only [Permutation.postSwap, h.applyBackwards, getElem?_addToMap, h.forwards, moved,
      Perm.mul_apply, Equiv.Perm.inv_eq_iff_eq]
    by_cases h1 : n1 = π k
    · subst h1; simp [eq_comm]
    by_cases h2 : n2 = π k
    · subst h2; simp [h1, eq_comm]
    · simp only [if_neg h1, if_neg h2, Equiv.swap_apply_of_ne_of_ne (Ne.symm h1) (Ne.symm h2)]
  backwards k := by
    simp only [Permutation.postSwap, h.applyBackwards, getElem?_addToMap, h.backwards, moved,
      mul_inv_rev, Equiv.swap_inv, Perm.mul_apply]
    by_cases h2 : n2 = k
    · subst h2; simp [eq_comm]
    by_cases h1 : n1 = k
    · subst h1; simp [h2, eq_comm]
    · simp only [if_neg h2, if_neg h1, Equiv.swap_apply_of_ne_of_ne (Ne.symm h1) (Ne.symm h2)]

theorem Represents.composeOneFresh (h : Represents t π) (n1 : ν) {fresh : ν}
    (hfresh : t.backwards[fresh]? = none) :
    Represents (composeOneFresh t n1 fresh) (swap n1 fresh * π) := by
  have hstill : Permutation.applyBackwards t fresh = fresh := by
    rw [applyBackwards_eq_getD, hfresh]
    rfl
  have heq : Permutation.composeOneFresh t n1 fresh = Permutation.postSwap t n1 fresh := by
    simp only [Permutation.composeOneFresh, Permutation.postSwap, hstill]
  rw [heq]
  exact h.postSwap n1 fresh

/-- Bindings with different keys, added to a map one after the other. -/
theorem getElem?_foldl_addToMap {l : List (ν × ν)} (hdistinct : l.Pairwise fun p q => p.1 ≠ q.1)
    (map : Std.ExtTreeMap ν ν) (k : ν) :
    (∀ n, (k, n) ∈ l → (l.foldl (fun map p => addToMap p.1 p.2 map) map)[k]? =
      if k = n then none else some n) ∧
    ((∀ n, (k, n) ∉ l) → (l.foldl (fun map p => addToMap p.1 p.2 map) map)[k]? = map[k]?) := by
  induction l generalizing map with
  | nil => simp
  | cons p l ih =>
    obtain ⟨hp, hl⟩ := List.pairwise_cons.1 hdistinct
    obtain ⟨hin, hout⟩ := ih hl (addToMap p.1 p.2 map)
    constructor
    · intro n hn
      rcases List.mem_cons.1 hn with rfl | hn
      · rw [List.foldl_cons, hout fun n' hn' => hp (k, n') hn' rfl, getElem?_addToMap, if_pos rfl]
      · exact hin n hn
    intro hnone
    have hne : p.1 ≠ k := by
      rintro rfl
      exact hnone p.2 List.mem_cons_self
    rw [List.foldl_cons, hout fun n hn => hnone n (List.mem_cons_of_mem _ hn),
      getElem?_addToMap, if_neg hne]

/-- The union of the maps of `π1` and `π2`, corrected at every name that `π1` moves to one
that `π2` moves further. -/
theorem getElem?_corrected {chained : Std.ExtTreeMap ν (ν × ν)} {f : ν × ν → ν × ν}
    (hchained : ∀ n, chained[n]?.map f =
      if π1⁻¹ n = n ∨ π2 n = n then none else some (π1⁻¹ n, π2 n))
    {map : Std.ExtTreeMap ν ν} (hmap : ∀ n, map[n]? = (moved π1 n).or (moved π2 n)) (k : ν) :
    (chained.foldl (fun map _ p => addToMap (f p).1 (f p).2 map) map)[k]? = moved (π2 * π1) k := by
  let l := chained.toList.map fun p => f p.2
  have hpair : ∀ n2 p, (n2, p) ∈ chained.toList → π1⁻¹ n2 ≠ n2 ∧ π2 n2 ≠ n2 ∧
      f p = (π1⁻¹ n2, π2 n2) := by
    intro n2 p hp
    have hget := hchained n2
    rw [Std.ExtTreeMap.mem_toList_iff_getElem?_eq_some.1 hp] at hget
    split at hget
    · cases hget
    · next h => exact ⟨fun h1 => h (.inl h1), fun h2 => h (.inr h2), Option.some.inj hget⟩
  have hmem : ∀ k n, (k, n) ∈ l ↔ π1 k ≠ k ∧ π2 (π1 k) ≠ π1 k ∧ π2 (π1 k) = n := by
    intro k n
    constructor
    · intro hin
      obtain ⟨⟨n2, p⟩, hp, heq⟩ := List.mem_map.1 hin
      obtain ⟨h1, h2, hf⟩ := hpair n2 p hp
      have hkn : (π1⁻¹ n2, π2 n2) = (k, n) := hf.symm.trans heq
      obtain ⟨rfl, rfl⟩ := Prod.mk.inj hkn
      rw [show π1 (π1⁻¹ n2) = n2 from π1.apply_symm_apply n2]
      exact ⟨Ne.symm h1, h2, rfl⟩
    intro ⟨h1, h2, h3⟩
    have hget := hchained (π1 k)
    rw [show π1⁻¹ (π1 k) = k from π1.symm_apply_apply k,
      if_neg (by simp [h2, Ne.symm h1])] at hget
    obtain ⟨p, hp, hf⟩ := Option.map_eq_some_iff.1 hget
    rw [h3] at hf
    exact List.mem_map.2 ⟨(π1 k, p), Std.ExtTreeMap.mem_toList_iff_getElem?_eq_some.2 hp, hf⟩
  have hdistinct : l.Pairwise fun p q => p.1 ≠ q.1 := by
    refine List.pairwise_map.2 (Std.ExtTreeMap.distinct_keys_toList.imp_of_mem ?_)
    intro p q hp hq hne heq
    rw [(hpair _ _ hp).2.2, (hpair _ _ hq).2.2] at heq
    exact hne (compare_eq_iff_eq.2 (π1⁻¹.injective heq))
  have hfold : chained.foldl (fun map _ p => addToMap (f p).1 (f p).2 map) map =
      l.foldl (fun map p => addToMap p.1 p.2 map) map := by
    rw [Std.ExtTreeMap.foldl_eq_foldl_toList, List.foldl_map]
  rw [hfold]
  obtain ⟨hin, hout⟩ := getElem?_foldl_addToMap hdistinct map k
  by_cases hboth : π1 k ≠ k ∧ π2 (π1 k) ≠ π1 k
  · rw [hin _ ((hmem k _).2 ⟨hboth.1, hboth.2, rfl⟩), moved, Perm.mul_apply]
    simp only [eq_comm]
  rw [hout fun n hn => hboth ⟨((hmem k n).1 hn).1, ((hmem k n).1 hn).2.1⟩, hmap]
  by_cases h1 : π1 k = k
  · simp [moved, h1]
  have h2 : π2 (π1 k) = π1 k := by
    by_contra h2
    exact hboth ⟨h1, h2⟩
  simp [moved, h1, h2]

theorem getElem?_unionLeftBiased (map1 map2 : Std.ExtTreeMap ν ν) (k : ν) :
    (unionLeftBiased map1 map2)[k]? = (map1[k]?).or map2[k]? := by
  rw [unionLeftBiased, Std.ExtTreeMap.getElem?_union]

theorem getElem?_inter (map1 map2 : Std.ExtTreeMap ν ν) (k : ν) :
    (inter map1 map2)[k]? = map1[k]?.bind fun n1 => map2[k]?.map fun n3 => (n1, n3) := by
  rw [inter, Std.ExtTreeMap.getElem?_filterMap']

theorem Represents.chained (h1 : Represents first π1) (h2 : Represents second π2) (k : ν) :
    (inter first.backwards second.forwards)[k]? =
      if π1⁻¹ k = k ∨ π2 k = k then none else some (π1⁻¹ k, π2 k) := by
  rw [getElem?_inter, h1.backwards, h2.forwards, moved, moved]
  by_cases hfirst : π1⁻¹ k = k
  · simp [hfirst]
  by_cases hsecond : π2 k = k
  · simp [hsecond]
  · simp only [hfirst, hsecond, if_false, or_self, Option.bind_some, Option.map_some]

theorem Represents.compose (h1 : Represents first π1) (h2 : Represents second π2) :
    Represents (compose second first) (π2 * π1) where
  forwards k := by
    refine getElem?_corrected (f := id) (fun n => ?_) (fun n => ?_) k
    · rw [Option.map_id, id, h1.chained h2]
    · rw [getElem?_unionLeftBiased, h1.forwards, h2.forwards]
  backwards k := by
    rw [mul_inv_rev]
    refine getElem?_corrected (f := Prod.swap) (fun n => ?_) (fun n => ?_) k
    · rw [h1.chained h2, inv_inv]
      split
      · next h => rw [if_pos h.symm]; rfl
      · next h => rw [if_neg fun hor => h hor.symm]; rfl
    · rw [getElem?_unionLeftBiased, h1.backwards, h2.backwards]

/-! ## §3 Everything that is built -/

/-- The values that the operations make from `empty`. -/
inductive Built : T ν → Prop
  | empty : Built empty
  | inverse {t : T ν} : Built t → Built (inverse t)
  | compose {second first : T ν} : Built second → Built first → Built (compose second first)
  | composeOne {first : T ν} (n1 n2 : ν) : Built first → Built (composeOne first n1 n2)
  | composeOneFresh {t : T ν} {n1 fresh : ν} : Built t → fresh ≠ n1 → fresh ∉ t.forwards →
      fresh ∉ t.backwards → Built (composeOneFresh t n1 fresh)

theorem Built.represents (h : Built t) : ∃ π, Represents t π := by
  induction h with
  | empty => exact ⟨1, represents_empty⟩
  | inverse _ ih => obtain ⟨π, h⟩ := ih; exact ⟨π⁻¹, h.inverse⟩
  | compose _ _ ih2 ih1 =>
    obtain ⟨π2, h2⟩ := ih2
    obtain ⟨π1, h1⟩ := ih1
    exact ⟨π2 * π1, h1.compose h2⟩
  | composeOne n1 n2 _ ih => obtain ⟨π, h⟩ := ih; exact ⟨swap n1 n2 * π, h.postSwap n1 n2⟩
  | @composeOneFresh _ n1 fresh _ _ _ hfresh ih =>
    obtain ⟨π, h⟩ := ih
    exact ⟨swap n1 fresh * π, h.composeOneFresh n1 (Std.ExtTreeMap.getElem?_eq_none hfresh)⟩

theorem Built.apply_compose (h1 : Built first) (h2 : Built second) (n : ν) :
    Permutation.apply (Permutation.compose second first) n =
      Permutation.apply second (Permutation.apply first n) := by
  obtain ⟨π1, h1⟩ := h1.represents
  obtain ⟨π2, h2⟩ := h2.represents
  rw [(h1.compose h2).apply, h1.apply, h2.apply, Perm.mul_apply]

theorem Built.apply_composeOne (h : Built first) (a b n : ν) :
    Permutation.apply (Permutation.composeOne first a b) n =
      swap a b (Permutation.apply first n) := by
  obtain ⟨π, h⟩ := h.represents
  rw [Permutation.composeOne, (h.postSwap a b).apply, h.apply, Perm.mul_apply]

theorem Built.apply_applyBackwards (h : Built t) (n : ν) :
    apply t (applyBackwards t n) = n ∧ applyBackwards t (apply t n) = n := by
  obtain ⟨π, h⟩ := h.represents
  rw [h.applyBackwards, h.apply, h.apply, h.applyBackwards]
  exact ⟨π.apply_symm_apply n, π.symm_apply_apply n⟩

theorem Built.isEmpty_iff (h : Built t) : isEmpty t ↔ ∀ n, apply t n = n := by
  obtain ⟨π, h⟩ := h.represents
  rw [h.isEmpty_iff]
  exact forall_congr' fun n => by rw [h.apply]

end Permutation

namespace Renaming

open Permutation (Built)

variable {ν κ : Type} [LinearOrder ν] [LinearOrder κ] {second first : T ν κ}

/-! ## §4 Renamings -/

structure Made (t : T ν κ) : Prop where
  builtVariables : Built t.variables
  builtContinuations : Built t.continuations

theorem Made.apply_of_isIdentity {t : T ν κ} (h : Made t) (hid : isIdentity t) :
    t.importMap = none ∧ (∀ var, applyVariable t var = var) ∧ ∀ k, applyContinuation t k = k := by
  unfold isIdentity at hid
  rw [Bool.and_eq_true, Bool.and_eq_true] at hid
  obtain ⟨⟨hk, hv⟩, himport⟩ := hid
  cases heq : t.importMap with
  | some importMap => rw [heq] at himport; cases himport
  | none =>
    refine ⟨rfl, fun var => ?_, fun k => ?_⟩
    · rw [applyVariable, heq]; exact h.builtVariables.isEmpty_iff.1 hv var
    · rw [applyContinuation, heq]; exact h.builtContinuations.isEmpty_iff.1 hk k

/-- `compose` does not fail, and acts as the first renaming and then the second. -/
theorem Made.compose (h1 : Made first) (h2 : Made second) (himport : second.importMap = none) :
    ∃ t, Renaming.compose second first = .ok t ∧ Made t ∧
      (∀ var, applyVariable t var = applyVariable second (applyVariable first var)) ∧
      ∀ k, applyContinuation t k = applyContinuation second (applyContinuation first k) := by
  unfold Renaming.compose
  by_cases hid2 : isIdentity second
  · obtain ⟨-, hv, hk⟩ := h2.apply_of_isIdentity hid2
    exact ⟨first, by rw [if_pos hid2]; rfl, h1, fun var => (hv _).symm, fun k => (hk _).symm⟩
  by_cases hid1 : isIdentity first
  · obtain ⟨-, hv, hk⟩ := h1.apply_of_isIdentity hid1
    refine ⟨second, by rw [if_neg hid2, if_pos hid1]; rfl, h2, fun var => ?_, fun k => ?_⟩
    · rw [hv]
    · rw [hk]
  refine ⟨⟨Permutation.compose second.continuations first.continuations,
    Permutation.compose second.variables first.variables, first.importMap⟩, ?_,
    ⟨.compose h2.builtVariables h1.builtVariables,
      .compose h2.builtContinuations h1.builtContinuations⟩,
    fun var => ?_, fun k => ?_⟩
  · rw [if_neg hid2, if_neg hid1, compose0, himport]; cases first.importMap <;> rfl
  · simp only [applyVariable, himport]; rw [h1.builtVariables.apply_compose h2.builtVariables]
  · simp only [applyContinuation, himport]
    rw [h1.builtContinuations.apply_compose h2.builtContinuations]

/-! ## §5 Permutations and renamings together -/

theorem compose_acts {t left right : Permutation.T ν} {second first : T ν κ}
    (ht : Built t) (hleft : Built left) (hright : Built right)
    (hsecond : Made second) (hfirst : Made first) (himport : second.importMap = none) :
    (Permutation.WellFormed t ∧ (∀ n, Permutation.apply t (Permutation.applyBackwards t n) = n ∧
        Permutation.applyBackwards t (Permutation.apply t n) = n) ∧
      (Permutation.isEmpty t ↔ ∀ n, Permutation.apply t n = n)) ∧
    (∀ n, Permutation.apply (Permutation.compose left right) n =
      Permutation.apply left (Permutation.apply right n)) ∧
    (∀ a b n, Permutation.apply (Permutation.composeOne t a b) n =
      Equiv.swap a b (Permutation.apply t n)) ∧
    ∃ r, Renaming.compose second first = .ok r ∧
      (∀ var, applyVariable r var = applyVariable second (applyVariable first var)) ∧
      ∀ k, applyContinuation r k = applyContinuation second (applyContinuation first k) := by
  obtain ⟨π, hπ⟩ := ht.represents
  obtain ⟨r, hr, -, hv, hk⟩ := hfirst.compose hsecond himport
  exact ⟨⟨hπ.wellFormed, ht.apply_applyBackwards, ht.isEmpty_iff⟩,
    hright.apply_compose hleft, ht.apply_composeOne, r, hr, hv, hk⟩

/-- A cycle of three names made in two ways, and renamings of which the first imports. -/
theorem compose_acts_cycle :
    let p : Permutation.T Nat := Permutation.composeOne Permutation.empty 1 2
    let q : Permutation.T Nat := Permutation.composeOneFresh p 1 3
    ∃ r : T Nat Nat, Renaming.compose ⟨p, q, none⟩ ⟨q, p, some ⟨(· + 1), id⟩⟩ = .ok r ∧
      applyVariable r 0 = 3 := by
  intro p q
  have hp : Built p := .composeOne 1 2 .empty
  have hq : Built q := .composeOneFresh hp (by decide) (by decide) (by decide)
  have hall := @compose_acts Nat Nat _ _ q p q ⟨p, q, none⟩ ⟨q, p, some ⟨(· + 1), id⟩⟩
    hq hp hq ⟨hq, hp⟩ ⟨hp, hq⟩ rfl
  obtain ⟨r, hr, hv, -⟩ := hall.2.2.2
  exact ⟨r, hr, (hv 0).trans (by decide)⟩

end Renaming

end Oxcaml.Flambda2
