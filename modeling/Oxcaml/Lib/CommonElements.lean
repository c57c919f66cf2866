/-
Oxcaml.Lib.CommonElements — the elements that several sorted lists have in common.

`IsCommon r l` says that `l` is the sorted list of the elements common to all
the lists `r i`. It is kept when elements are dropped from one list that lie
before all elements of another one; dropping the elements before a bound drops
them from the common ones; and when all lists start with the same element, then
so does the common one.
-/
import Mathlib.Data.List.Sort
import Mathlib.Data.Set.Operations
import Mathlib.Order.Lattice
import Mathlib.Logic.Function.Basic

namespace Oxcaml.Lib

open Function (update update_of_ne update_self)

variable {ι K : Type} [LinearOrder K]

/-- Strictly increasing. -/
abbrev Increasing (l : List K) : Prop := l.Pairwise (· < ·)

section Increasing

variable {l : List K}

theorem Increasing.dropWhile (h : Increasing l) (k : K) : Increasing (l.dropWhile (· < k)) :=
  h.sublist (List.dropWhile_sublist _)

variable {k x : K}

section

variable (h : Increasing l)
include h

theorem Increasing.mem_dropWhile : x ∈ l.dropWhile (· < k) ↔ x ∈ l ∧ k ≤ x := by
  induction l with
  | nil => simp
  | cons a l ih =>
    obtain ⟨ha, hl⟩ := List.pairwise_cons.1 h
    by_cases hak : a < k
    · rw [List.dropWhile_cons_of_pos (by simpa using hak), ih hl, List.mem_cons]
      constructor
      · exact fun ⟨hx, hk⟩ => ⟨.inr hx, hk⟩
      rintro ⟨rfl | hx, hk⟩
      · exact absurd hk hak.not_ge
      · exact ⟨hx, hk⟩
    rw [List.dropWhile_cons_of_neg (by simpa using hak)]
    refine ⟨fun hx => ⟨hx, ?_⟩, fun hx => hx.1⟩
    rcases List.mem_cons.1 hx with rfl | hx
    · exact not_lt.1 hak
    · exact (not_lt.1 hak).trans (ha x hx).le

theorem Increasing.mem_tail (hk : l.head? = some k) :
    x ∈ l.tail ↔ x ∈ l ∧ x ≠ k := by
  cases l with
  | nil => cases hk
  | cons a l =>
    cases hk
    obtain ⟨ha, -⟩ := List.pairwise_cons.1 h
    rw [List.mem_cons]
    constructor
    · exact fun hx => ⟨.inr hx, (ha x hx).ne'⟩
    rintro ⟨rfl | hx, hne⟩
    · exact absurd rfl hne
    · exact hx

theorem Increasing.head_le (hk : l.head? = some k) (hx : x ∈ l) : k ≤ x := by
  cases l with
  | nil => cases hk
  | cons a l =>
    cases hk
    rcases List.mem_cons.1 hx with rfl | hx
    · exact le_rfl
    · exact ((List.pairwise_cons.1 h).1 x hx).le

theorem Increasing.head?_eq (hmem : k ∈ l) (hle : ∀ x ∈ l, k ≤ x) :
    l.head? = some k := by
  cases l with
  | nil => cases hmem
  | cons a l =>
    have hka := h.head_le rfl hmem
    rw [List.head?_cons, le_antisymm hka (hle a List.mem_cons_self)]

theorem Increasing.ext {l' : List K} (h' : Increasing l')
    (hmem : ∀ x, x ∈ l ↔ x ∈ l') : l = l' :=
  h.eq_of_mem_iff h' hmem

end

end Increasing

/-- `l` is the list of the elements common to all `r i`. -/
structure IsCommon (r : ι → List K) (l : List K) : Prop where
  increasing : Increasing l
  mem : ∀ x, x ∈ l ↔ ∀ i, x ∈ r i

section IsCommon

variable {r : ι → List K} {l : List K}

theorem IsCommon.unique {l' : List K} (h : IsCommon r l) (h' : IsCommon r l') : l = l' :=
  h.increasing.ext h'.increasing fun x => (h.mem x).trans (h'.mem x).symm

open Classical in
theorem exists_isCommon (r : ι → List K) {i : ι} (hi : Increasing (r i)) : ∃ l, IsCommon r l := by
  refine ⟨(r i).filter fun x => decide (∀ j, x ∈ r j), hi.filter _, fun x => ?_⟩
  rw [List.mem_filter, decide_eq_true_iff]
  exact ⟨fun h => h.2, fun h => ⟨h i, h⟩⟩

theorem IsCommon.eq_nil (h : IsCommon r l) {i : ι} (hi : r i = []) : l = [] := by
  rw [List.eq_nil_iff_forall_not_mem]
  intro x hx
  have hmem := (h.mem x).1 hx i
  simp [hi] at hmem

/-- It only matters which lists there are. -/
theorem IsCommon.of_range {ι' : Type} {r' : ι' → List K} (h : IsCommon r l)
    (hrange : Set.range r' = Set.range r) : IsCommon r' l := by
  refine ⟨h.increasing, fun x => (h.mem x).trans ?_⟩
  rw [← Set.forall_mem_range (p := fun l => x ∈ l), ← hrange, Set.forall_mem_range]

/-- If all lists start with `k`, so does the common one. -/
theorem IsCommon.head?_eq [Nonempty ι] (h : IsCommon r l) (hr : ∀ i, Increasing (r i)) {k : K}
    (hk : ∀ i, (r i).head? = some k) : l.head? = some k := by
  refine h.increasing.head?_eq ((h.mem k).2 fun i => List.mem_of_mem_head? (hk i)) fun x hx => ?_
  obtain ⟨i⟩ := ‹Nonempty ι›
  exact (hr i).head_le (hk i) ((h.mem x).1 hx i)

variable [DecidableEq ι] {i : ι}

/-- Elements may be dropped from a list that another list has no equals of. -/
theorem IsCommon.skip (h : IsCommon r l) (hr : ∀ i, Increasing (r i)) {k : K} {j : ι}
    (hj : ∀ x ∈ r j, k ≤ x) : IsCommon (update r i ((r i).dropWhile (· < k))) l := by
  refine ⟨h.increasing, fun x => (h.mem x).trans ⟨fun hx i' => ?_, fun hx i' => ?_⟩⟩
  · by_cases hi : i' = i
    · subst hi
      rw [update_self, (hr i').mem_dropWhile]
      exact ⟨hx i', hj x (hx j)⟩
    · rw [update_of_ne hi]; exact hx i'
  have hmem := hx i'
  by_cases hi : i' = i
  · subst hi
    rw [update_self, (hr i').mem_dropWhile] at hmem
    exact hmem.1
  · rwa [update_of_ne hi] at hmem

theorem IsCommon.seek (h : IsCommon r l) (hr : ∀ i, Increasing (r i)) (i : ι) (k : K) :
    IsCommon (update r i ((r i).dropWhile (· < k))) (l.dropWhile (· < k)) := by
  refine ⟨h.increasing.dropWhile k, fun x => ?_⟩
  rw [h.increasing.mem_dropWhile, h.mem]
  constructor
  · rintro ⟨hx, hk⟩ i'
    by_cases hi : i' = i
    · subst hi
      rw [update_self, (hr i').mem_dropWhile]
      exact ⟨hx i', hk⟩
    · rw [update_of_ne hi]; exact hx i'
  intro hx
  have hmem := hx i
  rw [update_self, (hr i).mem_dropWhile] at hmem
  refine ⟨fun i' => ?_, hmem.2⟩
  by_cases hi : i' = i
  · exact hi ▸ hmem.1
  · have hmem' := hx i'; rwa [update_of_ne hi] at hmem'

/-- Dropping the common first element from one list drops it from the common ones. -/
theorem IsCommon.advance [Nonempty ι] (h : IsCommon r l) (hr : ∀ i, Increasing (r i)) (i : ι)
    {k : K} (hk : ∀ i, (r i).head? = some k) :
    IsCommon (update r i (r i).tail) l.tail := by
  refine ⟨h.increasing.sublist (List.tail_sublist l), fun x => ?_⟩
  rw [h.increasing.mem_tail (h.head?_eq hr hk), h.mem]
  constructor
  · rintro ⟨hx, hne⟩ i'
    by_cases hi : i' = i
    · subst hi
      rw [update_self, (hr i').mem_tail (hk i')]
      exact ⟨hx i', hne⟩
    · rw [update_of_ne hi]; exact hx i'
  intro hx
  have hmem := hx i
  rw [update_self, (hr i).mem_tail (hk i)] at hmem
  refine ⟨fun i' => ?_, hmem.2⟩
  by_cases hi : i' = i
  · exact hi ▸ hmem.1
  · have hmem' := hx i'; rwa [update_of_ne hi] at hmem'

end IsCommon

end Oxcaml.Lib
