/-
Oxcaml.Lib.LinearProbing — hash tables with linear probing, and deletion without marks.

A table is a list of slots, around which one goes in a circle: `next` is the slot after
a slot, `steps` the number of steps from one slot to another. In a `Probed` table every
entry is reached from its home slot without crossing an empty slot. Deletion (§3) makes
a hole and moves entries back into it: `Hole` says that only the hole breaks a path, and
only to entries that come after the slot that has been scanned last.
-/
import Mathlib.Tactic
import Mathlib.Data.List.Perm.Basic

set_option linter.all false

namespace Oxcaml.Lib.LinearProbing

open List (getElem?_set_ne length_set)

/-! ## §1 Slots in a circle -/

/-- The slot after `a`. -/
def next (n a : ℕ) : ℕ := if a + 1 = n then 0 else a + 1

/-- The number of steps from `a` to `b`. -/
def steps (n a b : ℕ) : ℕ := if a ≤ b then b - a else b + n - a

section Circle

variable {n a b c : ℕ}

theorem next_lt (ha : a < n) : next n a < n := by
  unfold next
  lia

theorem steps_self : steps n a a = 0 := by simp [steps]

section

variable (ha : a < n)
include ha

theorem steps_lt (hb : b < n) : steps n a b < n := by
  unfold steps
  lia

theorem steps_inj (hb : b < n) (hc : c < n) (h : steps n a b = steps n a c) : b = c := by
  unfold steps at h
  lia

theorem steps_next (h : next n b ≠ a) : steps n a (next n b) = steps n a b + 1 := by
  unfold steps next at *
  lia

/-- One step brings a slot nearer. -/
theorem steps_next_left (hb : b < n) (h : a ≠ b) :
    steps n (next n a) b + 1 = steps n a b := by
  unfold steps next
  lia

theorem iterate_next_lt (d : ℕ) : (next n)^[d] a < n := by
  induction d with
  | zero => exact ha
  | succ d ih => rw [Function.iterate_succ_apply']; exact next_lt ih

theorem steps_iterate {d : ℕ} (hd : d < n) : steps n a ((next n)^[d] a) = d := by
  induction d with
  | zero => exact steps_self
  | succ d ih =>
    have ihd := ih (by lia)
    rw [Function.iterate_succ_apply']
    rw [steps_next ha, ihd]
    intro hback
    unfold steps next at *
    lia

theorem iterate_steps (hb : b < n) : (next n)^[steps n a b] a = b :=
  steps_inj ha (iterate_next_lt ha _) hb (steps_iterate ha (steps_lt ha hb))

end

end Circle

variable {E : Type} {home : E → ℕ} {l : List (Option E)} {e : E} {p i j : ℕ}

/-! ## §2 Tables -/

/-- All slots on the way from the home of the entry to the slot are taken. -/
def Path (home : E → ℕ) (l : List (Option E)) (e : E) (p : ℕ) : Prop :=
  ∀ q < l.length, steps l.length (home e) q < steps l.length (home e) p → l[q]? ≠ some none

/-- Every entry is reached from its home. -/
structure Probed (home : E → ℕ) (l : List (Option E)) : Prop where
  home_lt : ∀ (p : ℕ) e, l[p]? = some (some e) → home e < l.length
  path : ∀ (p : ℕ) e, l[p]? = some (some e) → Path home l e p

/-- The entries of a table. -/
def stored (l : List (Option E)) : List E := l.filterMap id

theorem mem_stored : e ∈ stored l ↔ ∃ p : ℕ, l[p]? = some (some e) := by
  unfold stored
  rw [List.mem_filterMap]
  constructor
  · rintro ⟨x, hx, rfl⟩; exact List.mem_iff_getElem?.1 hx
  · rintro ⟨p, hp⟩; exact ⟨some e, List.mem_of_getElem? hp, rfl⟩

theorem stored_set_some (h : l[p]? = some none) (e : E) :
    (stored (l.set p (some e))).Perm (e :: stored l) := by
  obtain ⟨hp, heq⟩ := List.getElem?_eq_some_iff.1 h
  have hl : l = l.take p ++ none :: l.drop (p + 1) := by
    rw [← heq, List.getElem_cons_drop, List.take_append_drop]
  unfold stored
  conv_rhs => rw [hl]
  rw [List.set_eq_take_append_cons_drop, if_pos hp]
  simp only [List.filterMap_append, List.filterMap_cons]
  exact List.perm_middle

theorem stored_set_none (h : l[p]? = some (some e)) :
    (stored l).Perm (e :: stored (l.set p none)) := by
  have hp := (List.getElem?_eq_some_iff.1 h).1
  have hnone : (l.set p none)[p]? = some none := List.getElem?_set_self hp
  have hset : (l.set p none).set p (some e) = l := by
    rw [List.set_set]
    refine List.ext_getElem? fun q => ?_
    rcases eq_or_ne p q with rfl | hne
    · rw [List.getElem?_set_self hp, h]
    · rw [getElem?_set_ne hne]
  have hperm := stored_set_some hnone e
  rwa [hset] at hperm

/-- There is an empty slot when not all are taken. -/
theorem exists_none (h : (stored l).length < l.length) : ∃ p < l.length, l[p]? = some none := by
  by_contra hnone
  have hall : ∀ x ∈ l, x.isSome := by
    intro x hx
    obtain ⟨p, hp⟩ := List.mem_iff_getElem?.1 hx
    cases x with
    | some e => rfl
    | none => exact absurd ⟨p, (List.getElem?_eq_some_iff.1 hp).1, hp⟩ hnone
  have hlen : (stored l).length = l.length := List.filterMap_length_eq_length.2 hall
  lia

theorem probed_replicate (home : E → ℕ) (n : ℕ) : Probed home (List.replicate n none) := by
  refine ⟨fun p e h => ?_, fun p e h => ?_⟩ <;>
  · have hmem := List.mem_of_getElem? h; simp at hmem

/-- The first empty slot takes an entry. -/
theorem Probed.insert (h : Probed home l) (hp : l[p]? = some none) (he : home e < l.length)
    (hpath : Path home l e p) : Probed home (l.set p (some e)) := by
  have hlt := (List.getElem?_eq_some_iff.1 hp).1
  have hkeep : ∀ q : ℕ, l[q]? ≠ some none → (l.set p (some e))[q]? ≠ some none := by
    intro q hq
    rcases eq_or_ne p q with rfl | hne
    · rw [List.getElem?_set_self hlt]; simp
    · rwa [getElem?_set_ne hne]
  refine ⟨fun q e' hq => ?_, fun q e' hq r hr hdist => ?_⟩
  · rw [length_set]
    rcases eq_or_ne p q with rfl | hne
    · rw [List.getElem?_set_self hlt] at hq
      simp only [Option.some.injEq] at hq
      exact hq ▸ he
    · rw [getElem?_set_ne hne] at hq; exact h.home_lt q e' hq
  rw [length_set] at hr hdist
  refine hkeep r ?_
  rcases eq_or_ne p q with rfl | hne
  · rw [List.getElem?_set_self hlt] at hq
    simp only [Option.some.injEq] at hq
    subst hq
    exact hpath r hr hdist
  · rw [getElem?_set_ne hne] at hq; exact h.path q e' hq r hr hdist

/-! ## §3 Deletion -/

/-- A hole at `j`, when the slots after it up to `i` have been scanned. -/
structure Hole (home : E → ℕ) (l : List (Option E)) (j i : ℕ) : Prop where
  lt : i < l.length
  hole : l[j]? = some none
  home_lt : ∀ (p : ℕ) e, l[p]? = some (some e) → home e < l.length
  path : ∀ (p : ℕ) e, l[p]? = some (some e) → ∀ q < l.length,
    steps l.length (home e) q < steps l.length (home e) p → l[q]? = some none → q = j
  later : ∀ (p : ℕ) e, l[p]? = some (some e) →
    steps l.length (home e) j < steps l.length (home e) p → steps l.length j i < steps l.length j p

theorem Hole.lt_hole (h : Hole home l j i) : j < l.length :=
  (List.getElem?_eq_some_iff.1 h.hole).1

theorem Probed.hole (h : Probed home l) (hp : l[p]? = some (some e)) :
    Hole home (l.set p none) p p := by
  have hlt := (List.getElem?_eq_some_iff.1 hp).1
  have hold : ∀ (q : ℕ) e',
    (l.set p none)[q]? = some (some e') → p ≠ q ∧ l[q]? = some (some e') := by
    intro q e' hq
    rcases eq_or_ne p q with rfl | hne
    · rw [List.getElem?_set_self hlt] at hq; simp at hq
    · rw [getElem?_set_ne hne] at hq; exact ⟨hne, hq⟩
  refine ⟨by simpa using hlt, List.getElem?_set_self hlt, fun q e' hq => ?_,
    fun q e' hq r hr hdist hnone => ?_, fun q e' hq hdist => ?_⟩
  · rw [length_set]; exact h.home_lt q e' (hold q e' hq).2
  · rw [length_set] at hr hdist
    by_contra hne
    rw [getElem?_set_ne (Ne.symm hne)] at hnone
    exact h.path q e' (hold q e' hq).2 r hr hdist hnone
  rw [length_set]
  have hne := (hold q e' hq).1
  unfold steps
  lia

/-- The scan ends at an empty slot: all entries are reached. -/
theorem Hole.probed (h : Hole home l j i) (hnext : l[next l.length i]? = some none) :
    Probed home l := by
  refine ⟨h.home_lt, fun p e hp q hq hdist hnone => ?_⟩
  obtain rfl := h.path p e hp q hq hdist hnone
  have hlater := h.later p e hp hdist
  have hplt := (List.getElem?_eq_some_iff.1 hp).1
  have hi := h.lt
  by_cases hpn : p = next l.length i
  · rw [hpn, hnext] at hp; simp at hp
  -- the empty slot is on the path of the entry
  have hnlt := next_lt hi
  have hpath := h.path p e hp _ hnlt
  by_cases hback : next l.length i = q
  · unfold steps next at *; lia
  have hstep := steps_next hq hback
  have hbetween : steps l.length (home e) (next l.length i) < steps l.length (home e) p := by
    unfold steps at *
    lia
  exact hback (hpath hbetween hnext)

/-- An entry that does not cross the hole stays where it is. -/
theorem Hole.skip (h : Hole home l j i) (hnext : l[next l.length i]? = some (some e))
    (hkeep : ¬steps l.length (home e) j < steps l.length (home e) (next l.length i)) :
    Hole home l j (next l.length i) := by
  have hi := h.lt
  have hj := h.lt_hole
  have hnlt := next_lt hi
  refine ⟨hnlt, h.hole, h.home_lt, h.path, fun p e' hp hdist => ?_⟩
  have hlater := h.later p e' hp hdist
  have hplt := (List.getElem?_eq_some_iff.1 hp).1
  have hne : next l.length i ≠ j := by
    intro heq
    rw [heq, h.hole] at hnext
    simp at hnext
  have hpn : p ≠ next l.length i := by
    rintro rfl
    rw [hnext] at hp
    simp only [Option.some.injEq] at hp
    subst hp
    exact hkeep hdist
  have hstep := steps_next hj hne
  have hdne : steps l.length j p ≠ steps l.length j (next l.length i) := fun heq =>
    hpn (steps_inj hj hplt hnlt heq)
  lia

/-- An entry that crosses the hole moves into it, and leaves a hole. -/
theorem Hole.move (h : Hole home l j i) (hnext : l[next l.length i]? = some (some e))
    (hmove : steps l.length (home e) j < steps l.length (home e) (next l.length i)) :
    Hole home ((l.set j (some e)).set (next l.length i) none) (next l.length i)
      (next l.length i) := by
  have hi := h.lt
  have hj := h.lt_hole
  have hnlt := next_lt hi
  have hne : j ≠ next l.length i := by
    intro heq
    rw [← heq, h.hole] at hnext
    simp at hnext
  have hget : ∀ q : ℕ, ((l.set j (some e)).set (next l.length i) none)[q]? =
      if q = next l.length i then some none else if q = j then some (some e) else l[q]? := by
    intro q
    split_ifs with h1 h2
    · rw [h1, List.getElem?_set_self (by simpa using hnlt)]
    · rw [h2, getElem?_set_ne (Ne.symm hne), List.getElem?_set_self hj]
    · rw [getElem?_set_ne (Ne.symm h1), getElem?_set_ne (Ne.symm h2)]
  have hlen : ((l.set j (some e)).set (next l.length i) none).length = l.length := by simp
  have hold : ∀ (p : ℕ) e', ((l.set j (some e)).set (next l.length i) none)[p]? = some (some e') →
      p ≠ next l.length i ∧ (p = j ∧ e' = e ∨ p ≠ j ∧ l[p]? = some (some e')) := by
    intro p e' hp
    rw [hget] at hp
    split_ifs at hp with h1 h2
    · simp at hp
    · simp only [Option.some.injEq] at hp; exact ⟨h1, .inl ⟨h2, hp.symm⟩⟩
    · exact ⟨h1, .inr ⟨h2, hp⟩⟩
  refine ⟨by rw [hlen]; exact hnlt, by rw [hget, if_pos rfl], fun p e' hp => ?_,
    fun p e' hp q hq hdist hnone => ?_, fun p e' hp hdist => ?_⟩
  · rw [hlen]
    obtain ⟨-, ⟨-, rfl⟩ | ⟨-, hp⟩⟩ := hold p e' hp
    · exact h.home_lt _ _ hnext
    · exact h.home_lt p e' hp
  · rw [hlen] at hq hdist
    by_contra hqn
    rw [hget] at hnone
    split_ifs at hnone with hqj
    · simp at hnone
    obtain ⟨-, ⟨hpj, he⟩ | ⟨-, hp⟩⟩ := hold p e' hp
    · rw [hpj, he] at hdist; exact hqj (h.path _ _ hnext q hq (by lia) hnone)
    · exact hqj (h.path p e' hp q hq hdist hnone)
  have hpn := (hold p e' hp).1
  unfold steps
  lia

end Oxcaml.Lib.LinearProbing
