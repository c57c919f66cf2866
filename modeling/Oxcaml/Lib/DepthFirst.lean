/-
Oxcaml.Lib.DepthFirst — depth-first traversals, and the order in which they leave nodes.

`Avoids succ M x y` says that `y` is reached from `x` by nodes that are not in `M`.
`Visit succ M xs D` is the traversal of the list `xs` when the nodes of `M` are marked:
`D` are the nodes that it leaves, in this order. They are the nodes that are reached
avoiding `M` (§2). The order has the property of the last node (§3): of all nodes that
a node reaches, the one that is left last reaches it back. From the last to the first,
the nodes are thus roots of strongly connected components, which are found by walking
the edges backwards (§4).
-/
import Mathlib.Tactic
import Mathlib.Data.Finset.Basic

set_option linter.all false

namespace Oxcaml.Lib

open Finset (mem_insert mem_union subset_insert)

variable {α : Type} {succ : α → List α}

/-! ## §1 Paths -/

/-- A path from `x` to `y` by nodes that are not in `M`. -/
inductive Avoids (succ : α → List α) (M : Finset α) : α → α → Prop
  | refl {x : α} : x ∉ M → Avoids succ M x x
  | head {x y z : α} : x ∉ M → y ∈ succ x → Avoids succ M y z → Avoids succ M x z

namespace Avoids

variable {M M' : Finset α} {x y z : α}

theorem start (h : Avoids succ M x y) : x ∉ M := by
  cases h with
  | refl hx | head hx _ _ => exact hx

theorem stop (h : Avoids succ M x y) : y ∉ M := by
  induction h with
  | refl hx => exact hx
  | head _ _ _ ih => exact ih

theorem trans (h1 : Avoids succ M x y) (h2 : Avoids succ M y z) : Avoids succ M x z := by
  induction h1 with
  | refl _ => exact h2
  | head hx hy _ ih => exact .head hx hy (ih h2)

theorem edge (hx : x ∉ M) (hy : y ∈ succ x) (hy' : y ∉ M) : Avoids succ M x y :=
  .head hx hy (.refl hy')

theorem mono (h : Avoids succ M x y) (hM : M' ⊆ M) : Avoids succ M' x y := by
  induction h with
  | refl hx => exact .refl fun hx' => hx (hM hx')
  | head hx hy _ ih => exact .head (fun hx' => hx (hM hx')) hy ih

end Avoids

/-- The nodes reach each other. -/
def Mutual (succ : α → List α) (u v : α) : Prop := Avoids succ ∅ u v ∧ Avoids succ ∅ v u

namespace Mutual

variable {u v w : α}

theorem refl (u : α) : Mutual succ u u := ⟨.refl (by simp), .refl (by simp)⟩

theorem symm (h : Mutual succ u v) : Mutual succ v u := ⟨h.2, h.1⟩

theorem trans (h1 : Mutual succ u v) (h2 : Mutual succ v w) : Mutual succ u w :=
  ⟨h1.1.trans h2.1, h2.2.trans h1.2⟩

end Mutual

variable {x y : α}

/-- A path with the edges turned around. -/
theorem Avoids.flip {pred : α → List α} (hpred : ∀ x y, x ∈ pred y ↔ y ∈ succ x) {M : Finset α}
    (h : Avoids succ M x y) : Avoids pred M y x := by
  induction h with
  | refl hx => exact .refl hx
  | head hx hy h ih => exact ih.trans (.edge h.start ((hpred _ _).2 hy) hx)

variable [DecidableEq α]

namespace Avoids

variable {M : Finset α} {x y : α}

/-- A path leads to a set that is closed, or avoids it. -/
theorem split (h : Avoids succ M x y) {D : Finset α}
    (hD : ∀ u ∈ D, ∀ v ∈ succ u, v ∉ M → v ∈ D) (hy : y ∉ D) : Avoids succ (M ∪ D) x y := by
  induction h with
  | refl hx => exact .refl (by simp [hx, hy])
  | @head x z y hx hz hzy ih =>
    refine .head ?_ hz (ih hy)
    have hz' := (ih hy).start
    simp only [mem_union, not_or] at hz' ⊢
    exact ⟨hx, fun hxD => hz'.2 (hD x hxD z hz hz'.1)⟩

/-- A path goes by the node `u`, or avoids it. -/
theorem through (h : Avoids succ M x y) (u : α) :
    (Avoids succ M x u ∧ Avoids succ M u y) ∨ Avoids succ (insert u M) x y := by
  induction h with
  | @refl x hx =>
    rcases eq_or_ne x u with rfl | hne
    · exact .inl ⟨.refl hx, .refl hx⟩
    · exact .inr (.refl (by simp [hx, hne]))
  | @head x z y hx hz hzy ih =>
    rcases eq_or_ne x u with rfl | hne
    · exact .inl ⟨.refl hx, .head hx hz hzy⟩
    rcases ih with ⟨h1, h2⟩ | h
    · exact .inl ⟨.head hx hz h1, h2⟩
    · exact .inr (.head (by simp [hx, hne]) hz h)

/-- A path goes on from its last visit of the node `u`, or avoids it. -/
theorem last (h : Avoids succ M x y) (u : α) :
    Avoids succ (insert u M) x y ∨ y = u ∨ ∃ w ∈ succ u, Avoids succ (insert u M) w y := by
  induction h with
  | @refl x hx =>
    rcases eq_or_ne x u with rfl | hne
    · exact .inr (.inl rfl)
    · exact .inl (.refl (by simp [hx, hne]))
  | @head x z y hx hz _ ih =>
    rcases ih with h | h
    · rcases eq_or_ne x u with rfl | hne
      · exact .inr (.inr ⟨z, hz, h⟩)
      · exact .inl (.head (by simp [hx, hne]) hz h)
    · exact .inr h

end Avoids

/-! ## §2 Traversals -/

/-- The traversal of a list of nodes, with the nodes that it leaves, in order. -/
inductive Visit (succ : α → List α) : Finset α → List α → List α → Prop
  | nil {M : Finset α} : Visit succ M [] []
  | skip {M : Finset α} {x : α} {xs D : List α} : x ∈ M → Visit succ M xs D →
      Visit succ M (x :: xs) D
  | step {M : Finset α} {x : α} {xs D D' : List α} : x ∉ M → Visit succ (insert x M) (succ x) D →
      Visit succ (insert x M ∪ D.toFinset) xs D' → Visit succ M (x :: xs) (D ++ x :: D')

namespace Visit

variable {M : Finset α} {xs D : List α}

/-- The first part of a traversal: what is reached from the first node. -/
theorem mem_first (hx : x ∉ M)
    (ih : ∀ y, y ∈ D ↔ ∃ z ∈ succ x, Avoids succ (insert x M) z y) (y : α) :
    y = x ∨ y ∈ D ↔ Avoids succ M x y := by
  rw [ih]
  constructor
  · rintro (rfl | ⟨z, hz, hzy⟩)
    · exact .refl hx
    · exact .head hx hz (hzy.mono (subset_insert x M))
  intro h
  rcases h.last x with h | h
  · exact absurd (Finset.mem_insert_self x M) h.start
  · exact h

theorem insert_union_toFinset (x : α) (M : Finset α) (D : List α) :
    insert x M ∪ D.toFinset = M ∪ insert x D.toFinset := by
  ext y
  simp only [mem_union, mem_insert]
  tauto

section

variable (h : Visit succ M xs D)
include h

/-- The nodes that are left are those that are reached avoiding the marked nodes. -/
theorem mem_iff (y : α) : y ∈ D ↔ ∃ x ∈ xs, Avoids succ M x y := by
  induction h generalizing y with
  | nil => simp
  | @skip M x xs D hx _ ih =>
    rw [ih]
    constructor
    · rintro ⟨z, hz, hzy⟩; exact ⟨z, List.mem_cons_of_mem _ hz, hzy⟩
    rintro ⟨z, hz, hzy⟩
    rcases List.mem_cons.1 hz with rfl | hz
    · exact absurd hx hzy.start
    · exact ⟨z, hz, hzy⟩
  | @step M x xs D D' hx _ _ ih ih' =>
    have hfirst := mem_first hx ih
    -- the nodes of the first part are closed under the edges that avoid `M`
    have hclosed : ∀ u ∈ insert x D.toFinset, ∀ v ∈ succ u, v ∉ M → v ∈ insert x D.toFinset := by
      intro u hu v hv hvM
      rw [mem_insert, List.mem_toFinset, hfirst] at hu ⊢
      exact hu.trans (.edge hu.stop hv hvM)
    rw [List.mem_append, List.mem_cons, ih', insert_union_toFinset]
    constructor
    · rintro (hy | rfl | ⟨z, hz, hzy⟩)
      · exact ⟨x, List.mem_cons_self, (hfirst y).1 (.inr hy)⟩
      · exact ⟨y, List.mem_cons_self, .refl hx⟩
      · exact ⟨z, List.mem_cons_of_mem _ hz, hzy.mono Finset.subset_union_left⟩
    rintro ⟨z, hz, hzy⟩
    by_cases hy : y = x ∨ y ∈ D
    · tauto
    rcases List.mem_cons.1 hz with rfl | hz
    · exact absurd ((hfirst y).2 hzy) hy
    · refine .inr (.inr ⟨z, hz, hzy.split hclosed ?_⟩); simpa using hy

theorem not_mem (hy : y ∈ D) : y ∉ M := by
  obtain ⟨x, -, hxy⟩ := (h.mem_iff y).1 hy
  exact hxy.stop

/-- Every node is left once. -/
theorem nodup : D.Nodup := by
  induction h with
  | nil => exact .nil
  | skip _ _ ih => exact ih
  | @step M x xs D D' hx hD hD' ih ih' =>
    rw [List.nodup_append, List.nodup_cons]
    refine ⟨ih, ⟨fun hxD' => ?_, ih'⟩, fun y hy z hz heq => ?_⟩
    · have := hD'.not_mem hxD'; simp at this
    subst heq
    rcases List.mem_cons.1 hz with rfl | hz
    · have := hD.not_mem hy; simp at this
    · have := hD'.not_mem hz; simp [hy] at this

/-- A traversal of two lists, one after the other. -/
theorem append {ys D' : List α}
    (h' : Visit succ (M ∪ D.toFinset) ys D') : Visit succ M (xs ++ ys) (D ++ D') := by
  induction h with
  | nil => simpa using h'
  | skip hx _ ih => exact .skip hx (ih h')
  | @step M x xs D1 D2 hx hD1 hD2 ih ih' =>
    have hset : M ∪ (D1 ++ x :: D2).toFinset = insert x M ∪ D1.toFinset ∪ D2.toFinset := by
      ext y
      simp only [mem_union, mem_insert, List.mem_toFinset, List.mem_append,
        List.mem_cons]
      tauto
    rw [hset] at h'
    simpa using Visit.step hx hD1 (ih' h')

end

/-! ## §3 The last node -/

/-- Of the nodes that `u` reaches, one that is left last reaches `u`. -/
def LastReaches (succ : α → List α) (M : Finset α) (D : List α) : Prop :=
  ∀ u ∈ D, ∀ v, Avoids succ M u v →
    ∃ w ∈ D, D.idxOf v ≤ D.idxOf w ∧ Avoids succ M u w ∧ Avoids succ M w u

theorem lastReaches (h : Visit succ M xs D) : LastReaches succ M D := by
  induction h with
  | nil => exact fun u hu => absurd hu (by simp)
  | skip _ _ ih => exact ih
  | @step M x xs D D' hx hD hD' ih ih' =>
    have hfirst := mem_first hx hD.mem_iff
    have hclosed : ∀ u ∈ insert x D.toFinset, ∀ v ∈ succ u, v ∉ M → v ∈ insert x D.toFinset := by
      intro u hu v hv hvM
      rw [mem_insert, List.mem_toFinset, hfirst] at hu ⊢
      exact hu.trans (.edge hu.stop hv hvM)
    have hxD : x ∉ D := fun hxD => hD.not_mem hxD (Finset.mem_insert_self x M)
    have hindexD : ∀ z ∈ D, (D ++ x :: D').idxOf z = D.idxOf z := fun z hz =>
      List.idxOf_append_of_mem hz
    have hindexx : (D ++ x :: D').idxOf x = D.length := by
      rw [List.idxOf_append_of_notMem hxD, List.idxOf_cons_self]
      rfl
    have hindexD' : ∀ z ∈ D', (D ++ x :: D').idxOf z = D.length + (D'.idxOf z + 1) := by
      intro z hz
      have hzM := hD'.not_mem hz
      simp only [mem_union, mem_insert, List.mem_toFinset, not_or] at hzM
      rw [List.idxOf_append_of_notMem hzM.2, List.idxOf_cons_ne _ (Ne.symm hzM.1.1)]
    have hindex : ∀ z, z = x ∨ z ∈ D → (D ++ x :: D').idxOf z ≤ D.length := by
      rintro z (rfl | hz)
      · exact hindexx.le
      · rw [hindexD z hz]; exact List.idxOf_le_length
    intro u hu v huv
    by_cases hfu : u = x ∨ u ∈ D
    · -- the path stays in the first part
      have hxu := (hfirst u).1 hfu
      rcases huv.through x with ⟨hux, hxv⟩ | huv'
      · refine ⟨x, by simp, ?_, hux, hxu⟩
        rw [hindexx]
        exact hindex v ((hfirst v).2 hxv)
      have hne : u ≠ x := by
        rintro rfl
        exact huv'.start (Finset.mem_insert_self u M)
      have huD : u ∈ D := hfu.resolve_left hne
      have hvD : v ∈ D := by
        obtain ⟨y, hy, hyu⟩ := (hD.mem_iff u).1 huD
        exact (hD.mem_iff v).2 ⟨y, hy, hyu.trans huv'⟩
      obtain ⟨w, hw, hle, huw, hwu⟩ := ih u huD v huv'
      refine ⟨w, by simp [hw], ?_, huw.mono (subset_insert x M),
        hwu.mono (subset_insert x M)⟩
      rw [hindexD v hvD, hindexD w hw]
      exact hle
    have huD' : u ∈ D' := by
      simp only [List.mem_append, List.mem_cons] at hu
      tauto
    by_cases hfv : v = x ∨ v ∈ D
    · refine ⟨u, hu, ?_, .refl huv.start, .refl huv.start⟩
      rw [hindexD' u huD']
      have := hindex v hfv
      omega
    have hsplit := huv.split hclosed (by simpa using hfv)
    rw [← insert_union_toFinset] at hsplit
    have hvD' : v ∈ D' := by
      obtain ⟨y, hy, hyu⟩ := (hD'.mem_iff u).1 huD'
      exact (hD'.mem_iff v).2 ⟨y, hy, hyu.trans hsplit⟩
    obtain ⟨w, hw, hle, huw, hwu⟩ := ih' u huD' v hsplit
    have hsub : M ⊆ insert x M ∪ D.toFinset :=
      (subset_insert x M).trans Finset.subset_union_left
    refine ⟨w, by simp [hw], ?_, huw.mono hsub, hwu.mono hsub⟩
    rw [hindexD' v hvD', hindexD' w hw]
    omega

end Visit

/-! ## §4 Components -/

/-- When the nodes after `r` are in components that are marked, those that reach `r` by unmarked
nodes are the component of `r`. -/
theorem avoids_root_iff {M : Finset α} {D : List α} (hlast : Visit.LastReaches succ ∅ D)
    (hM : ∀ u ∈ M, ∀ v, Mutual succ u v → v ∈ M) {r : α} (hr : r ∉ M)
    (hafter : ∀ w ∈ D, D.idxOf r < D.idxOf w → w ∈ M) {u : α} (hu : u ∈ D) (hrD : r ∈ D) :
    Avoids succ M u r ↔ Mutual succ u r := by
  constructor
  · intro h
    obtain ⟨w, hw, hle, huw, hwu⟩ := hlast u hu r (h.mono (Finset.empty_subset M))
    have hwM : w ∉ M := fun hwM => h.start (hM w hwM u ⟨hwu, huw⟩)
    have heq : D.idxOf w = D.idxOf r := by
      by_contra hne
      exact hwM (hafter w hw (by omega))
    obtain rfl : w = r := (List.idxOf_inj hw).1 heq
    exact ⟨huw, hwu⟩
  intro h
  -- all nodes on the path are in the component of `r`
  have hpath : ∀ x, Avoids succ ∅ x r → Avoids succ ∅ r x → Avoids succ M x r := by
    intro x hx
    induction hx with
    | refl _ => exact fun _ => .refl hr
    | @head x y z _ hy hyz ih =>
      intro hzx
      have hxM : x ∉ M := fun hxM => hr (hM x hxM z ⟨.head (by simp) hy hyz, hzx⟩)
      exact .head hxM hy (ih hr hafter hrD h (hzx.trans (.edge (by simp) hy (by simp))))
  exact hpath u h.1 h.2

end Oxcaml.Lib
