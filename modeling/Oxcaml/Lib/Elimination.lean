/-
Oxcaml.Lib.Elimination — extremal solutions by eliminating one variable at a
time.

A system of equations `x = f` is solved in a preorder `R` with a bottom `b`:
`≤` and `⊥` for least solutions, `≥` and `⊤` for greatest ones. After some
equations have been solved, the assignments that respect the solutions are
the graph of a monotone function of the variables that are left (`MonoGraph`),
and each of them is the extremal solution of the equations so far, given its
values at the variables that are left (`Extremal`). `Extremal.step` is the
elimination argument: solving one more equation from `x := b`, with the
solved variables following `x`, gives the extremal solution of all of them.
-/
import Mathlib.Data.Set.Insert
import Mathlib.Logic.Function.Basic

namespace Oxcaml.Lib

open Function

variable {ι L : Type} [DecidableEq ι]

/-- A preorder with a bottom. -/
structure Direction (R : L → L → Prop) (b : L) : Prop where
  refl : ∀ x, R x x
  trans : ∀ {x y z}, R x y → R y z → R x z
  bottom : ∀ x, R b x

variable {R : L → L → Prop} {b : L}

/-- `Sol` is the graph of a monotone function of the variables outside `S`. -/
structure MonoGraph (R : L → L → Prop) (S : Set ι) (Sol : Set (ι → L)) : Prop where
  exists_ext : ∀ ρ : ι → L, ∃ ρ' ∈ Sol, ∀ w ∉ S, ρ' w = ρ w
  mono : ∀ ρ ∈ Sol, ∀ ρ' ∈ Sol, (∀ w ∉ S, R (ρ w) (ρ' w)) → ∀ w, R (ρ w) (ρ' w)

/-- The elements of `Sol` solve the equations `E`, and lie below everything
in `Sol₀` that agrees with them outside `S` and is closed under `E`. -/
structure Extremal (R : L → L → Prop) (Sol₀ : Set (ι → L)) (E : Set (ι × ((ι → L) → L)))
    (S : Set ι) (Sol : Set (ι → L)) : Prop where
  subset : Sol ⊆ Sol₀
  solves : ∀ ρ ∈ Sol, ∀ e ∈ E, ρ e.1 = e.2 ρ
  extremal : ∀ ρ ∈ Sol, ∀ ρ' ∈ Sol₀, (∀ w ∉ S, ρ' w = ρ w) → (∀ e ∈ E, R (e.2 ρ') (ρ' e.1)) →
    ∀ w, R (ρ w) (ρ' w)

omit [DecidableEq ι] in
theorem Extremal.start {S : Set ι} {Sol : Set (ι → L)} (hdir : Direction R b)
    (hgraph : MonoGraph R S Sol) : Extremal R Sol ∅ S Sol where
  subset := subset_rfl
  solves := fun _ _ _ he => absurd he (Set.notMem_empty _)
  extremal := fun ρ hρ ρ' hρ' hagree _ =>
    hgraph.mono ρ hρ ρ' hρ' fun w hw => hagree w hw ▸ hdir.refl _

/-- One more equation `x = f`. Its solution is a fixpoint (`hfix`), and is
the value of `f` at `x := b` (`hlow`). -/
theorem Extremal.step {Sol₀ Sol Sol' : Set (ι → L)} {E : Set (ι × ((ι → L) → L))} {S : Set ι}
    {x : ι} {f : (ι → L) → L} (hdir : Direction R b) (hgraph : MonoGraph R S Sol)
    (hext : Extremal R Sol₀ E S Sol) (hx : x ∉ S) (hsub : Sol' ⊆ Sol)
    (hmono : ∀ ρ ρ', (∀ w, R (ρ w) (ρ' w)) → R (f ρ) (f ρ')) (hfix : ∀ ρ ∈ Sol', ρ x = f ρ)
    (hlow : ∀ ρ ∈ Sol', ∀ ρb ∈ Sol, ρb x = b → (∀ w ∉ S, w ≠ x → ρb w = ρ w) → ρ x = f ρb) :
    Extremal R Sol₀ (insert (x, f) E) (insert x S) Sol' where
  subset := hsub.trans hext.subset
  solves := by
    rintro ρ hρ e (rfl | he)
    · exact hfix ρ hρ
    · exact hext.solves ρ (hsub hρ) e he
  extremal := by
    intro ρ hρ ρ' hρ' hagree hclosed
    have hagree' : ∀ w ∉ S, w ≠ x → ρ' w = ρ w := fun w hw hwx => hagree w (by simp [hw, hwx])
    -- the solution that has the value of `ρ'` at `x`
    obtain ⟨ρ₂, hρ₂, h₂⟩ := hgraph.exists_ext ρ'
    have hle : ∀ w, R (ρ₂ w) (ρ' w) :=
      hext.extremal ρ₂ hρ₂ ρ' hρ' (fun w hw => (h₂ w hw).symm)
        fun e he => hclosed e (Set.mem_insert_of_mem _ he)
    -- and the one that has `b` there
    obtain ⟨ρb, hρb, hb⟩ := hgraph.exists_ext (update ρ x b)
    have hbx : ρb x = b := (hb x hx).trans (update_self x b ρ)
    have hbw : ∀ w ∉ S, w ≠ x → ρb w = ρ w := fun w hw hwx =>
      (hb w hw).trans (update_of_ne hwx b ρ)
    have hb₂ : ∀ w, R (ρb w) (ρ₂ w) := by
      refine hgraph.mono ρb hρb ρ₂ hρ₂ fun w hw => ?_
      by_cases hwx : w = x
      · rw [hwx, hbx]; exact hdir.bottom _
      · rw [hbw w hw hwx, h₂ w hw, hagree' w hw hwx]; exact hdir.refl _
    have hxle : R (ρ x) (ρ' x) := by
      rw [hlow ρ hρ ρb hρb hbx hbw]
      exact hdir.trans (hmono ρb ρ₂ hb₂) (hdir.trans (hmono ρ₂ ρ' hle)
        (hclosed (x, f) (Set.mem_insert _ _)))
    have h₁₂ : ∀ w, R (ρ w) (ρ₂ w) := by
      refine hgraph.mono ρ (hsub hρ) ρ₂ hρ₂ fun w hw => ?_
      by_cases hwx : w = x
      · rw [hwx, h₂ x hx]; exact hxle
      · rw [h₂ w hw, hagree' w hw hwx]; exact hdir.refl _
    exact fun w => hdir.trans (h₁₂ w) (hle w)

end Oxcaml.Lib
