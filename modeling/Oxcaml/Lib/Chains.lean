/-
Oxcaml.Lib.Chains — the end of a chain of pointers.

A partial function `f` leads from a point to the next one; `Ends f z u` says
that following it from `z` stops at `u`. This is the reading of a union-find
forest, or of any structure with forwarding pointers. Two facts are wanted
of it: a forest that only gains pointers out of ends sends a point where the
old one sent its end, and pointing straight at the end changes no end.

Two forests with the same ends keep the same ends when both grow by the
same pointers (`SameEnds.grow`). Neither forest has to be acyclic: a point
on a cycle has no end in either.
-/
import Mathlib.Tactic
import Mathlib.Logic.Function.Basic

namespace Oxcaml.Lib

variable {α : Type*} {f g f' g' : α → Option α} {z u v : α} {n : Nat}

/-- The chain from a point stops at another. -/
inductive Ends (f : α → Option α) : α → α → Prop
  | stop {z : α} : f z = none → Ends f z z
  | step {z u v : α} : f z = some u → Ends f u v → Ends f z v

/-- The chain stops within `n` steps. -/
inductive EndsIn (f : α → Option α) : Nat → α → α → Prop
  | stop {n : Nat} {z : α} : f z = none → EndsIn f n z z
  | step {n : Nat} {z u v : α} : f z = some u → EndsIn f n u v → EndsIn f (n + 1) z v

theorem Ends.exists_endsIn (h : Ends f z u) : ∃ n, EndsIn f n z u := by
  induction h with
  | stop hz => exact ⟨0, .stop hz⟩
  | step hz hu ih => obtain ⟨n, hn⟩ := ih; exact ⟨n + 1, .step hz hn⟩

theorem EndsIn.ends (h : EndsIn f n z u) : Ends f z u := by
  induction h with
  | stop hz => exact .stop hz
  | step hz hu ih => exact .step hz ih

namespace Ends

theorem eq_none (h : Ends f z u) : f u = none := by
  induction h with
  | stop hz => exact hz
  | step hz hu ih => exact ih

theorem unique (h : Ends f z u) (h' : Ends f z v) : u = v := by
  induction h with
  | stop hz =>
    cases h' with
    | stop => rfl
    | step hz' => simp [hz] at hz'
  | step hz hu ih =>
    cases h' with
    | stop hz' => simp [hz] at hz'
    | step hz' hu' =>
      rw [hz] at hz'
      cases hz'
      exact ih hu'

theorem iff_eq (h : f z = none) : Ends f z u ↔ u = z := by
  constructor
  · intro hu; exact hu.unique (.stop h)
  intro hu
  subst hu
  exact .stop h

theorem self_iff : Ends f z z ↔ f z = none := ⟨eq_none, .stop⟩

end Ends

/-! ## Growing -/

/-- `g` has all pointers of `f`. -/
def Grows (f g : α → Option α) : Prop := ∀ z u, f z = some u → g z = some u

/-- What follows the end of a chain in a larger forest. -/
theorem Ends.iff_of_grows (h : Ends f z u) (hg : Grows f g) : Ends g z v ↔ Ends g u v := by
  induction h with
  | stop => rfl
  | @step z w u hz hu ih =>
    rw [← ih]
    constructor
    · intro hv
      cases hv with
      | stop hz' => simp [hg _ _ hz] at hz'
      | step hz' hv =>
        rw [hg _ _ hz] at hz'
        cases hz'
        exact hv
    · exact Ends.step (hg _ _ hz)

/-- A chain of the larger forest passes the end of the chain of the smaller. -/
theorem EndsIn.exists_of_grows (h : EndsIn g n z v) (hg : Grows f g) :
    ∃ u m, Ends f z u ∧ m ≤ n ∧ EndsIn g m u v := by
  induction h with
  | @stop n z hz =>
    have hfz : f z = none := by
      cases hf : f z with
      | none => rfl
      | some u => simp [hg _ _ hf] at hz
    exact ⟨z, n, .stop hfz, le_rfl, .stop hz⟩
  | @step n z w v hz hu ih =>
    cases hf : f z with
    | none => exact ⟨z, n + 1, .stop hf, le_rfl, .step hz hu⟩
    | some u =>
      obtain rfl : u = w := by simpa [hg _ _ hf] using hz
      obtain ⟨x, m, hx, hm, hv⟩ := ih
      exact ⟨x, m, .step hf hx, hm.trans (Nat.le_succ n), hv⟩

theorem Ends.exists_of_grows (h : Ends g z v) (hg : Grows f g) : ∃ u, Ends f z u ∧ Ends g u v := by
  obtain ⟨n, hn⟩ := h.exists_endsIn
  obtain ⟨u, m, hu, -, hv⟩ := hn.exists_of_grows hg
  exact ⟨u, hu, hv.ends⟩

/-! ## The same ends -/

/-- Two forests send every point to the same end. -/
def SameEnds (f g : α → Option α) : Prop := ∀ z u, Ends f z u ↔ Ends g z u

namespace SameEnds

theorem rfl {f : α → Option α} : SameEnds f f := fun _ _ => Iff.rfl

theorem symm (h : SameEnds f g) : SameEnds g f := fun z u => (h z u).symm

theorem trans {k : α → Option α} (h : SameEnds f g) (h' : SameEnds g k) : SameEnds f k :=
  fun z u => (h z u).trans (h' z u)

theorem eq_none_iff (h : SameEnds f g) (z : α) : f z = none ↔ g z = none := by
  rw [← Ends.self_iff, ← Ends.self_iff]
  exact h z z

theorem ends_of_grows (h : SameEnds f f') (hg : Grows f g) (hg' : Grows f' g')
    (hstop : ∀ z, f z = none → g z = g' z) (hv : EndsIn g n z v) : Ends g' z v := by
  induction n using Nat.strong_induction_on generalizing z with | _ n ih =>
obtain ⟨u, m, hu, hm, huv⟩ := hv.exists_of_grows hg
rw [((h z u).1 hu).iff_of_grows hg']
have hgu : g u = g' u := hstop u hu.eq_none
cases huv with
| stop hz => exact .stop (hgu.symm.trans hz)
| @step k _ w _ hz hw => exact .step (hgu.symm.trans hz) (ih k (by omega) hw)

/-- Both forests gain the same pointers out of their common ends. -/
theorem grow (h : SameEnds f f') (hg : Grows f g) (hg' : Grows f' g')
    (hstop : ∀ z, f z = none → g z = g' z) : SameEnds g g' := by
  intro z v
  constructor
  · intro hv
    obtain ⟨n, hn⟩ := hv.exists_endsIn
    exact h.ends_of_grows hg hg' hstop hn
  intro hv
  obtain ⟨n, hn⟩ := hv.exists_endsIn
  refine h.symm.ends_of_grows hg' hg ?_ hn
  intro z hz
  exact (hstop z ((h.eq_none_iff z).2 hz)).symm

end SameEnds

/-- Path compression: a point that is no end may point straight at its end. -/
theorem sameEnds_compress (hu : Ends f z u) (hz : f z ≠ none) (hg : g z = some u)
    (hother : ∀ x, x ≠ z → g x = f x) : SameEnds f g := by
  have hgu : g u = none := by
    have hne : u ≠ z := by
      intro heq
      subst heq
      exact hz hu.eq_none
    rw [hother u hne]
    exact hu.eq_none
  intro x v
  constructor
  · intro hv
    induction hv with
    | @stop x hx =>
      refine .stop ?_
      rw [hother x (fun heq => hz (heq ▸ hx))]
      exact hx
    | @step x w v hx hw ih =>
      by_cases heq : x = z
      · subst heq
        obtain rfl : u = v := hu.unique (.step hx hw)
        exact .step hg (.stop hgu)
      · exact .step ((hother x heq).trans hx) ih
  intro hv
  induction hv with
  | @stop x hx =>
    have hne : x ≠ z := by
      intro heq
      subst heq
      simp [hg] at hx
    exact .stop ((hother x hne).symm.trans hx)
  | @step x w v hx hw ih =>
    by_cases heq : x = z
    · subst heq
      obtain rfl : u = w := by simpa [hg] using hx
      obtain rfl : v = u := (Ends.iff_eq hgu).1 hw
      exact hu
    · exact .step ((hother x heq).symm.trans hx) ih

end Oxcaml.Lib
