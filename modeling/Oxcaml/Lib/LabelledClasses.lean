/-
Oxcaml.Lib.LabelledClasses — equivalence classes with labelled members.

Labels compose partially and have inverses, as the arrows of a groupoid whose
identities are not told apart. A set of equations `a --k--> b` entails more of
them by composing and inverting. A family of stars has a centre for every element,
and a label from the element to it. The stars that contain the equations, and only
labels that the equations entail, say exactly what the equations entail
(`entails_iff_agrees`), and moving a whole star under another centre keeps what
the stars say (`Agrees.demote`).
-/
import Mathlib

namespace Oxcaml.Lib

/-! ## §1 Labels -/

/-- Operations on labels. -/
class Labels (C : Type) where
  unit : C
  inverse : C → C
  compose : C → C → Option C

open Labels (unit inverse compose)

/-- The laws of a groupoid, for the compositions that are defined. -/
class LawfulLabels (C : Type) [Labels C] : Prop where
  unit_compose : ∀ c : C, compose unit c = some c
  compose_unit : ∀ c : C, compose c unit = some c
  compose_inverse : ∀ c : C, compose c (inverse c) = some unit
  inverse_compose : ∀ c : C, compose (inverse c) c = some unit
  assoc : ∀ {a b c ab bc : C}, compose a b = some ab → compose b c = some bc →
    compose ab c = compose a bc

section

variable {C : Type} [Labels C] [LawfulLabels C] {a b c : C}

open LawfulLabels

/-- What is composed on the right can be taken off again. -/
theorem compose_cancel_right (h : compose a b = some c) : compose c (inverse b) = some a :=
  (assoc h (compose_inverse b)).trans (compose_unit a)

theorem compose_cancel_left (h : compose a b = some c) : compose (inverse a) c = some b :=
  (assoc (inverse_compose a) h).symm.trans (unit_compose b)

theorem eq_inverse_of_compose (h : compose a b = some unit) : b = inverse a := by
  have h' := compose_cancel_left h
  rw [compose_unit] at h'
  exact (Option.some.inj h').symm

@[simp] theorem inverse_unit : inverse (unit : C) = unit := by
  exact (eq_inverse_of_compose (unit_compose unit)).symm

@[simp] theorem inverse_inverse (a : C) : inverse (inverse a) = a := by
  exact (eq_inverse_of_compose (inverse_compose a)).symm

/-- The label of `compose` is known from either of the other two. -/
theorem compose_right_injective (h : compose a b = some c) {a' : C} (h' : compose a' b = some c) :
    a = a' :=
  Option.some.inj ((compose_cancel_right h).symm.trans (compose_cancel_right h'))

end

/-! ## §2 Entailment -/

section

variable {E C : Type} [Labels C]

/-- What follows from the equations: `Entails eqs a k b` says that `a` coerced by `k` is `b`. -/
inductive Entails (eqs : List (E × C × E)) : E → C → E → Prop
  | refl (a : E) : Entails eqs a unit a
  | eqn {a b : E} {k : C} : (a, k, b) ∈ eqs → Entails eqs a k b
  | symm {a b : E} {k : C} : Entails eqs a k b → Entails eqs b (inverse k) a
  | trans {a b c : E} {k l m : C} : Entails eqs a k b → Entails eqs b l c →
      compose k l = some m → Entails eqs a m c

theorem Entails.mono {eqs eqs' : List (E × C × E)} (hsub : ∀ e ∈ eqs, e ∈ eqs') {a b : E} {k : C}
    (h : Entails eqs a k b) : Entails eqs' a k b := by
  induction h with
  | refl a => exact .refl a
  | eqn h => exact .eqn (hsub _ h)
  | symm _ ih => exact .symm ih
  | trans _ _ hm ih1 ih2 => exact .trans ih1 ih2 hm

variable {eqs : List (E × C × E)}

/-- Entailment follows a map of the elements. -/
theorem Entails.map {E' : Type} {eqs' : List (E' × C × E')} (f : E → E')
    (hf : ∀ a k b, (a, k, b) ∈ eqs → Entails eqs' (f a) k (f b)) {a b : E} {k : C}
    (h : Entails eqs a k b) : Entails eqs' (f a) k (f b) := by
  induction h with
  | refl a => exact .refl (f a)
  | eqn h => exact hf _ _ _ h
  | symm _ ih => exact .symm ih
  | trans _ _ hm ih1 ih2 => exact .trans ih1 ih2 hm

/-- The two are in one star, and `k` is the way from the one to the other. -/
def Agrees (pos : E → E × C) (a : E) (k : C) (b : E) : Prop :=
  (pos a).1 = (pos b).1 ∧ compose k (pos b).2 = some (pos a).2

variable [LawfulLabels C] {pos : E → E × C} {a b c : E} {k l m : C}

open LawfulLabels

theorem Agrees.refl (a : E) : Agrees pos a unit a := ⟨rfl, unit_compose _⟩

theorem Agrees.symm (h : Agrees pos a k b) : Agrees pos b (inverse k) a :=
  ⟨h.1.symm, compose_cancel_left h.2⟩

theorem Agrees.trans (h : Agrees pos a k b) (h' : Agrees pos b l c) (hm : compose k l = some m) :
    Agrees pos a m c :=
  ⟨h.1.trans h'.1, (assoc hm h'.2).trans h.2⟩

theorem Agrees.of_entails
    (heqs : ∀ a k b, (a, k, b) ∈ eqs → Agrees pos a k b) (h : Entails eqs a k b) :
    Agrees pos a k b := by
  induction h with
  | refl a => exact .refl a
  | eqn h => exact heqs _ _ _ h
  | symm _ ih => exact ih.symm
  | trans _ _ hm ih1 ih2 => exact ih1.trans ih2 hm

theorem Agrees.entails
    (hpos : ∀ a, Entails eqs a (pos a).2 (pos a).1) (h : Agrees pos a k b) : Entails eqs a k b := by
  refine .trans (hpos a) ?_ (compose_cancel_right h.2)
  rw [h.1]
  exact (hpos b).symm

/-- Stars that hold the equations, by labels that the equations entail, are exact. -/
theorem entails_iff_agrees (heqs : ∀ a k b, (a, k, b) ∈ eqs → Agrees pos a k b)
    (hpos : ∀ a, Entails eqs a (pos a).2 (pos a).1) : Entails eqs a k b ↔ Agrees pos a k b :=
  ⟨Agrees.of_entails heqs, Agrees.entails hpos⟩

/-! ## §3 Demotion -/

/-- The star of `d` goes under the centre `r`, by the label `K` from `d` to `r`. -/
structure Demotes (pos pos' : E → E × C) (d : E) (K : C) (r : E) : Prop where
  moved : ∀ a, (pos a).1 = d → (pos' a).1 = r ∧ compose (pos a).2 K = some (pos' a).2
  kept : ∀ a, (pos a).1 ≠ d → pos' a = pos a

variable {pos' : E → E × C} {d r : E} {K : C}

theorem Agrees.demote (h : Agrees pos a k b) (hdemotes : Demotes pos pos' d K r) :
    Agrees pos' a k b := by
  by_cases hd : (pos a).1 = d
  · obtain ⟨ha1, ha2⟩ := hdemotes.moved a hd
    obtain ⟨hb1, hb2⟩ := hdemotes.moved b (h.1 ▸ hd)
    exact ⟨ha1.trans hb1.symm, (assoc h.2 hb2).symm.trans ha2⟩
  · rw [Agrees, hdemotes.kept a hd, hdemotes.kept b (h.1 ▸ hd)]; exact h

/-- The two centres are related by the label of the demotion. -/
theorem Demotes.agrees (hdemotes : Demotes pos pos' d K r) (hd : pos d = (d, unit))
    (hr : pos r = (r, unit)) (hne : r ≠ d) : Agrees pos' d K r := by
  have hd' := hdemotes.moved d (congrArg Prod.fst hd)
  have hr' := hdemotes.kept r (by rw [hr]; exact hne)
  rw [hd] at hd'
  rw [Agrees, hr', hr]
  refine ⟨hd'.1, ?_⟩
  rw [compose_unit, ← hd'.2, unit_compose]

omit [LawfulLabels C] in
theorem Demotes.entails (hdemotes : Demotes pos pos' d K r)
    (hpos : ∀ a, Entails eqs a (pos a).2 (pos a).1) (hK : Entails eqs d K r) (a : E) :
    Entails eqs a (pos' a).2 (pos' a).1 := by
  by_cases hd : (pos a).1 = d
  · obtain ⟨h1, h2⟩ := hdemotes.moved a hd
    rw [h1]
    exact .trans (hd ▸ hpos a) hK h2
  · rw [hdemotes.kept a hd]; exact hpos a

end

/-! ## §4 Groups -/

/-- A group is a groupoid in which every composition is defined. -/
instance groupLabels (G : Type) [Group G] : Labels G where
  unit := 1
  inverse := (·⁻¹)
  compose a b := some (a * b)

instance groupLawful (G : Type) [Group G] : LawfulLabels G where
  unit_compose c := congrArg some (one_mul c)
  compose_unit c := congrArg some (mul_one c)
  compose_inverse c := congrArg some (mul_inv_cancel c)
  inverse_compose c := congrArg some (inv_mul_cancel c)
  assoc {a b c ab bc} h h' := by
    cases h
    cases h'
    exact congrArg some (mul_assoc a b c)

end Oxcaml.Lib
