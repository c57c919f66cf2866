/-
Oxcaml.Typing.SolverErrors — what the errors of the mode solver say.

A failing propagation stops anywhere in the graph of variables and carries
the bound it ran into back through the morphisms on its way. `CallRule` is
the induction for statements of this kind, done once: an invariant of the
state that the three writes of `submode_vc` keep, and a property of errors
that holds of the bound found and survives each step back.

`falseBound_callRule` is its first use: the value in an error is not below
the bound asked for, and it is a lower bound of the constrained morphvar
over the store.
-/
import Oxcaml.Typing.SolverSound

set_option linter.all false

namespace Oxcaml.Typing.Solver

open Allowance

variable {C : LatticesMono} {H : Hint} {o : C.Obj} {l r : Allowance}

/-! ## The rule -/

/-- Statements that a propagation carries along. `Bound` is known of the
bounds that are passed down, `Below v` of the morphvars below `v`, `Left`
of morphvars on the left. `Fails` and `Refuses` are what is shown of the
errors of `submode_vc` and `submode_mvc`. -/
structure CallRule (C : LatticesMono) (H : Hint) where
  Inv : State C H → Prop
  Bound : ∀ {o : C.Obj}, C.Elt o → CompHint C H o disallowed allowed → Prop
  Left : ∀ {o : C.Obj} {r : Allowance}, MorphVar C H o allowed r → Prop
  Below : ∀ v : VarId C, MorphVar C H v.obj allowed disallowed → Prop
  Fails : ∀ v : VarId C, C.Elt v.obj → LeftError C H v.obj → Prop
  Refuses : ∀ {o : C.Obj} {r : Allowance}, MorphVar C H o allowed r → C.Elt o →
    LeftError C H o → Prop
  updateUpper : ∀ {s v a' a'Hint}, Inv s → Bound a' a'Hint → Inv (updateUpper s v a' a'Hint)
  raiseLower : ∀ {s v mu}, Inv s → Below v mu → Inv (raiseLower s v mu)
  dropVlower : ∀ {s v}, Inv s → Inv (dropVlowerIfTight s v)
  below : ∀ {s v mu}, Inv s → mu ∈ (s.get v).vlower → Below v mu
  left : ∀ {v mu}, Below v mu → Left mu
  adjoint : ∀ {o r} {mv : MorphVar C H o allowed r} {a aHint} (pp : H.Pinpoint), Left mv →
    Bound a aHint →
    Bound (C.apply (C.rightAdjoint mv.morph) a) (.apply (mv.hint.rightAdjoint pp).2 aHint)
  fails : ∀ {s v a'}, Inv s → ¬ (s.get v).lower ≤ a' →
    Fails v a' ((s.get v).lower, (s.get v).lowerHint)
  refuses : ∀ {s o r} {mv : MorphVar C H o allowed r} {a}, Inv s → Left mv →
    ¬ mlower s mv ≤ a → Refuses mv a (mlower s mv, mlowerHint s mv)
  lift : ∀ {o r} {mv : MorphVar C H o allowed r} {a e eHint}, Left mv →
    Fails mv.var (C.apply (C.rightAdjoint mv.morph) a) (e, eHint) →
    Refuses mv a (C.apply mv.morph e, .apply mv.hint.disallowRight eHint)
  refused : ∀ {v mu a' e}, Below v mu → Refuses mu a' e → Fails v a' e

namespace CallRule

variable (R : CallRule C H)

/-- What the rule shows of a function in place of `submode_vc`. -/
def Keeps (vc : SubmodeVc C H) : Prop :=
  ∀ {s pp v a' a'Hint res s'}, vc s pp v a' a'Hint = some (res, s') → R.Inv s →
    R.Bound a' a'Hint → R.Inv s' ∧ ∀ e, res = .error e → R.Fails v a' e

variable {pp : H.Pinpoint} {s s' : State C H} {vc : SubmodeVc C H}

variable {aHint : CompHint C H o disallowed allowed} {mv : MorphVar C H o allowed r}

theorem submodeMvcWith (hvc : R.Keeps vc) {a : C.Elt o} {res}
    (heq : submodeMvcWith vc s pp mv a aHint = some (res, s')) (hs : R.Inv s) (hmv : R.Left mv)
    (ha : R.Bound a aHint) : R.Inv s' ∧ ∀ e, res = .error e → R.Refuses mv a e := by
  unfold Solver.submodeMvcWith at heq
  split at heq
  case isTrue => cases heq; exact ⟨hs, fun e he => by cases he⟩
  case isFalse =>
  split at heq
  case isTrue hlow =>
    cases heq
    refine ⟨hs, fun e he => ?_⟩
    cases he
    exact R.refuses hs hmv hlow
  case isFalse =>
  dsimp only at heq
  cases hcall : vc s (mv.hint.rightAdjoint pp).1 mv.var (C.apply (C.rightAdjoint mv.morph) a)
      (.apply (mv.hint.rightAdjoint pp).2 aHint) with
  | none => simp [hcall] at heq
  | some z =>
    obtain ⟨res', s₁⟩ := z
    obtain ⟨hs₁, hfails⟩ := hvc hcall hs (R.adjoint pp hmv ha)
    rw [hcall] at heq
    cases res' with
    | ok _ => cases heq; exact ⟨hs₁, fun e he => by cases he⟩
    | error e =>
      cases heq
      refine ⟨hs₁, fun e' he => ?_⟩
      cases he
      exact R.lift hmv (hfails _ rfl)

theorem submodeBelow (hvc : R.Keeps vc) {v : VarId C} {mu : MorphVar C H v.obj allowed disallowed}
    {a' : C.Elt v.obj} {a'Hint : CompHint C H v.obj disallowed allowed} {res}
    (heq : submodeBelow vc pp v a' a'Hint s mu = some (res, s')) (hs : R.Inv s)
    (hmu : R.Below v mu) (ha : R.Bound a' a'Hint) :
    R.Inv s' ∧ ∀ e, res = .error e → R.Fails v a' e := by
  unfold Solver.submodeBelow at heq
  cases hcall : Solver.submodeMvcWith vc s pp mu a' a'Hint with
  | none => simp [hcall] at heq
  | some z =>
    obtain ⟨res', s₁⟩ := z
    obtain ⟨hs₁, hrefuses⟩ := R.submodeMvcWith hvc hcall hs (R.left hmu) ha
    rw [hcall] at heq
    cases res' with
    | ok _ => cases heq; exact ⟨R.raiseLower hs₁ hmu, fun e he => by cases he⟩
    | error e =>
      cases heq
      refine ⟨hs₁, fun e' he => ?_⟩
      cases he
      exact R.refused hmu (hrefuses _ rfl)

/-- `find_error` over calls that keep the invariant. -/
theorem findError {α ε : Type} {f : State C H → α → Option (Except ε Unit × State C H)}
    {P : α → ε → Prop} :
    ∀ (xs : List α) {s s' : State C H} {res},
      (∀ x ∈ xs, ∀ {s s' res}, f s x = some (res, s') → R.Inv s →
        R.Inv s' ∧ ∀ e, res = .error e → P x e) →
      findError f s xs = some (res, s') → R.Inv s →
      R.Inv s' ∧ ∀ e, res = .error e → ∃ x ∈ xs, P x e
  | [], s, s', res, _, heq, hs => by
    cases heq
    exact ⟨hs, fun e he => by cases he⟩
  | x :: xs, s, s', res, hf, heq, hs => by
    simp only [Solver.findError] at heq
    cases hcall : f s x with
    | none => simp [hcall] at heq
    | some z =>
      obtain ⟨res', s₁⟩ := z
      obtain ⟨hs₁, hP⟩ := hf x (by simp) hcall hs
      rw [hcall] at heq
      cases res' with
      | ok _ =>
        obtain ⟨hs', hall⟩ :=
          findError xs (fun y hy => hf y (List.mem_cons_of_mem x hy)) heq hs₁
        refine ⟨hs', fun e he => ?_⟩
        obtain ⟨y, hy, hPy⟩ := hall e he
        exact ⟨y, List.mem_cons_of_mem x hy, hPy⟩
      | error e => cases heq; exact ⟨hs₁, fun e' he => ⟨x, by simp, hP e' he⟩⟩

/-- The induction on fuel. -/
theorem submodeVc : ∀ fuel : Nat, R.Keeps (submodeVc fuel) := by
  intro fuel
  induction fuel with
  | zero => intro s pp v a' a'Hint res s' heq; cases heq
  | succ fuel ih =>
    intro s pp v a' a'Hint res s' heq hs ha
    rw [Solver.submodeVc] at heq
    split at heq
    case isTrue => cases heq; exact ⟨hs, fun e he => by cases he⟩
    case isFalse =>
    split at heq
    case isTrue hlow =>
      cases heq
      refine ⟨hs, fun e he => ?_⟩
      cases he
      exact R.fails hs hlow
    case isFalse =>
    dsimp only at heq
    have hs₁ : R.Inv (Solver.updateUpper s v a' a'Hint) := R.updateUpper hs ha
    have hbelow : ∀ mu ∈ ((Solver.updateUpper s v a' a'Hint).get v).vlower, R.Below v mu :=
      fun mu hmu => R.below hs₁ hmu
    cases hcall : Solver.findError (Solver.submodeBelow (Solver.submodeVc fuel) pp v a' a'Hint)
        (Solver.updateUpper s v a' a'Hint)
        ((Solver.updateUpper s v a' a'Hint).get v).vlower with
    | none => simp [hcall] at heq
    | some z =>
      obtain ⟨hs₂, hall⟩ := R.findError (P := fun _ e => R.Fails v a' e) _
        (fun mu hmu _ _ _ hstep h => R.submodeBelow ih hstep h (hbelow mu hmu) ha) hcall hs₁
      rw [hcall] at heq
      cases heq
      refine ⟨R.dropVlower hs₂, fun e he => ?_⟩
      obtain ⟨-, -, hfails⟩ := hall e he
      exact hfails

theorem submodeMvc {fuel : Nat} {a : C.Elt o} {res}
    (heq : submodeMvc fuel s pp mv a aHint = some (res, s')) (hs : R.Inv s) (hmv : R.Left mv)
    (ha : R.Bound a aHint) : R.Inv s' ∧ ∀ e, res = .error e → R.Refuses mv a e :=
  R.submodeMvcWith (R.submodeVc fuel) heq hs hmv ha

end CallRule

/-! ## The bound in an error -/

/-- Lower bounds stay below an assignment that is closed under the edges,
and so do the bounds that errors report. -/
def falseBound (E : Edges C H) (X : Assignment C) (hX : Closed E X) : CallRule C H where
  Inv := fun s => lowers s.heap ≤ X ∧ ∀ v, ∀ mu ∈ edges s.heap v, mu ∈ E v
  Bound := fun _ _ => True
  Left := fun _ => True
  Below := fun v mu => mu ∈ E v
  Fails := fun v a' e => ¬ e.1 ≤ a' ∧ e.1 ≤ X v
  Refuses := fun mv a e => ¬ e.1 ≤ a ∧ e.1 ≤ mv.value X
  updateUpper := fun {s v a' a'Hint} hs _ => by
    rw [updateUpper_lowers, updateUpper_edges]
    exact hs
  raiseLower := fun {s v mu} hs hmu => by
    unfold Solver.raiseLower
    split
    case isFalse => exact hs
    case isTrue =>
      rw [updateLower_lowers, updateLower_edges]
      refine ⟨update_le_iff.2 ⟨sup_le (hs.1 v) ?_, fun w _ => hs.1 w⟩, hs.2⟩
      exact (mu.value_mono hs.1).trans (hX v mu hmu)
  dropVlower := fun {s v} hs => by
    unfold dropVlowerIfTight
    split
    case isFalse => exact hs
    case isTrue =>
      rw [setVlower_lowers, setVlower_edges]
      refine ⟨hs.1, fun w mu hmu => ?_⟩
      by_cases hw : w = v
      · subst hw
        rw [Function.update_self] at hmu
        cases hmu
      · rw [Function.update_of_ne hw] at hmu; exact hs.2 w mu hmu
  below := fun {s v mu} hs hmu => hs.2 v mu hmu
  left := fun _ => trivial
  adjoint := fun _ _ _ => trivial
  fails := fun {s v a'} hs hlow => ⟨hlow, hs.1 v⟩
  refuses := fun {s o r mv a} hs _ hlow => ⟨hlow, mv.value_mono hs.1⟩
  lift := fun {o r mv a e eHint} _ he =>
    ⟨fun hle => he.1 ((C.gc_rightAdjoint mv.morph _ _).1 hle), C.apply_mono mv.morph he.2⟩
  refused := fun {v mu a' e} hmu he => ⟨he.1, he.2.trans (hX v mu hmu)⟩

/-- The value that a failed `submode_mvc` reports is not below the bound
that was asked for, and every assignment over the store is above it. -/
theorem submodeMvc_error {fuel : Nat} {s s' : State C H} {pp : H.Pinpoint}
    {mv : MorphVar C H o allowed r} {a e : C.Elt o} {aHint : CompHint C H o disallowed allowed}
    {eHint : CompHint C H o allowed disallowed}
    (heq : submodeMvc fuel s pp mv a aHint = some (.error (e, eHint), s')) :
    ¬ e ≤ a ∧ ∀ X, Over s.heap X → e ≤ mv.value X := by
  have hrule := fun X (hX : Over s.heap X) =>
    ((falseBound (edges s.heap) X hX.closed).submodeMvc heq
      ⟨hX.lower, fun _ _ hmu => hmu⟩ trivial trivial).2 _ rfl
  exact ⟨(hrule _ (over_least s.heap)).1, fun X hX => (hrule X hX).2⟩

end Oxcaml.Typing.Solver
