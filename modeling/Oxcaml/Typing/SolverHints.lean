/-
Oxcaml.Typing.SolverHints — the hints of the mode solver and the values
they stand for.

A bound is stored with a hint that explains it, and an error returns a
bound with its hint. `populate` later turns the hint into a tree with a
value at each node, and `populate_hint` asserts that the value at the root
is the bound. Nothing ties the two together but the way the solver builds
them: hints are pruned where one side of a join or meet already gives the
result, and carried through morphisms and their adjoints.

`Explained` is the invariant: the hint of each bound in the store
evaluates to that bound, and the hint of each morphvar is its morphism as
a map. `CallRule` carries it through the propagation.
-/
import Oxcaml.Typing.SolverSessions

set_option linter.all false

namespace Oxcaml.Typing.Solver

open Allowance

variable {C : LatticesMono} {H : Hint} {o : C.Obj} {l r : Allowance}

/-! ## Populating -/

/-- The constants of `Hint.Const` that `populate` uses. -/
structure HintConsts (H : Hint) where
  min : ∀ {l}, H.Const l disallowed
  max : ∀ {r}, H.Const disallowed r
  unknown : ∀ {l r}, H.Const l r

/-- The type `ahint`, a value with its `hint`. -/
inductive AHint (C : LatticesMono) (H : Hint) : C.Obj → Allowance → Allowance → Type where
  | apply {a b : C.Obj} {l r : Allowance} (value : C.Elt a) (h : H.Morph l r)
      (m : C.Morph b a l r) (arg : AHint C H b l r) : AHint C H a l r
  | const {a : C.Obj} {l r : Allowance} (value : C.Elt a) (h : H.Const l r) : AHint C H a l r
  | branch {a : C.Obj} {l r : Allowance} (value : C.Elt a) (b : Branch l r)
      (x y : AHint C H a l r) : AHint C H a l r

/-- `fst`. -/
def AHint.value : AHint C H o l r → C.Elt o
  | apply value _ _ _ => value
  | const value _ => value
  | branch value _ _ _ => value

/-- `Morph_hint.populate`, with the result of its continuation. -/
def MorphHint.populate : {a b : C.Obj} → {l r : Allowance} → MorphHint C H a b l r →
    AHint C H a l r → AHint C H b l r
  | _, _, _, _, id, x => x
  | _, _, _, _, base h m, x => .apply (C.apply m x.value) h m x
  | _, _, _, _, compose f g, x => f.populate (g.populate x)

/-- `Comp_hint.populate`. -/
def CompHint.populate (K : HintConsts H) : {a : C.Obj} → {l r : Allowance} → CompHint C H a l r →
    AHint C H a l r
  | _, _, _, min => .const ⊥ K.min
  | _, _, _, max => .const ⊤ K.max
  | _, _, _, unknown c => .const c K.unknown
  | _, _, _, const h c => .const c h
  | _, _, _, apply f h => f.populate (h.populate K)
  | _, _, _, branch .join h₁ h₂ =>
    let x := h₁.populate K
    let y := h₂.populate K
    .branch (x.value ⊔ y.value) .join x y
  | _, _, _, branch .meet h₁ h₂ =>
    let x := h₁.populate K
    let y := h₂.populate K
    .branch (x.value ⊓ y.value) .meet x y

/-- `populate_hint`. `none` is a failed assertion. -/
def populateHint (K : HintConsts H) (a : C.Elt o) (hint : CompHint C H o l r) :
    Option (AHint C H o l r) :=
  let ahint := hint.populate K
  if ahint.value ≤ a ∧ a ≤ ahint.value then some ahint else none

/-- `populate_error`. -/
def populateError (K : HintConsts H) (e : ErrorRaw C H o) :
    Option (AHint C H o allowed disallowed × AHint C H o disallowed allowed) :=
  match populateHint K e.left e.leftHint with
  | none => none
  | some left =>
    match populateHint K e.right e.rightHint with
    | none => none
    | some right => some (left, right)

/-! ## What a hint evaluates to -/

/-- The map that a hint of a morphism stands for. -/
def MorphHint.map : {a b : C.Obj} → {l r : Allowance} → MorphHint C H a b l r → C.Elt a → C.Elt b
  | _, _, _, _, id, x => x
  | _, _, _, _, base _ m, x => C.apply m x
  | _, _, _, _, compose f g, x => f.map (g.map x)

/-- The value that a hint stands for. -/
def CompHint.eval : {a : C.Obj} → {l r : Allowance} → CompHint C H a l r → C.Elt a
  | _, _, _, min => ⊥
  | _, _, _, max => ⊤
  | _, _, _, unknown c => c
  | _, _, _, const _ c => c
  | _, _, _, apply f h => f.map h.eval
  | _, _, _, branch .join h₁ h₂ => h₁.eval ⊔ h₂.eval
  | _, _, _, branch .meet h₁ h₂ => h₁.eval ⊓ h₂.eval

attribute [local grind =] MorphHint.map CompHint.eval MorphHint.populate CompHint.populate
attribute [local grind =] MorphHint.allowLeft MorphHint.allowRight MorphHint.disallowLeft
  MorphHint.disallowRight MorphHint.leftAdjoint MorphHint.rightAdjoint
attribute [local grind =] CompHint.allowLeft CompHint.allowRight CompHint.disallowLeft
  CompHint.disallowRight

theorem MorphHint.populate_value {a b : C.Obj} (f : MorphHint C H a b l r) (x : AHint C H a l r) :
    (f.populate x).value = f.map x.value := by
  induction f with
  | base h m => rfl
  | compose f g ihf ihg => simp only [populate, map, ihf, ihg]
  | id => rfl

theorem CompHint.populate_value (K : HintConsts H) (h : CompHint C H o l r) :
    (h.populate K).value = h.eval := by
  induction h with
  | apply f h ih => simp only [populate, eval, MorphHint.populate_value, ih]
  | const h c => rfl
  | branch b h₁ h₂ ih₁ ih₂ =>
    cases b
    · exact congrArg₂ (· ⊔ ·) ih₁ ih₂
    · exact congrArg₂ (· ⊓ ·) ih₁ ih₂
  | min | max | unknown c => rfl

/-! ### Changing sides -/

namespace MorphHint

@[simp] theorem map_allowLeft : ∀ {a b : C.Obj} {l r : Allowance}
    (f : MorphHint C H a b allowed r) (x : C.Elt a),
    (f.allowLeft : MorphHint C H a b l r).map x = f.map x
  | _, _, _, _, id, _ => by simp only [allowLeft, map]
  | _, _, _, _, base _ m, x => by
    simp only [allowLeft, map]
    exact C.apply_allowLeft m x
  | _, _, _, _, compose f g, x => by
    simp only [allowLeft, map]
    rw [map_allowLeft g, map_allowLeft f]

@[simp] theorem map_allowRight : ∀ {a b : C.Obj} {l r : Allowance}
    (f : MorphHint C H a b l allowed) (x : C.Elt a),
    (f.allowRight : MorphHint C H a b l r).map x = f.map x
  | _, _, _, _, id, _ => by simp only [allowRight, map]
  | _, _, _, _, base _ m, x => by
    simp only [allowRight, map]
    exact C.apply_allowRight m x
  | _, _, _, _, compose f g, x => by
    simp only [allowRight, map]
    rw [map_allowRight g, map_allowRight f]

variable {a b : C.Obj}

@[simp] theorem map_disallowLeft (f : MorphHint C H a b l r) (x : C.Elt a) :
    f.disallowLeft.map x = f.map x := by
  induction f with
  | base h m => exact C.apply_disallowLeft m x
  | compose f g ihf ihg => simp only [disallowLeft, map, ihf, ihg]
  | id => rfl

@[simp] theorem map_disallowRight (f : MorphHint C H a b l r) (x : C.Elt a) :
    f.disallowRight.map x = f.map x := by
  induction f with
  | base h m => exact C.apply_disallowRight m x
  | compose f g ihf ihg => simp only [disallowRight, map, ihf, ihg]
  | id => rfl

/-- The adjoint of a hint is an adjoint of its map. -/
theorem gc_leftAdjoint : ∀ {a b : C.Obj} {l : Allowance} (pp : H.Pinpoint)
    (f : MorphHint C H a b l allowed), GaloisConnection (f.leftAdjoint pp).2.map f.map
  | _, _, _, _, id => fun x y => by simp only [leftAdjoint, map]
  | _, _, _, _, base _ m => fun x y => by
    simp only [leftAdjoint]
    exact C.gc_leftAdjoint m x y
  | _, _, _, pp, compose f g => fun x y => by
    simp only [leftAdjoint]
    exact (gc_leftAdjoint pp f).compose (gc_leftAdjoint _ g) x y

theorem gc_rightAdjoint : ∀ {a b : C.Obj} {r : Allowance} (pp : H.Pinpoint)
    (f : MorphHint C H a b allowed r), GaloisConnection f.map (f.rightAdjoint pp).2.map
  | _, _, _, _, id => fun x y => by simp only [rightAdjoint, map]
  | _, _, _, _, base _ m => fun x y => by
    simp only [rightAdjoint]
    exact C.gc_rightAdjoint m x y
  | _, _, _, pp, compose f g => fun x y => by
    simp only [rightAdjoint]
    exact (gc_rightAdjoint _ g).compose (gc_rightAdjoint pp f) x y

end MorphHint

namespace CompHint

@[simp] theorem eval_allowLeft : ∀ {a : C.Obj} {l r : Allowance} (h : CompHint C H a allowed r),
    (h.allowLeft : CompHint C H a l r).eval = h.eval
  | _, _, _, apply f h => by simp only [allowLeft, eval, MorphHint.map_allowLeft, eval_allowLeft h]
  | _, _, _, const _ _ => by simp only [allowLeft, eval]
  | _, _, _, branch .join h₁ h₂ => by
    simp only [allowLeft, eval, eval_allowLeft h₁, eval_allowLeft h₂]
  | _, _, _, min => by simp only [allowLeft, eval]
  | _, _, _, unknown _ => by simp only [allowLeft, eval]

@[simp] theorem eval_allowRight : ∀ {a : C.Obj} {l r : Allowance} (h : CompHint C H a l allowed),
    (h.allowRight : CompHint C H a l r).eval = h.eval
  | _, _, _, apply f h => by
    simp only [allowRight, eval, MorphHint.map_allowRight, eval_allowRight h]
  | _, _, _, const _ _ => by simp only [allowRight, eval]
  | _, _, _, branch .meet h₁ h₂ => by
    simp only [allowRight, eval, eval_allowRight h₁, eval_allowRight h₂]
  | _, _, _, max => by simp only [allowRight, eval]
  | _, _, _, unknown _ => by simp only [allowRight, eval]

@[simp] theorem eval_disallowLeft (h : CompHint C H o l r) : h.disallowLeft.eval = h.eval := by
  induction h with
  | apply f h ih => simp only [disallowLeft, eval, MorphHint.map_disallowLeft, ih]
  | branch b h₁ h₂ ih₁ ih₂ => cases b <;> simp only [disallowLeft, eval, ih₁, ih₂]
  | _ => simp only [disallowLeft, eval]

@[simp] theorem eval_disallowRight (h : CompHint C H o l r) : h.disallowRight.eval = h.eval := by
  induction h with
  | apply f h ih => simp only [disallowRight, eval, MorphHint.map_disallowRight, ih]
  | branch b h₁ h₂ ih₁ ih₂ => cases b <;> simp only [disallowRight, eval, ih₁, ih₂]
  | _ => simp only [disallowRight, eval]

@[simp] theorem eval_apply {p : C.Obj} (f : MorphHint C H p o l r) (h : CompHint C H p l r) :
    (apply f h).eval = f.map h.eval := by
  simp only [eval]

@[simp] theorem eval_const (h : H.Const l r) (c : C.Elt o) :
    (const h c : CompHint C H o l r).eval = c := by
  simp only [eval]

@[simp] theorem eval_min : (min : CompHint C H o l disallowed).eval = ⊥ := by
  simp only [eval]

@[simp] theorem eval_max : (max : CompHint C H o disallowed r).eval = ⊤ := by
  simp only [eval]

@[simp] theorem eval_unknown (c : C.Elt o) : (unknown c : CompHint C H o l r).eval = c := by
  simp only [eval]

@[simp] theorem eval_join (h₁ h₂ : CompHint C H o l disallowed) :
    (branch .join h₁ h₂).eval = h₁.eval ⊔ h₂.eval := by
  simp only [eval]

@[simp] theorem eval_meet (h₁ h₂ : CompHint C H o disallowed r) :
    (branch .meet h₁ h₂).eval = h₁.eval ⊓ h₂.eval := by
  simp only [eval]

end CompHint

/-! ### Pruned joins and meets -/

variable {a b : C.Elt o}

/-- The hint on the right may be dropped once its bound, or anything above
it, is below the one on the left. -/
theorem hintBiasedJoin_eval {aHint bHint : CompHint C H o l disallowed}
    (ha : aHint.eval = a) (hb : bHint.eval ≤ b) :
    (hintBiasedJoin a aHint b bHint).eval = a ⊔ bHint.eval := by
  unfold hintBiasedJoin
  split
  case isTrue hle => rw [ha, sup_eq_left.2 (hb.trans hle)]
  case isFalse => rw [CompHint.eval_join, ha]

theorem hintJoin_eval {aHint bHint : CompHint C H o l disallowed}
    (ha : aHint.eval = a) (hb : bHint.eval = b) : (hintJoin a aHint b bHint).eval = a ⊔ b := by
  unfold hintJoin
  split
  case isTrue hle => rw [hb, sup_eq_right.2 hle]
  case isFalse => rw [hintBiasedJoin_eval ha hb.le, hb]

theorem hintBiasedMeet_eval {aHint bHint : CompHint C H o disallowed r}
    (ha : a ≤ aHint.eval) (hb : bHint.eval = b) :
    (hintBiasedMeet a aHint b bHint).eval = aHint.eval ⊓ b := by
  unfold hintBiasedMeet
  split
  case isTrue hle => rw [hb, inf_eq_right.2 (hle.trans ha)]
  case isFalse => rw [CompHint.eval_meet, hb]

theorem hintMeet_eval {aHint bHint : CompHint C H o disallowed r}
    (ha : aHint.eval = a) (hb : bHint.eval = b) : (hintMeet a aHint b bHint).eval = a ⊓ b := by
  unfold hintMeet
  split
  case isTrue hle => rw [ha, inf_eq_left.2 hle]
  case isFalse => rw [hintBiasedMeet_eval ha.ge hb, ha]

/-! ## The invariant -/

/-- The hint of a morphvar is its morphism, as a map. -/
def MorphVar.Explained (mv : MorphVar C H o l r) : Prop := ∀ x, mv.hint.map x = C.apply mv.morph x

structure Var.Explained (x : Var C H o) : Prop where
  upper : x.upperHint.eval = x.upper
  lower : x.lowerHint.eval = x.lower
  vlower : ∀ mu ∈ x.vlower, mu.Explained

def Heap.Explained (h : Heap C H) : Prop := ∀ v, (h.get v).Explained

def Mode.Explained : Mode C H o l r → Prop
  | .amode a lo up => lo.eval = a ∧ up.eval = a
  | .amodevar mv => mv.Explained
  | .amodejoin a aHint mvs => aHint.eval = a ∧ ∀ mv ∈ mvs, mv.Explained
  | .amodemeet a aHint mvs => aHint.eval = a ∧ ∀ mv ∈ mvs, mv.Explained

theorem explained_free (o : C.Obj) : (Var.free o : Var C H o).Explained :=
  ⟨CompHint.eval_max, CompHint.eval_min, fun _ hmu => by cases hmu⟩

variable {v : VarId C}

theorem Heap.Explained.set {h : Heap C H} (hh : h.Explained) {x : Var C H v.obj}
    (hx : x.Explained) : (h.set v x).Explained := by
  intro w
  by_cases hw : w = v
  · subst hw; rwa [Heap.set_get_self]
  · rw [Heap.set_get_of_ne h v x hw]; exact hh w

variable {s : State C H}

theorem mlowerHint_eval (hs : s.heap.Explained) {mv : MorphVar C H o allowed r}
    (hmv : mv.Explained) : (mlowerHint s mv).eval = mlower s mv := by
  have hlow : (s.get mv.var).lowerHint.eval = (s.get mv.var).lower := (hs mv.var).lower
  simp only [mlowerHint, CompHint.eval_apply, CompHint.eval_disallowRight,
    MorphHint.map_disallowRight, hlow]
  exact hmv _

variable {mv : MorphVar C H o l allowed}

section

variable (hs : s.heap.Explained)
include hs

theorem mupperHint_eval
    (hmv : mv.Explained) : (mupperHint s mv).eval = mupper s mv := by
  have hup : (s.get mv.var).upperHint.eval = (s.get mv.var).upper := (hs mv.var).upper
  simp only [mupperHint, CompHint.eval_apply, CompHint.eval_disallowLeft,
    MorphHint.map_disallowLeft, hup]
  exact hmv _

theorem explained_updateLower
    {a : C.Elt v.obj} {aHint : CompHint C H v.obj allowed disallowed} (ha : aHint.eval = a) :
    (updateLower s v a aHint).heap.Explained := by
  have hx : (s.get v).Explained := hs v
  refine hs.set ⟨hx.upper, ?_, hx.vlower⟩
  rw [hintBiasedJoin_eval ha (hx.lower.le.trans le_sup_left), hx.lower, sup_comm]

theorem explained_updateUpper
    {a : C.Elt v.obj} {aHint : CompHint C H v.obj disallowed allowed} (ha : aHint.eval = a) :
    (updateUpper s v a aHint).heap.Explained := by
  have hx : (s.get v).Explained := hs v
  refine hs.set ⟨?_, hx.lower, hx.vlower⟩
  rw [hintBiasedMeet_eval (inf_le_left.trans hx.upper.ge) ha, hx.upper]

theorem explained_setVlower
    {vlower : VarMap C H v.obj allowed disallowed} (hv : ∀ mu ∈ vlower, mu.Explained) :
    (setVlower s v vlower).heap.Explained := by
  have hx : (s.get v).Explained := hs v
  exact hs.set ⟨hx.upper, hx.lower, hv⟩

theorem explained_dropVlowerIfTight (v : VarId C) :
    (dropVlowerIfTight s v).heap.Explained := by
  unfold dropVlowerIfTight
  split
  · exact explained_setVlower hs fun _ hmu => by cases hmu
  · exact hs

end

/-- The hint of an adjoint is the adjoint morphism, since adjoints are
unique. -/
theorem MorphVar.Explained.rightAdjoint {mv : MorphVar C H o allowed r} (hmv : mv.Explained)
    (pp : H.Pinpoint) (x : C.Elt o) :
    (mv.hint.rightAdjoint pp).2.map x = C.apply (C.rightAdjoint mv.morph) x :=
  (mv.hint.gc_rightAdjoint pp).u_unique (C.gc_rightAdjoint mv.morph) hmv

theorem MorphVar.Explained.leftAdjoint (hmv : mv.Explained) (pp : H.Pinpoint) (x : C.Elt o) :
    (mv.hint.leftAdjoint pp).2.map x = C.apply (C.leftAdjoint mv.morph) x :=
  (mv.hint.gc_leftAdjoint pp).l_unique (C.gc_leftAdjoint mv.morph) hmv

/-- The rule for hints: the hint of a bound passed down evaluates to it,
and the hint of an error evaluates to the value in it. -/
def explainedRule (C : LatticesMono) (H : Hint) : CallRule C H where
  Inv := fun s => s.heap.Explained
  Bound := fun a aHint => aHint.eval = a
  Left := fun mv => mv.Explained
  Below := fun _ mu => mu.Explained
  Fails := fun _ a' e => ¬ e.1 ≤ a' ∧ e.2.eval = e.1
  Refuses := fun _ a e => ¬ e.1 ≤ a ∧ e.2.eval = e.1
  updateUpper := fun hs ha => explained_updateUpper hs ha
  raiseLower := fun {s v mu} hs hmu => by
    unfold Solver.raiseLower
    split
    · exact explained_updateLower hs (mlowerHint_eval hs hmu)
    · exact hs
  dropVlower := fun hs => explained_dropVlowerIfTight hs _
  below := fun {s v mu} hs hmu => (hs v).vlower mu hmu
  left := fun hmu => hmu
  adjoint := fun {o r mv a aHint} pp hmv ha => by
    rw [CompHint.eval_apply, ha]
    exact hmv.rightAdjoint pp a
  fails := fun {s v a'} hs hlow => ⟨hlow, (hs v).lower⟩
  refuses := fun {s o r mv a} hs hmv hlow => ⟨hlow, mlowerHint_eval hs hmv⟩
  lift := fun {o r mv a e eHint} hmv he => by
    refine ⟨fun hle => he.1 ((C.gc_rightAdjoint mv.morph _ _).1 hle), ?_⟩
    rw [CompHint.eval_apply, MorphHint.map_disallowRight, he.2]
    exact hmv e
  refused := fun _ he => he

/-! ## The calls -/

/-- The two bounds of an error are not in order, and their hints evaluate
to them. -/
structure ErrorRaw.Explained (e : ErrorRaw C H o) : Prop where
  not_le : ¬ e.left ≤ e.right
  left : e.leftHint.eval = e.left
  right : e.rightHint.eval = e.right

theorem submodeCv_explained (hs : s.heap.Explained)
    {a' : C.Elt v.obj} {a'Hint : CompHint C H v.obj allowed disallowed} (ha : a'Hint.eval = a') :
    (submodeCv s v a' a'Hint).2.heap.Explained := by
  unfold submodeCv
  split
  case isTrue => exact hs
  case isFalse =>
  split
  case isTrue => exact hs
  case isFalse => exact explained_dropVlowerIfTight (explained_updateLower hs ha) v

variable {s s' : State C H} {pp : H.Pinpoint}

theorem submodeCmv_explained (hs : s.heap.Explained) {aHint : CompHint C H o allowed disallowed}
    (ha : aHint.eval = a) (hmv : mv.Explained) {res}
    (heq : submodeCmv s pp a aHint mv = some (res, s')) :
    s'.heap.Explained ∧ ∀ e, res = .error e → ¬ a ≤ e.1 ∧ e.2.eval = e.1 := by
  unfold submodeCmv at heq
  split at heq
  case isTrue => cases heq; exact ⟨hs, fun e he => by cases he⟩
  case isFalse =>
  split at heq
  case isTrue hgt =>
    cases heq
    refine ⟨hs, fun e he => ?_⟩
    cases he
    exact ⟨hgt, mupperHint_eval hs hmv⟩
  case isFalse =>
  have hadj : (CompHint.apply (mv.hint.leftAdjoint pp).2 aHint).eval
      = C.apply (C.leftAdjoint mv.morph) a := by
    rw [CompHint.eval_apply, ha]
    exact hmv.leftAdjoint pp a
  have hcv := submodeCv_explained hs hadj
  dsimp only at heq
  split at heq
  case h_1 s₁ hcall =>
    cases heq
    rw [hcall] at hcv
    exact ⟨hcv, fun e he => by cases he⟩
  case h_2 => cases heq

variable {fuel : Nat}

theorem submodeMvc_explained (hs : s.heap.Explained) {mv : MorphVar C H o allowed r}
    (hmv : mv.Explained)
    {aHint : CompHint C H o disallowed allowed} (ha : aHint.eval = a) {res}
    (heq : submodeMvc fuel s pp mv a aHint = some (res, s')) :
    s'.heap.Explained ∧ ∀ e, res = .error e → ¬ e.1 ≤ a ∧ e.2.eval = e.1 :=
  (explainedRule C H).submodeMvc heq hs hmv ha

variable {l₁ r₀ : Allowance}

theorem explained_edge (pp : H.Pinpoint) {mv : MorphVar C H o allowed r₀}
    {mu : MorphVar C H o l₁ allowed} (hmv : mv.Explained) (hmu : mu.Explained) :
    (edge pp mv mu).Explained := by
  intro (x : C.Elt mv.var.obj)
  have hmap : (edge pp mv mu).hint.map x
      = (mu.hint.leftAdjoint pp).2.map (mv.hint.disallowRight.map x) := by
    simp only [edge, MorphHint.map]
  have happly : C.apply (edge pp mv mu).morph x
      = C.apply (C.leftAdjoint mu.morph) (C.apply mv.morph x) := by
    simp only [edge, C.apply_compose, C.apply_disallowRight]
  rw [hmap, happly, MorphHint.map_disallowRight, hmv x]
  exact hmu.leftAdjoint pp _

theorem explained_of_mem_add {b : C.Obj} {x : MorphVar C H b l r} {m : VarMap C H b l r}
    (hx : x.Explained) (hm : ∀ y ∈ m, y.Explained) : ∀ y ∈ VarMap.add x m, y.Explained := by
  intro y hy
  rcases mem_of_mem_add hy with rfl | hy
  · exact hx
  · exact hm y hy

theorem submodeMvmv_explained (hs : s.heap.Explained) {mv : MorphVar C H o allowed r₀}
    {mu : MorphVar C H o l₁ allowed} (hmv : mv.Explained) (hmu : mu.Explained) {res}
    (heq : submodeMvmv fuel s pp mv mu = some (res, s')) :
    s'.heap.Explained ∧ ∀ e, res = .error e → e.Explained := by
  unfold submodeMvmv at heq
  split at heq
  case isTrue => cases heq; exact ⟨hs, fun e he => by cases he⟩
  case isFalse =>
  split at heq
  case isTrue => cases heq; exact ⟨hs, fun e he => by cases he⟩
  case isFalse =>
  dsimp only at heq
  have hup := mupperHint_eval hs hmu
  split at heq
  case h_1 => cases heq
  case h_2 a aHint s₁ hcall =>
    obtain ⟨hs₁, herr⟩ := submodeMvc_explained hs hmv hup hcall
    obtain ⟨hnle, hev⟩ := herr _ rfl
    cases heq
    refine ⟨hs₁, fun e he => ?_⟩
    cases he
    exact ⟨hnle, hev, hup⟩
  case h_3 s₁ hcall =>
    obtain ⟨hs₁, -⟩ := submodeMvc_explained hs hmv hup hcall
    have hlow := mlowerHint_eval hs₁ hmv
    split at heq
    case h_1 => cases heq
    case h_2 a aHint s₂ hcall₂ =>
      obtain ⟨hs₂, herr⟩ := submodeCmv_explained hs₁ hlow hmu hcall₂
      obtain ⟨hnle, hev⟩ := herr _ rfl
      cases heq
      refine ⟨hs₂, fun e he => ?_⟩
      cases he
      exact ⟨hnle, hlow, hev⟩
    case h_3 s₂ hcall₂ =>
      obtain ⟨hs₂, -⟩ := submodeCmv_explained hs₁ hlow hmu hcall₂
      split at heq
      case isTrue =>
        cases heq
        refine ⟨explained_setVlower hs₂ ?_, fun e he => by cases he⟩
        exact explained_of_mem_add (explained_edge pp hmv hmu) (hs₂ mu.var).vlower
      case isFalse => cases heq; exact ⟨hs₂, fun e he => by cases he⟩

def Atom.Explained : Atom C H o → Prop
  | .cc left leftHint right rightHint => leftHint.eval = left ∧ rightHint.eval = right
  | .mvc mv right rightHint => mv.Explained ∧ rightHint.eval = right
  | .cmv left leftHint mv => leftHint.eval = left ∧ mv.Explained
  | .mvmv mv mu => mv.Explained ∧ mu.Explained

theorem runAtom_explained (hs : s.heap.Explained) {x : Atom C H o} (hx : x.Explained) {res}
    (heq : runAtom fuel pp s x = some (res, s')) :
    s'.heap.Explained ∧ ∀ e, res = .error e → e.Explained := by
  cases x with
  | cc left leftHint right rightHint =>
    simp only [runAtom] at heq
    split at heq
    case isTrue => cases heq; exact ⟨hs, fun e he => by cases he⟩
    case isFalse hnle =>
      cases heq
      refine ⟨hs, fun e he => ?_⟩
      cases he
      exact ⟨hnle, hx.1, hx.2⟩
  | mvc mv right rightHint =>
    simp only [runAtom] at heq
    split at heq
    case h_1 => cases heq
    case h_2 s₁ hcall =>
      cases heq
      exact ⟨(submodeMvc_explained hs hx.1 hx.2 hcall).1, fun e he => by cases he⟩
    case h_3 s₁ left leftHint hcall =>
      obtain ⟨hs₁, herr⟩ := submodeMvc_explained hs hx.1 hx.2 hcall
      obtain ⟨hnle, hev⟩ := herr _ rfl
      cases heq
      refine ⟨hs₁, fun e he => ?_⟩
      cases he
      exact ⟨hnle, hev, hx.2⟩
  | cmv left leftHint mv =>
    simp only [runAtom] at heq
    split at heq
    case h_1 => cases heq
    case h_2 s₁ hcall =>
      cases heq
      exact ⟨(submodeCmv_explained hs hx.1 hx.2 hcall).1, fun e he => by cases he⟩
    case h_3 s₁ right rightHint hcall =>
      obtain ⟨hs₁, herr⟩ := submodeCmv_explained hs hx.1 hx.2 hcall
      obtain ⟨hnle, hev⟩ := herr _ rfl
      cases heq
      refine ⟨hs₁, fun e he => ?_⟩
      cases he
      exact ⟨hnle, hx.1, hev⟩
  | mvmv mv mu => exact submodeMvmv_explained hs hx.1 hx.2 heq

theorem submodeAtoms_explained {a : Mode C H o allowed r} {b : Mode C H o l allowed}
    (ha : a.Explained) (hb : b.Explained) : ∀ x ∈ submodeAtoms a b, x.Explained := by
  cases a with
  | amode a lo up
  | amodevar mv => cases b <;> simp_all [submodeAtoms, Atom.Explained, Mode.Explained]
  | amodejoin a aHint mvs =>
    cases b with
    | amode b lo up | amodevar mu => simp_all [submodeAtoms, Atom.Explained, Mode.Explained]
    | amodemeet b bHint mus =>
      simp only [submodeAtoms, List.cons_append, List.forall_mem_cons, List.forall_mem_append,
        List.forall_mem_map, List.mem_flatMap, forall_exists_index, and_imp]
      refine ⟨⟨ha.1, hb.1⟩, ⟨fun mv hmv => ⟨ha.2 mv hmv, hb.1⟩, fun mu hmu => ⟨ha.1, hb.2 mu hmu⟩⟩,
        fun x mu hmu hx => ?_⟩
      obtain ⟨mv, hmv, rfl⟩ := List.mem_map.1 hx
      exact ⟨ha.2 mv hmv, hb.2 mu hmu⟩

theorem submode_explained (hs : s.heap.Explained) {a : Mode C H o allowed r}
    {b : Mode C H o l allowed} (ha : a.Explained)
    (hb : b.Explained) {res} (heq : submode fuel s pp a b = some (res, s')) :
    s'.heap.Explained ∧ ∀ e, res = .error e → e.Explained := by
  have hatoms := submodeAtoms_explained ha hb
  obtain ⟨hs', herr⟩ := (explainedRule C H).findError
    (P := fun _ (e : ErrorRaw C H o) => e.Explained) _
    (fun x hx _ _ _ hstep h => runAtom_explained h (hatoms x hx) hstep) heq hs
  refine ⟨hs', fun e he => ?_⟩
  obtain ⟨-, -, hex⟩ := herr e he
  exact hex

/-! ## The modes that the interface builds -/

theorem MorphVar.Explained.disallowLeft {mv : MorphVar C H o l r} (hmv : mv.Explained) :
    mv.disallowLeft.Explained := by
  exact fun x => (MorphHint.map_disallowLeft _ x).trans
    ((hmv x).trans (C.apply_disallowLeft _ x).symm)

theorem MorphVar.Explained.disallowRight {mv : MorphVar C H o l r} (hmv : mv.Explained) :
    mv.disallowRight.Explained := by
  exact fun x => (MorphHint.map_disallowRight _ x).trans
    ((hmv x).trans (C.apply_disallowRight _ x).symm)

theorem MorphVar.Explained.allowLeft {mv : MorphVar C H o allowed r} (hmv : mv.Explained) :
    (mv.allowLeft : MorphVar C H o l r).Explained := by
  exact fun x => (MorphHint.map_allowLeft _ x).trans ((hmv x).trans (C.apply_allowLeft _ x).symm)

theorem MorphVar.Explained.allowRight (hmv : mv.Explained) :
    (mv.allowRight : MorphVar C H o l r).Explained := by
  exact fun x => (MorphHint.map_allowRight _ x).trans ((hmv x).trans (C.apply_allowRight _ x).symm)

namespace Mode.Explained

variable {m : Mode C H o l r}

theorem disallowLeft (hm : m.Explained) : m.disallowLeft.Explained := by
  cases m with
  | amode a lo up => exact ⟨by simpa using hm.1, hm.2⟩
  | amodevar mv => exact MorphVar.Explained.disallowLeft hm
  | amodejoin a aHint mvs =>
    exact ⟨by simpa using hm.1, List.forall_mem_map.2 fun mv hmv => (hm.2 mv hmv).disallowLeft⟩
  | amodemeet a aHint mvs =>
    exact ⟨hm.1, List.forall_mem_map.2 fun mv hmv => (hm.2 mv hmv).disallowLeft⟩

theorem disallowRight (hm : m.Explained) : m.disallowRight.Explained := by
  cases m with
  | amode a lo up => exact ⟨hm.1, by simpa using hm.2⟩
  | amodevar mv => exact MorphVar.Explained.disallowRight hm
  | amodejoin a aHint mvs =>
    exact ⟨hm.1, List.forall_mem_map.2 fun mv hmv => (hm.2 mv hmv).disallowRight⟩
  | amodemeet a aHint mvs =>
    exact ⟨by simpa using hm.1, List.forall_mem_map.2 fun mv hmv => (hm.2 mv hmv).disallowRight⟩

theorem allowLeft {m : Mode C H o allowed r} (hm : m.Explained) :
    (m.allowLeft : Mode C H o l r).Explained := by
  cases m with
  | amode a lo up => exact ⟨by simpa using hm.1, hm.2⟩
  | amodevar mv => exact MorphVar.Explained.allowLeft hm
  | amodejoin a aHint mvs =>
    exact ⟨by simpa using hm.1, List.forall_mem_map.2 fun mv hmv => (hm.2 mv hmv).allowLeft⟩

theorem allowRight {m : Mode C H o l allowed} (hm : m.Explained) :
    (m.allowRight : Mode C H o l r).Explained := by
  cases m with
  | amode a lo up => exact ⟨hm.1, by simpa using hm.2⟩
  | amodevar mv => exact MorphVar.Explained.allowRight hm
  | amodemeet a aHint mvs =>
    exact ⟨by simpa using hm.1, List.forall_mem_map.2 fun mv hmv => (hm.2 mv hmv).allowRight⟩

end Mode.Explained

theorem explained_min : (Mode.min : Mode C H o l r).Explained := ⟨by simp, by simp⟩

theorem explained_max : (Mode.max : Mode C H o l r).Explained := ⟨by simp, by simp⟩

theorem explained_ofConst (hint : Option (H.Const l r)) (a : C.Elt o) :
    (Mode.ofConst hint a : Mode C H o l r).Explained := by
  cases hint <;> exact ⟨by simp, by simp⟩

theorem explained_unknownConst (a : C.Elt o) : (unknownConst a : Mode C H o l r).Explained :=
  ⟨by simp, by simp⟩

theorem explained_freshVar (h : Heap C H) (o : C.Obj) :
    (freshVar h o : MorphVar C H o l r).Explained := fun x =>
  (C.apply_id x).symm

section Apply

variable {p : C.Obj}

theorem explained_applyMorphvar {f : C.Morph p o l r} {hint : MorphHint C H p o l r}
    (hf : ∀ x, hint.map x = C.apply f x) {mv : MorphVar C H p l r} (hmv : mv.Explained) :
    (applyMorphvar f hint mv).Explained := by
  intro (x : C.Elt mv.var.obj)
  simp only [applyMorphvar, MorphHint.map, hf, hmv x]
  exact (C.apply_compose f mv.morph x).symm

theorem explained_foldl_add {f : MorphVar C H p l r → MorphVar C H o l r}
    (hf : ∀ mv, mv.Explained → (f mv).Explained) :
    ∀ (mvs : VarMap C H p l r) (acc : VarMap C H o l r), (∀ mv ∈ mvs, mv.Explained) →
      (∀ y ∈ acc, y.Explained) →
      ∀ y ∈ mvs.foldl (fun acc mv => VarMap.add (f mv) acc) acc, y.Explained
  | [], _, _, hacc => hacc
  | mv :: mvs, acc, hmvs, hacc =>
    explained_foldl_add hf mvs _ (fun mv' hmem => hmvs mv' (List.mem_cons_of_mem mv hmem))
      (explained_of_mem_add (hf mv (hmvs mv (by simp))) hacc)

theorem explained_apply (hint : H.Morph l r) (f : C.Morph p o l r) {m : Mode C H p l r}
    (hm : m.Explained) : (apply hint f m).Explained := by
  cases m with
  | amode a lo up =>
    refine ⟨?_, ?_⟩
    · simp [MorphHint.map, hm.1]
    · simp [MorphHint.map, hm.2]
  | amodevar mv => exact explained_applyMorphvar (fun x => by simp only [MorphHint.map]) hm
  | amodejoin a aHint mvs =>
    refine ⟨by simp [MorphHint.map, hm.1], explained_foldl_add (fun mv hmv => ?_) mvs [] hm.2
      fun _ hy => by cases hy⟩
    exact explained_applyMorphvar (fun x => by simp [MorphHint.map]) hmv
  | amodemeet a aHint mvs =>
    refine ⟨by simp [MorphHint.map, hm.1], explained_foldl_add (fun mv hmv => ?_) mvs [] hm.2
      fun _ hy => by cases hy⟩
    exact explained_applyMorphvar (fun x => by simp [MorphHint.map]) hmv

end Apply

theorem explained_union {b : C.Obj} {m₀ m₁ : VarMap C H b l r} (h₀ : ∀ y ∈ m₀, y.Explained)
    (h₁ : ∀ y ∈ m₁, y.Explained) : ∀ y ∈ VarMap.union m₀ m₁, y.Explained := by
  induction m₀ with
  | nil => exact h₁
  | cons x m₀ ih =>
    exact explained_of_mem_add (h₀ x (by simp)) (ih fun y hy => h₀ y (List.mem_cons_of_mem x hy))

theorem explained_joinLoop (hs : s.heap.Explained) :
    ∀ (ms : List (Mode C H o allowed r)) (a : C.Elt o) (aHint : CompHint C H o allowed disallowed)
      (mvs : VarMap C H o allowed disallowed), (∀ m ∈ ms, m.Explained) → aHint.eval = a →
      (∀ mv ∈ mvs, mv.Explained) → (joinLoop s a aHint mvs ms).Explained := by
  intro ms
  induction ms with
  | nil =>
    intro a aHint mvs _ ha hmvs
    rw [joinLoop]
    split
    case isTrue htop => exact ⟨ha, by rw [CompHint.eval_max, top_le_iff.1 htop]⟩
    case isFalse => exact ⟨ha, hmvs⟩
  | cons m ms ih =>
    intro a aHint mvs hms ha hmvs
    rw [joinLoop]
    split
    case isTrue htop => exact ⟨ha, by rw [CompHint.eval_max, top_le_iff.1 htop]⟩
    case isFalse =>
    obtain ⟨hm, hms⟩ := List.forall_mem_cons.1 hms
    have hm := hm.disallowRight
    generalize m.disallowRight = m' at hm
    cases m' with
    | amode b lo up => exact ih _ _ _ hms (hintJoin_eval ha (by simpa using hm.1)) hmvs
    | amodevar mv =>
      exact ih _ _ _ hms (hintJoin_eval ha (mlowerHint_eval hs hm)) (explained_of_mem_add hm hmvs)
    | amodejoin b bHint mvs' =>
      exact ih _ _ _ hms (hintJoin_eval ha hm.1) (explained_union hm.2 hmvs)

theorem explained_meetLoop (hs : s.heap.Explained) :
    ∀ (ms : List (Mode C H o l allowed)) (a : C.Elt o) (aHint : CompHint C H o disallowed allowed)
      (mvs : VarMap C H o disallowed allowed), (∀ m ∈ ms, m.Explained) → aHint.eval = a →
      (∀ mv ∈ mvs, mv.Explained) → (meetLoop s a aHint mvs ms).Explained := by
  intro ms
  induction ms with
  | nil =>
    intro a aHint mvs _ ha hmvs
    rw [meetLoop]
    split
    case isTrue hbot => exact ⟨by rw [CompHint.eval_min, le_bot_iff.1 hbot], ha⟩
    case isFalse => exact ⟨ha, hmvs⟩
  | cons m ms ih =>
    intro a aHint mvs hms ha hmvs
    rw [meetLoop]
    split
    case isTrue hbot => exact ⟨by rw [CompHint.eval_min, le_bot_iff.1 hbot], ha⟩
    case isFalse =>
    obtain ⟨hm, hms⟩ := List.forall_mem_cons.1 hms
    have hm := hm.disallowLeft
    generalize m.disallowLeft = m' at hm
    cases m' with
    | amode b lo up => exact ih _ _ _ hms (hintMeet_eval ha (by simpa using hm.2)) hmvs
    | amodevar mv =>
      exact ih _ _ _ hms (hintMeet_eval ha (mupperHint_eval hs hm)) (explained_of_mem_add hm hmvs)
    | amodemeet b bHint mvs' =>
      exact ih _ _ _ hms (hintMeet_eval ha hm.1) (explained_union hm.2 hmvs)

end Oxcaml.Typing.Solver
