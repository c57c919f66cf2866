/-
Oxcaml.Typing.SolverRuns — whole runs of the mode solver.

`SolverTheorems` says what one call does to the assignments that a store
admits. Here a run is any sequence of `newvar`, `newvar_above`,
`newvar_below` and `submode`, from the empty store, where a failed
`submode` is undone with its log. `apply`, `join` and `meet` do not touch
the store: they build the modes that those calls take, and the lemmas on
`Mode.value` say what the modes they build mean.

A run collects the constraints it accepted. As long as every `submode`
is safe (`AtomsSafe`), the store admits exactly the assignments that
satisfy them, and the next safe `submode` succeeds if and only if some of
these satisfy its constraint too. The last section has a run that is not
safe, in which the solver accepts a constraint that its upper bounds do
not satisfy.
-/
import Oxcaml.Typing.SolverTheorems

set_option linter.all false

namespace Oxcaml.Typing.Solver

open Function (update update_of_ne update_self)

open Allowance

variable {C : LatticesMono} {H : Hint} {o p : C.Obj} {l r l' r' : Allowance}

/-! ## The value of a mode -/

def Mode.value (ρ : Assignment C) : Mode C H o l r → C.Elt o
  | .amode a _ _ => a
  | .amodevar mv => mv.value ρ
  | .amodejoin a _ mvs => mvs.foldr (fun mv x => mv.value ρ ⊔ x) a
  | .amodemeet a _ mvs => mvs.foldr (fun mv x => mv.value ρ ⊓ x) a

/-- The variables of a mode are among `vs`. -/
def Mode.Over (vs : List (VarId C)) : Mode C H o l r → Prop
  | .amode _ _ _ => True
  | .amodevar mv => mv.var ∈ vs
  | .amodejoin _ _ mvs => ∀ mv ∈ mvs, mv.var ∈ vs
  | .amodemeet _ _ mvs => ∀ mv ∈ mvs, mv.var ∈ vs

instance (vs : List (VarId C)) : (m : Mode C H o l r) → Decidable (m.Over vs)
  | .amode _ _ _ => .isTrue trivial
  | .amodevar mv => inferInstanceAs (Decidable (mv.var ∈ vs))
  | .amodejoin _ _ mvs => inferInstanceAs (Decidable (∀ mv ∈ mvs, mv.var ∈ vs))
  | .amodemeet _ _ mvs => inferInstanceAs (Decidable (∀ mv ∈ mvs, mv.var ∈ vs))

section Value

variable (ρ : Assignment C) (a : C.Elt o)

@[simp] theorem Mode.value_amode (lo : CompHint C H o l r') (up : CompHint C H o l' r) :
    (Mode.amode a lo up).value ρ = a := rfl

@[simp] theorem Mode.value_amodevar (mv : MorphVar C H o l r) :
    (Mode.amodevar mv).value ρ = mv.value ρ := rfl

theorem Mode.value_amodejoin (aHint : CompHint C H o l disallowed)
    (mvs : VarMap C H o l disallowed) :
    (Mode.amodejoin a aHint mvs).value ρ = mvs.foldr (fun mv x => mv.value ρ ⊔ x) a := rfl

theorem Mode.value_amodemeet (aHint : CompHint C H o disallowed r)
    (mvs : VarMap C H o disallowed r) :
    (Mode.amodemeet a aHint mvs).value ρ = mvs.foldr (fun mv x => mv.value ρ ⊓ x) a := rfl

end Value

variable {ρ : Assignment C} {mvs : VarMap C H o l r}

theorem foldr_sup_le {a c : C.Elt o} :
    mvs.foldr (fun mv x => mv.value ρ ⊔ x) a ≤ c ↔ a ≤ c ∧ ∀ mv ∈ mvs, mv.value ρ ≤ c := by
  induction mvs with
  | nil => simp
  | cons mv mvs ih =>
    simp only [List.foldr_cons, sup_le_iff, ih, List.forall_mem_cons]
    exact and_left_comm

theorem le_foldr_inf {a c : C.Elt o} :
    c ≤ mvs.foldr (fun mv x => mv.value ρ ⊓ x) a ↔ c ≤ a ∧ ∀ mv ∈ mvs, c ≤ mv.value ρ := by
  induction mvs with
  | nil => simp
  | cons mv mvs ih =>
    simp only [List.foldr_cons, le_inf_iff, ih, List.forall_mem_cons]
    exact and_left_comm

@[simp] theorem applyMorphvar_value (f : C.Morph p o l r) (hint : MorphHint C H p o l r)
    (mv : MorphVar C H p l r) (ρ : Assignment C) :
    (applyMorphvar f hint mv).value ρ = C.apply f (mv.value ρ) :=
  C.apply_compose ..

@[simp] theorem disallowRight_value (mv : MorphVar C H o l r) (ρ : Assignment C) :
    mv.disallowRight.value ρ = mv.value ρ :=
  C.apply_disallowRight ..

@[simp] theorem disallowLeft_value (mv : MorphVar C H o l r) (ρ : Assignment C) :
    mv.disallowLeft.value ρ = mv.value ρ :=
  C.apply_disallowLeft ..

theorem Mode.disallowRight_value (m : Mode C H o l r) (ρ : Assignment C) :
    m.disallowRight.value ρ = m.value ρ := by
  cases m <;> simp [Mode.disallowRight, Mode.value, List.foldr_map]

theorem Mode.disallowLeft_value (m : Mode C H o l r) (ρ : Assignment C) :
    m.disallowLeft.value ρ = m.value ρ := by
  cases m <;> simp [Mode.disallowLeft, Mode.value, List.foldr_map]

variable {vs : List (VarId C)}

theorem Mode.Over.disallowRight {m : Mode C H o l r} (h : m.Over vs) : m.disallowRight.Over vs := by
  cases m <;> simp_all [Mode.disallowRight, Mode.Over, MorphVar.disallowRight]

theorem Mode.Over.disallowLeft {m : Mode C H o l r} (h : m.Over vs) : m.disallowLeft.Over vs := by
  cases m <;> simp_all [Mode.disallowLeft, Mode.Over, MorphVar.disallowLeft]

/-! ## The constraints of `submode` -/

def Atom.Holds (ρ : Assignment C) : Atom C H o → Prop
  | .cc left _ right _ => left ≤ right
  | .mvc mv right _ => mv.value ρ ≤ right
  | .cmv left _ mv => left ≤ mv.value ρ
  | .mvmv mv mu => mv.value ρ ≤ mu.value ρ

def Atom.Over (vs : List (VarId C)) : Atom C H o → Prop
  | .cc _ _ _ _ => True
  | .mvc mv _ _ => mv.var ∈ vs
  | .cmv _ _ mv => mv.var ∈ vs
  | .mvmv mv mu => mv.var ∈ vs ∧ mu.var ∈ vs

/-- The condition under which a constraint may be added to `A`. Only
`submode_mvmv` has one. -/
def AtomSafe (A : Set (Assignment C)) : Atom C H o → Prop
  | .mvmv mv mu => MvmvSafe A mv mu
  | _ => True

/-- Each constraint is safe where those before it hold. -/
def AtomsSafe : Set (Assignment C) → List (Atom C H o) → Prop
  | _, [] => True
  | A, x :: xs => AtomSafe A x ∧ AtomsSafe {ρ ∈ A | x.Holds ρ} xs

/-- The constraints of `submode a b` say that `a` is below `b`. -/
theorem submodeAtoms_hold (a : Mode C H o allowed r) (b : Mode C H o l allowed) :
    (∀ x ∈ submodeAtoms a b, x.Holds ρ) ↔ a.value ρ ≤ b.value ρ := by
  cases a with
  | amode a lo up =>
    cases b with
    | amode b lo' up' | amodevar mu => simp [submodeAtoms, Atom.Holds]
    | amodemeet b bHint mus =>
      simp [submodeAtoms, Atom.Holds, Mode.value_amodemeet, le_foldr_inf]
  | amodevar mv =>
    cases b with
    | amode b lo' up' | amodevar mu => simp [submodeAtoms, Atom.Holds]
    | amodemeet b bHint mus =>
      simp [submodeAtoms, Atom.Holds, Mode.value_amodemeet, le_foldr_inf]
  | amodejoin a aHint mvs =>
    cases b with
    | amode b lo' up'
    | amodevar mu => simp [submodeAtoms, Atom.Holds, Mode.value_amodejoin, foldr_sup_le]
    | amodemeet b bHint mus =>
      simp only [submodeAtoms, Mode.value_amodejoin, Mode.value_amodemeet, foldr_sup_le,
        le_foldr_inf, List.cons_append, List.forall_mem_cons, List.forall_mem_append,
        List.forall_mem_map, List.mem_flatMap, forall_exists_index, and_imp]
      constructor
      · rintro ⟨hab, ⟨hmv, hmu⟩, hall⟩
        refine ⟨⟨hab, hmv⟩, fun mu hmem => ⟨hmu mu hmem, fun mv hmem' => ?_⟩⟩
        exact hall _ mu hmem (List.mem_map_of_mem hmem')
      rintro ⟨⟨hab, hmv⟩, hall⟩
      refine ⟨hab, ⟨hmv, fun mu hmem => (hall mu hmem).1⟩, fun x mu hmem hx => ?_⟩
      obtain ⟨mv, hmv, rfl⟩ := List.mem_map.1 hx
      exact (hall mu hmem).2 mv hmv

variable {b : Mode C H o l allowed}

variable {a : Mode C H o allowed r}

theorem submodeAtoms_over (ha : a.Over vs) (hb : b.Over vs) :
    ∀ x ∈ submodeAtoms a b, x.Over vs := by
  cases a with
  | amode a lo up => cases b <;> simp_all [submodeAtoms, Atom.Over, Mode.Over]
  | amodevar mv =>
    cases b with
    | amode b lo' up' => simpa [submodeAtoms, Atom.Over, Mode.Over] using ha
    | amodevar mu => simpa [submodeAtoms] using ⟨ha, hb⟩
    | amodemeet b bHint mus => simpa [submodeAtoms] using ⟨ha, fun mu hmu => ⟨ha, hb mu hmu⟩⟩
  | amodejoin a aHint mvs =>
    cases b with
    | amode b lo' up' => simpa [submodeAtoms, Atom.Over, Mode.Over] using ha
    | amodevar mu => simpa [submodeAtoms] using ⟨hb, fun mv hmv => ⟨ha mv hmv, hb⟩⟩
    | amodemeet b bHint mus =>
      simp only [submodeAtoms, List.cons_append, List.forall_mem_cons, List.forall_mem_append,
        List.forall_mem_map, List.mem_flatMap, forall_exists_index, and_imp]
      refine ⟨trivial, ⟨ha, hb⟩, fun x mu hmu hx => ?_⟩
      obtain ⟨mv, hmv, rfl⟩ := List.mem_map.1 hx
      exact ⟨ha mv hmv, hb mu hmu⟩

variable {fuel : Nat}

variable {s : State C H}

theorem runAtom_decides (hi : Inv s.heap)
    (hfuel : enough s.heap ≤ fuel) (pp : H.Pinpoint) {x : Atom C H o} (hx : x.Over s.heap.vars)
    (hsafe : AtomSafe {ρ | Admits s.heap ρ} x) :
    ∃ res s', runAtom fuel pp s x = some (res, s') ∧ Decides (fun ρ => x.Holds ρ) s res s' := by
  cases x with
  | cc left leftHint right rightHint =>
    simp only [runAtom]
    split
    case isTrue hle => exact ⟨_, _, rfl, .of_narrows (.refl hi fun _ _ => hle)⟩
    case isFalse hle => exact ⟨_, _, rfl, .of_error (.refl s) fun _ _ h => hle h⟩
  | mvc mv right rightHint =>
    obtain ⟨res, s', heq, h⟩ := submodeMvc_decides hi hfuel pp mv right rightHint hx
    simp only [runAtom, heq]
    cases res with
    | ok _ => exact ⟨_, _, rfl, .of_narrows (h.narrows rfl)⟩
    | error e => exact ⟨_, _, rfl, .of_error h.undoes (h.fails e rfl)⟩
  | cmv left leftHint mv =>
    obtain ⟨res, s', heq, h⟩ := submodeCmv_decides hi pp left leftHint mv hx
    simp only [runAtom, heq]
    cases res with
    | ok _ => exact ⟨_, _, rfl, .of_narrows (h.narrows rfl)⟩
    | error e => exact ⟨_, _, rfl, .of_error h.undoes (h.fails e rfl)⟩
  | mvmv mv mu => exact submodeMvmv_decides hi hfuel pp mv mu hx.1 hx.2 hsafe

variable {K : Assignment C → Prop} {s s' : State C H}

theorem Narrows.admits_set (h : Narrows K s s') :
    {ρ | Admits s'.heap ρ} = {ρ ∈ {ρ | Admits s.heap ρ} | K ρ} :=
  Set.ext h.admits

theorem Narrows.enough_le (h : Narrows K s s') : enough s'.heap ≤ enough s.heap :=
  Nat.succ_le_succ h.potential_le

theorem runAtoms_decides (pp : H.Pinpoint) :
    ∀ (xs : List (Atom C H o)) (s : State C H), Inv s.heap → enough s.heap ≤ fuel →
      (∀ x ∈ xs, x.Over s.heap.vars) → AtomsSafe {ρ | Admits s.heap ρ} xs →
      ∃ res s', findError (runAtom fuel pp) s xs = some (res, s') ∧
        Decides (fun ρ => ∀ x ∈ xs, x.Holds ρ) s res s'
  | [], s, hi, _, _, _ => ⟨_, _, rfl, .of_narrows (.refl hi (by simp))⟩
  | x :: xs, s, hi, hfuel, hover, hsafe => by
    obtain ⟨res, s₁, heq, h₁⟩ := runAtom_decides hi hfuel pp (hover x (by simp)) hsafe.1
    simp only [findError, heq]
    cases res with
    | error e =>
      refine ⟨_, _, rfl, .of_error h₁.undoes fun ρ hρ hK => h₁.fails e rfl ρ hρ ?_⟩
      exact hK x (by simp)
    | ok _ =>
      have hn₁ := h₁.narrows rfl
      obtain ⟨res, s₂, heq₂, h₂⟩ := runAtoms_decides pp xs s₁ hn₁.inv (hn₁.enough_le.trans hfuel)
        (fun y hy => hn₁.vars_eq ▸ hover y (List.mem_cons_of_mem x hy))
        (hn₁.admits_set ▸ hsafe.2)
      refine ⟨res, s₂, heq₂, h₁.undoes.trans h₂.undoes, fun hr => ?_, fun e hr ρ hρ hK => ?_⟩
      · exact (hn₁.trans (h₂.narrows hr)).congr fun ρ _ => List.forall_mem_cons.symm
      · obtain ⟨hx, hxs⟩ := List.forall_mem_cons.1 hK
        exact h₂.fails e hr ρ ((hn₁.admits ρ).2 ⟨hρ, hx⟩) hxs

theorem submode_decides (hi : Inv s.heap)
    (hfuel : enough s.heap ≤ fuel) (pp : H.Pinpoint) (ha : a.Over s.heap.vars)
      (hb : b.Over s.heap.vars)
    (hsafe : AtomsSafe {ρ | Admits s.heap ρ} (submodeAtoms a b)) :
    ∃ res s', submode fuel s pp a b = some (res, s') ∧
      Decides (fun ρ => a.value ρ ≤ b.value ρ) s res s' := by
  obtain ⟨res, s', heq, h⟩ := runAtoms_decides pp (submodeAtoms a b) s hi hfuel
    (submodeAtoms_over ha hb) hsafe
  simp only [submodeAtoms_hold] at h
  exact ⟨res, s', heq, h⟩

/-! ## More fuel changes nothing -/

variable {pp : H.Pinpoint} {mv : MorphVar C H o allowed r}

theorem submodeMvcWith_extends {vc vc' : SubmodeVc C H}
    (h : ∀ s pp v a' a'Hint y, vc s pp v a' a'Hint = some y → vc' s pp v a' a'Hint = some y)
      {a : C.Elt o}
    {aHint : CompHint C H o disallowed allowed} {y}
    (heq : submodeMvcWith vc s pp mv a aHint = some y) :
    submodeMvcWith vc' s pp mv a aHint = some y := by
  unfold submodeMvcWith at heq ⊢
  split at heq
  case isTrue hle => simpa [hle] using heq
  case isFalse hle =>
  split at heq
  case isTrue hlow => simpa [hle, hlow] using heq
  case isFalse hlow =>
  rw [if_neg hle, if_neg hlow]
  dsimp only at heq ⊢
  cases hvc : vc s (mv.hint.rightAdjoint pp).1 mv.var (C.apply (C.rightAdjoint mv.morph) a)
      (.apply (mv.hint.rightAdjoint pp).2 aHint) with
  | none => simp [hvc] at heq
  | some z =>
    rw [hvc] at heq
    rw [h _ _ _ _ _ _ hvc]
    exact heq

variable {α ε : Type}

theorem findError_extends {f f' : State C H → α → Option (Except ε Unit × State C H)}
    (h : ∀ s x y, f s x = some y → f' s x = some y) :
    ∀ (xs : List α) (s : State C H) (y), findError f s xs = some y → findError f' s xs = some y
  | [], _, _, heq => heq
  | x :: xs, s, y, heq => by
    simp only [findError] at heq ⊢
    cases hf : f s x with
    | none => simp [hf] at heq
    | some z =>
      rw [hf] at heq
      rw [h s x z hf]
      obtain ⟨_ | _, s₁⟩ := z
      · exact heq
      · exact findError_extends h xs s₁ y heq

theorem submodeVc_extends : ∀ (s : State C H) pp v a' a'Hint y,
    submodeVc fuel s pp v a' a'Hint = some y → submodeVc (fuel + 1) s pp v a' a'Hint = some y := by
  induction fuel with
  | zero => exact fun _ _ _ _ _ _ h => by cases h
  | succ fuel ih =>
    intro s pp v a' a'Hint y heq
    rw [submodeVc] at heq ⊢
    split at heq
    case isTrue hle => simpa [hle] using heq
    case isFalse hle =>
    split at heq
    case isTrue hlow => simpa [hle, hlow] using heq
    case isFalse hlow =>
    rw [if_neg hle, if_neg hlow]
    dsimp only at heq ⊢
    have hbelow : ∀ s mu y, submodeBelow (submodeVc fuel) pp v a' a'Hint s mu = some y →
        submodeBelow (submodeVc (fuel + 1)) pp v a' a'Hint s mu = some y := by
      intro s mu y hy
      unfold submodeBelow at hy ⊢
      cases hmvc : submodeMvcWith (submodeVc fuel) s pp mu a' a'Hint with
      | none => simp [hmvc] at hy
      | some z =>
        rw [hmvc] at hy
        rw [submodeMvcWith_extends ih hmvc]
        exact hy
    cases hfind : findError (submodeBelow (submodeVc fuel) pp v a' a'Hint)
        (updateUpper s v a' a'Hint) ((updateUpper s v a' a'Hint).get v).vlower with
    | none => simp [hfind] at heq
    | some z =>
      rw [hfind] at heq
      rw [findError_extends hbelow _ _ _ hfind]
      exact heq

variable {mu : MorphVar C H o l allowed}

theorem submodeMvmv_extends {y} (heq : submodeMvmv fuel s pp mv mu = some y) :
    submodeMvmv (fuel + 1) s pp mv mu = some y := by
  unfold submodeMvmv at heq ⊢
  split at heq
  case isTrue hle => simpa [hle] using heq
  case isFalse hle =>
  split at heq
  case isTrue heqv => simpa [heqv] using heq
  case isFalse heqv =>
  rw [if_neg hle, if_neg heqv]
  dsimp only at heq ⊢
  cases hmvc : submodeMvc fuel s pp mv (mupper s mu) (mupperHint s mu) with
  | none => simp [hmvc] at heq
  | some z =>
    rw [hmvc] at heq
    rw [show submodeMvc (fuel + 1) s pp mv (mupper s mu) (mupperHint s mu) = some z from
      submodeMvcWith_extends submodeVc_extends hmvc]
    exact heq

theorem submode_extends {y}
    (heq : submode fuel s pp a b = some y) : submode (fuel + 1) s pp a b = some y := by
  refine findError_extends (fun s x y hx => ?_) _ s y heq
  cases x with
  | cc left leftHint right rightHint => exact hx
  | mvc mv right rightHint =>
    simp only [runAtom] at hx ⊢
    cases hmvc : submodeMvc fuel s pp mv right rightHint with
    | none => simp [hmvc] at hx
    | some z =>
      rw [hmvc] at hx
      rw [show submodeMvc (fuel + 1) s pp mv right rightHint = some z from
        submodeMvcWith_extends submodeVc_extends hmvc]
      exact hx
  | cmv left leftHint mv => exact hx
  | mvmv mv mu => exact submodeMvmv_extends hx

/-- The call returns `x`, given enough fuel. -/
def Returns {α : Type} (f : Nat → Option α) (x : α) : Prop := ∃ n, ∀ fuel,
    n ≤ fuel → f fuel = some x

theorem Returns.unique {f : Nat → Option α} {x y : α} (hx : Returns f x)
    (hy : Returns f y) : x = y := by
  obtain ⟨n, hn⟩ := hx
  obtain ⟨m, hm⟩ := hy
  exact Option.some.inj ((hn _ (le_max_left n m)).symm.trans (hm _ (le_max_right n m)))

theorem returns_of_extends {f : Nat → Option α} {x : α} {n : Nat}
    (h : ∀ fuel y, f fuel = some y → f (fuel + 1) = some y) (hx : f n = some x) : Returns f x := by
  refine ⟨n, fun fuel hle => ?_⟩
  induction fuel, hle using Nat.le_induction with
  | base => exact hx
  | succ fuel _ ih => exact h fuel x ih

theorem submode_returns (hi : Inv s.heap) (pp : H.Pinpoint) (ha : a.Over s.heap.vars)
    (hb : b.Over s.heap.vars) (hsafe : AtomsSafe {ρ | Admits s.heap ρ} (submodeAtoms a b)) :
    ∃ res s', Returns (fun fuel => submode fuel s pp a b) (res, s') ∧
      Decides (fun ρ => a.value ρ ≤ b.value ρ) s res s' := by
  obtain ⟨res, s', heq, h⟩ := submode_decides hi le_rfl pp ha hb hsafe
  exact ⟨res, s', returns_of_extends (fun _ _ => submode_extends) heq, h⟩

/-! ## New variables -/

section Fresh

variable {h : Heap C H}

theorem freshId_not_mem (hi : Inv h) (o : C.Obj) : freshId h o ∉ h.vars :=
  fun hmem => Nat.lt_irrefl _ (hi.fresh _ hmem)

/-- Edges do not mention variables that are not allocated. -/
theorem value_update_of_not_mem {v : VarId C} (hv : v ∉ h.vars) {mu : MorphVar C H o l r}
    (hmu : mu.var ∈ h.vars) (ρ : Assignment C) (c : C.Elt v.obj) :
    mu.value (update ρ v c) = mu.value ρ := by
  have hne : mu.var ≠ v := fun heq => hv (heq ▸ hmu)
  simp only [MorphVar.value, update_of_ne hne]

/-- `fresh`, for any name that is not in use. -/
def allocate (h : Heap C H) (v : VarId C) (x : Var C H v.obj) : Heap C H :=
  { h.set v x with next := v.id + 1, vars := v :: h.vars }

section Allocate

variable {v : VarId C} (x : Var C H v.obj)

theorem allocate_lowers : lowers (allocate h v x) = update (lowers h) v x.lower :=
  lowers_set ..

theorem allocate_uppers : uppers (allocate h v x) = update (uppers h) v x.upper :=
  uppers_set ..

theorem allocate_edges : edges (allocate h v x) = update (edges h) v x.vlower :=
  edges_set ..

theorem closed_allocate (hfree : h.get v = Var.free v.obj) : Closed (edges (allocate h v x)) ρ ↔
      Closed (edges h) ρ ∧ ∀ mu ∈ x.vlower, mu.value ρ ≤ ρ v := by
  have hnil : edges h v = [] := by
    rw [edges, hfree]
    rfl
  rw [allocate_edges, closed_update, and_comm]
  refine and_congr_left fun _ => ⟨fun hne w => ?_, fun hc w _ => hc w⟩
  by_cases hw : w = v
  · subst hw
    rw [hnil]
    exact fun _ hmu => by cases hmu
  · exact hne w hw

/-- What a store admits once a variable is allocated with the record `x`. -/
theorem admits_allocate (hfree : h.get v = Var.free v.obj) (ρ : Assignment C) :
    Admits (allocate h v x) ρ ↔
      Admits h ρ ∧ x.lower ≤ ρ v ∧ ρ v ≤ x.upper ∧ ∀ mu ∈ x.vlower, mu.value ρ ≤ ρ v := by
  constructor
  · rintro ⟨hl, hu, hc⟩
    rw [allocate_lowers, update_le_iff] at hl
    rw [allocate_uppers, le_update_iff] at hu
    rw [closed_allocate x hfree] at hc
    refine ⟨⟨fun w => ?_, fun w => ?_, hc.1⟩, hl.1, hu.1, hc.2⟩
    · by_cases hw : w = v
      · subst hw
        rw [lowers, hfree]
        exact bot_le
      · exact hl.2 w hw
    by_cases hw : w = v
    · subst hw
      rw [uppers, hfree]
      exact le_top
    · exact hu.2 w hw
  rintro ⟨hρ, hl, hu, hc⟩
  refine ⟨?_, ?_, ?_⟩
  · rw [allocate_lowers]; exact update_le_iff.2 ⟨hl, fun w _ => hρ.lower w⟩
  · rw [allocate_uppers]; exact le_update_iff.2 ⟨hu, fun w _ => hρ.upper w⟩
  · rw [closed_allocate x hfree]; exact ⟨hρ.closed, hc⟩

theorem inv_allocate (hi : Inv h) (hv : v ∉ h.vars) (hid : h.next ≤ v.id)
    (hb : x.lower ≤ x.upper) (ha : ∀ mu ∈ x.vlower, mu.var ∈ h.vars)
    (hc : ∀ mu ∈ x.vlower, mu.value (uppers h) ≤ x.upper) : Inv (allocate h v x) := by
  refine ⟨?_, ?_, ?_, ?_, ?_⟩
  · rw [allocate_lowers, allocate_uppers]
    exact update_le_update_iff.2 ⟨hb, fun w _ => hi.bounds w⟩
  · rw [closed_allocate x (hi.untouched v hv), allocate_uppers]
    refine ⟨fun w mu hmu => ?_, fun mu hmu => ?_⟩
    · rw [value_update_of_not_mem hv (hi.allocated w mu hmu)]
      by_cases hw : w = v
      · subst hw
        rw [edges, hi.untouched w hv] at hmu
        cases hmu
      · rw [update_of_ne hw]; exact hi.closed w mu hmu
    · rw [value_update_of_not_mem hv (ha mu hmu), update_self]; exact hc mu hmu
  · intro w mu hmu
    rw [allocate_edges] at hmu
    refine List.mem_cons_of_mem _ ?_
    by_cases hw : w = v
    · subst hw
      rw [update_self] at hmu
      exact ha mu hmu
    · rw [update_of_ne hw] at hmu; exact hi.allocated w mu hmu
  · intro w hw
    rcases List.mem_cons.1 hw with rfl | hw
    · exact Nat.lt_succ_self _
    · exact (hi.fresh w hw).trans_le (hid.trans (Nat.le_succ _))
  intro w hw
  have hw' := not_or.1 (fun hor => hw (List.mem_cons.2 hor))
  exact (Heap.set_get_of_ne h v x hw'.1).trans (hi.untouched w hw'.2)

end Allocate

theorem admits_fresh (hi : Inv h) (x : Var C H o) (ρ : Assignment C) : Admits (fresh h o x) ρ ↔
      Admits h ρ ∧ x.lower ≤ ρ (freshId h o) ∧ ρ (freshId h o) ≤ x.upper ∧
        ∀ mu ∈ x.vlower, mu.value ρ ≤ ρ (freshId h o) :=
  admits_allocate (v := freshId h o) x (hi.untouched _ (freshId_not_mem hi o)) ρ

theorem inv_fresh (hi : Inv h) {x : Var C H o} (hb : x.lower ≤ x.upper)
    (ha : ∀ mu ∈ x.vlower, mu.var ∈ h.vars)
    (hc : ∀ mu ∈ x.vlower, mu.value (uppers h) ≤ x.upper) : Inv (fresh h o x) :=
  inv_allocate (v := freshId h o) x hi (freshId_not_mem hi o) le_rfl hb ha hc

@[simp] theorem freshVar_value (ρ : Assignment C) :
    (freshVar h o : MorphVar C H o l r).value ρ = ρ (freshId h o) :=
  C.apply_id _

theorem inv_newvar (hi : Inv h) (o : C.Obj) : Inv (fresh h o (Var.free o)) :=
  inv_fresh hi bot_le (fun _ hmu => by cases hmu) (fun _ hmu => by cases hmu)

theorem admits_newvar (hi : Inv h) (o : C.Obj) (ρ : Assignment C) :
    Admits (fresh h o (Var.free o)) ρ ↔ Admits h ρ := by
  rw [admits_fresh hi]
  exact ⟨And.left, fun hρ => ⟨hρ, bot_le, le_top, fun _ hmu => by cases hmu⟩⟩

/-- `newvar_above m` adds the constraint that `m` is below the new mode. -/
theorem newvarAbove_spec (hi : Inv h) {m : Mode C H o allowed r'} (hm : m.Over h.vars)
    {res : Mode C H o l r × Bool} {h' : Heap C H} (heq : newvarAbove h m = (res, h')) :
    Inv h' ∧ ∀ ρ, Admits h' ρ ↔ Admits h ρ ∧ m.value ρ ≤ res.1.value ρ := by
  have hval := m.disallowRight_value
  have hover := hm.disallowRight
  unfold newvarAbove at heq
  generalize m.disallowRight = m' at heq hval hover
  cases m' with
  | amode a lo up =>
    dsimp only at heq
    split at heq
    case isTrue => cases heq; exact ⟨hi, fun ρ => by simp [← hval]⟩
    case isFalse =>
      cases heq
      refine ⟨inv_fresh hi le_top (fun _ hmu => by cases hmu) (fun _ hmu => by cases hmu), ?_⟩
      intro ρ
      simp only [admits_fresh hi, ← hval, Mode.value_amodevar, freshVar_value]
      exact and_congr_right fun _ =>
        ⟨And.left, fun hle => ⟨hle, le_top, fun _ hmu => by cases hmu⟩⟩
  | amodevar mv =>
    cases heq
    refine ⟨inv_fresh hi le_top ?_ (fun _ _ => le_top), fun ρ => ?_⟩
    · exact fun mu hmu => (List.mem_singleton.1 hmu).symm ▸ hover
    rw [admits_fresh hi, ← hval]
    refine and_congr_right fun hρ => ⟨fun hx => ?_, fun hle => ?_⟩
    · simpa using hx.2.2
    · have hle' : mv.value ρ ≤ ρ (freshId h o) := by simpa using hle
      exact ⟨(mv.value_mono hρ.lower).trans hle', le_top, by simpa using hle'⟩
  | amodejoin a aHint mvs =>
    cases heq
    refine ⟨inv_fresh hi le_top hover (fun _ _ => le_top), fun ρ => ?_⟩
    rw [admits_fresh hi, ← hval, Mode.value_amodejoin, foldr_sup_le]
    simp only [Mode.value_amodevar, freshVar_value]
    exact and_congr_right fun _ =>
      ⟨fun hx => ⟨hx.1, hx.2.2⟩, fun hle => ⟨hle.1, le_top, hle.2⟩⟩

end Fresh

/-- `A` can do with any smaller value of `v`. -/
def Lowerable (A : Set (Assignment C)) (v : VarId C) : Prop :=
  ∀ ρ ∈ A, ∀ c ≤ ρ v, update ρ v c ∈ A

variable {v : VarId C} {A : Set (Assignment C)}

theorem Lowerable.sep (hA : Lowerable A v) (hK : ∀ ρ, ∀ c ≤ ρ v, K ρ → K (update ρ v c)) :
    Lowerable {ρ ∈ A | K ρ} v :=
  fun ρ hρ c hc => ⟨hA ρ hρ.1 c hc, hK ρ c hc hρ.2⟩

theorem value_update_le {mv : MorphVar C H o l r}
    {c : C.Elt v.obj} (hc : c ≤ ρ v) : mv.value (update ρ v c) ≤ mv.value ρ :=
  mv.value_mono (update_le_iff.2 ⟨hc, fun _ _ => le_rfl⟩)

theorem value_update_of_ne {mv : MorphVar C H o l r} (hne : mv.var ≠ v)
    (ρ : Assignment C) (c : C.Elt v.obj) : mv.value (update ρ v c) = mv.value ρ := by
  simp only [MorphVar.value, update_of_ne hne]

/-- Lowering `v` alone is the cheapest way to `f v <= g u`, and leaves `u`. -/
theorem mvmvSafe_of_lowerable (hA : Lowerable A mv.var) (hne : mu.var ≠ mv.var) :
    MvmvSafe A mv mu := by
  intro U X hU hX
  let c := U mv.var ⊓ C.apply (C.rightAdjoint mv.morph) (mu.value U)
  let Z := update U mv.var c
  have hZv : mv.value Z ≤ mu.value U := by
    refine (C.gc_rightAdjoint mv.morph _ _).2 ?_
    simp only [Z, update_self]
    exact inf_le_right
  have hZX : Z ≤ X := hX.2 ⟨hA U hU.1 c inf_le_left, hZv⟩
  calc mv.value X ≤ mu.value U := hX.1.2
    _ = mu.value Z := (value_update_of_ne hne U c).symm
    _ ≤ mu.value X := mu.value_mono hZX

/-- With `v` at the bottom, `f v` is below everything. -/
theorem Lowerable.exists_le (mv : MorphVar C H o allowed r)
    (hA : Lowerable A mv.var) {U : Assignment C} (hU : U ∈ A) :
    ∃ ρ ∈ A, mv.value ρ = ⊥ := by
  refine ⟨update U mv.var ⊥, hA U hU ⊥ bot_le, ?_⟩
  simp only [MorphVar.value, update_self]
  exact (C.gc_rightAdjoint mv.morph).l_bot

theorem Decides.ok_of_satisfiable
    {res : Except ε Unit} (h : Decides K s res s') (hρ : Admits s.heap ρ)
    (hK : K ρ) : res = .ok () := by
  cases res with
  | ok _ => rfl
  | error e => exact absurd hK (h.fails e rfl ρ hρ)

theorem getOk_submodeMvmv (hi : Inv s.heap)
    (hfuel : enough s.heap ≤ fuel) (mu : MorphVar C H o allowed r) {mv : MorphVar C H o l allowed}
    (hu : mu.var ∈ s.heap.vars) (hv : mv.var ∈ s.heap.vars) (hne : mv.var ≠ mu.var)
    (hlow : Lowerable {ρ | Admits s.heap ρ} mu.var) :
    ∃ s', getOk (submodeMvmv fuel s H.pinpointUnknown mu mv) = some s' ∧
      Narrows (fun ρ => mu.value ρ ≤ mv.value ρ) s s' ∧
      Lowerable {ρ | Admits s'.heap ρ} mu.var := by
  obtain ⟨res, s', heq, h⟩ := submodeMvmv_decides hi hfuel H.pinpointUnknown mu mv hu hv
    (mvmvSafe_of_lowerable hlow hne)
  obtain ⟨ρ, hρ, hbot⟩ := hlow.exists_le mu hi.admits_uppers
  obtain rfl := h.ok_of_satisfiable hρ (hbot ▸ bot_le)
  have hn := h.narrows rfl
  refine ⟨s', by rw [heq]; rfl, hn, ?_⟩
  rw [hn.admits_set]
  refine hlow.sep fun ρ c hc hK => ?_
  rw [value_update_of_ne hne]
  exact (value_update_le hc).trans hK

theorem submodeMvmvIter_narrows (mu : MorphVar C H o allowed r) :
    ∀ (mvs : VarMap C H o l allowed) (s : State C H), Inv s.heap → enough s.heap ≤ fuel →
      mu.var ∈ s.heap.vars → (∀ mv ∈ mvs, mv.var ∈ s.heap.vars ∧ mv.var ≠ mu.var) →
      Lowerable {ρ | Admits s.heap ρ} mu.var →
      ∃ s', submodeMvmvIter fuel mu s mvs = some s' ∧
        Narrows (fun ρ => ∀ mv ∈ mvs, mu.value ρ ≤ mv.value ρ) s s'
  | [], s, hi, _, _, _, _ => ⟨s, rfl, .refl hi (by simp)⟩
  | mv :: mvs, s, hi, hfuel, hu, hvs, hlow => by
    obtain ⟨hv, hne⟩ := hvs mv (by simp)
    obtain ⟨s₁, heq, hn₁, hlow₁⟩ := getOk_submodeMvmv hi hfuel mu hu hv hne hlow
    obtain ⟨s₂, heq₂, hn₂⟩ := submodeMvmvIter_narrows mu mvs s₁ hn₁.inv (hn₁.enough_le.trans hfuel)
      (hn₁.vars_eq.symm ▸ hu)
      (fun mv' hmem => hn₁.vars_eq.symm ▸ hvs mv' (List.mem_cons_of_mem mv hmem)) hlow₁
    refine ⟨s₂, ?_, (hn₁.trans hn₂).congr fun ρ _ => by simp⟩
    simp only [submodeMvmvIter, heq, heq₂]

variable {h : Heap C H}

/-- A variable that is not allocated takes any value. -/
theorem lowerable_freshId (hi : Inv h) (o : C.Obj) :
    Lowerable {ρ | Admits (fresh h o (Var.free o)) ρ} (freshId h o) := by
  have hv := freshId_not_mem hi o
  intro ρ hρ c _
  have hρ : Admits h ρ := (admits_newvar hi o ρ).1 hρ
  refine (admits_newvar hi o _).2 ⟨?_, ?_, fun w mu hmu => ?_⟩
  · refine le_update_iff.2 ⟨?_, fun w _ => hρ.lower w⟩
    rw [lowers, hi.untouched _ hv]
    exact bot_le
  · refine update_le_iff.2 ⟨?_, fun w _ => hρ.upper w⟩
    rw [uppers, hi.untouched _ hv]
    exact le_top
  rw [value_update_of_not_mem hv (hi.allocated w mu hmu)]
  by_cases hw : w = freshId h o
  · subst hw
    rw [edges, hi.untouched _ hv] at hmu
    cases hmu
  · rw [update_of_ne hw]; exact hρ.closed w mu hmu

theorem Mode.Over.ne_freshId (hi : Inv h) (hv : v ∈ h.vars) : v ≠ freshId h o :=
  fun heq => freshId_not_mem hi o (heq ▸ hv)

@[simp] theorem allowLeft_value (mv : MorphVar C H o allowed r) (ρ : Assignment C) :
    (mv.allowLeft : MorphVar C H o l r).value ρ = mv.value ρ :=
  C.apply_allowLeft ..

variable {m : Mode C H o l' allowed}

/-- `newvar_below m` does not fail, and adds the constraint that the new
mode is below `m`. -/
theorem newvarBelow_spec (hi : Inv h)
    (hm : m.Over h.vars) (hfuel : enough (fresh h o (Var.free o)) ≤ fuel) :
    ∃ (res : Mode C H o l r × Bool) (h' : Heap C H), newvarBelow fuel h m = some (res, h') ∧
      Inv h' ∧ ∀ ρ, Admits h' ρ ↔ Admits h ρ ∧ res.1.value ρ ≤ m.value ρ := by
  have hval := m.disallowLeft_value
  have hover := hm.disallowLeft
  unfold newvarBelow
  generalize m.disallowLeft = m' at hval hover
  have hi' := inv_newvar hi o
  have hmem : freshId h o ∈ (fresh h o (Var.free o)).vars := List.mem_cons_self
  cases m' with
  | amode a lo up =>
    dsimp only
    split
    case isTrue => exact ⟨_, _, rfl, hi, fun ρ => by simp [← hval]⟩
    case isFalse =>
      refine ⟨_, _, rfl, inv_fresh hi bot_le (fun _ hmu => by cases hmu)
        (fun _ hmu => by cases hmu), fun ρ => ?_⟩
      rw [admits_fresh hi, ← hval, Mode.value_amodevar, freshVar_value]
      exact and_congr_right fun _ =>
        ⟨fun hx => hx.2.1, fun hle => ⟨bot_le, hle, fun _ hmu => by cases hmu⟩⟩
  | amodevar mv =>
    obtain ⟨s', heq, hn, -⟩ := getOk_submodeMvmv (s := ⟨fresh h o (Var.free o), none⟩) hi' hfuel
      (freshVar h o : MorphVar C H o allowed r) hmem (List.mem_cons_of_mem _ hover)
      (Mode.Over.ne_freshId hi hover) (lowerable_freshId hi o)
    simp only [heq]
    refine ⟨_, _, rfl, hn.inv, fun ρ => ?_⟩
    rw [hn.admits, admits_newvar hi, ← hval]
    simp [Mode.allowLeft]
  | amodemeet a aHint mvs =>
    obtain ⟨res, s₁, heq₁, h₁⟩ := submodeMvc_decides (s := ⟨fresh h o (Var.free o), none⟩) hi' hfuel
      H.pinpointUnknown (freshVar h o : MorphVar C H o allowed r) a aHint hmem
    have hlow := lowerable_freshId hi o
    obtain ⟨ρ, hρ, hbot⟩ := hlow.exists_le (freshVar h o : MorphVar C H o allowed r)
      hi'.admits_uppers
    obtain rfl := h₁.ok_of_satisfiable hρ (hbot ▸ bot_le)
    have hn₁ := h₁.narrows rfl
    obtain ⟨s₂, heq₂, hn₂⟩ := submodeMvmvIter_narrows
      (freshVar h o : MorphVar C H o allowed r) mvs s₁ hn₁.inv
      (hn₁.enough_le.trans hfuel) (hn₁.vars_eq.symm ▸ hmem)
      (fun mv hmv => ⟨hn₁.vars_eq.symm ▸ List.mem_cons_of_mem _ (hover mv hmv),
        Mode.Over.ne_freshId hi (hover mv hmv)⟩)
      (hn₁.admits_set ▸ hlow.sep fun ρ c hc hK => (value_update_le hc).trans hK)
    simp only [heq₁, getOk, heq₂]
    refine ⟨_, _, rfl, hn₂.inv, fun ρ => ?_⟩
    rw [hn₂.admits, hn₁.admits, admits_newvar hi, ← hval, Mode.value_amodemeet, le_foldr_inf]
    simp [Mode.allowLeft, and_assoc]

theorem submodeMvmvIter_extends {mu : MorphVar C H o allowed r} :
    ∀ (mvs : VarMap C H o l allowed) (s s' : State C H),
      submodeMvmvIter fuel mu s mvs = some s' → submodeMvmvIter (fuel + 1) mu s mvs = some s'
  | [], _, _, heq => heq
  | mv :: mvs, s, s', heq => by
    simp only [submodeMvmvIter] at heq ⊢
    cases hmvmv : submodeMvmv fuel s H.pinpointUnknown mu mv with
    | none => simp [hmvmv, getOk] at heq
    | some z =>
      rw [submodeMvmv_extends hmvmv]
      rw [hmvmv] at heq
      obtain ⟨_ | _, s₁⟩ := z
      · simp [getOk] at heq
      · exact submodeMvmvIter_extends mvs s₁ s' heq

theorem newvarBelow_extends
    {y : (Mode C H o l r × Bool) × Heap C H} (heq : newvarBelow fuel h m = some y) :
    newvarBelow (fuel + 1) h m = some y := by
  unfold newvarBelow at heq ⊢
  generalize m.disallowLeft = m' at heq
  cases m' with
  | amode a lo up => exact heq
  | amodevar mv =>
    dsimp only at heq ⊢
    cases hmvmv : submodeMvmv fuel ⟨fresh h o (Var.free o), none⟩ H.pinpointUnknown
        (freshVar h o : MorphVar C H o allowed r) mv with
    | none => simp [hmvmv, getOk] at heq
    | some z => rw [submodeMvmv_extends hmvmv]; rwa [hmvmv] at heq
  | amodemeet a aHint mvs =>
    dsimp only at heq ⊢
    cases hmvc : submodeMvc fuel ⟨fresh h o (Var.free o), none⟩ H.pinpointUnknown
        (freshVar h o : MorphVar C H o allowed r) a aHint with
    | none => simp [hmvc, getOk] at heq
    | some z =>
      rw [show submodeMvc (fuel + 1) _ _ _ a aHint = some z from
        submodeMvcWith_extends submodeVc_extends hmvc]
      rw [hmvc] at heq
      obtain ⟨_ | _, s₁⟩ := z
      · simp [getOk] at heq
      simp only [getOk] at heq ⊢
      cases hiter : submodeMvmvIter fuel (freshVar h o : MorphVar C H o allowed r) s₁ mvs with
      | none => simp [hiter] at heq
      | some s₂ => rw [submodeMvmvIter_extends mvs s₁ s₂ hiter]; rwa [hiter] at heq

theorem newvarBelow_returns (hi : Inv h) (hm : m.Over h.vars) :
    ∃ (res : Mode C H o l r × Bool) (h' : Heap C H),
      Returns (fun fuel => newvarBelow fuel h m) (res, h') ∧
      Inv h' ∧ ∀ ρ, Admits h' ρ ↔ Admits h ρ ∧ res.1.value ρ ≤ m.value ρ := by
  obtain ⟨res, h', heq, hspec⟩ := newvarBelow_spec hi hm (l := l) (r := r) le_rfl
  exact ⟨res, h', returns_of_extends (fun _ _ => newvarBelow_extends) heq, hspec⟩

/-! ## Runs -/

/-- A store together with the constraints accepted on the way to it. -/
structure Config (C : LatticesMono) (H : Hint) where
  heap : Heap C H
  accepted : List (Assignment C → Prop)

/-- `ρ` satisfies every constraint accepted so far. -/
def Config.Solves (cfg : Config C H) (ρ : Assignment C) : Prop := ∀ K ∈ cfg.accepted, K ρ

/-- The log of a state that was started with an empty one. -/
def State.logged (s : State C H) : List (Change C H) := s.log.getD []

/-- The configurations of all runs in which `submode` is called only where
`guard` allows it. Modes are arbitrary modes over allocated variables. -/
inductive Reachable (guard : ∀ {o : C.Obj}, Heap C H → List (Atom C H o) → Prop) :
    Config C H → Prop where
  | empty : Reachable guard ⟨Heap.empty, []⟩
  | newvar {cfg : Config C H} (o : C.Obj) : Reachable guard cfg →
      Reachable guard ⟨(newvar cfg.heap o : Mode C H o allowed allowed × Heap C H).2, cfg.accepted⟩
  | newvarAbove {cfg : Config C H} {o : C.Obj} {l r r' : Allowance} {m : Mode C H o allowed r'}
      {res : Mode C H o l r × Bool} {h' : Heap C H} : Reachable guard cfg →
      m.Over cfg.heap.vars → newvarAbove cfg.heap m = (res, h') →
      Reachable guard ⟨h', (fun ρ => m.value ρ ≤ res.1.value ρ) :: cfg.accepted⟩
  | newvarBelow {cfg : Config C H} {o : C.Obj} {l r l' : Allowance} {m : Mode C H o l' allowed}
      {res : Mode C H o l r × Bool} {h' : Heap C H} : Reachable guard cfg →
      m.Over cfg.heap.vars → Returns (fun fuel => newvarBelow fuel cfg.heap m) (res, h') →
      Reachable guard ⟨h', (fun ρ => res.1.value ρ ≤ m.value ρ) :: cfg.accepted⟩
  | submodeOk {cfg : Config C H} {o : C.Obj} {l r : Allowance} {a : Mode C H o allowed r}
      {b : Mode C H o l allowed} {log : Option (List (Change C H))} {pp : H.Pinpoint}
      {s' : State C H} : Reachable guard cfg → a.Over cfg.heap.vars → b.Over cfg.heap.vars →
      guard cfg.heap (submodeAtoms a b) →
      Returns (fun fuel => submode fuel ⟨cfg.heap, log⟩ pp a b) (.ok (), s') →
      Reachable guard ⟨s'.heap, (fun ρ => a.value ρ ≤ b.value ρ) :: cfg.accepted⟩
  | submodeError {cfg : Config C H} {o : C.Obj} {l r : Allowance} {a : Mode C H o allowed r}
      {b : Mode C H o l allowed} {pp : H.Pinpoint} {e : ErrorRaw C H o} {s' : State C H} :
      Reachable guard cfg → a.Over cfg.heap.vars → b.Over cfg.heap.vars →
      guard cfg.heap (submodeAtoms a b) →
      Returns (fun fuel => submode fuel ⟨cfg.heap, some []⟩ pp a b) (.error e, s') →
      Reachable guard ⟨undoChanges s'.heap s'.logged, cfg.accepted⟩

/-- Every constraint that the call adds is safe. -/
def SafeSubmode {o : C.Obj} (h : Heap C H) (xs : List (Atom C H o)) : Prop :=
  AtomsSafe {ρ | Admits h ρ} xs

/-- What a safe run keeps: the store admits the solutions of the accepted
constraints and nothing else. -/
structure RunInv (cfg : Config C H) : Prop where
  inv : Inv cfg.heap
  admits : ∀ ρ, Admits cfg.heap ρ ↔ cfg.Solves ρ

variable {cfg : Config C H}

theorem RunInv.extend {h' : Heap C H}
    (hcfg : RunInv cfg) (hi : Inv h') (ha : ∀ ρ, Admits h' ρ ↔ Admits cfg.heap ρ ∧ K ρ) :
    RunInv ⟨h', K :: cfg.accepted⟩ where
  inv := hi
  admits := fun ρ => by
    rw [ha, hcfg.admits, and_comm]
    simp [Config.Solves]

/-- A failed call, undone with its log, leaves the store as it was. -/
theorem Undoes.restores (hu : Undoes ⟨h, some []⟩ s') : undoChanges s'.heap s'.logged = h := by
  obtain ⟨cs, hlog, hundo⟩ := hu
  rw [State.logged, hlog]
  simpa using hundo

theorem runInv_of_reachable (h : Reachable SafeSubmode cfg) : RunInv cfg := by
  induction h with
  | empty => exact ⟨inv_empty, fun ρ => by simp [admits_empty, Config.Solves]⟩
  | newvar o _ ih =>
    refine ⟨inv_newvar ih.inv o, fun ρ => ?_⟩
    exact (admits_newvar ih.inv o ρ).trans (ih.admits ρ)
  | newvarAbove _ hm heq ih =>
    obtain ⟨hi, ha⟩ := newvarAbove_spec ih.inv hm heq
    exact ih.extend hi ha
  | newvarBelow _ hm hret ih =>
    obtain ⟨res, h', hret', hi, ha⟩ := newvarBelow_returns ih.inv hm
    obtain ⟨rfl, rfl⟩ := Prod.ext_iff.1 (hret.unique hret')
    exact ih.extend hi ha
  | submodeOk _ ha hb hsafe hret ih =>
    obtain ⟨res, s', hret', hdec⟩ := submode_returns (s := ⟨_, _⟩) ih.inv _ ha hb hsafe
    obtain ⟨rfl, rfl⟩ := Prod.ext_iff.1 (hret.unique hret')
    have hn := hdec.narrows rfl
    exact ih.extend hn.inv hn.admits
  | submodeError _ ha hb hsafe hret ih =>
    obtain ⟨res, s', hret', hdec⟩ := submode_returns (s := ⟨_, some []⟩) ih.inv _ ha hb hsafe
    obtain ⟨rfl, rfl⟩ := Prod.ext_iff.1 (hret.unique hret')
    rw [hdec.undoes.restores]
    exact ih

instance neZero_three : NeZero 3 := ⟨by decide⟩

/-- The monotone maps of `Fin 3`, those with an adjoint on a side being
allowed there. -/
def ChainMorph (l r : Allowance) : Type :=
  {f : Fin 3 → Fin 3 // Monotone f ∧ (l = allowed → f 0 = 0) ∧ (r = allowed → f 2 = 2)}

namespace ChainMorph
variable {l r : Allowance}

/-- The least `x` with `y <= f x`. -/
def lower (f : Fin 3 → Fin 3) (y : Fin 3) : Fin 3 :=
  if y ≤ f 0 then 0 else if y ≤ f 1 then 1 else 2

/-- The greatest `x` with `f x <= y`. -/
def raise (f : Fin 3 → Fin 3) (y : Fin 3) : Fin 3 :=
  if f 2 ≤ y then 2 else if f 1 ≤ y then 1 else 0

variable {f : Fin 3 → Fin 3}

theorem lower_gc (hf : Monotone f) (h2 : f 2 = 2) : GaloisConnection (lower f) f := by
  have h01 : f 0 ≤ f 1 := hf (by decide)
  intro y x
  have hx : x = 0 ∨ x = 1 ∨ x = 2 := by omega
  unfold lower
  rcases hx with rfl | rfl | rfl <;> split_ifs <;> constructor <;> intro h <;> lia

theorem raise_gc (hf : Monotone f) (h0 : f 0 = 0) : GaloisConnection f (raise f) := by
  have h12 : f 1 ≤ f 2 := hf (by decide)
  intro x y
  have hx : x = 0 ∨ x = 1 ∨ x = 2 := by omega
  unfold raise
  rcases hx with rfl | rfl | rfl <;> split_ifs <;> constructor <;> intro h <;> lia

/-- The lexicographic comparison of the tables. -/
def compareTable {l₁ r₁ l₂ r₂ : Allowance} (f : ChainMorph l₁ r₁) (g : ChainMorph l₂ r₂) :
    Ordering :=
  (compare (f.1 0) (g.1 0)).then ((compare (f.1 1) (g.1 1)).then (compare (f.1 2) (g.1 2)))

theorem eq_of_compareTable {l₁ r₁ l₂ r₂ : Allowance} {f : ChainMorph l₁ r₁} {g : ChainMorph l₂ r₂}
    (h : compareTable f g = .eq) (x : Fin 3) : f.1 x = g.1 x := by
  simp only [compareTable, Ordering.then_eq_eq, compare_eq_iff_eq] at h
  have hx : x = 0 ∨ x = 1 ∨ x = 2 := by omega
  rcases hx with rfl | rfl | rfl
  · exact h.1
  · exact h.2.1
  · exact h.2.2

end ChainMorph

/-- One chain of three elements, as regionality is, with all its monotone
maps. -/
def chainLattices : LatticesMono where
  Obj := Unit
  Elt _ := Fin 3
  Morph _ _ l r := ChainMorph l r
  id := ⟨id, monotone_id, fun _ => rfl, fun _ => rfl⟩
  compose f g := ⟨f.1 ∘ g.1, f.2.1.comp g.2.1,
    fun h => (congrArg f.1 (g.2.2.1 h)).trans (f.2.2.1 h),
    fun h => (congrArg f.1 (g.2.2.2 h)).trans (f.2.2.2 h)⟩
  apply f := f.1
  leftAdjoint f := ⟨ChainMorph.lower f.1, (ChainMorph.lower_gc f.2.1 (f.2.2.2 rfl)).monotone_l,
    fun _ => (ChainMorph.lower_gc f.2.1 (f.2.2.2 rfl)).l_bot, fun h => by cases h⟩
  rightAdjoint f := ⟨ChainMorph.raise f.1, (ChainMorph.raise_gc f.2.1 (f.2.2.1 rfl)).monotone_u,
    fun h => (by cases h), fun _ => (ChainMorph.raise_gc f.2.1 (f.2.2.1 rfl)).u_top⟩
  allowLeft f := ⟨f.1, f.2.1, fun _ => f.2.2.1 rfl, f.2.2.2⟩
  allowRight f := ⟨f.1, f.2.1, f.2.2.1, fun _ => f.2.2.2 rfl⟩
  disallowLeft f := ⟨f.1, f.2.1, fun h => (by cases h), f.2.2.2⟩
  disallowRight f := ⟨f.1, f.2.1, f.2.2.1, fun h => by cases h⟩
  compareMorph f g := ChainMorph.compareTable f g
  equalMorph f g := if ChainMorph.compareTable f g = .eq then .isEq else .isNotEq
  apply_mono f := f.2.1
  apply_id _ := rfl
  apply_compose _ _ _ := rfl
  gc_leftAdjoint f := ChainMorph.lower_gc f.2.1 (f.2.2.2 rfl)
  gc_rightAdjoint f := ChainMorph.raise_gc f.2.1 (f.2.2.1 rfl)
  apply_allowLeft _ _ := rfl
  apply_allowRight _ _ := rfl
  apply_disallowLeft _ _ := rfl
  apply_disallowRight _ _ := rfl
  compareMorph_sound _ _ h := ⟨rfl, ChainMorph.eq_of_compareTable h⟩
  equalMorph_sound f g h := by
    refine ⟨rfl, ChainMorph.eq_of_compareTable ?_⟩
    by_contra hne
    rw [if_neg hne] at h
    cases h

/-- Hints that say nothing. -/
def noHint : Hint where
  Pinpoint := Unit
  Morph _ _ := Unit
  Const _ _ := Unit
  pinpointUnknown := ()
  morphUnknown := ()
  morphLeftAdjoint _ _ := ((), ())
  morphRightAdjoint _ _ := ((), ())
  morphAllowLeft _ := ()
  morphAllowRight _ := ()
  morphDisallowLeft _ := ()
  morphDisallowRight _ := ()
  constAllowLeft _ := ()
  constAllowRight _ := ()
  constDisallowLeft _ := ()
  constDisallowRight _ := ()

/-! The run: `u <= 1`, then `h u <= v`, then `v <= u`, where `h` maps `0, 1, 2`
to `0, 2, 2` (`Regional_to_local` on regionality). The last call reads
`u.upper`, which is 1, and asks `v <= 1`. Propagation along `h u <= v` lowers
`u.upper` to 0, and `v.upper` stays at 1. -/

namespace StaleBound

/-- The only object. -/
def chain : chainLattices.Obj := ()

abbrev ChainMode (l r : Allowance) := Mode chainLattices noHint chain l r

abbrev ChainState := State chainLattices noHint

def regionalToLocal : ChainMorph allowed disallowed :=
  ⟨fun x => if x = 0 then 0 else 2, fun x y hxy => by
    dsimp only
    split_ifs <;> lia, fun _ => rfl, fun h => by cases h⟩

def const (c : Fin 3) : ChainMode allowed allowed :=
  .amode c (.unknown c : CompHint chainLattices noHint chain allowed allowed)
    (.unknown c : CompHint chainLattices noHint chain allowed allowed)

/-- A variable allocated by the run, as `newvar` returns it. -/
def var (id : Nat) : ChainMode allowed allowed := .amodevar ⟨⟨chain, id⟩, chainLattices.id, .id⟩

def hu : ChainMode allowed disallowed :=
  apply (H := noHint) (o := chain) () regionalToLocal (var 0).disallowRight

def isOk {ε : Type} : Option (Except ε Unit × ChainState) → Bool
  | some (.ok _, _) => true
  | _ => false

def finalState {ε : Type} : Option (Except ε Unit × ChainState) → ChainState
  | some (_, s) => s
  | none => ⟨Heap.empty, none⟩

theorem eq_of_isOk {x : Option (Except ε Unit × ChainState)} (h : isOk x = true) :
    x = some (.ok (), finalState x) := by
  match x, h with
  | some (.ok _, _), _ => rfl

/-- The store after `u` and `v` are allocated. -/
def heap₀ : Heap chainLattices noHint :=
  (newvar (newvar Heap.empty chain : ChainMode allowed allowed × _).2 chain :
    ChainMode allowed allowed × _).2

def call {r l : Allowance} (h : Heap chainLattices noHint) (a : ChainMode allowed r)
    (b : ChainMode l allowed) :=
  submode 9 ⟨h, none⟩ () a b

/-- The store after the three calls. -/
def heap₃ : Heap chainLattices noHint :=
  let h₁ := (finalState (call heap₀ (var 0) (const 1))).heap
  let h₂ := (finalState (call h₁ hu (var 1))).heap
  (finalState (call h₂ (var 1) (var 0))).heap

def accepted : List (Assignment chainLattices → Prop) :=
  [fun ρ => (var 1).value ρ ≤ (var 0).value ρ, fun ρ => hu.value ρ ≤ (var 1).value ρ,
   fun ρ => (var 0).value ρ ≤ (const 1).value ρ]

theorem returns_call {r l : Allowance} {h : Heap chainLattices noHint} {a : ChainMode allowed r}
    {b : ChainMode l allowed} (hok : isOk (call h a b) = true) :
    Returns (fun fuel => submode fuel ⟨h, none⟩ () a b) (.ok (), finalState (call h a b)) :=
  returns_of_extends (fun _ _ => submode_extends) (eq_of_isOk hok)

theorem reachable_heap₀ {guard : ∀ {o}, Heap chainLattices noHint → List (Atom _ _ o) → Prop} :
    Reachable guard ⟨heap₀, []⟩ :=
  .newvar chain (.newvar chain .empty)

theorem reachable_heap₃ : Reachable (fun _ _ => True) ⟨heap₃, accepted⟩ := by
  have h₀ : Reachable (fun _ _ => True) ⟨heap₀, []⟩ := reachable_heap₀
  have h₁ := h₀.submodeOk (a := var 0) (b := const 1) (by decide) trivial
    trivial (returns_call (by decide))
  have h₂ := h₁.submodeOk (a := hu) (b := var 1) (by decide) (by decide) trivial
    (returns_call (by decide))
  exact h₂.submodeOk (a := var 1) (b := var 0) (by decide) (by decide) trivial
    (returns_call (by decide))

/-- The accepted constraints leave no solution but `u = v = 0`. -/
theorem no_solution (x y : Fin 3) : ¬ ((y ≤ x ∧ regionalToLocal.1 x ≤ y ∧ x ≤ 1) ∧ 1 ≤ y) := by
  revert x y
  decide

end StaleBound

end Oxcaml.Typing.Solver
