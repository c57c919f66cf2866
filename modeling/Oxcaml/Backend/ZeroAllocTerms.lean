/-
Oxcaml.Backend.ZeroAllocTerms — symbolic values as trees.

The trees are the plainest implementation of symbolic values: they keep every `join`
and `transform` as it is, and are resolved when they have no variable. Their
operations are pointwise.
-/
import Oxcaml.Backend.ZeroAllocUnitTheorems

namespace Oxcaml.Backend.ZeroAlloc

set_option linter.all false

namespace Resolved

variable {ω : Type} [DecidableEq ω]

def transform : Resolved ω → Resolved ω → Resolved ω
  | bot, _ => bot
  | _, bot => bot
  | safe, t' => t'
  | t, safe => t
  | top w, top w' => top (w ∪ w')

theorem level_transform (r r' : Resolved ω) : (r.transform r').level = r.level.seq r'.level := by
  cases r <;> cases r' <;> rfl

theorem witnesses_transform (r r' : Resolved ω) :
    (r.transform r').witnesses ⊆ r.witnesses ∪ r'.witnesses := by
  cases r <;> cases r' <;> simp [transform, witnesses]

end Resolved

inductive Term (ν ω : Type)
  | resolved (r : Resolved ω)
  | var (w : Witnesses ω) (x : Var ν)
  | join (t1 t2 : Term ν ω)
  | transform (t1 t2 : Term ν ω)

namespace Term

variable {ν ω : Type} [LinearOrder ν] [DecidableEq ω]

def toResolved : Term ν ω → Option (Resolved ω)
  | resolved r => some r
  | var _ _ => none
  | join t1 t2 => do some ((← t1.toResolved).join (← t2.toResolved))
  | transform t1 t2 => do some ((← t1.toResolved).transform (← t2.toResolved))

def lessequal (t1 t2 : Term ν ω) : Bool :=
  match t1.toResolved, t2.toResolved with
  | some r1, some r2 => r1.lessequal r2
  | _, _ => false

def replaceWitnesses (w : Witnesses ω) : Term ν ω → Term ν ω
  | resolved (.top _) => resolved (.top w)
  | resolved r => resolved r
  | var _ x => var w x
  | join t1 t2 => join (t1.replaceWitnesses w) (t2.replaceWitnesses w)
  | transform t1 t2 => transform (t1.replaceWitnesses w) (t2.replaceWitnesses w)

def getUnresolvedNames : Term ν ω → Finset ν
  | resolved _ => ∅
  | var _ x => {x.1}
  | join t1 t2 => t1.getUnresolvedNames ∪ t2.getUnresolvedNames
  | transform t1 t2 => t1.getUnresolvedNames ∪ t2.getUnresolvedNames

def apply (env : Var ν → Option (Term ν ω)) : Term ν ω → Term ν ω
  | resolved r => resolved r
  | var w x =>
    match env x with
    | none => var w x
    | some v => v.replaceWitnesses w
  | join t1 t2 => join (t1.apply env) (t2.apply env)
  | transform t1 t2 => transform (t1.apply env) (t2.apply env)

instance : Symbolic (Term ν ω) ν ω where
  ofResolved := resolved
  toResolved := toResolved
  unresolved := var
  join := join
  lessequal := lessequal
  replaceWitnesses := replaceWitnesses
  getUnresolvedNames := getUnresolvedNames
  apply t env := t.apply env

def meaning (ρ : Var ν → Level) : Term ν ω → Level
  | resolved r => r.level
  | var _ x => ρ x
  | join t1 t2 => max (t1.meaning ρ) (t2.meaning ρ)
  | transform t1 t2 => (t1.meaning ρ).seq (t2.meaning ρ)

def witnesses : Term ν ω → Witnesses ω
  | resolved r => r.witnesses
  | var w _ => w
  | join t1 t2 => t1.witnesses ∪ t2.witnesses
  | transform t1 t2 => t1.witnesses ∪ t2.witnesses

attribute [local grind =] apply witnesses

theorem names_eq_empty (t : Term ν ω) : t.getUnresolvedNames = ∅ ↔ t.toResolved.isSome := by
  induction t with
  | resolved r | var w x => simp [getUnresolvedNames, toResolved]
  | join t1 t2 ih1 ih2 =>
    rw [getUnresolvedNames, Finset.union_eq_empty, ih1, ih2, toResolved]
    cases t1.toResolved <;> cases t2.toResolved <;> simp
  | transform t1 t2 ih1 ih2 =>
    rw [getUnresolvedNames, Finset.union_eq_empty, ih1, ih2, toResolved]
    cases t1.toResolved <;> cases t2.toResolved <;> simp

theorem names_replaceWitnesses (w : Witnesses ω) (t : Term ν ω) :
    (t.replaceWitnesses w).getUnresolvedNames = t.getUnresolvedNames := by
  induction t with
  | resolved r => cases r <;> rfl
  | var w' x => rfl
  | join t1 t2 ih1 ih2 => rw [replaceWitnesses, getUnresolvedNames, ih1, ih2, getUnresolvedNames]
  | transform t1 t2 ih1 ih2 =>
    rw [replaceWitnesses, getUnresolvedNames, ih1, ih2, getUnresolvedNames]

theorem meaning_replaceWitnesses (ρ : Var ν → Level) (w : Witnesses ω) (t : Term ν ω) :
    (t.replaceWitnesses w).meaning ρ = t.meaning ρ := by
  induction t with
  | resolved r => cases r <;> rfl
  | var w' x => rfl
  | join t1 t2 ih1 ih2
  | transform t1 t2 ih1 ih2 => rw [replaceWitnesses, meaning, ih1, ih2, meaning]

/-- The cases of a resolved `join` or `transform`. -/
theorem both_resolved {t1 t2 : Term ν ω} {op : Resolved ω → Resolved ω → Resolved ω}
    {r : Resolved ω} (h : (do some (op (← t1.toResolved) (← t2.toResolved))) = some r) :
    ∃ r1 r2, t1.toResolved = some r1 ∧ t2.toResolved = some r2 ∧ r = op r1 r2 := by
  cases h1 : t1.toResolved with
  | none => simp [h1] at h
  | some r1 =>
    cases h2 : t2.toResolved with
    | none => simp [h2] at h
    | some r2 => exact ⟨r1, r2, rfl, rfl, by simpa [h1, h2] using h.symm⟩

theorem meaning_resolved (ρ : Var ν → Level) (t : Term ν ω) :
    ∀ r, t.toResolved = some r → t.meaning ρ = r.level := by
  induction t with
  | resolved r =>
    intro r' h
    cases h
    rfl
  | var w x => intro r h; cases h
  | join t1 t2 ih1 ih2 =>
    intro r h
    obtain ⟨r1, r2, h1, h2, rfl⟩ := both_resolved h
    rw [meaning, ih1 r1 h1, ih2 r2 h2, Resolved.level_join]
  | transform t1 t2 ih1 ih2 =>
    intro r h
    obtain ⟨r1, r2, h1, h2, rfl⟩ := both_resolved h
    rw [meaning, ih1 r1 h1, ih2 r2 h2, Resolved.level_transform]

theorem meaning_congr (t : Term ν ω) {ρ ρ' : Var ν → Level} :
    (∀ x : Var ν, x.1 ∈ t.getUnresolvedNames → ρ x = ρ' x) → t.meaning ρ = t.meaning ρ' := by
  induction t with
  | resolved r => exact fun _ => rfl
  | var w x => exact fun h => h x (by simp [getUnresolvedNames])
  | join t1 t2 ih1 ih2 =>
    intro h
    rw [meaning, meaning, ih1 fun x hx => h x (by simp [getUnresolvedNames, hx]),
      ih2 fun x hx => h x (by simp [getUnresolvedNames, hx])]
  | transform t1 t2 ih1 ih2 =>
    intro h
    rw [meaning, meaning, ih1 fun x hx => h x (by simp [getUnresolvedNames, hx]),
      ih2 fun x hx => h x (by simp [getUnresolvedNames, hx])]

/-- The witnesses of a resolved tree are those of the tree, and after `replaceWitnesses` the new
ones. -/
theorem witnesses_toResolved (t : Term ν ω) :
    ∀ r, t.toResolved = some r → r.witnesses ⊆ t.witnesses := by
  induction t with
  | resolved r =>
    intro r' h
    cases h
    exact Finset.Subset.refl _
  | var w x => intro r h; cases h
  | join t1 t2 ih1 ih2 =>
    intro r h
    obtain ⟨r1, r2, h1, h2, rfl⟩ := both_resolved h
    rw [Resolved.witnesses_join]
    exact Finset.union_subset_union (ih1 r1 h1) (ih2 r2 h2)
  | transform t1 t2 ih1 ih2 =>
    intro r h
    obtain ⟨r1, r2, h1, h2, rfl⟩ := both_resolved h
    exact (Resolved.witnesses_transform r1 r2).trans
      (Finset.union_subset_union (ih1 r1 h1) (ih2 r2 h2))

theorem witnesses_replaceWitnesses (w : Witnesses ω) (t : Term ν ω) :
    (t.replaceWitnesses w).witnesses ⊆ w := by
  induction t with
  | resolved r => cases r <;> simp [replaceWitnesses, witnesses, Resolved.witnesses]
  | var w' x => exact Finset.Subset.refl _
  | join t1 t2 ih1 ih2 | transform t1 t2 ih1 ih2 => exact Finset.union_subset ih1 ih2

theorem witnesses_apply (env : Var ν → Option (Term ν ω)) (t : Term ν ω) :
    (t.apply env).witnesses ⊆ t.witnesses := by
  induction t with
  | resolved r => exact Finset.Subset.refl _
  | var w x =>
    rw [apply]
    cases env x with
    | none => exact Finset.Subset.refl _
    | some v => exact witnesses_replaceWitnesses w v
  | join t1 t2 ih1 ih2 | transform t1 t2 ih1 ih2 => exact Finset.union_subset_union ih1 ih2

theorem names_apply {env : Var ν → Option (Term ν ω)}
    (henv : ∀ x w, env x = some w → w.toResolved.isSome) {n : ν} (t : Term ν ω) :
    n ∈ (t.apply env).getUnresolvedNames → n ∈ t.getUnresolvedNames ∧ ∃ tag,
      env (n, tag) = none := by
  induction t with
  | resolved r => exact fun h => absurd h (Finset.notMem_empty n)
  | var w x =>
    rw [apply]
    cases hx : env x with
    | none =>
      intro h
      obtain rfl : n = x.1 := by simpa [getUnresolvedNames] using h
      exact ⟨h, x.2, hx⟩
    | some v =>
      intro h
      rw [names_replaceWitnesses, (names_eq_empty v).2 (henv x v hx)] at h
      exact absurd h (Finset.notMem_empty n)
  | join t1 t2 ih1 ih2 =>
    intro h
    rcases Finset.mem_union.1 h with h | h
    · exact ⟨Finset.mem_union_left _ (ih1 h).1, (ih1 h).2⟩
    · exact ⟨Finset.mem_union_right _ (ih2 h).1, (ih2 h).2⟩
  | transform t1 t2 ih1 ih2 =>
    intro h
    rcases Finset.mem_union.1 h with h | h
    · exact ⟨Finset.mem_union_left _ (ih1 h).1, (ih1 h).2⟩
    · exact ⟨Finset.mem_union_right _ (ih2 h).1, (ih2 h).2⟩

theorem meaning_apply (env : Var ν → Option (Term ν ω)) (ρ : Var ν → Level) (t : Term ν ω) :
    (t.apply env).meaning ρ = t.meaning (withLookup (fun v ρ => v.meaning ρ) env ρ) := by
  induction t with
  | resolved r => rfl
  | var w x =>
    rw [apply, meaning, withLookup]
    cases env x with
    | none => rfl
    | some v => exact meaning_replaceWitnesses ρ w v
  | join t1 t2 ih1 ih2 | transform t1 t2 ih1 ih2 => rw [apply, meaning, ih1, ih2, meaning]

instance : LawfulSymbolic (Term ν ω) where
  meaning t ρ := t.meaning ρ
  witnesses := witnesses
  toResolved_ofResolved _ := rfl
  names_eq_empty := names_eq_empty
  names_unresolved _ _ _ h := Finset.mem_singleton.1 h
  names_replaceWitnesses := names_replaceWitnesses
  meaning_resolved t r ρ := meaning_resolved ρ t r
  meaning_congr t _ _ := t.meaning_congr
  join_resolved t t' r r' h h' := by
    change (do some ((← t.toResolved).join (← t'.toResolved))) = _
    rw [show t.toResolved = some r from h, show t'.toResolved = some r' from h']
    rfl
  lessequal_resolved t t' r r' h h' := by
    change t.lessequal t' = _
    rw [lessequal, show t.toResolved = some r from h, show t'.toResolved = some r' from h']
  names_apply t env n henv := names_apply henv t
  meaning_apply t env ρ _ := meaning_apply env ρ t
  witnesses_apply t env w _ h :=
    (witnesses_toResolved _ (.top w) h).trans (witnesses_apply env t)

end Term

end Oxcaml.Backend.ZeroAlloc
