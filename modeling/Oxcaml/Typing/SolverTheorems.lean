/-
Oxcaml.Typing.SolverTheorems — what the calls of the mode solver do to
the set of assignments that a store admits.

A store admits an assignment of values to variables when the assignment
lies between the lower and the upper bounds and is closed under `vlower`.
The invariant of the solver (`Inv`) says that the upper bounds are
themselves admitted, so they are the greatest admitted assignment.

The first half follows the propagation of `submode_vc` and `submode_mvc`.
While they run the upper bounds are not closed, and a variable may be
visited again before the loop over its own `vlower` is done. `Progress`
says what holds across any piece of such a run, `Settled` what a
successful piece leaves behind. The edges `E` in both are those of the
store at the start: later stores only drop the edges of variables that
have become tight.

The second half reads these as statements about admitted assignments
(`Narrows`): a successful call keeps exactly the admitted assignments that
satisfy its constraint, a failed one shows that there are none. For
`submode_mvmv` this needs `MvmvSafe`, because the bound `g u.upper` is read
before the propagation that may lower `u.upper`.
-/
import Oxcaml.Lib.Descent
import Oxcaml.Typing.Solver

set_option linter.all false

namespace Oxcaml.Typing.Solver

open Function (update update_eq_self update_of_ne update_self)

open Allowance

variable {C : LatticesMono} {H : Hint} {o : C.Obj} {l r : Allowance}

/-! ## Assignments -/

/-- A value for every variable. -/
abbrev Assignment (C : LatticesMono) := (v : VarId C) → C.Elt v.obj

/-- The variables below each variable. -/
abbrev Edges (C : LatticesMono) (H : Hint) :=
  (v : VarId C) → VarMap C H v.obj allowed disallowed

def uppers (h : Heap C H) : Assignment C := fun v => (h.get v).upper

def lowers (h : Heap C H) : Assignment C := fun v => (h.get v).lower

def edges (h : Heap C H) : Edges C H := fun v => (h.get v).vlower

def MorphVar.value (mv : MorphVar C H o l r) (ρ : Assignment C) : C.Elt o :=
  C.apply mv.morph (ρ mv.var)

/-- `ρ` puts every variable above those that `E` has below it. -/
def Closed (E : Edges C H) (ρ : Assignment C) : Prop := ∀ v, ∀ mu ∈ E v, mu.value ρ ≤ ρ v

/-- `ρ` meets the bounds and the edges of the store. -/
structure Admits (h : Heap C H) (ρ : Assignment C) : Prop where
  lower : lowers h ≤ ρ
  upper : ρ ≤ uppers h
  closed : Closed (edges h) ρ

/-- The invariant of the store. -/
structure Inv (h : Heap C H) : Prop where
  bounds : lowers h ≤ uppers h
  closed : Closed (edges h) (uppers h)
  allocated : ∀ v, ∀ mu ∈ edges h v, mu.var ∈ h.vars
  fresh : ∀ v ∈ h.vars, v.id < h.next
  untouched : ∀ v, v ∉ h.vars → h.get v = Var.free v.obj

theorem MorphVar.value_mono (mv : MorphVar C H o l r) : Monotone mv.value :=
  fun _ _ h => C.apply_mono mv.morph (h mv.var)

variable {h : Heap C H}

theorem Inv.admits_uppers (hi : Inv h) : Admits h (uppers h) :=
  ⟨hi.bounds, le_rfl, hi.closed⟩

theorem Inv.isGreatest (hi : Inv h) : IsGreatest {ρ | Admits h ρ} (uppers h) :=
  ⟨hi.admits_uppers, fun _ (hρ : Admits h _) => hρ.upper⟩

theorem inv_empty : Inv (Heap.empty : Heap C H) where
  bounds := fun _ => bot_le
  closed := fun _ _ h => by cases h
  allocated := fun _ _ h => by cases h
  fresh := fun _ h => by cases h
  untouched := fun _ _ => rfl

theorem admits_empty (ρ : Assignment C) : Admits (Heap.empty : Heap C H) ρ where
  lower := fun _ => bot_le
  upper := fun _ => le_top
  closed := fun _ _ h => by cases h

/-! ## Writes -/

section Writes

variable (h : Heap C H) (v : VarId C) (x : Var C H v.obj)

@[simp] theorem Heap.set_vars : (h.set v x).vars = h.vars := rfl

@[simp] theorem Heap.set_next : (h.set v x).next = h.next := rfl

@[simp] theorem Heap.set_get_self : (h.set v x).get v = x := update_self ..

theorem Heap.set_get_of_ne {w : VarId C} (hw : w ≠ v) : (h.set v x).get w = h.get w :=
  update_of_ne hw ..

theorem uppers_set : uppers (h.set v x) = update (uppers h) v x.upper := by
  funext w
  by_cases hw : w = v
  · subst hw; simp [uppers]
  · simp [uppers, Heap.set_get_of_ne h v x hw, hw]

theorem lowers_set : lowers (h.set v x) = update (lowers h) v x.lower := by
  funext w
  by_cases hw : w = v
  · subst hw; simp [lowers]
  · simp [lowers, Heap.set_get_of_ne h v x hw, hw]

theorem edges_set : edges (h.set v x) = update (edges h) v x.vlower := by
  funext w
  by_cases hw : w = v
  · subst hw; simp [edges]
  · simp [edges, Heap.set_get_of_ne h v x hw, hw]

theorem Heap.set_set (y : Var C H v.obj) : (h.set v x).set v y = h.set v y := by
  simp [Heap.set]

theorem Heap.set_self : h.set v (h.get v) = h := by
  simp [Heap.set]

end Writes

/-! ## Undoing -/

/-- Undoing what was logged between `s` and `s'` restores the store of `s`. -/
def Undoes (s s' : State C H) : Prop :=
  ∃ cs, s'.log = s.log.map (cs ++ ·) ∧ undoChanges s'.heap cs = s.heap

theorem Undoes.refl (s : State C H) : Undoes s s := ⟨[], by simp, rfl⟩

variable {s₁ s₂ s₃ : State C H}

theorem Undoes.trans (h₁ : Undoes s₁ s₂) (h₂ : Undoes s₂ s₃) : Undoes s₁ s₃ := by
  obtain ⟨cs₁, hlog₁, hundo₁⟩ := h₁
  obtain ⟨cs₂, hlog₂, hundo₂⟩ := h₂
  refine ⟨cs₂ ++ cs₁, ?_, ?_⟩
  · rw [hlog₂, hlog₁]; simp [Function.comp_def]
  · simp only [undoChanges, List.foldl_append] at *; rw [hundo₂, hundo₁]

variable {s : State C H}

variable {v : VarId C} {c : Change C H}

theorem undoes_write {x : Var C H v.obj}
    (h : undoChange (s.heap.set v x) c = s.heap) : Undoes s (s.write c v x) :=
  ⟨[c], rfl, h⟩

theorem undoes_updateLower (s : State C H) (v : VarId C) (a : C.Elt v.obj)
    (aHint : CompHint C H v.obj allowed disallowed) : Undoes s (updateLower s v a aHint) := by
  apply undoes_write
  simp only [undoChange, Heap.set_get_self, Heap.set_set]
  exact Heap.set_self ..

theorem undoes_updateUpper (s : State C H) (v : VarId C) (a : C.Elt v.obj)
    (aHint : CompHint C H v.obj disallowed allowed) : Undoes s (updateUpper s v a aHint) := by
  apply undoes_write
  simp only [undoChange, Heap.set_get_self, Heap.set_set]
  exact Heap.set_self ..

theorem undoes_setVlower (s : State C H) (v : VarId C)
    (vlower : VarMap C H v.obj allowed disallowed) : Undoes s (setVlower s v vlower) := by
  apply undoes_write
  simp only [undoChange, Heap.set_get_self, Heap.set_set]
  exact Heap.set_self ..

/-! ## The bounds and edges after each write -/

section Fields

variable (s : State C H) (v : VarId C)

section

variable (a : C.Elt v.obj)

theorem updateLower_lowers (aHint : CompHint C H v.obj allowed disallowed) :
    lowers (updateLower s v a aHint).heap
      = update (lowers s.heap) v (lowers s.heap v ⊔ a) :=
  lowers_set ..

theorem updateLower_uppers (aHint : CompHint C H v.obj allowed disallowed) :
    uppers (updateLower s v a aHint).heap = uppers s.heap :=
  (uppers_set ..).trans (update_eq_self ..)

theorem updateLower_edges (aHint : CompHint C H v.obj allowed disallowed) :
    edges (updateLower s v a aHint).heap = edges s.heap :=
  (edges_set ..).trans (update_eq_self ..)

theorem updateUpper_uppers (aHint : CompHint C H v.obj disallowed allowed) :
    uppers (updateUpper s v a aHint).heap
      = update (uppers s.heap) v (uppers s.heap v ⊓ a) :=
  uppers_set ..

theorem updateUpper_lowers (aHint : CompHint C H v.obj disallowed allowed) :
    lowers (updateUpper s v a aHint).heap = lowers s.heap :=
  (lowers_set ..).trans (update_eq_self ..)

theorem updateUpper_edges (aHint : CompHint C H v.obj disallowed allowed) :
    edges (updateUpper s v a aHint).heap = edges s.heap :=
  (edges_set ..).trans (update_eq_self ..)

end

section

variable (vlower : VarMap C H v.obj allowed disallowed)

theorem setVlower_edges :
    edges (setVlower s v vlower).heap = update (edges s.heap) v vlower :=
  edges_set ..

theorem setVlower_uppers :
    uppers (setVlower s v vlower).heap = uppers s.heap :=
  (uppers_set ..).trans (update_eq_self ..)

theorem setVlower_lowers :
    lowers (setVlower s v vlower).heap = lowers s.heap :=
  (lowers_set ..).trans (update_eq_self ..)

end

end Fields

/-! ## Progress of a propagation -/

/-- The edges of the store are those of `E`, except that tight variables
may have lost theirs. -/
def Keeps (E : Edges C H) (h : Heap C H) : Prop :=
  ∀ v, edges h v = E v ∨ (edges h v = [] ∧ uppers h v ≤ lowers h v)

/-- What holds between two moments of a propagation along `E`. -/
structure Progress (E : Edges C H) (s s' : State C H) : Prop where
  vars_eq : s'.heap.vars = s.heap.vars
  next_eq : s'.heap.next = s.heap.next
  frame : ∀ v, v ∉ s.heap.vars → s'.heap.get v = s.heap.get v
  undoes : Undoes s s'
  uppers_le : uppers s'.heap ≤ uppers s.heap
  lowers_le : lowers s.heap ≤ lowers s'.heap
  keeps : Keeps E s.heap → Keeps E s'.heap
  /-- Lower bounds rise only to what closure demands. -/
  lowers_closed : ∀ ρ, Closed E ρ → lowers s.heap ≤ ρ → lowers s'.heap ≤ ρ
  /-- Upper bounds never pass below the lower bounds. -/
  above_lowers : ∀ ρ, ρ ≤ lowers s.heap → ρ ≤ uppers s.heap → ρ ≤ uppers s'.heap

theorem Progress.refl (E : Edges C H) (s : State C H) : Progress E s s where
  vars_eq := rfl
  next_eq := rfl
  frame := fun _ _ => rfl
  undoes := .refl s
  uppers_le := le_rfl
  lowers_le := le_rfl
  keeps := id
  lowers_closed := fun _ _ h => h
  above_lowers := fun _ _ h => h

variable {E : Edges C H}

theorem Progress.trans (h₁ : Progress E s₁ s₂)
    (h₂ : Progress E s₂ s₃) : Progress E s₁ s₃ where
  vars_eq := h₂.vars_eq.trans h₁.vars_eq
  next_eq := h₂.next_eq.trans h₁.next_eq
  frame := fun v hv => (h₂.frame v (h₁.vars_eq ▸ hv)).trans (h₁.frame v hv)
  undoes := h₁.undoes.trans h₂.undoes
  uppers_le := h₂.uppers_le.trans h₁.uppers_le
  lowers_le := h₁.lowers_le.trans h₂.lowers_le
  keeps := fun h => h₂.keeps (h₁.keeps h)
  lowers_closed := fun ρ hc h => h₂.lowers_closed ρ hc (h₁.lowers_closed ρ hc h)
  above_lowers := fun ρ hl hu => h₂.above_lowers ρ (hl.trans h₁.lowers_le) (h₁.above_lowers ρ hl hu)

/-- Tightness survives when bounds only close in. -/
theorem Keeps.mono {h' : Heap C H} (hk : Keeps E h) (he : edges h' = edges h)
    (hu : uppers h' ≤ uppers h) (hl : lowers h ≤ lowers h') : Keeps E h' := by
  intro v
  rw [he]
  rcases hk v with h | ⟨h, ht⟩
  · exact .inl h
  · exact .inr ⟨h, (hu v).trans (ht.trans (hl v))⟩

theorem frame_write {x : Var C H v.obj}
    (hv : v ∈ s.heap.vars) : ∀ w, w ∉ s.heap.vars → (s.write c v x).heap.get w = s.heap.get w := by
  intro w hw
  exact Heap.set_get_of_ne _ _ _ fun heq => hw (heq ▸ hv)

theorem progress_updateUpper (E : Edges C H) (s : State C H) (v : VarId C) (a : C.Elt v.obj)
    (aHint : CompHint C H v.obj disallowed allowed) (hv : v ∈ s.heap.vars)
    (ha : lowers s.heap v ≤ a) : Progress E s (updateUpper s v a aHint) := by
  have hle : uppers (updateUpper s v a aHint).heap ≤ uppers s.heap := by
    rw [updateUpper_uppers]
    exact update_le_iff.2 ⟨inf_le_left, fun _ _ => le_rfl⟩
  refine ⟨rfl, rfl, frame_write hv, undoes_updateUpper .., hle, ?_, ?_, ?_, ?_⟩
  · rw [updateUpper_lowers]
  · intro hk; exact hk.mono (updateUpper_edges ..) hle (updateUpper_lowers ..).ge
  · intro ρ _ hρ; rwa [updateUpper_lowers]
  intro ρ hl hu
  rw [updateUpper_uppers]
  exact le_update_iff.2 ⟨le_inf (hu v) ((hl v).trans ha), fun w _ => hu w⟩

theorem progress_updateLower (E : Edges C H) (s : State C H) (v : VarId C) (a : C.Elt v.obj)
    (aHint : CompHint C H v.obj allowed disallowed) (hv : v ∈ s.heap.vars)
    (ha : ∀ ρ, Closed E ρ → lowers s.heap ≤ ρ → a ≤ ρ v) :
    Progress E s (updateLower s v a aHint) := by
  have hle : lowers s.heap ≤ lowers (updateLower s v a aHint).heap := by
    rw [updateLower_lowers]
    exact le_update_iff.2 ⟨le_sup_left, fun _ _ => le_rfl⟩
  refine ⟨rfl, rfl, frame_write hv, undoes_updateLower .., ?_, hle, ?_, ?_, ?_⟩
  · rw [updateLower_uppers]
  · intro hk; exact hk.mono (updateLower_edges ..) (updateLower_uppers ..).le hle
  · intro ρ hc hρ
    rw [updateLower_lowers]
    exact update_le_iff.2 ⟨sup_le (hρ v) (ha ρ hc hρ), fun w _ => hρ w⟩
  · intro ρ _ hu; rwa [updateLower_uppers]

theorem dropVlowerIfTight_uppers (s : State C H) (v : VarId C) :
    uppers (dropVlowerIfTight s v).heap = uppers s.heap := by
  unfold dropVlowerIfTight
  split
  · exact setVlower_uppers ..
  · rfl

theorem progress_dropVlowerIfTight (E : Edges C H) (s : State C H) (v : VarId C)
    (hv : v ∈ s.heap.vars) : Progress E s (dropVlowerIfTight s v) := by
  unfold dropVlowerIfTight
  split
  case isFalse => exact .refl E s
  case isTrue ht =>
    have hu := setVlower_uppers s v []
    have hl := setVlower_lowers s v []
    refine ⟨rfl, rfl, frame_write hv, undoes_setVlower .., hu.le, hl.ge, ?_, ?_, ?_⟩
    · intro hk w
      rw [hu, hl, setVlower_edges]
      by_cases hw : w = v
      · subst hw; exact .inr ⟨update_self .., ht⟩
      · rw [update_of_ne hw]; exact hk w
    · intro ρ _ hρ; rwa [hl]
    · intro ρ _ hρ; rwa [hu]

theorem raiseLower_uppers (s : State C H) (v : VarId C)
    (mu : MorphVar C H v.obj allowed disallowed) :
    uppers (raiseLower s v mu).heap = uppers s.heap := by
  unfold raiseLower
  split
  · exact updateLower_uppers ..
  · rfl

theorem progress_raiseLower (E : Edges C H) (s : State C H) (v : VarId C)
    (mu : MorphVar C H v.obj allowed disallowed) (hv : v ∈ s.heap.vars) (hmu : mu ∈ E v) :
    Progress E s (raiseLower s v mu) := by
  unfold raiseLower
  split
  case isFalse => exact .refl E s
  case isTrue =>
    apply progress_updateLower E s v _ _ hv
    intro ρ hc hρ
    exact (mu.value_mono hρ).trans (hc v mu hmu)

/-! ## What a successful propagation leaves -/

/-- Each upper bound fell to its meet with a bound that holds of all
variables below. -/
def Settled (E : Edges C H) (s s' : State C H) : Prop :=
  ∀ v, ∃ b, uppers s'.heap v = uppers s.heap v ⊓ b ∧ ∀ mu ∈ E v, mu.value (uppers s'.heap) ≤ b

variable {s s' : State C H}

theorem Settled.of_uppers_eq (h : uppers s'.heap = uppers s.heap) : Settled E s s' := by
  intro v
  exact ⟨⊤, by rw [h, inf_top_eq], fun _ _ => le_top⟩

theorem Settled.trans (h₁ : Settled E s₁ s₂)
    (h₂ : Settled E s₂ s₃) (hle : uppers s₃.heap ≤ uppers s₂.heap) : Settled E s₁ s₃ := by
  intro v
  obtain ⟨b₁, hb₁, hmu₁⟩ := h₁ v
  obtain ⟨b₂, hb₂, hmu₂⟩ := h₂ v
  refine ⟨b₁ ⊓ b₂, by rw [hb₂, hb₁, inf_assoc], fun mu hmu => le_inf ?_ (hmu₂ mu hmu)⟩
  exact (mu.value_mono hle).trans (hmu₁ mu hmu)

/-- Upper bounds that were closed are closed again. -/
theorem Settled.closed (h : Settled E s s')
    (hle : uppers s'.heap ≤ uppers s.heap) (hc : Closed E (uppers s.heap)) :
    Closed E (uppers s'.heap) := by
  intro v mu hmu
  obtain ⟨b, hb, hmub⟩ := h v
  rw [hb]
  exact le_inf ((mu.value_mono hle).trans (hc v mu hmu)) (hmub mu hmu)

/-- The assignments that a propagation along `E` has to respect. -/
def Within (E : Edges C H) (s : State C H) (ρ : Assignment C) : Prop :=
  Closed E ρ ∧ lowers s.heap ≤ ρ ∧ ρ ≤ uppers s.heap

/-- The outcome of a call that constrains by the antitone condition `K`. -/
structure Propagates {ε : Type} (E : Edges C H) (K : Assignment C → Prop) (s : State C H)
    (r : Except ε Unit) (s' : State C H) : Prop where
  progress : Progress E s s'
  settled : r = .ok () → Settled E s s'
  holds : r = .ok () → K (uppers s'.heap)
  keeps : r = .ok () → ∀ ρ, Within E s ρ → K ρ → ρ ≤ uppers s'.heap
  fails : ∀ e, r = .error e → ∀ ρ, Within E s ρ → ¬ K ρ

variable {K : Assignment C → Prop}

variable {ε : Type}

/-- A call that does nothing and succeeds. -/
theorem Propagates.done
    (hK : K (uppers s.heap)) : Propagates E K s (.ok () : Except ε Unit) s where
  progress := .refl E s
  settled := fun _ => .of_uppers_eq rfl
  holds := fun _ => hK
  keeps := fun _ _ hρ _ => hρ.2.2
  fails := fun _ h => by cases h

/-- A call that fails before it does anything. -/
theorem Propagates.refuse {e : ε} (hK : ∀ ρ, Within E s ρ → ¬ K ρ) :
    Propagates E K s (.error e : Except ε Unit) s where
  progress := .refl E s
  settled := fun h => by cases h
  holds := fun h => by cases h
  keeps := fun h => by cases h
  fails := fun _ _ => hK

variable {ρ : Assignment C}

theorem Within.step (h : Within E s ρ)
    (hp : Progress E s s') (hu : ρ ≤ uppers s'.heap) : Within E s' ρ :=
  ⟨h.1, hp.lowers_closed ρ h.1 h.2.1, hu⟩

variable {K₁ K₂ K K' : Assignment C → Prop}

/-- One call after another: the second constraint is met, the first stays
met because it is antitone. -/
theorem Propagates.and_then {r : Except ε Unit} (hK : ∀ ρ ρ', ρ' ≤ ρ → K₁ ρ → K₁ ρ')
    (h₁ : Propagates E K₁ s₁ (.ok () : Except ε Unit) s₂) (h₂ : Propagates E K₂ s₂ r s₃) :
    Propagates E (fun ρ => K₁ ρ ∧ K₂ ρ) s₁ r s₃ where
  progress := h₁.progress.trans h₂.progress
  settled := fun hr => (h₁.settled rfl).trans (h₂.settled hr) h₂.progress.uppers_le
  holds := fun hr => ⟨hK _ _ h₂.progress.uppers_le (h₁.holds rfl), h₂.holds hr⟩
  keeps := fun hr ρ hρ hKρ =>
    h₂.keeps hr ρ (hρ.step h₁.progress (h₁.keeps rfl ρ hρ hKρ.1)) hKρ.2
  fails := fun e hr ρ hρ hKρ =>
    h₂.fails e hr ρ (hρ.step h₁.progress (h₁.keeps rfl ρ hρ hKρ.1)) hKρ.2

/-- A call that fails stops the ones after it. -/
theorem Propagates.stop {K₁ K₂ : Assignment C → Prop}
    {s₁ s₂ : State C H} {e : ε} (h : Propagates E K₁ s₁ (.error e : Except ε Unit) s₂) :
    Propagates E (fun ρ => K₁ ρ ∧ K₂ ρ) s₁ (.error e : Except ε Unit) s₂ where
  progress := h.progress
  settled := fun h => by cases h
  holds := fun h => by cases h
  keeps := fun h => by cases h
  fails := fun _ _ ρ hρ hK => h.fails e rfl ρ hρ hK.1

/-- A piece of work after a call that leaves the upper bounds alone. -/
theorem Propagates.extend {r : Except ε Unit} (h : Propagates E K s₁ r s₂)
    (hp : Progress E s₂ s₃) (hu : uppers s₃.heap = uppers s₂.heap) :
    Propagates E K s₁ r s₃ where
  progress := h.progress.trans hp
  settled := fun hr => (h.settled hr).trans (.of_uppers_eq hu) hu.le
  holds := fun hr => by
    rw [hu]
    exact h.holds hr
  keeps := fun hr ρ hρ hK => by
    rw [hu]
    exact h.keeps hr ρ hρ hK
  fails := h.fails

theorem Propagates.congr {r : Except ε Unit} (h : Propagates E K s r s')
    (hK : ∀ ρ, K ρ ↔ K' ρ) : Propagates E K' s r s' := by
  obtain rfl : K = K' := funext fun ρ => propext (hK ρ)
  exact h

variable {ε ε' : Type}

theorem Propagates.mapError {e : ε} (h : Propagates E K s (.error e : Except ε Unit) s') (e' : ε') :
    Propagates E K s (.error e' : Except ε' Unit) s' where
  progress := h.progress
  settled := fun h => by cases h
  holds := fun h => by cases h
  keeps := fun h => by cases h
  fails := fun _ _ => h.fails e rfl

theorem Propagates.ok_congr (h : Propagates E K s (.ok () : Except ε Unit) s') :
    Propagates E K s (.ok () : Except ε' Unit) s' where
  progress := h.progress
  settled := fun _ => h.settled rfl
  holds := fun _ => h.holds rfl
  keeps := fun _ => h.keeps rfl
  fails := fun _ h => by cases h

/-! ## `submode_vc` and `submode_mvc` -/

/-- What a caller may assume of `submode_vc` in the state `s`. -/
def VcSpec (E : Edges C H) (vc : SubmodeVc C H) (s : State C H) : Prop :=
  ∀ pp v a' a'Hint, v ∈ s.heap.vars →
    ∃ r s', vc s pp v a' a'Hint = some (r, s') ∧ Propagates E (fun ρ => ρ v ≤ a') s r s'

variable {vc : SubmodeVc C H}

theorem submodeMvcWith_spec
    (hvc : VcSpec E vc s) (pp : H.Pinpoint) (mv : MorphVar C H o allowed r) (a : C.Elt o)
    (aHint : CompHint C H o disallowed allowed) (hv : mv.var ∈ s.heap.vars) :
    ∃ res s', submodeMvcWith vc s pp mv a aHint = some (res, s') ∧
      Propagates E (fun ρ => mv.value ρ ≤ a) s res s' := by
  unfold submodeMvcWith
  split
  case isTrue hle => exact ⟨_, _, rfl, .done hle⟩
  split
  case isTrue hlow =>
    refine ⟨_, _, rfl, .refuse fun ρ hρ hK => hlow ?_⟩
    exact (mv.value_mono hρ.2.1).trans hK
  -- asking `f v <= a` is asking `v <= f' a`
  have hgc : ∀ ρ : Assignment C, ρ mv.var ≤ C.apply (C.rightAdjoint mv.morph) a ↔ mv.value ρ ≤ a :=
    fun ρ => (C.gc_rightAdjoint mv.morph _ _).symm
  obtain ⟨res, s', heq, hres⟩ := hvc (mv.hint.rightAdjoint pp).1 mv.var
    (C.apply (C.rightAdjoint mv.morph) a) (.apply (mv.hint.rightAdjoint pp).2 aHint) hv
  simp only [heq]
  cases res with
  | ok u => exact ⟨_, _, rfl, (hres.congr hgc).ok_congr⟩
  | error e => exact ⟨_, _, rfl, (hres.congr hgc).mapError _⟩

theorem submodeBelow_spec (hvc : VcSpec E vc s) (pp : H.Pinpoint) (a' : C.Elt v.obj)
    (a'Hint : CompHint C H v.obj disallowed allowed) (hv : v ∈ s.heap.vars)
    {mu : MorphVar C H v.obj allowed disallowed} (hmu : mu ∈ E v)
    (hvar : mu.var ∈ s.heap.vars) :
    ∃ res s', submodeBelow vc pp v a' a'Hint s mu = some (res, s') ∧
      Propagates E (fun ρ => mu.value ρ ≤ a') s res s' := by
  obtain ⟨res, s', heq, hres⟩ := submodeMvcWith_spec hvc pp mu a' a'Hint hvar
  simp only [submodeBelow, heq]
  cases res with
  | error e => exact ⟨_, _, rfl, hres⟩
  | ok u =>
    refine ⟨_, _, rfl, hres.extend ?_ (raiseLower_uppers ..)⟩
    exact progress_raiseLower E s' v mu (hres.progress.vars_eq ▸ hv) hmu

/-- `find_error` over calls with antitone conditions. `P` is what every
call needs of the state it starts in. -/
theorem findError_spec {α : Type} {P : State C H → Prop}
    {f : State C H → α → Option (Except ε Unit × State C H)} {K : α → Assignment C → Prop}
    (hK : ∀ x ρ ρ', ρ' ≤ ρ → K x ρ → K x ρ') (hP : ∀ s s', P s → Progress E s s' → P s') :
    ∀ (xs : List α),
      (∀ x ∈ xs, ∀ s, P s → ∃ r s', f s x = some (r, s') ∧ Propagates E (K x) s r s') →
      ∀ s, P s → ∃ r s', findError f s xs = some (r, s') ∧
        Propagates E (fun ρ => ∀ x ∈ xs, K x ρ) s r s'
  | [], _, s, _ => ⟨.ok (), s, rfl, .done (by simp)⟩
  | x :: xs, hf, s, hs => by
    obtain ⟨r, s₁, heq, h₁⟩ := hf x (by simp) s hs
    have hcons : ∀ ρ, (K x ρ ∧ ∀ y ∈ xs, K y ρ) ↔ ∀ y ∈ x :: xs, K y ρ := by simp
    simp only [findError, heq]
    cases r with
    | error e => exact ⟨_, _, rfl, h₁.stop.congr hcons⟩
    | ok u =>
      obtain ⟨r, s₂, heq₂, h₂⟩ := findError_spec hK hP xs
        (fun y hy => hf y (List.mem_cons_of_mem _ hy)) s₁ (hP s s₁ hs h₁.progress)
      exact ⟨r, s₂, heq₂, (Propagates.and_then (hK x) h₁ h₂).congr hcons⟩

variable {a' : C.Elt v.obj}

/-- The propagation of `v <= a'` once its upper bound is lowered: the
condition on the variables below settles `v` too. -/
theorem Propagates.lower_upper {a'Hint : CompHint C H v.obj disallowed allowed} {r : Except ε Unit}
    (hv : v ∈ s.heap.vars) (ha : lowers s.heap v ≤ a')
    (h : Propagates E (fun ρ => ∀ mu ∈ E v, mu.value ρ ≤ a') (updateUpper s v a' a'Hint) r s') :
    Propagates E (fun ρ => ρ v ≤ a') s r s' := by
  have hp := progress_updateUpper E s v a' a'Hint hv ha
  have hu := updateUpper_uppers s v a' a'Hint
  have hwithin : ∀ ρ, Within E s ρ → ρ v ≤ a' → Within E (updateUpper s v a' a'Hint) ρ := by
    intro ρ hρ hle
    refine hρ.step hp ?_
    rw [hu]
    exact le_update_iff.2 ⟨le_inf (hρ.2.2 v) hle, fun w _ => hρ.2.2 w⟩
  have hbelow : ∀ ρ, Within E s ρ → ρ v ≤ a' → ∀ mu ∈ E v, mu.value ρ ≤ a' :=
    fun ρ hρ hle mu hmu => (hρ.1 v mu hmu).trans hle
  refine ⟨hp.trans h.progress, ?_, ?_, ?_, ?_⟩
  · intro hr w
    obtain ⟨b, hb, hmu⟩ := h.settled hr w
    rw [hu] at hb
    by_cases hw : w = v
    · subst hw
      rw [update_self, inf_assoc] at hb
      exact ⟨a' ⊓ b, hb, fun mu hmem => le_inf (h.holds hr mu hmem) (hmu mu hmem)⟩
    · rw [update_of_ne hw] at hb; exact ⟨b, hb, hmu⟩
  · intro _
    refine (h.progress.uppers_le v).trans ?_
    rw [hu, update_self]
    exact inf_le_right
  · intro hr ρ hρ hle; exact h.keeps hr ρ (hwithin ρ hρ hle) (hbelow ρ hρ hle)
  · intro e hr ρ hρ hle; exact h.fails e hr ρ (hwithin ρ hρ hle) (hbelow ρ hρ hle)

/-- What `submode_vc` needs of the state it starts in: the edges are those
of `E`, and the bounds cannot fall more often than there is fuel. -/
structure Ready (E : Edges C H) (fuel : Nat) (s : State C H) : Prop where
  keeps : Keeps E s.heap
  allocated : ∀ v, ∀ mu ∈ E v, mu.var ∈ s.heap.vars
  fuel : Lib.potential s.heap.vars (uppers s.heap) < fuel

theorem Ready.step {fuel : Nat} (h : Ready E fuel s)
    (hp : Progress E s s') : Ready E fuel s' where
  keeps := hp.keeps h.keeps
  allocated := fun v mu hmu => hp.vars_eq ▸ h.allocated v mu hmu
  fuel := by
    rw [hp.vars_eq]
    exact (Lib.potential_mono _ hp.uppers_le).trans_lt h.fuel

variable {fuel : Nat}

/-- Lowering an upper bound pays for one unit of fuel. -/
theorem Ready.updateUpper (h : Ready E (fuel + 1) s)
    (a'Hint : CompHint C H v.obj disallowed allowed) (hv : v ∈ s.heap.vars)
    (ha : lowers s.heap v ≤ a') (hlt : ¬ uppers s.heap v ≤ a') :
    Ready E fuel (updateUpper s v a' a'Hint) := by
  have hp := progress_updateUpper E s v a' a'Hint hv ha
  refine ⟨hp.keeps h.keeps, h.allocated, ?_⟩
  have hdrop : uppers (Solver.updateUpper s v a' a'Hint).heap v < uppers s.heap v := by
    rw [updateUpper_uppers, update_self]
    exact inf_lt_left.2 hlt
  have hpot := Lib.potential_lt hp.uppers_le hv hdrop
  have hfuel := h.fuel
  rw [hp.vars_eq]
  omega

theorem submodeVc_spec : ∀ (fuel : Nat) (s : State C H), Ready E fuel s →
    VcSpec E (submodeVc fuel) s := by
  intro fuel
  induction fuel with
  | zero => exact fun s hs => absurd hs.fuel (Nat.not_lt_zero _)
  | succ fuel ih =>
    intro s hs pp v a' a'Hint hv
    rw [submodeVc]
    split
    case isTrue hle => exact ⟨_, _, rfl, .done hle⟩
    case isFalse hlt =>
    split
    case isTrue hlow => exact ⟨_, _, rfl, .refuse fun ρ hρ hK => hlow ((hρ.2.1 v).trans hK)⟩
    case isFalse hlow =>
    have ha : lowers s.heap v ≤ a' := not_not.1 hlow
    have hready := hs.updateUpper a'Hint hv ha hlt
    -- `v` is not tight, so it still has all its edges
    have hedges : ((updateUpper s v a' a'Hint).get v).vlower = E v := by
      have heq : edges (updateUpper s v a' a'Hint).heap v = edges s.heap v := by
        rw [updateUpper_edges]
      refine heq.trans ((hs.keeps v).resolve_right fun h => hlt (h.2.trans ha))
    simp only [hedges]
    obtain ⟨r, s', heq, hres⟩ := findError_spec (E := E)
      (P := fun s' => Ready E fuel s' ∧ v ∈ s'.heap.vars)
      (K := fun mu ρ => mu.value ρ ≤ a')
      (fun mu ρ ρ' hle hK => (mu.value_mono hle).trans hK)
      (fun s₁ s₂ h₁ hp => ⟨h₁.1.step hp, hp.vars_eq ▸ h₁.2⟩) (E v)
      (fun mu hmu s₁ h₁ => submodeBelow_spec (ih s₁ h₁.1) pp a' a'Hint h₁.2 hmu
        (h₁.1.allocated v mu hmu))
      (updateUpper s v a' a'Hint) ⟨hready, hv⟩
    simp only [heq]
    refine ⟨_, _, rfl, (hres.lower_upper hv ha).extend ?_ (dropVlowerIfTight_uppers ..)⟩
    exact progress_dropVlowerIfTight E s' v (hres.progress.vars_eq ▸ hv)

/-! ## Calls as constraints on the admitted assignments -/

/-- `s'` admits the assignments of `s` that satisfy `K`, and no other. -/
structure Narrows (K : Assignment C → Prop) (s s' : State C H) : Prop where
  inv : Inv s'.heap
  vars_eq : s'.heap.vars = s.heap.vars
  undoes : Undoes s s'
  admits : ∀ ρ, Admits s'.heap ρ ↔ Admits s.heap ρ ∧ K ρ

/-- The call decides `K`: it narrows the store, or no admitted assignment
satisfies `K`. Either way it can be undone. -/
structure Decides {ε : Type} (K : Assignment C → Prop) (s : State C H) (r : Except ε Unit)
    (s' : State C H) : Prop where
  undoes : Undoes s s'
  narrows : r = .ok () → Narrows K s s'
  fails : ∀ e, r = .error e → ∀ ρ, Admits s.heap ρ → ¬ K ρ

theorem Narrows.refl (hi : Inv s.heap)
    (hK : ∀ ρ, Admits s.heap ρ → K ρ) : Narrows K s s where
  inv := hi
  vars_eq := rfl
  undoes := .refl s
  admits := fun ρ => ⟨fun h => ⟨h, hK ρ h⟩, And.left⟩

theorem Narrows.trans
    (h₁ : Narrows K₁ s₁ s₂) (h₂ : Narrows K₂ s₂ s₃) : Narrows (fun ρ => K₁ ρ ∧ K₂ ρ) s₁ s₃ where
  inv := h₂.inv
  vars_eq := h₂.vars_eq.trans h₁.vars_eq
  undoes := h₁.undoes.trans h₂.undoes
  admits := fun ρ => by rw [h₂.admits, h₁.admits, and_assoc]

theorem Narrows.congr (h : Narrows K s s')
    (hK : ∀ ρ, Admits s.heap ρ → (K ρ ↔ K' ρ)) : Narrows K' s s' where
  inv := h.inv
  vars_eq := h.vars_eq
  undoes := h.undoes
  admits := fun ρ => by
    rw [h.admits]
    exact and_congr_right (hK ρ)

/-- A narrower store has lower upper bounds, and so needs no more fuel. -/
theorem Narrows.potential_le (h : Narrows K s s') :
    Lib.potential s'.heap.vars (uppers s'.heap) ≤ Lib.potential s.heap.vars (uppers s.heap) := by
  rw [h.vars_eq]
  exact Lib.potential_mono _ ((h.admits _).1 h.inv.admits_uppers).1.upper

theorem Decides.of_narrows
    (h : Narrows K s s') : Decides K s (.ok () : Except ε Unit) s' where
  undoes := h.undoes
  narrows := fun _ => h
  fails := fun _ h => by cases h

theorem Decides.of_error {e : ε} (hu : Undoes s s') (h : ∀ ρ, Admits s.heap ρ → ¬ K ρ) :
    Decides K s (.error e : Except ε Unit) s' where
  undoes := hu
  narrows := fun h => by cases h
  fails := fun _ _ => h

/-- Edges of tight variables may go: closed upper bounds imply them. -/
theorem closed_of_keeps (hk : Keeps E h)
    (hc : Closed E (uppers h)) (hρ : Admits h ρ) : Closed E ρ := by
  intro v mu hmu
  rcases hk v with heq | ⟨-, ht⟩
  · exact hρ.closed v mu (heq ▸ hmu)
  calc mu.value ρ ≤ mu.value (uppers h) := mu.value_mono hρ.upper
    _ ≤ uppers h v := hc v mu hmu
    _ ≤ lowers h v := ht
    _ ≤ ρ v := hρ.lower v

theorem Keeps.closed (hk : Keeps E h) (hc : Closed E ρ) : Closed (edges h) ρ := by
  intro v mu hmu
  rcases hk v with heq | ⟨heq, -⟩
  · exact hc v mu (heq ▸ hmu)
  · rw [heq] at hmu; cases hmu

theorem keeps_edges (h : Heap C H) : Keeps (edges h) h := fun _ => .inl rfl

/-- A finished propagation restores the invariant. -/
theorem Propagates.decides {r : Except ε Unit} (hi : Inv s.heap) (hK : ∀ ρ ρ', ρ' ≤ ρ → K ρ → K ρ')
    (h : Propagates (edges s.heap) K s r s') : Decides K s r s' := by
  have hp := h.progress
  refine ⟨hp.undoes, fun hr => ?_, fun e hr ρ hρ => ?_⟩
  · have hclosed := (h.settled hr).closed hp.uppers_le hi.closed
    have hkeeps := hp.keeps (keeps_edges s.heap)
    have hbounds : lowers s'.heap ≤ uppers s'.heap :=
      hp.lowers_closed _ hclosed (hp.above_lowers _ le_rfl hi.bounds)
    refine ⟨⟨hbounds, hkeeps.closed hclosed, ?_, ?_, ?_⟩, hp.vars_eq, hp.undoes, fun ρ => ⟨?_, ?_⟩⟩
    · intro v mu hmu
      rw [hp.vars_eq]
      rcases hkeeps v with heq | ⟨heq, -⟩
      · exact hi.allocated v mu (heq ▸ hmu)
      · rw [heq] at hmu; cases hmu
    · rw [hp.vars_eq, hp.next_eq]; exact hi.fresh
    · intro v hv
      rw [hp.vars_eq] at hv
      rw [hp.frame v hv]
      exact hi.untouched v hv
    · intro hρ
      refine ⟨⟨hp.lowers_le.trans hρ.lower, hρ.upper.trans hp.uppers_le, ?_⟩,
        hK _ _ hρ.upper (h.holds hr)⟩
      exact closed_of_keeps hkeeps hclosed hρ
    rintro ⟨hρ, hKρ⟩
    refine ⟨hp.lowers_closed ρ hρ.closed hρ.lower, ?_, hkeeps.closed hρ.closed⟩
    exact h.keeps hr ρ ⟨hρ.closed, hρ.lower, hρ.upper⟩ hKρ
  · exact h.fails e hr ρ ⟨hρ.closed, hρ.lower, hρ.upper⟩

/-- The fuel that a call from this store may need. -/
def enough (h : Heap C H) : Nat := Lib.potential h.vars (uppers h) + 1

section

variable (hi : Inv s.heap)
include hi

theorem submodeMvc_decides
    (hfuel : enough s.heap ≤ fuel) (pp : H.Pinpoint) (mv : MorphVar C H o allowed r) (a : C.Elt o)
    (aHint : CompHint C H o disallowed allowed) (hv : mv.var ∈ s.heap.vars) :
    ∃ res s', submodeMvc fuel s pp mv a aHint = some (res, s') ∧
      Decides (fun ρ => mv.value ρ ≤ a) s res s' := by
  have hready : Ready (edges s.heap) fuel s := ⟨keeps_edges _, hi.allocated, hfuel⟩
  obtain ⟨res, s', heq, hres⟩ :=
    submodeMvcWith_spec (submodeVc_spec fuel s hready) pp mv a aHint hv
  exact ⟨res, s', heq, hres.decides hi fun ρ ρ' hle hK => (mv.value_mono hle).trans hK⟩

/-! ## `submode_cv` and `submode_cmv` -/

theorem narrows_updateLower {a : C.Elt v.obj}
    (aHint : CompHint C H v.obj allowed disallowed) (hv : v ∈ s.heap.vars)
    (ha : a ≤ uppers s.heap v) : Narrows (fun ρ => a ≤ ρ v) s (updateLower s v a aHint) := by
  have hl := updateLower_lowers s v a aHint
  have hu := updateLower_uppers s v a aHint
  have he := updateLower_edges s v a aHint
  refine ⟨⟨?_, ?_, ?_, hi.fresh, ?_⟩, rfl, undoes_updateLower .., fun ρ => ⟨?_, ?_⟩⟩
  · rw [hl, hu]; exact update_le_iff.2 ⟨sup_le (hi.bounds v) ha, fun w _ => hi.bounds w⟩
  · rw [he, hu]; exact hi.closed
  · rw [he]; exact hi.allocated
  · intro w hw
    rw [← hi.untouched w hw]
    exact frame_write hv w hw
  · intro hρ
    have hlow := hρ.lower
    rw [hl] at hlow
    obtain ⟨hav, hlow⟩ := update_le_iff.1 hlow
    refine ⟨⟨fun w => ?_, hu ▸ hρ.upper, he ▸ hρ.closed⟩, le_sup_right.trans hav⟩
    by_cases hw : w = v
    · subst hw; exact le_sup_left.trans hav
    · exact hlow w hw
  rintro ⟨hρ, hav⟩
  refine ⟨?_, hu.symm ▸ hρ.upper, he.symm ▸ hρ.closed⟩
  rw [hl]
  exact update_le_iff.2 ⟨sup_le (hρ.lower v) hav, fun w _ => hρ.lower w⟩

theorem narrows_dropVlowerIfTight
    (hv : v ∈ s.heap.vars) : Narrows (fun _ => True) s (dropVlowerIfTight s v) := by
  have hp := progress_dropVlowerIfTight (edges s.heap) s v hv
  have h : Propagates (edges s.heap) (fun _ => True) s (.ok () : Except Unit Unit) _ :=
    (Propagates.done trivial).extend hp (dropVlowerIfTight_uppers ..)
  exact (h.decides hi fun _ _ _ _ => trivial).narrows rfl

theorem submodeCv_narrows
    (a'Hint : CompHint C H v.obj allowed disallowed) (hv : v ∈ s.heap.vars)
    (ha : a' ≤ uppers s.heap v) :
    ∃ s', submodeCv s v a' a'Hint = (.ok (), s') ∧ Narrows (fun ρ => a' ≤ ρ v) s s' := by
  unfold submodeCv
  split
  case isTrue hlow => exact ⟨_, rfl, .refl hi fun ρ hρ => le_trans hlow (hρ.lower v)⟩
  split
  case isTrue hgt => exact absurd ha hgt
  case isFalse =>
    have h₁ := narrows_updateLower hi a'Hint hv ha
    have h₂ := narrows_dropVlowerIfTight h₁.inv (h₁.vars_eq.symm ▸ hv)
    exact ⟨_, rfl, (h₁.trans h₂).congr fun ρ _ => by rw [and_true]⟩

theorem submodeCmv_decides (pp : H.Pinpoint) (a : C.Elt o)
    (aHint : CompHint C H o allowed disallowed) (mv : MorphVar C H o l allowed)
    (hv : mv.var ∈ s.heap.vars) :
    ∃ res s', submodeCmv s pp a aHint mv = some (res, s') ∧
      Decides (fun ρ => a ≤ mv.value ρ) s res s' := by
  unfold submodeCmv
  split
  case isTrue hle =>
    exact ⟨_, _, rfl, .of_narrows (.refl hi fun ρ hρ => hle.trans (mv.value_mono hρ.lower))⟩
  split
  case isTrue hgt =>
    exact ⟨_, _, rfl, .of_error (.refl s) fun ρ hρ hK => hgt (hK.trans (mv.value_mono hρ.upper))⟩
  case isFalse hle =>
  have hgc : ∀ ρ : Assignment C, C.apply (C.leftAdjoint mv.morph) a ≤ ρ mv.var ↔ a ≤ mv.value ρ :=
    fun ρ => C.gc_leftAdjoint mv.morph _ _
  obtain ⟨s', heq, h⟩ := submodeCv_narrows hi (.apply (mv.hint.leftAdjoint pp).2 aHint) hv
    ((hgc (uppers s.heap)).2 (not_not.1 hle))
  simp only [heq]
  exact ⟨_, _, rfl, .of_narrows (h.congr fun ρ _ => hgc ρ)⟩

end

/-! ## Maps of morphvars -/

section Maps

variable {b : C.Obj} {l₁ r₁ l₂ r₂ : Allowance} {y : MorphVar C H b l₂ r₂} {x : MorphVar C H b l₁ r₁}

theorem value_eq_of_same (hid : x.var.id = y.var.id)
    (h : ∃ h : x.var.obj = y.var.obj, ∀ z, C.apply x.morph z = C.apply y.morph (h ▸ z))
    (ρ : Assignment C) : x.value ρ = y.value ρ := by
  obtain ⟨⟨ox, ix⟩, mx, hx⟩ := x
  obtain ⟨hobj, h⟩ := h
  cases hid
  cases hobj
  exact h (ρ _)

/-- Morphvars that share a key are one function of the assignment. -/
theorem value_eq_of_compareKey
    (h : x.compareKey y = .eq) (ρ : Assignment C) : x.value ρ = y.value ρ := by
  simp only [MorphVar.compareKey, Ordering.then_eq_eq] at h
  exact value_eq_of_same (Nat.compare_eq_eq.1 h.1) (C.compareMorph_sound _ _ h.2) ρ

theorem value_eq_of_eqMorphvar
    (h : eqMorphvar x y = true) (ρ : Assignment C) : x.value ρ = y.value ρ := by
  unfold eqMorphvar at h
  split at h
  case isTrue => cases h
  case isFalse hid => exact value_eq_of_same (not_not.1 hid) (C.equalMorph_sound _ _ h) ρ

variable {m : VarMap C H b l r}

theorem mem_of_mem_add {x y : MorphVar C H b l r} (h : y ∈ VarMap.add x m) : y = x ∨ y ∈ m := by
  induction m with
  | nil => exact .inl (List.mem_singleton.1 h)
  | cons z zs ih =>
    simp only [VarMap.add] at h
    split at h
    · exact List.mem_cons.1 h
    · exact (List.mem_cons.1 h).imp_right (List.mem_cons_of_mem z)
    rcases List.mem_cons.1 h with rfl | h
    · exact .inr List.mem_cons_self
    · exact (ih h).imp_right (List.mem_cons_of_mem z)

/-- What the values of a map satisfy after `VarMap.add`, where the new
morphvar may take the place of one with its key. -/
theorem forall_mem_add {x : MorphVar C H b l r} (P : C.Elt b → Prop) :
    (∀ y ∈ VarMap.add x m, P (y.value ρ)) ↔ P (x.value ρ) ∧ ∀ y ∈ m, P (y.value ρ) := by
  induction m with
  | nil => simp [VarMap.add]
  | cons z zs ih =>
    simp only [VarMap.add]
    split
    case h_1 => simp
    case h_2 heq => have hval := value_eq_of_compareKey heq ρ; simp [hval]
    case h_3 => simp only [List.forall_mem_cons, ih]; exact and_left_comm

theorem value_le_of_mem {x : MorphVar C H b l r}
    {c : C.Elt b} (hx : VarMap.mem x m = true) (h : ∀ y ∈ m, y.value ρ ≤ c) : x.value ρ ≤ c := by
  obtain ⟨y, hy, hkey⟩ := List.any_eq_true.1 hx
  rw [value_eq_of_compareKey (beq_iff_eq.1 hkey) ρ]
  exact h y hy

end Maps

/-! ## `submode_mvmv` -/

variable {l₁ r₀ : Allowance}

/-- `A` is a set of assignments and `f v`, `g u` are morphvars. Let `U` be
the greatest assignment of `A` and `X` the greatest one with `f v <= g U`.
Then `X` has `f v <= g u` as well: bounding `f v` by the value that `g u`
has now does not lower `g u` below it. -/
def MvmvSafe (A : Set (Assignment C)) (mv : MorphVar C H o allowed r₀)
    (mu : MorphVar C H o l₁ allowed) : Prop :=
  ∀ U X, IsGreatest A U → IsGreatest {ρ ∈ A | mv.value ρ ≤ mu.value U} X → mv.value X ≤ mu.value X

theorem edge_value_le (pp : H.Pinpoint) (mv : MorphVar C H o allowed r₀)
    (mu : MorphVar C H o l₁ allowed) (ρ : Assignment C) :
    (edge pp mv mu).value ρ ≤ ρ mu.var ↔ mv.value ρ ≤ mu.value ρ := by
  have heq : (edge pp mv mu).value ρ = C.apply (C.leftAdjoint mu.morph) (mv.value ρ) := by
    simp only [MorphVar.value, edge, C.apply_compose, C.apply_disallowRight]
  rw [heq]
  exact C.gc_leftAdjoint mu.morph _ _

variable {u : VarId C}

theorem closed_update {m : VarMap C H u.obj allowed disallowed} : Closed (update E u m) ρ ↔
      (∀ mu ∈ m, mu.value ρ ≤ ρ u) ∧ ∀ v, v ≠ u → ∀ mu ∈ E v, mu.value ρ ≤ ρ v := by
  refine ⟨fun h => ⟨?_, ?_⟩, ?_⟩
  · have hu := h u; rwa [update_self] at hu
  · intro v hv
    have hv' := h v
    rwa [update_of_ne hv] at hv'
  rintro ⟨hu, hne⟩ v
  by_cases hv : v = u
  · subst hv; rwa [update_self]
  · rw [update_of_ne hv]; exact hne v hv

/-- Adding an edge to the store adds its constraint. -/
theorem closed_update_add {x : MorphVar C H u.obj allowed disallowed} :
    Closed (update E u (VarMap.add x (E u))) ρ ↔ x.value ρ ≤ ρ u ∧ Closed E ρ := by
  rw [closed_update, forall_mem_add (· ≤ ρ u), and_assoc]
  refine and_congr_right fun _ => ⟨fun h v => ?_, fun h => ⟨h u, fun v _ => h v⟩⟩
  by_cases hv : v = u
  · subst hv; exact h.1
  · exact h.2 v hv

theorem narrows_addEdge (hi : Inv s.heap)
    {x : MorphVar C H u.obj allowed disallowed} (hu : u ∈ s.heap.vars)
    (hx : x.var ∈ s.heap.vars) (hle : x.value (uppers s.heap) ≤ uppers s.heap u) :
    Narrows (fun ρ => x.value ρ ≤ ρ u) s (setVlower s u (VarMap.add x (s.get u).vlower)) := by
  have he := setVlower_edges s u (VarMap.add x (s.get u).vlower)
  have hup := setVlower_uppers s u (VarMap.add x (s.get u).vlower)
  have hlo := setVlower_lowers s u (VarMap.add x (s.get u).vlower)
  have hclosed : ∀ ρ, Closed (edges (setVlower s u (VarMap.add x (s.get u).vlower)).heap) ρ ↔
      x.value ρ ≤ ρ u ∧ Closed (edges s.heap) ρ := by
    intro ρ
    rw [he]
    exact closed_update_add
  refine ⟨⟨?_, ?_, ?_, hi.fresh, ?_⟩, rfl, undoes_setVlower .., fun ρ => ⟨?_, ?_⟩⟩
  · rw [hup, hlo]; exact hi.bounds
  · rw [hclosed, hup]; exact ⟨hle, hi.closed⟩
  · intro v mu hmu
    rw [he] at hmu
    by_cases hv : v = u
    · subst hv
      rw [update_self] at hmu
      rcases mem_of_mem_add hmu with rfl | hmu
      · exact hx
      · exact hi.allocated v mu hmu
    · rw [update_of_ne hv] at hmu; exact hi.allocated v mu hmu
  · intro w hw
    rw [← hi.untouched w hw]
    exact frame_write hu w hw
  · intro hρ
    have hc := (hclosed ρ).1 hρ.closed
    exact ⟨⟨hlo ▸ hρ.lower, hup ▸ hρ.upper, hc.2⟩, hc.1⟩
  · rintro ⟨hρ, hx⟩
    exact ⟨hlo.symm ▸ hρ.lower, hup.symm ▸ hρ.upper, (hclosed ρ).2 ⟨hx, hρ.closed⟩⟩

theorem submodeMvmv_decides (hi : Inv s.heap)
    (hfuel : enough s.heap ≤ fuel) (pp : H.Pinpoint) (mv : MorphVar C H o allowed r₀)
    (mu : MorphVar C H o l₁ allowed) (hv : mv.var ∈ s.heap.vars) (hu : mu.var ∈ s.heap.vars)
    (hsafe : MvmvSafe {ρ | Admits s.heap ρ} mv mu) :
    ∃ res s', submodeMvmv fuel s pp mv mu = some (res, s') ∧
      Decides (fun ρ => mv.value ρ ≤ mu.value ρ) s res s' := by
  unfold submodeMvmv
  split
  case isTrue hle =>
    refine ⟨_, _, rfl, .of_narrows (.refl hi fun ρ hρ => ?_)⟩
    calc mv.value ρ ≤ mv.value (uppers s.heap) := mv.value_mono hρ.upper
      _ ≤ mu.value (lowers s.heap) := hle
      _ ≤ mu.value ρ := mu.value_mono hρ.lower
  split
  case isTrue heq =>
    exact ⟨_, _, rfl, .of_narrows (.refl hi fun ρ _ => (value_eq_of_eqMorphvar heq ρ).le)⟩
  -- step 1: `f v <= g u.upper`
  obtain ⟨r₁, s₁, heq₁, h₁⟩ :=
    submodeMvc_decides hi hfuel pp mv (mupper s mu) (mupperHint s mu) hv
  simp only [heq₁]
  cases r₁ with
  | error e =>
    refine ⟨_, _, rfl, .of_error h₁.undoes fun ρ hρ hK => h₁.fails e rfl ρ hρ ?_⟩
    exact hK.trans (mu.value_mono hρ.upper)
  | ok _ =>
  have hn₁ := h₁.narrows rfl
  have hle₁ : mv.value (uppers s₁.heap) ≤ mu.value (uppers s₁.heap) := by
    refine hsafe _ _ hi.isGreatest ⟨(hn₁.admits _).1 hn₁.inv.admits_uppers, fun ρ hρ => ?_⟩
    exact ((hn₁.admits ρ).2 hρ).upper
  -- step 2: `f v.lower <= g u`
  obtain ⟨r₂, s₂, heq₂, h₂⟩ := submodeCmv_decides hn₁.inv pp (mlower s₁ mv) (mlowerHint s₁ mv) mu
    (hn₁.vars_eq.symm ▸ hu)
  simp only [heq₂]
  have hstep₂ : ∀ ρ, Admits s₁.heap ρ → mv.value ρ ≤ mu.value ρ → mlower s₁ mv ≤ mu.value ρ :=
    fun ρ hρ hK => (mv.value_mono hρ.lower).trans hK
  have hstep₁ : ∀ ρ, Admits s.heap ρ → mv.value ρ ≤ mu.value ρ → Admits s₁.heap ρ :=
    fun ρ hρ hK => (hn₁.admits ρ).2 ⟨hρ, hK.trans (mu.value_mono hρ.upper)⟩
  cases r₂ with
  | error e =>
    refine ⟨_, _, rfl, .of_error (h₁.undoes.trans h₂.undoes) fun ρ hρ hK => ?_⟩
    exact h₂.fails e rfl ρ (hstep₁ ρ hρ hK) (hstep₂ ρ (hstep₁ ρ hρ hK) hK)
  | ok _ =>
  have hn₂ := h₂.narrows rfl
  have hn₁₂ : Narrows _ s s₂ := hn₁.trans hn₂
  -- raising `u.lower` left the upper bounds where they were
  have hup : uppers s₂.heap = uppers s₁.heap := by
    refine le_antisymm ((hn₂.admits _).1 hn₂.inv.admits_uppers).1.upper ?_
    exact ((hn₂.admits _).2 ⟨hn₁.inv.admits_uppers, hstep₂ _ hn₁.inv.admits_uppers hle₁⟩).upper
  -- step 3: the edge
  have hfinish : ∀ s₃, Narrows (fun ρ => mv.value ρ ≤ mu.value ρ) s₂ s₃ →
      Decides (fun ρ => mv.value ρ ≤ mu.value ρ) s (.ok () : Except (ErrorRaw C H o) Unit) s₃ := by
    intro s₃ hn₃
    refine .of_narrows ((hn₁₂.trans hn₃).congr fun ρ hρ => ⟨And.right, fun hK => ⟨⟨?_, ?_⟩, hK⟩⟩)
    · exact hK.trans (mu.value_mono hρ.upper)
    · exact hstep₂ ρ (hstep₁ ρ hρ hK) hK
  dsimp only
  split
  case isTrue hmem =>
    refine ⟨_, _, rfl, hfinish _ ((narrows_addEdge hn₂.inv ?_ ?_ ?_).congr fun ρ _ => ?_)⟩
    · exact hn₁₂.vars_eq.symm ▸ hu
    · exact hn₁₂.vars_eq.symm ▸ hv
    · rw [edge_value_le, hup]; exact hle₁
    · exact edge_value_le pp mv mu ρ
  case isFalse hmem =>
    refine ⟨_, _, rfl, hfinish _ (.refl hn₂.inv fun ρ hρ => (edge_value_le pp mv mu ρ).1 ?_)⟩
    exact value_le_of_mem (not_not.1 hmem) (hρ.closed mu.var)

end Oxcaml.Typing.Solver
