/-
Oxcaml.Typing.SolverSound — what survives in every run of the mode
solver, whether or not its calls are safe.

`SolverRuns` shows that safe runs keep the store exact. Without that
condition the upper bounds of a store may fail its own edges, and edges
may be dropped that they do not imply. Two facts remain (`Sound`): every
solution of the accepted constraints lies within the bounds and edges of
the store, and below a solution the lower bounds and edges of the store
are all there is to the constraints (`descends`). So if there is a
solution at all, the least assignment over the lower bounds and edges
(`least`) is one.

`Tightens` is the step relation for these two facts, as `Narrows` is for
exactness.
-/
import Oxcaml.Typing.SolverBounds
import Mathlib.Data.Finset.Lattice.Fold

set_option linter.all false

namespace Oxcaml.Typing.Solver

open Allowance

variable {C : LatticesMono} {H : Hint} {o : C.Obj} {l r : Allowance}

/-! ## The least assignment over a store -/

/-- `X` meets the lower bounds and the edges of the store. -/
structure Over (h : Heap C H) (X : Assignment C) : Prop where
  lower : lowers h ≤ X
  closed : Closed (edges h) X

variable {ρ : Assignment C} {h h' : Heap C H}

theorem Admits.over (hρ : Admits h ρ) : Over h ρ :=
  ⟨hρ.lower, hρ.closed⟩

open Classical in
/-- The meet of all assignments over the store. -/
noncomputable def least (h : Heap C H) : Assignment C := fun v =>
  (Finset.univ.filter fun c => ∃ X, Over h X ∧ X v = c).inf id

theorem least_le {X : Assignment C} (hX : Over h X) : least h ≤ X := by
  classical
  intro v
  have hmem : X v ∈ Finset.univ.filter fun c => ∃ X, Over h X ∧ X v = c := by
    simpa using ⟨X, hX, rfl⟩
  exact Finset.inf_le (f := id) hmem

variable {v : VarId C}

theorem le_least {c : C.Elt v.obj} (hc : ∀ X, Over h X → c ≤ X v) : c ≤ least h v := by
  classical
  refine Finset.le_inf fun d hd => ?_
  obtain ⟨X, hX, rfl⟩ := (Finset.mem_filter.1 hd).2
  exact hc X hX

theorem over_least (h : Heap C H) : Over h (least h) where
  lower := fun v => le_least fun _ hX => hX.lower v
  closed := fun v mu hmu => le_least fun _ hX =>
    (mu.value_mono (least_le hX)).trans (hX.closed v mu hmu)

/-! ## Tightening a store -/

/-- The names of a store are in order, whatever its bounds. -/
structure Named (h : Heap C H) : Prop where
  allocated : ∀ v, ∀ mu ∈ edges h v, mu.var ∈ h.vars
  fresh : ∀ v ∈ h.vars, v.id < h.next
  untouched : ∀ v, v ∉ h.vars → h.get v = Var.free v.obj

/-- `h'` is `h` with `K` asked of it: it still admits what satisfies `K`,
and below such an assignment its edges and lower bounds imply those of `h`
and `K`. -/
structure Asks (K : Assignment C → Prop) (h h' : Heap C H) : Prop where
  named : Named h → Named h'
  keeps : ∀ ρ, Admits h ρ → K ρ → Admits h' ρ
  descends : ∀ ρ X, Admits h ρ → K ρ → X ≤ ρ → Over h' X → Over h X ∧ K X

theorem Asks.refl {K : Assignment C → Prop} {h : Heap C H}
    (hK : ∀ ρ X, Admits h ρ → K ρ → X ≤ ρ → Over h X → K X) : Asks K h h where
  named := id
  keeps := fun _ hρ _ => hρ
  descends := fun ρ X hρ hKρ hle hX => ⟨hX, hK ρ X hρ hKρ hle hX⟩

variable {K₁ K₂ K K' : Assignment C → Prop}

theorem Asks.trans {h₁ h₂ h₃ : Heap C H}
    (h₁₂ : Asks K₁ h₁ h₂) (h₂₃ : Asks K₂ h₂ h₃) : Asks (fun ρ => K₁ ρ ∧ K₂ ρ) h₁ h₃ where
  named := fun hn => h₂₃.named (h₁₂.named hn)
  keeps := fun ρ hρ hK => h₂₃.keeps ρ (h₁₂.keeps ρ hρ hK.1) hK.2
  descends := fun ρ X hρ hK hle hX => by
    obtain ⟨hX₂, hK₂⟩ := h₂₃.descends ρ X (h₁₂.keeps ρ hρ hK.1) hK.2 hle hX
    obtain ⟨hX₁, hK₁⟩ := h₁₂.descends ρ X hρ hK.1 hle hX₂
    exact ⟨hX₁, hK₁, hK₂⟩

/-- The constraint may be restated, if it is weaker on what the store
admits and stronger on what lies below. -/
theorem Asks.congr (ha : Asks K h h') (hup : ∀ ρ, Admits h ρ → K' ρ → K ρ)
    (hdown : ∀ ρ X, Admits h ρ → K' ρ → X ≤ ρ → Over h X → K X → K' X) : Asks K' h h' where
  named := ha.named
  keeps := fun ρ hρ hK => ha.keeps ρ hρ (hup ρ hρ hK)
  descends := fun ρ X hρ hK hle hX => by
    obtain ⟨hX', hKX⟩ := ha.descends ρ X hρ (hup ρ hρ hK) hle hX
    exact ⟨hX', hdown ρ X hρ hK hle hX' hKX⟩

/-- A call that asks `K` without new variables, and can be undone. -/
structure Tightens (K : Assignment C → Prop) (s s' : State C H) : Prop where
  asks : Asks K s.heap s'.heap
  vars_eq : s'.heap.vars = s.heap.vars
  uppers_le : uppers s'.heap ≤ uppers s.heap
  undoes : Undoes s s'

theorem Tightens.refl {K : Assignment C → Prop} {s : State C H}
    (hK : ∀ ρ X, Admits s.heap ρ → K ρ → X ≤ ρ → Over s.heap X → K X) : Tightens K s s :=
  ⟨.refl hK, rfl, le_rfl, .refl s⟩

theorem Tightens.trans {s₁ s₂ s₃ : State C H} (h₁ : Tightens K₁ s₁ s₂) (h₂ : Tightens K₂ s₂ s₃) :
    Tightens (fun ρ => K₁ ρ ∧ K₂ ρ) s₁ s₃ where
  asks := h₁.asks.trans h₂.asks
  vars_eq := h₂.vars_eq.trans h₁.vars_eq
  uppers_le := h₂.uppers_le.trans h₁.uppers_le
  undoes := h₁.undoes.trans h₂.undoes

variable {s s' : State C H}

theorem Tightens.congr (h : Tightens K s s') (hup : ∀ ρ, Admits s.heap ρ → K' ρ → K ρ)
    (hdown : ∀ ρ X, Admits s.heap ρ → K' ρ → X ≤ ρ → Over s.heap X → K X → K' X) :
    Tightens K' s s' where
  asks := h.asks.congr hup hdown
  vars_eq := h.vars_eq
  uppers_le := h.uppers_le
  undoes := h.undoes

/-- The call asks `K` of the store, or shows that nothing admitted
satisfies it. -/
structure Weighs {ε : Type} (K : Assignment C → Prop) (s : State C H) (r : Except ε Unit)
    (s' : State C H) : Prop where
  undoes : Undoes s s'
  tightens : r = .ok () → Tightens K s s'
  fails : ∀ e, r = .error e → ∀ ρ, Admits s.heap ρ → ¬ K ρ

variable {K : Assignment C → Prop} {ε : Type}

theorem Weighs.of_tightens
    (h : Tightens K s s') : Weighs K s (.ok () : Except ε Unit) s' where
  undoes := h.undoes
  tightens := fun _ => h
  fails := fun _ h => by cases h

theorem Weighs.of_error {e : ε} (hu : Undoes s s') (h : ∀ ρ, Admits s.heap ρ → ¬ K ρ) :
    Weighs K s (.error e : Except ε Unit) s' where
  undoes := hu
  tightens := fun h => by cases h
  fails := fun _ _ => h

theorem Weighs.ok_of_satisfiable
    {res : Except ε Unit} (h : Weighs K s res s') (hρ : Admits s.heap ρ)
    (hK : K ρ) : res = .ok () := by
  cases res with
  | ok _ => rfl
  | error e => exact absurd hK (h.fails e rfl ρ hρ)

/-! ## The calls -/

/-- A finished propagation that lowers upper bounds. Tight variables may
lose edges: below an admitted assignment their bounds imply them. -/
theorem Propagates.weighs {r : Except ε Unit} (hK : ∀ ρ ρ', ρ' ≤ ρ → K ρ → K ρ')
    (h : Propagates (edges s.heap) K s r s') : Weighs K s r s' := by
  have hp := h.progress
  have hkeeps := hp.keeps (keeps_edges s.heap)
  refine ⟨hp.undoes, fun hr => ⟨⟨fun hn => ⟨?_, ?_, ?_⟩, ?_, ?_⟩, hp.vars_eq, hp.uppers_le,
    hp.undoes⟩, ?_⟩
  · intro v mu hmu
    rw [hp.vars_eq]
    rcases hkeeps v with heq | ⟨heq, -⟩
    · exact hn.allocated v mu (heq ▸ hmu)
    · rw [heq] at hmu; cases hmu
  · rw [hp.vars_eq, hp.next_eq]; exact hn.fresh
  · intro v hv
    rw [hp.vars_eq] at hv
    rw [hp.frame v hv]
    exact hn.untouched v hv
  · intro ρ hρ hKρ
    refine ⟨hp.lowers_closed ρ hρ.closed hρ.lower, ?_, hkeeps.closed hρ.closed⟩
    exact h.keeps hr ρ ⟨hρ.closed, hρ.lower, hρ.upper⟩ hKρ
  · intro ρ X hρ hKρ hle hX
    have hup := h.keeps hr ρ ⟨hρ.closed, hρ.lower, hρ.upper⟩ hKρ
    refine ⟨⟨hp.lowers_le.trans hX.lower, fun v mu hmu => ?_⟩, hK ρ X hle hKρ⟩
    rcases hkeeps v with heq | ⟨-, ht⟩
    · exact hX.closed v mu (heq.symm ▸ hmu)
    calc mu.value X ≤ mu.value ρ := mu.value_mono hle
      _ ≤ ρ v := hρ.closed v mu hmu
      _ ≤ uppers s'.heap v := hup v
      _ ≤ lowers s'.heap v := ht
      _ ≤ X v := hX.lower v
  · intro e hr ρ hρ; exact h.fails e hr ρ ⟨hρ.closed, hρ.lower, hρ.upper⟩

variable {s : State C H}

variable {fuel : Nat}

theorem ready_of_named (hn : Named s.heap)
    (hfuel : enough s.heap ≤ fuel) : Ready (edges s.heap) fuel s :=
  ⟨keeps_edges _, hn.allocated, hfuel⟩

/-- A call of `submode_mvc`, as a propagation along the edges of its store. -/
theorem submodeMvc_propagates (hn : Named s.heap)
    (hfuel : enough s.heap ≤ fuel) (pp : H.Pinpoint) (mv : MorphVar C H o allowed r) (a : C.Elt o)
    (aHint : CompHint C H o disallowed allowed) (hv : mv.var ∈ s.heap.vars) :
    ∃ res s', submodeMvc fuel s pp mv a aHint = some (res, s') ∧
      Propagates (edges s.heap) (fun ρ => mv.value ρ ≤ a) s res s' :=
  submodeMvcWith_spec (submodeVc_spec fuel s (ready_of_named hn hfuel)) pp mv a aHint hv

theorem Tightens.enough_le (h : Tightens K s s') : enough s'.heap ≤ enough s.heap := by
  unfold enough
  rw [h.vars_eq]
  exact Nat.succ_le_succ (Lib.potential_mono _ h.uppers_le)

theorem submodeMvc_weighs (hn : Named s.heap)
    (hfuel : enough s.heap ≤ fuel) (pp : H.Pinpoint) (mv : MorphVar C H o allowed r) (a : C.Elt o)
    (aHint : CompHint C H o disallowed allowed) (hv : mv.var ∈ s.heap.vars) :
    ∃ res s', submodeMvc fuel s pp mv a aHint = some (res, s') ∧
      Weighs (fun ρ => mv.value ρ ≤ a) s res s' := by
  obtain ⟨res, s', heq, h⟩ := submodeMvc_propagates hn hfuel pp mv a aHint hv
  exact ⟨res, s', heq, h.weighs fun ρ ρ' hle hK => (mv.value_mono hle).trans hK⟩

theorem tightens_updateLower {a : C.Elt v.obj}
    (aHint : CompHint C H v.obj allowed disallowed) (hv : v ∈ s.heap.vars) :
    Tightens (fun ρ => a ≤ ρ v) s (updateLower s v a aHint) := by
  have hl := updateLower_lowers s v a aHint
  have hu := updateLower_uppers s v a aHint
  have he := updateLower_edges s v a aHint
  refine ⟨⟨fun hn => ⟨?_, hn.fresh, ?_⟩, ?_, ?_⟩, rfl, hu.le, undoes_updateLower ..⟩
  · rw [he]; exact hn.allocated
  · intro w hw
    rw [← hn.untouched w hw]
    exact frame_write hv w hw
  · intro ρ hρ ha
    refine ⟨?_, hu.symm ▸ hρ.upper, he.symm ▸ hρ.closed⟩
    rw [hl]
    exact update_le_iff.2 ⟨sup_le (hρ.lower v) ha, fun w _ => hρ.lower w⟩
  intro ρ X _ _ _ hX
  have hlow := hX.lower
  rw [hl] at hlow
  obtain ⟨hav, hlow⟩ := update_le_iff.1 hlow
  refine ⟨⟨fun w => ?_, he ▸ hX.closed⟩, le_sup_right.trans hav⟩
  by_cases hw : w = v
  · subst hw; exact le_sup_left.trans hav
  · exact hlow w hw

theorem tightens_dropVlowerIfTight (hv : v ∈ s.heap.vars) :
    Tightens (fun _ => True) s (dropVlowerIfTight s v) := by
  have hp := progress_dropVlowerIfTight (edges s.heap) s v hv
  have h : Propagates (edges s.heap) (fun _ => True) s (.ok () : Except Unit Unit) _ :=
    (Propagates.done trivial).extend hp (dropVlowerIfTight_uppers ..)
  exact (h.weighs fun _ _ _ _ => trivial).tightens rfl

/-- `submode_cv` on a constant that is known to be below the upper bound. -/
theorem submodeCv_tightens {a' : C.Elt v.obj}
    (a'Hint : CompHint C H v.obj allowed disallowed) (hv : v ∈ s.heap.vars)
    (ha : a' ≤ uppers s.heap v) :
    ∃ s', submodeCv s v a' a'Hint = (.ok (), s') ∧ Tightens (fun ρ => a' ≤ ρ v) s s' := by
  unfold submodeCv
  split
  case isTrue hlow => exact ⟨_, rfl, .refl fun _ X _ _ _ hX => le_trans hlow (hX.lower v)⟩
  split
  case isTrue hgt => exact absurd ha hgt
  case isFalse =>
    have h₁ := tightens_updateLower (a := a') a'Hint hv
    have h₂ := tightens_dropVlowerIfTight (v := v) (h₁.vars_eq.symm ▸ hv)
    refine ⟨_, rfl, (h₁.trans h₂).congr (fun _ _ hK => ⟨hK, trivial⟩) ?_⟩
    exact fun _ _ _ _ _ _ hK => hK.1

theorem submodeCmv_weighs (s : State C H) (pp : H.Pinpoint) (a : C.Elt o)
    (aHint : CompHint C H o allowed disallowed) (mv : MorphVar C H o l allowed)
    (hv : mv.var ∈ s.heap.vars) :
    ∃ res s', submodeCmv s pp a aHint mv = some (res, s') ∧
      Weighs (fun ρ => a ≤ mv.value ρ) s res s' := by
  unfold submodeCmv
  split
  case isTrue hle =>
    refine ⟨_, _, rfl, .of_tightens (.refl fun _ X _ _ _ hX => ?_)⟩
    exact hle.trans (mv.value_mono hX.lower)
  split
  case isTrue hgt =>
    exact ⟨_, _, rfl, .of_error (.refl s) fun ρ hρ hK => hgt (hK.trans (mv.value_mono hρ.upper))⟩
  case isFalse hle =>
  have hgc : ∀ ρ : Assignment C, C.apply (C.leftAdjoint mv.morph) a ≤ ρ mv.var ↔ a ≤ mv.value ρ :=
    fun ρ => C.gc_leftAdjoint mv.morph _ _
  obtain ⟨s', heq, h⟩ := submodeCv_tightens (.apply (mv.hint.leftAdjoint pp).2 aHint) hv
    ((hgc (uppers s.heap)).2 (not_not.1 hle))
  simp only [heq]
  refine ⟨_, _, rfl, .of_tightens (h.congr (fun ρ _ hK => (hgc ρ).2 hK) ?_)⟩
  exact fun _ X _ _ _ _ hK => (hgc X).1 hK

variable {l₁ r₀ : Allowance}

theorem tightens_addEdge {u : VarId C}
    {x : MorphVar C H u.obj allowed disallowed} (hu : u ∈ s.heap.vars)
    (hx : x.var ∈ s.heap.vars) :
    Tightens (fun ρ => x.value ρ ≤ ρ u) s (setVlower s u (VarMap.add x (s.get u).vlower)) := by
  have he := setVlower_edges s u (VarMap.add x (s.get u).vlower)
  have hup := setVlower_uppers s u (VarMap.add x (s.get u).vlower)
  have hlo := setVlower_lowers s u (VarMap.add x (s.get u).vlower)
  have hclosed : ∀ ρ, Closed (edges (setVlower s u (VarMap.add x (s.get u).vlower)).heap) ρ ↔
      x.value ρ ≤ ρ u ∧ Closed (edges s.heap) ρ := by
    intro ρ
    rw [he]
    exact closed_update_add
  refine ⟨⟨fun hn => ⟨?_, hn.fresh, ?_⟩, ?_, ?_⟩, rfl, hup.le, undoes_setVlower ..⟩
  · intro v mu hmu
    rw [he] at hmu
    by_cases hv : v = u
    · subst hv
      rw [Function.update_self] at hmu
      rcases mem_of_mem_add hmu with rfl | hmu
      · exact hx
      · exact hn.allocated v mu hmu
    · rw [Function.update_of_ne hv] at hmu; exact hn.allocated v mu hmu
  · intro w hw
    rw [← hn.untouched w hw]
    exact frame_write hu w hw
  · intro ρ hρ hK
    exact ⟨hlo.symm ▸ hρ.lower, hup.symm ▸ hρ.upper, (hclosed ρ).2 ⟨hK, hρ.closed⟩⟩
  intro ρ X _ _ _ hX
  have hc := (hclosed X).1 hX.closed
  exact ⟨⟨hlo ▸ hX.lower, hc.2⟩, hc.1⟩

/-- `submode_mvmv`, whatever bound of `u` it has read. -/
theorem submodeMvmv_weighs (hn : Named s.heap)
    (hfuel : enough s.heap ≤ fuel) (pp : H.Pinpoint) (mv : MorphVar C H o allowed r₀)
    (mu : MorphVar C H o l₁ allowed) (hv : mv.var ∈ s.heap.vars) (hu : mu.var ∈ s.heap.vars) :
    ∃ res s', submodeMvmv fuel s pp mv mu = some (res, s') ∧
      Weighs (fun ρ => mv.value ρ ≤ mu.value ρ) s res s' := by
  unfold submodeMvmv
  split
  case isTrue hle =>
    refine ⟨_, _, rfl, .of_tightens (.refl fun ρ X hρ _ hX hXs => ?_)⟩
    calc mv.value X ≤ mv.value (uppers s.heap) := mv.value_mono (hX.trans hρ.upper)
      _ ≤ mu.value (lowers s.heap) := hle
      _ ≤ mu.value X := mu.value_mono hXs.lower
  split
  case isTrue heq =>
    exact ⟨_, _, rfl, .of_tightens (.refl fun _ X _ _ _ _ => (value_eq_of_eqMorphvar heq X).le)⟩
  -- step 1: `f v <= g u.upper`
  obtain ⟨r₁, s₁, heq₁, h₁⟩ :=
    submodeMvc_weighs hn hfuel pp mv (mupper s mu) (mupperHint s mu) hv
  have hup : ∀ ρ, Admits s.heap ρ → mv.value ρ ≤ mu.value ρ → mv.value ρ ≤ mupper s mu :=
    fun ρ hρ hK => hK.trans (mu.value_mono hρ.upper)
  simp only [heq₁]
  cases r₁ with
  | error e => exact ⟨_, _, rfl,
    .of_error h₁.undoes fun ρ hρ hK => h₁.fails e rfl ρ hρ (hup ρ hρ hK)⟩
  | ok _ =>
  have ht₁ := h₁.tightens rfl
  -- step 2: `f v.lower <= g u`
  obtain ⟨r₂, s₂, heq₂, h₂⟩ := submodeCmv_weighs s₁ pp (mlower s₁ mv) (mlowerHint s₁ mv) mu
    (ht₁.vars_eq.symm ▸ hu)
  have hlow : ∀ ρ, Admits s₁.heap ρ → mv.value ρ ≤ mu.value ρ → mlower s₁ mv ≤ mu.value ρ :=
    fun ρ hρ hK => (mv.value_mono hρ.lower).trans hK
  simp only [heq₂]
  cases r₂ with
  | error e =>
    refine ⟨_, _, rfl, .of_error (h₁.undoes.trans h₂.undoes) fun ρ hρ hK => ?_⟩
    have hρ₁ := ht₁.asks.keeps ρ hρ (hup ρ hρ hK)
    exact h₂.fails e rfl ρ hρ₁ (hlow ρ hρ₁ hK)
  | ok _ =>
  have ht₂ := ht₁.trans (h₂.tightens rfl)
  -- step 3: the edge
  have hfinish : ∀ s₃, Tightens (fun ρ => mv.value ρ ≤ mu.value ρ) s₂ s₃ →
      Weighs (fun ρ => mv.value ρ ≤ mu.value ρ) s (.ok () : Except (ErrorRaw C H o) Unit) s₃ := by
    intro s₃ ht₃
    refine .of_tightens ((ht₂.trans ht₃).congr (fun ρ hρ hK => ⟨⟨hup ρ hρ hK, ?_⟩, hK⟩) ?_)
    · exact hlow ρ (ht₁.asks.keeps ρ hρ (hup ρ hρ hK)) hK
    · exact fun _ X _ _ _ _ hX => hX.2
  dsimp only
  split
  case isTrue hmem =>
    have hedge := tightens_addEdge (x := edge pp mv mu) (ht₂.vars_eq.symm ▸ hu)
      (ht₂.vars_eq.symm ▸ hv)
    refine ⟨_, _, rfl, hfinish _ (hedge.congr ?_ ?_)⟩
    · exact fun ρ _ hK => (edge_value_le pp mv mu ρ).2 hK
    · exact fun _ X _ _ _ _ hX => (edge_value_le pp mv mu X).1 hX
  case isFalse hmem =>
    refine ⟨_, _, rfl, hfinish _ (.refl fun _ X _ _ _ hX => (edge_value_le pp mv mu X).1 ?_)⟩
    exact value_le_of_mem (not_not.1 hmem) (hX.closed mu.var)

theorem runAtom_weighs (hn : Named s.heap)
    (hfuel : enough s.heap ≤ fuel) (pp : H.Pinpoint) {x : Atom C H o} (hx : x.Over s.heap.vars) :
    ∃ res s', runAtom fuel pp s x = some (res, s') ∧ Weighs (fun ρ => x.Holds ρ) s res s' := by
  cases x with
  | cc left leftHint right rightHint =>
    simp only [runAtom]
    split
    case isTrue hle => exact ⟨_, _, rfl, .of_tightens (.refl fun _ _ _ _ _ _ => hle)⟩
    case isFalse hle => exact ⟨_, _, rfl, .of_error (.refl s) fun _ _ h => hle h⟩
  | mvc mv right rightHint =>
    obtain ⟨res, s', heq, h⟩ := submodeMvc_weighs hn hfuel pp mv right rightHint hx
    simp only [runAtom, heq]
    cases res with
    | ok _ => exact ⟨_, _, rfl, .of_tightens (h.tightens rfl)⟩
    | error e => exact ⟨_, _, rfl, .of_error h.undoes (h.fails e rfl)⟩
  | cmv left leftHint mv =>
    obtain ⟨res, s', heq, h⟩ := submodeCmv_weighs s pp left leftHint mv hx
    simp only [runAtom, heq]
    cases res with
    | ok _ => exact ⟨_, _, rfl, .of_tightens (h.tightens rfl)⟩
    | error e => exact ⟨_, _, rfl, .of_error h.undoes (h.fails e rfl)⟩
  | mvmv mv mu => exact submodeMvmv_weighs hn hfuel pp mv mu hx.1 hx.2

/-- A list of calls that stops at the first error. -/
theorem findError_weighs {α : Type} {n : Nat} {vs : List (VarId C)}
    {f : State C H → α → Option (Except ε Unit × State C H)} {K : α → Assignment C → Prop} :
    ∀ (xs : List α), (∀ x ∈ xs, ∀ s, Named s.heap → s.heap.vars = vs → enough s.heap ≤ n →
        ∃ res s', f s x = some (res, s') ∧ Weighs (K x) s res s') →
      ∀ s, Named s.heap → s.heap.vars = vs → enough s.heap ≤ n →
        ∃ res s', findError f s xs = some (res, s') ∧ Weighs (fun ρ => ∀ x ∈ xs, K x ρ) s res s'
  | [], _, s, _, _, _ => ⟨_, _, rfl, .of_tightens (.refl (by simp))⟩
  | x :: xs, hf, s, hn, hvs, hfuel => by
    obtain ⟨res, s₁, heq, h₁⟩ := hf x (by simp) s hn hvs hfuel
    simp only [findError, heq]
    cases res with
    | error e =>
      refine ⟨_, _, rfl, .of_error h₁.undoes fun ρ hρ hK => h₁.fails e rfl ρ hρ ?_⟩
      exact hK x (by simp)
    | ok _ =>
      have ht₁ := h₁.tightens rfl
      obtain ⟨res, s₂, heq₂, h₂⟩ := findError_weighs xs
        (fun y hy => hf y (List.mem_cons_of_mem x hy)) s₁ (ht₁.asks.named hn)
        (ht₁.vars_eq.trans hvs) (ht₁.enough_le.trans hfuel)
      refine ⟨res, s₂, heq₂, h₁.undoes.trans h₂.undoes, fun hr => ?_, fun e hr ρ hρ hK => ?_⟩
      · refine (ht₁.trans (h₂.tightens hr)).congr ?_ ?_
        · exact fun ρ _ hK => List.forall_mem_cons.1 hK
        · exact fun _ X _ _ _ _ hX => List.forall_mem_cons.2 hX
      · obtain ⟨hx, hxs⟩ := List.forall_mem_cons.1 hK
        exact h₂.fails e hr ρ (ht₁.asks.keeps ρ hρ hx) hxs

variable {b : Mode C H o l allowed} {a : Mode C H o allowed r}

theorem submode_weighs (hn : Named s.heap)
    (hfuel : enough s.heap ≤ fuel) (pp : H.Pinpoint) (ha : a.Over s.heap.vars)
      (hb : b.Over s.heap.vars) :
    ∃ res s', submode fuel s pp a b = some (res, s') ∧
      Weighs (fun ρ => a.value ρ ≤ b.value ρ) s res s' := by
  have hover := submodeAtoms_over ha hb
  obtain ⟨res, s', heq, h⟩ := findError_weighs (K := fun x ρ => x.Holds ρ) (submodeAtoms a b)
    (fun x hx s₁ hn₁ hvs hfuel₁ => runAtom_weighs hn₁ hfuel₁ pp (hvs ▸ hover x hx)) s hn rfl hfuel
  simp only [submodeAtoms_hold] at h
  exact ⟨res, s', heq, h⟩

theorem submode_returns_weighs (hn : Named s.heap) (pp : H.Pinpoint) (ha : a.Over s.heap.vars)
    (hb : b.Over s.heap.vars) :
    ∃ res s', Returns (fun fuel => submode fuel s pp a b) (res, s') ∧
      Weighs (fun ρ => a.value ρ ≤ b.value ρ) s res s' := by
  obtain ⟨res, s', heq, h⟩ := submode_weighs hn le_rfl pp ha hb
  exact ⟨res, s', returns_of_extends (fun _ _ => submode_extends) heq, h⟩

/-! ## New variables -/

section Fresh

variable {h : Heap C H} {r' l' : Allowance}

theorem Named.freshId_not_mem (hn : Named h) (o : C.Obj) : freshId h o ∉ h.vars :=
  fun hmem => Nat.lt_irrefl _ (hn.fresh _ hmem)

theorem Named.get_freshId (hn : Named h) (o : C.Obj) : h.get (freshId h o) = Var.free o :=
  hn.untouched _ (hn.freshId_not_mem o)

theorem named_allocate (hn : Named h) (hid : h.next ≤ v.id) {x : Var C H v.obj}
    (ha : ∀ mu ∈ x.vlower, mu.var ∈ h.vars) : Named (allocate h v x) := by
  refine ⟨fun w mu hmu => List.mem_cons_of_mem _ ?_, fun w hw => ?_, fun w hw => ?_⟩
  · rw [allocate_edges] at hmu
    by_cases hw : w = v
    · subst hw
      rw [Function.update_self] at hmu
      exact ha mu hmu
    · rw [Function.update_of_ne hw] at hmu; exact hn.allocated w mu hmu
  · rcases List.mem_cons.1 hw with rfl | hw
    · exact Nat.lt_succ_self _
    · exact (hn.fresh w hw).trans_le (hid.trans (Nat.le_succ _))
  · have hw' := not_or.1 fun hor => hw (List.mem_cons.2 hor)
    exact (Heap.set_get_of_ne h _ x hw'.1).trans (hn.untouched w hw'.2)

theorem named_fresh (hn : Named h) {x : Var C H o} (ha : ∀ mu ∈ x.vlower, mu.var ∈ h.vars) :
    Named (fresh h o x) :=
  named_allocate (v := freshId h o) hn le_rfl ha

theorem over_allocate (hfree : h.get v = Var.free v.obj) (x : Var C H v.obj) (X : Assignment C) :
    Over (allocate h v x) X ↔ Over h X ∧ x.lower ≤ X v ∧ ∀ mu ∈ x.vlower, mu.value X ≤ X v := by
  constructor
  · rintro ⟨hlow, hclosed⟩
    rw [allocate_lowers, update_le_iff] at hlow
    rw [closed_allocate x hfree] at hclosed
    refine ⟨⟨fun w => ?_, hclosed.1⟩, hlow.1, hclosed.2⟩
    by_cases hw : w = v
    · subst hw
      rw [lowers, hfree]
      exact bot_le
    · exact hlow.2 w hw
  rintro ⟨⟨hlow, hclosed⟩, hx, hmu⟩
  refine ⟨?_, (closed_allocate x hfree).2 ⟨hclosed, hmu⟩⟩
  rw [allocate_lowers]
  exact update_le_iff.2 ⟨hx, fun w _ => hlow w⟩

theorem over_fresh (hn : Named h) (x : Var C H o) (X : Assignment C) :
    Over (fresh h o x) X ↔ Over h X ∧ x.lower ≤ X (freshId h o) ∧
      ∀ mu ∈ x.vlower, mu.value X ≤ X (freshId h o) :=
  over_allocate (v := freshId h o) (hn.get_freshId o) x X

theorem Named.admits_fresh (hn : Named h) (x : Var C H o) (ρ : Assignment C) :
    Admits (Solver.fresh h o x) ρ ↔
      Admits h ρ ∧ x.lower ≤ ρ (freshId h o) ∧ ρ (freshId h o) ≤ x.upper ∧
        ∀ mu ∈ x.vlower, mu.value ρ ≤ ρ (freshId h o) :=
  admits_allocate (v := freshId h o) x (hn.get_freshId o) ρ

/-- A new variable asks `K` if its record says what `K` says. -/
theorem asks_fresh (hn : Named h) {x : Var C H o} (ha : ∀ mu ∈ x.vlower, mu.var ∈ h.vars)
    (hup : ∀ ρ, Admits h ρ → K ρ → x.lower ≤ ρ (freshId h o) ∧ ρ (freshId h o) ≤ x.upper ∧
      ∀ mu ∈ x.vlower, mu.value ρ ≤ ρ (freshId h o))
    (hdown : ∀ ρ X, K ρ → X ≤ ρ → x.lower ≤ X (freshId h o) →
      (∀ mu ∈ x.vlower, mu.value X ≤ X (freshId h o)) → K X) :
    Asks K h (fresh h o x) where
  named := fun _ => named_fresh hn ha
  keeps := fun ρ hρ hK => (hn.admits_fresh x ρ).2 ⟨hρ, hup ρ hρ hK⟩
  descends := fun ρ X _ hK hle hX => by
    obtain ⟨hover, hlow, hmu⟩ := (over_fresh hn x X).1 hX
    exact ⟨hover, hdown ρ X hK hle hlow hmu⟩

theorem asks_newvar (hn : Named h) (o : C.Obj) :
    Asks (fun _ => True) h (fresh h o (Var.free o : Var C H o)) := by
  refine asks_fresh hn (fun _ hmu => by cases hmu) (fun _ _ _ => ?_) fun _ _ _ _ _ _ => trivial
  exact ⟨bot_le, le_top, fun _ hmu => by cases hmu⟩

variable {res : Mode C H o l r × Bool}

theorem newvarAbove_asks (hn : Named h) {m : Mode C H o allowed r'} (hm : m.Over h.vars)
    (heq : newvarAbove h m = (res, h')) :
    Asks (fun ρ => m.value ρ ≤ res.1.value ρ) h h' := by
  have hval := m.disallowRight_value
  have hover := hm.disallowRight
  simp only [← hval]
  unfold newvarAbove at heq
  generalize m.disallowRight = m' at heq hover
  cases m' with
  | amode a lo up =>
    dsimp only at heq
    split at heq
    case isTrue => cases heq; exact .refl fun _ _ _ _ _ _ => le_rfl
    case isFalse =>
      cases heq
      refine asks_fresh hn (fun _ hmu => by cases hmu) (fun ρ _ hK => ?_) fun ρ X _ _ hX _ => ?_
      · exact ⟨by simpa using hK, le_top, fun _ hmu => by cases hmu⟩
      · simpa using hX
  | amodevar mv =>
    cases heq
    refine asks_fresh hn ?_ (fun ρ hρ hK => ?_) fun ρ X _ _ _ hX => ?_
    · exact fun mu hmu => (List.mem_singleton.1 hmu).symm ▸ hover
    · have hK' : mv.value ρ ≤ ρ (freshId h o) := by simpa using hK
      exact ⟨(mv.value_mono hρ.lower).trans hK', le_top, by simpa using hK'⟩
    · simpa using hX
  | amodejoin a aHint mvs =>
    cases heq
    refine asks_fresh hn hover (fun ρ hρ hK => ?_) fun ρ X _ _ hlow hX => ?_
    · rw [Mode.value_amodejoin, foldr_sup_le, Mode.value_amodevar, freshVar_value] at hK
      exact ⟨hK.1, le_top, hK.2⟩
    · rw [Mode.value_amodejoin, foldr_sup_le, Mode.value_amodevar, freshVar_value]
      exact ⟨hlow, hX⟩

/-- `VarMap.iter` of `submode_mvmv mu`, when none of its calls fails. -/
theorem submodeMvmvIter_tightens (mu : MorphVar C H o allowed r) :
    ∀ (mvs : VarMap C H o l allowed) (s s' : State C H), Named s.heap → enough s.heap ≤ fuel →
      mu.var ∈ s.heap.vars → (∀ mv ∈ mvs, mv.var ∈ s.heap.vars) →
      submodeMvmvIter fuel mu s mvs = some s' →
      Tightens (fun ρ => ∀ mv ∈ mvs, mu.value ρ ≤ mv.value ρ) s s'
  | [], s, s', _, _, _, _, heq => by
    cases heq
    exact .refl (by simp)
  | mv :: mvs, s, s', hn, hfuel, hu, hvs, heq => by
    obtain ⟨res, s₁, heq₁, h₁⟩ := submodeMvmv_weighs hn hfuel H.pinpointUnknown mu mv hu
      (hvs mv (by simp))
    simp only [submodeMvmvIter, heq₁] at heq
    cases res with
    | error e => cases heq
    | ok _ =>
      have ht₁ := h₁.tightens rfl
      have ht₂ := submodeMvmvIter_tightens mu mvs s₁ s' (ht₁.asks.named hn)
        (ht₁.enough_le.trans hfuel) (ht₁.vars_eq.symm ▸ hu)
        (fun mv' hmem => ht₁.vars_eq.symm ▸ hvs mv' (List.mem_cons_of_mem mv hmem)) heq
      refine (ht₁.trans ht₂).congr ?_ ?_
      · exact fun ρ _ hK => List.forall_mem_cons.1 hK
      · exact fun _ X _ _ _ _ hX => List.forall_mem_cons.2 hX

theorem newvarBelow_asks (hn : Named h) {m : Mode C H o l' allowed} (hm : m.Over h.vars)
    (hfuel : enough (fresh h o (Var.free o : Var C H o)) ≤ fuel)
    (heq : newvarBelow fuel h m = some (res, h')) :
    Asks (fun ρ => res.1.value ρ ≤ m.value ρ) h h' := by
  have hval := m.disallowLeft_value
  have hover := hm.disallowLeft
  have hasks := asks_newvar hn o
  have hmem : freshId h o ∈ (fresh h o (Var.free o : Var C H o)).vars := List.mem_cons_self
  simp only [← hval]
  unfold newvarBelow at heq
  generalize m.disallowLeft = m' at heq hover
  cases m' with
  | amode a lo up =>
    dsimp only at heq
    split at heq
    case isTrue => cases heq; exact .refl fun _ _ _ _ _ _ => le_rfl
    case isFalse =>
      cases heq
      simp only [Mode.value_amodevar, freshVar_value]
      refine asks_fresh hn (fun _ hmu => by cases hmu) (fun ρ _ hK => ?_) fun ρ X hK hle _ _ => ?_
      · exact ⟨bot_le, hK, fun _ hmu => by cases hmu⟩
      · exact (hle (freshId h o)).trans hK
  | amodevar mv =>
    obtain ⟨r₁, s₁, heq₁, h₁⟩ := submodeMvmv_weighs (s := ⟨fresh h o (Var.free o), none⟩)
      (hasks.named hn) hfuel H.pinpointUnknown (freshVar h o : MorphVar C H o allowed r) mv hmem
      (List.mem_cons_of_mem _ hover)
    simp only [heq₁] at heq
    cases r₁ with
    | error e => cases heq
    | ok _ =>
      cases heq
      refine (hasks.trans (h₁.tightens rfl).asks).congr (fun ρ _ hK => ⟨trivial, ?_⟩) ?_
      · simpa [Mode.allowLeft] using hK
      · intro _ X _ _ _ _ hX; simpa [Mode.allowLeft] using hX.2
  | amodemeet a aHint mvs =>
    obtain ⟨r₁, s₁, heq₁, h₁⟩ := submodeMvc_weighs (s := ⟨fresh h o (Var.free o), none⟩)
      (hasks.named hn) hfuel H.pinpointUnknown (freshVar h o : MorphVar C H o allowed r) a aHint
      hmem
    simp only [heq₁] at heq
    cases r₁ with
    | error e => cases heq
    | ok _ =>
      have ht₁ := h₁.tightens rfl
      simp only [getOk] at heq
      split at heq
      case h_2 => cases heq
      case h_1 s₂ heq₂ =>
        cases heq
        have ht₂ := submodeMvmvIter_tightens (freshVar h o : MorphVar C H o allowed r) mvs s₁ s₂
          (ht₁.asks.named (hasks.named hn)) (ht₁.enough_le.trans hfuel)
          (ht₁.vars_eq.symm ▸ hmem)
          (fun mv hmv => ht₁.vars_eq.symm ▸ List.mem_cons_of_mem _ (hover mv hmv)) heq₂
        refine (hasks.trans (ht₁.trans ht₂).asks).congr (fun ρ _ hK => ⟨trivial, ?_⟩) ?_
        · rw [Mode.value_amodemeet, le_foldr_inf] at hK; simpa [Mode.allowLeft] using hK
        intro _ X _ _ _ _ hX
        rw [Mode.value_amodemeet, le_foldr_inf]
        simpa [Mode.allowLeft] using hX.2

end Fresh

end Oxcaml.Typing.Solver
