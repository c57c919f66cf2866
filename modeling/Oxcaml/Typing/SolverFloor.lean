/-
Oxcaml.Typing.SolverFloor — the precise floor of a mode, and undoing.

The loop of `zap_to_floor_morphvar_aux` keeps its guess at or below every
assignment over the store: an error reports a bound that each of them
obeys, and one that the guess missed, so the guess rises strictly and the
loop ends. When the attempt succeeds the least assignment still fits under
the upper bounds it leaves, provided the store admits anything at all, so
the guess is exact.

Every attempt is undone with its log. `Undoes` of `SolverTheorems` carries
that through all calls, failed ones included.
-/
import Oxcaml.Typing.SolverErrors

set_option linter.all false

namespace Oxcaml.Typing.Solver

open Allowance

variable {C : LatticesMono} {H : Hint} {o : C.Obj} {l r : Allowance}

/-! ## One morphvar -/

variable {ρ : Assignment C} {s s' : State C H}

/-- A finished propagation leaves room for the least assignment: cut down
to the new upper bounds it is still over the store. -/
theorem Propagates.least_le {ε : Type} {K : Assignment C → Prop}
    (h : Propagates (edges s.heap) K s (.ok () : Except ε Unit) s')
    (hρ : Admits s.heap ρ) : least s.heap ≤ uppers s'.heap := by
  have hle : least s.heap ≤ uppers s.heap := (Solver.least_le hρ.over).trans hρ.upper
  have hover := over_least s.heap
  have hX : Over s.heap (least s.heap ⊓ uppers s'.heap) := by
    refine ⟨le_inf hover.lower ?_, fun v mu hmu => ?_⟩
    · exact h.progress.above_lowers _ le_rfl (hover.lower.trans hle)
    obtain ⟨b, hb, hmub⟩ := h.settled rfl v
    have hv : mu.value (least s.heap ⊓ uppers s'.heap) ≤ least s.heap v :=
      (mu.value_mono inf_le_left).trans (hover.closed v mu hmu)
    have hb' : mu.value (least s.heap ⊓ uppers s'.heap) ≤ b :=
      (mu.value_mono inf_le_right).trans (hmub mu hmu)
    refine le_inf hv ?_
    rw [hb]
    exact le_inf (hv.trans (hle v)) hb'
  exact (Solver.least_le hX).trans inf_le_right

/-- What `zap_to_floor_morphvar_aux` does: it bounds `mv` by `floor`, and
`floor` is exact if the store admits anything. -/
structure Zapped (mv : MorphVar C H o allowed r) (h : Heap C H) (log' : List (Change C H))
    (floor : C.Elt o) (h' : Heap C H) : Prop where
  tightens : Tightens (fun ρ => mv.value ρ ≤ floor) ⟨h, some emptyChanges⟩ ⟨h', some log'⟩
  bounded : mv.value (uppers h') ≤ floor
  le_value : ∀ X, Over h X → floor ≤ mv.value X
  least_le : ∀ ρ, Admits h ρ → mv.value (least h) ≤ floor
  /-- All attempts but the last were undone. -/
  attempt : ∃ fuel, submodeMvc fuel ⟨h, some emptyChanges⟩ H.pinpointUnknown mv floor
    (.unknown floor) = some (.ok (), ⟨h', some log'⟩)

variable {h : Heap C H}

/-- A state that was started with a log has one. -/
theorem Undoes.eta {l₀ : List (Change C H)}
    (hu : Undoes ⟨h, some l₀⟩ s') : s' = ⟨s'.heap, some s'.logged⟩ := by
  obtain ⟨cs, hlog, -⟩ := hu
  obtain ⟨h', log⟩ := s'
  cases hlog
  rfl

/-- The guess rises at every failure, so there are no more rounds than the
lattice has elements. -/
theorem zapLoop_spec (hn : Named h) (mv : MorphVar C H o allowed r) (hv : mv.var ∈ h.vars) :
    ∀ (k : Nat) (lower : C.Elt o) (fuel : Nat), Fintype.card (C.Elt o) < Lib.height lower + k →
      enough h + k ≤ fuel → (∀ X, Over h X → lower ≤ mv.value X) →
      ∃ log' floor h', zapLoop mv fuel h lower = some ((log', floor), h') ∧
        Zapped mv h log' floor h' := by
  intro k
  induction k with
  | zero => intro lower fuel hk; exact absurd hk (not_lt.2 (Finset.card_le_univ _))
  | succ k ih =>
    intro lower fuel hk hfuel hlower
    obtain ⟨fuel, rfl⟩ : ∃ n, fuel = n + 1 := ⟨fuel - 1, by omega⟩
    have hcall : enough (⟨h, some emptyChanges⟩ : State C H).heap ≤ fuel := by
      dsimp only
      omega
    obtain ⟨res, s', heq, hp⟩ := submodeMvc_propagates (s := ⟨h, some emptyChanges⟩) hn hcall
      H.pinpointUnknown mv lower (.unknown lower) hv
    rw [zapLoop]
    simp only [heq]
    have hw := hp.weighs fun ρ ρ' hle hK => (mv.value_mono hle).trans hK
    have hundo := hw.undoes
    cases res with
    | ok _ =>
      refine ⟨_, _, _, rfl, ⟨?_, hp.holds rfl, hlower, fun ρ hρ => ?_, fuel, ?_⟩⟩
      · rw [← hundo.eta]; exact hw.tightens rfl
      · exact (mv.value_mono (hp.least_le hρ)).trans (hp.holds rfl)
      · rw [← hundo.eta]; exact heq
    | error e =>
      obtain ⟨a, aHint⟩ := e
      obtain ⟨hnle, hbound⟩ := submodeMvc_error heq
      dsimp only
      rw [hundo.restores]
      have hrise : lower < a ⊔ lower := right_lt_sup.2 hnle
      have hheight := Lib.height_strictMono hrise
      exact ih (a ⊔ lower) fuel (by omega) (by omega) fun X hX => sup_le (hbound X hX) (hlower X hX)

/-- The fuel that reading a floor over `o` may need. -/
def enoughFloor (h : Heap C H) (o : C.Obj) : Nat := enough h + (Fintype.card (C.Elt o) + 1)

variable {fuel : Nat}

theorem zapToFloorMorphvarAux_spec (hn : Named h) (mv : MorphVar C H o allowed r)
    (hv : mv.var ∈ h.vars) (hfuel : enoughFloor h o ≤ fuel) :
    ∃ log' floor h', zapToFloorMorphvarAux fuel h mv = some ((log', floor), h') ∧
      Zapped mv h log' floor h' := by
  refine zapLoop_spec hn mv hv (Fintype.card (C.Elt o) + 1) _ fuel (by omega) hfuel ?_
  exact fun X hX => mv.value_mono hX.lower

variable {floor : C.Elt o} {h h' : Heap C H} {log' : List (Change C H)}

variable {mv : MorphVar C H o allowed r}

/-- Undoing what a successful zap logged restores the store. -/
theorem Zapped.undo (hz : Zapped mv h log' floor h') : undoChanges h' log' = h :=
  hz.tightens.undoes.restores

/-- Appending the log of the zap to another log. -/
theorem Zapped.commit (hz : Zapped mv h log' floor h') (log : List (Change C H)) :
    Tightens (fun ρ => mv.value ρ ≤ floor) ⟨h, some log⟩ ⟨h', some (appendChanges log log')⟩ where
  asks := hz.tightens.asks
  vars_eq := hz.tightens.vars_eq
  uppers_le := hz.tightens.uppers_le
  undoes := ⟨log', rfl, hz.undo⟩

/-- What is said of a floor: it is at or below every assignment over the
store, and exact if the store admits anything. -/
structure IsFloor (h : Heap C H) (value : Assignment C → C.Elt o) (floor : C.Elt o) : Prop where
  le_value : ∀ X, Over h X → floor ≤ value X
  least_le : ∀ ρ, Admits h ρ → value (least h) ≤ floor

theorem Zapped.isFloor (hz : Zapped mv h log' floor h') : IsFloor h mv.value floor :=
  ⟨hz.le_value, hz.least_le⟩

theorem IsFloor.eq_least {value : Assignment C → C.Elt o}
    (hf : IsFloor h value floor) (hρ : Admits h ρ) :
    floor = value (least h) :=
  le_antisymm (hf.le_value _ (over_least h)) (hf.least_le ρ hρ)

theorem zapToFloorMorphvar_revert (hn : Named h) (mv : MorphVar C H o allowed r)
    (hv : mv.var ∈ h.vars) (hfuel : enoughFloor h o ≤ fuel) :
    ∃ floor, zapToFloorMorphvar fuel ⟨h, none⟩ mv = some (floor, ⟨h, none⟩) ∧
      IsFloor h mv.value floor := by
  obtain ⟨log', floor, h', heq, hz⟩ := zapToFloorMorphvarAux_spec hn mv hv hfuel
  refine ⟨floor, ?_, hz.isFloor⟩
  simp only [zapToFloorMorphvar, heq, hz.undo]

/-! ## Modes -/

/-- The fold over the morphvars of an `Amodejoin` leaves the store alone. -/
theorem joinFloors_spec (hn : Named h) (hfuel : enoughFloor h o ≤ fuel) :
    ∀ (mvs : VarMap C H o allowed r) (a : C.Elt o), (∀ mv ∈ mvs, mv.var ∈ h.vars) →
      ∃ floor, joinFloors fuel h a mvs = some (floor, h) ∧ a ≤ floor ∧
        IsFloor h (fun X => mvs.foldr (fun mv x => mv.value X ⊔ x) a) floor := by
  intro mvs
  induction mvs with
  | nil => exact fun a _ => ⟨a, rfl, le_rfl, fun _ _ => le_rfl, fun _ _ => le_rfl⟩
  | cons mv mvs ih =>
    intro a hvs
    obtain ⟨b, heq, hb⟩ := zapToFloorMorphvar_revert hn mv (hvs mv (by simp)) hfuel
    obtain ⟨floor, heq', hab, hf⟩ :=
      ih (a ⊔ b) fun mv' hmem => hvs mv' (List.mem_cons_of_mem mv hmem)
    refine ⟨floor, by simp only [joinFloors, heq, heq'], le_sup_left.trans hab,
      fun X hX => ?_, fun ρ hρ => ?_⟩
    · have hmem := foldr_sup_le.1 (le_refl ((mv :: mvs).foldr (fun mv x => mv.value X ⊔ x) a))
      refine (hf.le_value X hX).trans (foldr_sup_le.2 ⟨sup_le hmem.1 ?_, ?_⟩)
      · exact (hb.le_value X hX).trans (hmem.2 mv (by simp))
      · exact fun mv' hmem' => hmem.2 mv' (List.mem_cons_of_mem mv hmem')
    obtain ⟨-, hmem⟩ := foldr_sup_le.1 (hf.least_le ρ hρ)
    refine foldr_sup_le.2 ⟨le_sup_left.trans hab, fun mv' hmem' => ?_⟩
    rcases List.mem_cons.1 hmem' with rfl | hmem'
    · exact (hb.least_le ρ hρ).trans (le_sup_right.trans hab)
    · exact hmem mv' hmem'

variable {m : Mode C H o allowed r}

theorem getFloor_spec (hn : Named h) (hm : m.Over h.vars) (hfuel : enoughFloor h o ≤ fuel) :
    ∃ floor, getFloor fuel h m = some (floor, h) ∧ IsFloor h (fun X => m.value X) floor := by
  cases m with
  | amode a lo up => exact ⟨a, rfl, fun _ _ => le_rfl, fun _ _ => le_rfl⟩
  | amodevar mv =>
    obtain ⟨floor, heq, hf⟩ := zapToFloorMorphvar_revert hn mv hm hfuel
    exact ⟨floor, by simp only [getFloor, heq], hf⟩
  | amodejoin a aHint mvs =>
    obtain ⟨floor, heq, -, hf⟩ := joinFloors_spec hn hfuel mvs a hm
    exact ⟨floor, heq, hf⟩

/-- `VarMap.iter` of `submode_mvc` with one bound, as one propagation. -/
theorem findError_submodeMvc (hn : Named s.heap)
    (hfuel : enough s.heap ≤ fuel) {mvs : VarMap C H o allowed r} (a : C.Elt o)
    (aHint : CompHint C H o disallowed allowed) (hvs : ∀ mv ∈ mvs, mv.var ∈ s.heap.vars) :
    ∃ res s', findError (fun s mv => submodeMvc fuel s H.pinpointUnknown mv a aHint) s mvs
        = some (res, s') ∧
      Propagates (edges s.heap) (fun ρ => ∀ mv ∈ mvs, mv.value ρ ≤ a) s res s' := by
  refine findError_spec (P := fun s₁ => Ready (edges s.heap) fuel s₁ ∧ s₁.heap.vars = s.heap.vars)
    (K := fun mv ρ => mv.value ρ ≤ a) (fun mv ρ ρ' hle hK => (mv.value_mono hle).trans hK)
    (fun s₁ s₂ h₁ hp => ⟨h₁.1.step hp, hp.vars_eq.trans h₁.2⟩) mvs (fun mv hmv s₁ h₁ => ?_) s
    ⟨ready_of_named hn hfuel, rfl⟩
  exact submodeMvcWith_spec (submodeVc_spec fuel s₁ h₁.1) _ mv a aHint (h₁.2.symm ▸ hvs mv hmv)

/-- What `zap_to_floor` does when it is given a log. -/
structure ZapsTo (m : Mode C H o allowed r) (s : State C H) (floor : C.Elt o)
    (res : Except Unit (C.Elt o)) (s' : State C H) : Prop where
  undoes : Undoes s s'
  result : ∀ a, res = .ok a → a = floor ∧ Tightens (fun ρ => m.value ρ ≤ floor) s s' ∧
    m.value (uppers s'.heap) ≤ floor
  succeeds : ∀ ρ, Admits s.heap ρ → res = .ok floor

theorem zapToFloor_spec (hn : Named h)
    (hm : m.Over h.vars) (hfuel : enoughFloor h o ≤ fuel) (log : List (Change C H)) :
    ∃ floor res s', getFloor fuel h m = some (floor, h) ∧
      zapToFloor fuel ⟨h, some log⟩ m = some (res, s') ∧
      IsFloor h (fun X => m.value X) floor ∧ ZapsTo m ⟨h, some log⟩ floor res s' := by
  cases m with
  | amode a lo up =>
    refine ⟨a, .ok a, _, rfl, rfl, ⟨fun _ _ => le_rfl, fun _ _ => le_rfl⟩, .refl _, ?_, ?_⟩
    · intro b hb
      cases hb
      exact ⟨rfl, .refl fun _ _ _ _ _ _ => le_rfl, le_rfl⟩
    · exact fun _ _ => rfl
  | amodevar mv =>
    obtain ⟨log', floor, h', heq, hz⟩ := zapToFloorMorphvarAux_spec hn mv hm hfuel
    refine ⟨floor, .ok floor, ⟨h', some (appendChanges log log')⟩, ?_, ?_, hz.isFloor,
      (hz.commit log).undoes, ?_, ?_⟩
    · simp only [getFloor, zapToFloorMorphvar, heq, hz.undo]
    · simp only [zapToFloor, zapToFloorMorphvar, heq]
    · intro b hb
      cases hb
      exact ⟨rfl, hz.commit log, hz.bounded⟩
    · exact fun _ _ => rfl
  | amodejoin a aHint mvs =>
    obtain ⟨floor, heq, ha, hf⟩ := joinFloors_spec hn hfuel mvs a hm
    obtain ⟨res, s', heq', hp⟩ := findError_submodeMvc (s := ⟨h, some log⟩) hn
      ((Nat.le_add_right _ _).trans hfuel) floor (.unknown floor) hm
    have hanti : ∀ ρ ρ' : Assignment C, ρ' ≤ ρ → (∀ mv ∈ mvs, mv.value ρ ≤ floor) →
        ∀ mv ∈ mvs, mv.value ρ' ≤ floor :=
      fun ρ ρ' hle hK mv hmv => (mv.value_mono hle).trans (hK mv hmv)
    have hw := hp.weighs hanti
    refine ⟨floor, (res.map fun _ => floor).mapError fun _ => (), s', heq, ?_, hf, hw.undoes, ?_,
      ?_⟩
    · simp only [zapToFloor, heq, heq']; cases res <;> rfl
    · intro b hb
      cases res with
      | error e => cases hb
      | ok _ =>
        cases hb
        refine ⟨rfl, (hw.tightens rfl).congr ?_ ?_, foldr_sup_le.2 ⟨ha, hp.holds rfl⟩⟩
        · exact fun ρ _ hK => (foldr_sup_le.1 hK).2
        · exact fun _ X _ _ _ _ hX => foldr_sup_le.2 ⟨ha, hX⟩
    intro ρ hρ
    have hL := foldr_sup_le.1 (hf.least_le ρ hρ)
    have hadm : Admits h (least h) :=
      ⟨(over_least h).lower, (least_le hρ.over).trans hρ.upper, (over_least h).closed⟩
    obtain rfl := hw.ok_of_satisfiable hadm hL.2
    rfl

end Oxcaml.Typing.Solver
