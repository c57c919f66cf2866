/-
Oxcaml.Typing.SolverSessions — sessions of the mode solver with every
operation of its interface that writes to the store.

A session starts from the empty store and makes any calls of `newvar`,
`newvar_above`, `newvar_below`, `submode`, `zap_to_floor`, `zap_to_ceil`,
`get_floor` and `erase_hints`, in any order. No call has to be safe in
the sense of `SolverRuns`. `Sound` is the invariant of all of them, and
the results on floors, loose bounds and undoing are read off it.

An unsafe session can accept constraints that nothing satisfies
(`submode_accepts_unsatisfiable`). There a mode has no least value, so
the results on values are stated for what they are worth in such a state.
-/
import Oxcaml.Typing.SolverFloor

set_option linter.all false

namespace Oxcaml.Typing.Solver

open Allowance

variable {C : LatticesMono} {H : Hint} {o : C.Obj} {l r : Allowance}

/-! ## More fuel changes nothing -/

variable {s : State C H} {fuel : Nat}

theorem submodeMvc_extends {pp : H.Pinpoint}
    {mv : MorphVar C H o allowed r} {a : C.Elt o} {aHint : CompHint C H o disallowed allowed} {y}
    (heq : submodeMvc fuel s pp mv a aHint = some y) :
    submodeMvc (fuel + 1) s pp mv a aHint = some y :=
  submodeMvcWith_extends submodeVc_extends heq

theorem zapLoop_extends {mv : MorphVar C H o allowed r} :
    ∀ (fuel : Nat) (h : Heap C H) (lower : C.Elt o) (y),
      zapLoop mv fuel h lower = some y → zapLoop mv (fuel + 1) h lower = some y := by
  intro fuel
  induction fuel with
  | zero => exact fun _ _ _ heq => by cases heq
  | succ fuel ih =>
    intro h lower y heq
    rw [zapLoop] at heq ⊢
    cases hcall : submodeMvc fuel ⟨h, some emptyChanges⟩ H.pinpointUnknown mv lower
        (.unknown lower) with
    | none => simp [hcall] at heq
    | some z =>
      rw [hcall] at heq
      rw [submodeMvc_extends hcall]
      obtain ⟨_ | _, s⟩ := z
      · exact ih _ _ _ heq
      · exact heq

theorem zapToFloorMorphvar_extends {mv : MorphVar C H o allowed r} {y}
    (heq : zapToFloorMorphvar fuel s mv = some y) :
      zapToFloorMorphvar (fuel + 1) s mv = some y := by
  unfold zapToFloorMorphvar zapToFloorMorphvarAux at heq ⊢
  cases hcall : zapLoop mv fuel s.heap (mlower ⟨s.heap, none⟩ mv) with
  | none => simp [hcall] at heq
  | some z =>
    rw [hcall] at heq
    rw [zapLoop_extends _ _ _ _ hcall]
    exact heq

theorem joinFloors_extends : ∀ (mvs : VarMap C H o allowed r) (h : Heap C H)
    (acc : C.Elt o) (y), joinFloors fuel h acc mvs = some y →
      joinFloors (fuel + 1) h acc mvs = some y
  | [], _, _, _, heq => heq
  | mv :: mvs, h, acc, y, heq => by
    simp only [joinFloors] at heq ⊢
    cases hcall : zapToFloorMorphvar fuel ⟨h, none⟩ mv with
    | none => simp [hcall] at heq
    | some z =>
      rw [hcall] at heq
      rw [zapToFloorMorphvar_extends hcall]
      exact joinFloors_extends mvs _ _ y heq

variable {h : Heap C H}

theorem getFloor_extends {m : Mode C H o allowed r} {y}
    (heq : getFloor fuel h m = some y) : getFloor (fuel + 1) h m = some y := by
  cases m with
  | amode a lo up => exact heq
  | amodevar mv =>
    simp only [getFloor] at heq ⊢
    cases hcall : zapToFloorMorphvar fuel ⟨h, none⟩ mv with
    | none => simp [hcall] at heq
    | some z =>
      rw [hcall] at heq
      rw [zapToFloorMorphvar_extends hcall]
      exact heq
  | amodejoin a aHint mvs => exact joinFloors_extends mvs h a y heq

theorem zapToFloor_extends {m : Mode C H o allowed r} {y}
    (heq : zapToFloor fuel s m = some y) : zapToFloor (fuel + 1) s m = some y := by
  cases m with
  | amode a lo up => exact heq
  | amodevar mv =>
    simp only [zapToFloor] at heq ⊢
    cases hcall : zapToFloorMorphvar fuel s mv with
    | none => simp [hcall] at heq
    | some z =>
      rw [hcall] at heq
      rw [zapToFloorMorphvar_extends hcall]
      exact heq
  | amodejoin a aHint mvs =>
    simp only [zapToFloor] at heq ⊢
    cases hfold : joinFloors fuel s.heap a mvs with
    | none => simp [hfold] at heq
    | some z =>
      rw [hfold] at heq
      rw [joinFloors_extends mvs _ _ _ hfold]
      obtain ⟨floor, h⟩ := z
      dsimp only at heq ⊢
      cases hiter : findError
          (fun s mv => submodeMvc fuel s H.pinpointUnknown mv floor (.unknown floor))
          ⟨h, s.log⟩ mvs with
      | none => simp [hiter] at heq
      | some z =>
        rw [hiter] at heq
        rw [findError_extends (fun _ _ _ => submodeMvc_extends) mvs _ _ hiter]
        exact heq

theorem zapToCeil_extends {m : Mode C H o l allowed} {y}
    (heq : zapToCeil fuel s m = some y) : zapToCeil (fuel + 1) s m = some y := by
  simp only [zapToCeil] at heq ⊢
  cases hcall : submode fuel s H.pinpointUnknown
      (unknownConst (getCeil s m) : Mode C H o allowed allowed) m with
  | none => simp [hcall] at heq
  | some z =>
    rw [hcall] at heq
    rw [submode_extends hcall]
    exact heq

/-! ## Zapping to the ceiling -/

theorem zapToCeil_spec (hn : Named s.heap) {m : Mode C H o l allowed} (hm : m.Over s.heap.vars) :
    ∃ res s', Returns (fun fuel => zapToCeil fuel s m) (res, s') ∧ Undoes s s' ∧
      ∀ a, res = .ok a → Tightens (fun ρ => a ≤ m.value ρ) s s' := by
  obtain ⟨res, s', heq, hw⟩ := submode_weighs hn le_rfl H.pinpointUnknown
    (a := (unknownConst (getCeil s m) : Mode C H o allowed allowed)) trivial hm
  refine ⟨(res.map fun _ => getCeil s m).mapError fun _ => (), s',
    returns_of_extends (n := enough s.heap) (fun _ _ => zapToCeil_extends) ?_, hw.undoes, ?_⟩
  · simp only [zapToCeil, heq]; cases res <;> rfl
  intro a ha
  cases res with
  | error e => cases ha
  | ok _ => cases ha; exact hw.tightens rfl

/-! ## Erasing hints -/

theorem asks_unhint {v : VarId C} (hv : v ∈ h.vars) :
    Asks (fun _ => True) h (h.set v (unhintVar (h.get v))) := by
  have hu : uppers (h.set v (unhintVar (h.get v))) = uppers h :=
    (uppers_set ..).trans (Function.update_eq_self ..)
  have hl : lowers (h.set v (unhintVar (h.get v))) = lowers h :=
    (lowers_set ..).trans (Function.update_eq_self ..)
  have he := edges_set h v (unhintVar (h.get v))
  have hclosed : ∀ ρ, Closed (edges (h.set v (unhintVar (h.get v)))) ρ ↔ Closed (edges h) ρ := by
    intro ρ
    have hmap : (∀ mu ∈ (unhintVar (h.get v)).vlower, mu.value ρ ≤ ρ v) ↔
        ∀ mu ∈ edges h v, mu.value ρ ≤ ρ v :=
      List.forall_mem_map
    rw [he, closed_update, hmap]
    refine ⟨fun hc w => ?_, fun hc => ⟨hc v, fun w _ => hc w⟩⟩
    by_cases hw : w = v
    · subst hw; exact hc.1
    · exact hc.2 w hw
  refine ⟨fun hn => ⟨?_, hn.fresh, fun w hw => ?_⟩, fun ρ hρ _ => ?_, fun ρ X _ _ _ hX => ?_⟩
  · intro w mu hmu
    rw [he] at hmu
    by_cases hw : w = v
    · subst hw
      rw [Function.update_self] at hmu
      obtain ⟨mu', hmu', rfl⟩ := List.mem_map.1 hmu
      exact hn.allocated w mu' hmu'
    · rw [Function.update_of_ne hw] at hmu; exact hn.allocated w mu hmu
  · rw [← hn.untouched w hw]; exact Heap.set_get_of_ne _ _ _ fun heq => hw (heq ▸ hv)
  · exact ⟨hl.symm ▸ hρ.lower, hu.symm ▸ hρ.upper, (hclosed ρ).2 hρ.closed⟩
  · exact ⟨⟨hl ▸ hX.lower, (hclosed X).1 hX.closed⟩, trivial⟩

theorem asks_unhintVars : ∀ (vs : List (VarId C)) (h : Heap C H), (∀ v ∈ vs, v ∈ h.vars) →
    Asks (fun _ => True) h (unhintVars h vs)
  | [], h, _ => .refl fun _ _ _ _ _ _ => trivial
  | v :: vs, h, hvs => by
    have h₁ := asks_unhint (hvs v (by simp))
    have h₂ := asks_unhintVars vs (h.set v (unhintVar (h.get v)))
      fun w hw => hvs w (List.mem_cons_of_mem v hw)
    exact (h₁.trans h₂).congr (fun _ _ _ => ⟨trivial, trivial⟩) fun _ _ _ _ _ _ _ => trivial

theorem asks_eraseHints (h : Heap C H) : Asks (fun _ => True) h (eraseHints h) :=
  asks_unhintVars h.vars h fun _ hv => hv

/-! ## Sessions -/

/-- The configurations of all sessions, with any modes over allocated
variables. A failed `submode` is undone with its log; a zap is given a log
and commits it, and adds the constraint that the mode is at its bound. -/
inductive Session : Config C H → Prop where
  | empty : Session ⟨Heap.empty, []⟩
  | newvar {cfg : Config C H} (o : C.Obj) : Session cfg →
      Session ⟨(newvar cfg.heap o : Mode C H o allowed allowed × Heap C H).2, cfg.accepted⟩
  | newvarAbove {cfg : Config C H} {o : C.Obj} {l r r' : Allowance} {m : Mode C H o allowed r'}
      {res : Mode C H o l r × Bool} {h' : Heap C H} : Session cfg →
      m.Over cfg.heap.vars → newvarAbove cfg.heap m = (res, h') →
      Session ⟨h', (fun ρ => m.value ρ ≤ res.1.value ρ) :: cfg.accepted⟩
  | newvarBelow {cfg : Config C H} {o : C.Obj} {l r l' : Allowance} {m : Mode C H o l' allowed}
      {res : Mode C H o l r × Bool} {h' : Heap C H} : Session cfg →
      m.Over cfg.heap.vars → Returns (fun fuel => newvarBelow fuel cfg.heap m) (res, h') →
      Session ⟨h', (fun ρ => res.1.value ρ ≤ m.value ρ) :: cfg.accepted⟩
  | submodeOk {cfg : Config C H} {o : C.Obj} {l r : Allowance} {a : Mode C H o allowed r}
      {b : Mode C H o l allowed} {log : Option (List (Change C H))} {pp : H.Pinpoint}
      {s' : State C H} : Session cfg → a.Over cfg.heap.vars →
      b.Over cfg.heap.vars →
      Returns (fun fuel => submode fuel ⟨cfg.heap, log⟩ pp a b) (.ok (), s') →
      Session ⟨s'.heap, (fun ρ => a.value ρ ≤ b.value ρ) :: cfg.accepted⟩
  | submodeError {cfg : Config C H} {o : C.Obj} {l r : Allowance} {a : Mode C H o allowed r}
      {b : Mode C H o l allowed} {pp : H.Pinpoint} {e : ErrorRaw C H o} {s' : State C H} :
      Session cfg → a.Over cfg.heap.vars → b.Over cfg.heap.vars →
      Returns (fun fuel => submode fuel ⟨cfg.heap, some emptyChanges⟩ pp a b) (.error e, s') →
      Session ⟨undoChanges s'.heap s'.logged, cfg.accepted⟩
  | zapToFloor {cfg : Config C H} {o : C.Obj} {r : Allowance} {m : Mode C H o allowed r}
      {log : List (Change C H)} {floor : C.Elt o} {s' : State C H} : Session cfg →
      m.Over cfg.heap.vars →
      Returns (fun fuel => zapToFloor fuel ⟨cfg.heap, some log⟩ m) (.ok floor, s') →
      Session ⟨s'.heap, (fun ρ => m.value ρ ≤ floor) :: cfg.accepted⟩
  | zapToCeil {cfg : Config C H} {o : C.Obj} {l : Allowance} {m : Mode C H o l allowed}
      {log : Option (List (Change C H))} {ceil : C.Elt o} {s' : State C H} : Session cfg →
      m.Over cfg.heap.vars →
      Returns (fun fuel => zapToCeil fuel ⟨cfg.heap, log⟩ m) (.ok ceil, s') →
      Session ⟨s'.heap, (fun ρ => ceil ≤ m.value ρ) :: cfg.accepted⟩
  | getFloor {cfg : Config C H} {o : C.Obj} {r : Allowance} {m : Mode C H o allowed r}
      {floor : C.Elt o} {h' : Heap C H} : Session cfg → m.Over cfg.heap.vars →
      Returns (fun fuel => getFloor fuel cfg.heap m) (floor, h') →
      Session ⟨h', cfg.accepted⟩
  | eraseHints {cfg : Config C H} : Session cfg → Session ⟨eraseHints cfg.heap, cfg.accepted⟩

/-- The invariant of every session. -/
structure Sound (cfg : Config C H) : Prop where
  named : Named cfg.heap
  admits : ∀ ρ, cfg.Solves ρ → Admits cfg.heap ρ
  descends : ∀ ρ X, cfg.Solves ρ → X ≤ ρ → Over cfg.heap X → cfg.Solves X

theorem sound_empty : Sound (⟨Heap.empty, []⟩ : Config C H) where
  named := ⟨inv_empty.allocated, inv_empty.fresh, inv_empty.untouched⟩
  admits := fun ρ _ => admits_empty ρ
  descends := fun _ _ _ _ _ => by simp [Config.Solves]

theorem Sound.step {cfg : Config C H} {h' : Heap C H} {K : Assignment C → Prop}
    (hcfg : Sound cfg) (ha : Asks K cfg.heap h') : Sound ⟨h', K :: cfg.accepted⟩ where
  named := ha.named hcfg.named
  admits := fun ρ hρ => by
    obtain ⟨hK, hρ⟩ := List.forall_mem_cons.1 hρ
    exact ha.keeps ρ (hcfg.admits ρ hρ) hK
  descends := fun ρ X hρ hle hX => by
    obtain ⟨hK, hρ⟩ := List.forall_mem_cons.1 hρ
    obtain ⟨hX', hKX⟩ := ha.descends ρ X (hcfg.admits ρ hρ) hK hle hX
    exact List.forall_mem_cons.2 ⟨hKX, hcfg.descends ρ X hρ hle hX'⟩

variable {cfg : Config C H}

/-- A step that asks nothing. -/
theorem Sound.idle {h' : Heap C H} (hcfg : Sound cfg)
    (ha : Asks (fun _ => True) cfg.heap h') : Sound ⟨h', cfg.accepted⟩ where
  named := ha.named hcfg.named
  admits := fun ρ hρ => ha.keeps ρ (hcfg.admits ρ hρ) trivial
  descends := fun ρ X hρ hle hX =>
    hcfg.descends ρ X hρ hle (ha.descends ρ X (hcfg.admits ρ hρ) trivial hle hX).1

theorem sound_of_session (h : Session cfg) : Sound cfg := by
  induction h with
  | empty => exact sound_empty
  | newvar o _ ih => exact ih.idle (asks_newvar ih.named o)
  | newvarAbove _ hm heq ih => exact ih.step (newvarAbove_asks ih.named hm heq)
  | newvarBelow _ hm hret ih =>
    obtain ⟨n, hn⟩ := hret
    exact ih.step (newvarBelow_asks ih.named hm (le_max_right n _) (hn _ (le_max_left n _)))
  | submodeOk _ ha hb hret ih =>
    obtain ⟨res, s', hret', hw⟩ := submode_returns_weighs (s := ⟨_, _⟩) ih.named _ ha hb
    obtain ⟨rfl, rfl⟩ := Prod.ext_iff.1 (hret.unique hret')
    exact ih.step (hw.tightens rfl).asks
  | submodeError _ ha hb hret ih =>
    obtain ⟨res, s', hret', hw⟩ := submode_returns_weighs (s := ⟨_, some []⟩) ih.named _ ha hb
    obtain ⟨rfl, rfl⟩ := Prod.ext_iff.1 (hret.unique hret')
    rw [hw.undoes.restores]
    exact ih
  | zapToFloor _ hm hret ih =>
    obtain ⟨floor, res, s', -, heq, -, hz⟩ := zapToFloor_spec ih.named hm le_rfl _
    obtain ⟨rfl, rfl⟩ := Prod.ext_iff.1
      (hret.unique (returns_of_extends (fun _ _ => zapToFloor_extends) heq))
    obtain ⟨rfl, ht, -⟩ := hz.result _ rfl
    exact ih.step ht.asks
  | zapToCeil _ hm hret ih =>
    obtain ⟨res, s', hret', -, ht⟩ := zapToCeil_spec (s := ⟨_, _⟩) ih.named hm
    obtain ⟨rfl, rfl⟩ := Prod.ext_iff.1 (hret.unique hret')
    exact ih.step (ht _ rfl).asks
  | getFloor _ hm hret ih =>
    obtain ⟨floor, heq, -⟩ := getFloor_spec ih.named hm le_rfl
    obtain ⟨rfl, rfl⟩ := Prod.mk.inj
      (hret.unique (returns_of_extends (fun _ _ => getFloor_extends) heq))
    exact ih
  | eraseHints _ ih => exact ih.idle (asks_eraseHints _)

/-- The runs of `SolverRuns` are sessions. -/
theorem session_of_reachable (guard : ∀ {o : C.Obj}, Heap C H → List (Atom C H o) → Prop)
    (h : Reachable guard cfg) : Session cfg := by
  induction h with
  | empty => exact .empty
  | newvar o _ ih => exact ih.newvar o
  | newvarAbove _ hm heq ih => exact ih.newvarAbove hm heq
  | newvarBelow _ hm hret ih => exact ih.newvarBelow hm hret
  | submodeOk _ ha hb _ hret ih => exact ih.submodeOk ha hb hret
  | submodeError _ ha hb _ hret ih => exact ih.submodeError ha hb hret

variable {ρ : Assignment C}

/-- If anything solves the constraints, the least assignment over the store
does. -/
theorem Sound.solves_least (hcfg : Sound cfg) (hρ : cfg.Solves ρ) : cfg.Solves (least cfg.heap) :=
  hcfg.descends ρ _ hρ (least_le (hcfg.admits ρ hρ).over) (over_least cfg.heap)

theorem Mode.value_mono (m : Mode C H o l r) : Monotone fun ρ => m.value ρ := by
  intro ρ ρ' hle
  cases m with
  | amode a lo up => exact le_rfl
  | amodevar mv => exact mv.value_mono hle
  | amodejoin a aHint mvs =>
    refine foldr_sup_le.2 ?_
    obtain ⟨ha, hmvs⟩ := foldr_sup_le.1 (le_refl ((Mode.amodejoin a aHint mvs).value ρ'))
    exact ⟨ha, fun mv hmv => (mv.value_mono hle).trans (hmvs mv hmv)⟩
  | amodemeet a aHint mvs =>
    refine le_foldr_inf.2 ?_
    obtain ⟨ha, hmvs⟩ := le_foldr_inf.1 (le_refl ((Mode.amodemeet a aHint mvs).value ρ))
    exact ⟨ha, fun mv hmv => (hmvs mv hmv).trans (mv.value_mono hle)⟩

/-- The values that a mode takes over the solutions. -/
def Config.values (cfg : Config C H) (m : Mode C H o l r) : Set (C.Elt o) :=
  (fun ρ => m.value ρ) '' {ρ | cfg.Solves ρ}

/-- A mode takes its least value at the least solution. -/
theorem Sound.isLeast_values (hcfg : Sound cfg) (hρ : cfg.Solves ρ) (m : Mode C H o l r) :
    IsLeast (cfg.values m) (m.value (least cfg.heap)) := by
  refine ⟨⟨_, hcfg.solves_least hρ, rfl⟩, ?_⟩
  rintro _ ⟨ρ', hρ', rfl⟩
  exact m.value_mono (least_le (hcfg.admits ρ' hρ').over)

/-! ## The precise floor -/

/-- What `zap_to_floor` leaves: the solutions that its store still admits
are those that give `m` the value `floor`. -/
def FixesFloor (cfg : Config C H) (m : Mode C H o l r) (floor : C.Elt o) (h' : Heap C H) : Prop :=
  ∀ ρ, cfg.Solves ρ → (Admits h' ρ ↔ m.value ρ = floor)

theorem StaleBound.session_heap₀ : Session (⟨heap₀, []⟩ : Config chainLattices noHint) :=
  session_of_reachable (fun _ _ => True) reachable_heap₀

/-- The upper bounds of the parts of an `Amodejoin` are not above its least
value. -/
def JoinTight (cfg : Config C H) (s : State C H) : Mode C H o l r → Prop
  | .amodejoin a aHint mvs => ∀ floor, IsLeast (cfg.values (Mode.amodejoin a aHint mvs)) floor →
      ∀ mv ∈ mvs, mupper s mv ≤ floor
  | _ => True

theorem foldl_sup_le {ι : Type} {f : ι → C.Elt o} {c : C.Elt o} : ∀ (xs : List ι) (a : C.Elt o),
    xs.foldl (fun acc x => acc ⊔ f x) a ≤ c ↔ a ≤ c ∧ ∀ x ∈ xs, f x ≤ c
  | [], a => by simp
  | x :: xs, a => by simp [foldl_sup_le xs, and_assoc]

theorem le_foldl_inf {ι : Type} {f : ι → C.Elt o} {c : C.Elt o} : ∀ (xs : List ι) (a : C.Elt o),
    c ≤ xs.foldl (fun acc x => acc ⊓ f x) a ↔ c ≤ a ∧ ∀ x ∈ xs, c ≤ f x
  | [], a => by simp
  | x :: xs, a => by simp [le_foldl_inf xs, and_assoc]

theorem le_getLooseCeil (hρ : ρ ≤ uppers s.heap)
    (m : Mode C H o l r) : m.value ρ ≤ getLooseCeil s m := by
  have hmono : ∀ mv : MorphVar C H o l r, mv.value ρ ≤ mupper s mv := fun mv => mv.value_mono hρ
  cases m with
  | amode a lo up => exact le_rfl
  | amodevar mv => exact hmono mv
  | amodejoin a aHint mvs =>
    obtain ⟨ha, hmvs⟩ := (foldl_sup_le (f := mupper s) mvs a).1 le_rfl
    exact foldr_sup_le.2 ⟨ha, fun mv hmv => (hmono mv).trans (hmvs mv hmv)⟩
  | amodemeet a aHint mvs =>
    obtain ⟨ha, hmvs⟩ := le_foldr_inf.1 (le_refl ((Mode.amodemeet a aHint mvs).value ρ))
    exact (le_foldl_inf mvs a).2 ⟨ha, fun mv hmv => (hmvs mv hmv).trans (hmono mv)⟩

/-- The loose bounds bracket a mode, in every session and at every
solution, except that the floor of an `Amodejoin` is the join of upper
bounds. -/
theorem looseBounds_bracket_iff {cfg : Config C H} (h : Session cfg)
    (m : Mode C H o l r) (log : Option (List (Change C H))) :
    (∀ ρ, cfg.Solves ρ → getLooseFloor ⟨cfg.heap, log⟩ m ≤ m.value ρ ∧
      m.value ρ ≤ getLooseCeil ⟨cfg.heap, log⟩ m) ↔ JoinTight cfg ⟨cfg.heap, log⟩ m := by
  have hcfg := sound_of_session h
  have hceil : ∀ ρ, cfg.Solves ρ → m.value ρ ≤ getLooseCeil ⟨cfg.heap, log⟩ m :=
    fun ρ hρ => le_getLooseCeil (hcfg.admits ρ hρ).upper m
  have hlow : ∀ ρ, cfg.Solves ρ → lowers cfg.heap ≤ ρ := fun ρ hρ => (hcfg.admits ρ hρ).lower
  cases m with
  | amode a lo up => exact ⟨fun _ => trivial, fun _ ρ hρ => ⟨le_rfl, hceil ρ hρ⟩⟩
  | amodevar mv =>
    exact ⟨fun _ => trivial, fun _ ρ hρ => ⟨mv.value_mono (hlow ρ hρ), hceil ρ hρ⟩⟩
  | amodemeet a aHint mvs =>
    refine ⟨fun _ => trivial, fun _ ρ hρ => ⟨le_foldr_inf.2 ?_, hceil ρ hρ⟩⟩
    obtain ⟨ha, hmvs⟩ := (le_foldl_inf (f := mlower ⟨cfg.heap, log⟩) mvs a).1 le_rfl
    exact ⟨ha, fun mv hmv => (hmvs mv hmv).trans (mv.value_mono (hlow ρ hρ))⟩
  | amodejoin a aHint mvs =>
    constructor
    · rintro hall floor ⟨⟨ρ, hρ, rfl⟩, -⟩; exact ((foldl_sup_le mvs a).1 (hall ρ hρ).1).2
    intro htight ρ hρ
    have hleast := hcfg.isLeast_values hρ (Mode.amodejoin a aHint mvs)
    refine ⟨(foldl_sup_le mvs a).2 ⟨?_, fun mv hmv => ?_⟩, hceil ρ hρ⟩
    · exact (foldr_sup_le.1 (le_refl ((Mode.amodejoin a aHint mvs).value ρ))).1
    · exact (htight _ hleast mv hmv).trans (hleast.2 ⟨ρ, hρ, rfl⟩)

namespace StaleBound

/-- The join of two fresh variables. -/
def joined : ChainMode allowed disallowed := join ⟨heap₀, none⟩ [var 0, var 1]

/-- Both fresh variables at the bottom. -/
def bottom : Assignment chainLattices := fun _ => (0 : Fin 3)

end StaleBound

open StaleBound in
/-- The loose floor of the join of two fresh variables is the top, and both
may be at the bottom. -/
theorem looseFloor_of_join : ¬ ∀ ρ, (⟨heap₀, []⟩ : Config chainLattices noHint).Solves ρ →
      getLooseFloor ⟨heap₀, none⟩ joined ≤ joined.value ρ ∧
        joined.value ρ ≤ getLooseCeil ⟨heap₀, none⟩ joined := by
  intro hall
  have hbot := (hall bottom (by simp [Config.Solves])).1
  exact absurd hbot (by decide)

open StaleBound in
theorem looseBounds_bracket_iff_fresh : (∀ ρ, (⟨heap₀, []⟩ : Config chainLattices noHint).Solves ρ →
      getLooseFloor ⟨heap₀, none⟩ joined ≤ joined.value ρ ∧
        joined.value ρ ≤ getLooseCeil ⟨heap₀, none⟩ joined) ↔
      JoinTight (⟨heap₀, []⟩ : Config chainLattices noHint) ⟨heap₀, none⟩ joined :=
  looseBounds_bracket_iff session_heap₀ joined none

/-! ## Undoing -/

/-- Undoing what the call logged on top of `l₀` restores the store. -/
def RollsBack (h : Heap C H) (l₀ : List (Change C H)) (s' : State C H) : Prop :=
  ∃ cs, s'.log = some (cs ++ l₀) ∧ undoChanges s'.heap cs = h

theorem Undoes.rollsBack {l₀ : List (Change C H)} {s' : State C H}
    (hu : Undoes ⟨h, some l₀⟩ s') : RollsBack h l₀ s' := by
  obtain ⟨cs, hlog, hundo⟩ := hu
  exact ⟨cs, hlog, hundo⟩

theorem undoChanges_appendChanges (h : Heap C H) (l₀ l₁ : List (Change C H)) :
    undoChanges h (appendChanges l₀ l₁) = undoChanges (undoChanges h l₁) l₀ :=
  List.foldl_append ..

/-- In every session each call of `submode`, `zap_to_floor` and
`zap_to_ceil` returns or raises, and either way undoing the entries that it
put on the log restores the store it was called in. -/
theorem calls_rollBack {cfg : Config C H} (h : Session cfg) (l₀ : List (Change C H)) :
    (∀ {o : C.Obj} {l r : Allowance} (pp : H.Pinpoint) (a : Mode C H o allowed r)
      (b : Mode C H o l allowed), a.Over cfg.heap.vars → b.Over cfg.heap.vars →
      ∃ res s', Returns (fun fuel => submode fuel ⟨cfg.heap, some l₀⟩ pp a b) (res, s') ∧
        RollsBack cfg.heap l₀ s') ∧
    (∀ {o : C.Obj} {r : Allowance} (m : Mode C H o allowed r), m.Over cfg.heap.vars →
      ∃ res s', Returns (fun fuel => zapToFloor fuel ⟨cfg.heap, some l₀⟩ m) (res, s') ∧
        RollsBack cfg.heap l₀ s') ∧
    (∀ {o : C.Obj} {l : Allowance} (m : Mode C H o l allowed), m.Over cfg.heap.vars →
      ∃ res s', Returns (fun fuel => zapToCeil fuel ⟨cfg.heap, some l₀⟩ m) (res, s') ∧
        RollsBack cfg.heap l₀ s') ∧
    ∀ (h' : Heap C H) (l₁ : List (Change C H)),
      undoChanges h' (appendChanges l₀ l₁) = undoChanges (undoChanges h' l₁) l₀ := by
  have hn := (sound_of_session h).named
  refine ⟨fun pp a b ha hb => ?_, fun m hm => ?_, fun m hm => ?_, fun h' l₁ => ?_⟩
  · obtain ⟨res, s', hret, hw⟩ := submode_returns_weighs (s := ⟨cfg.heap, some l₀⟩) hn pp ha hb
    exact ⟨res, s', hret, hw.undoes.rollsBack⟩
  · obtain ⟨floor, res, s', -, heq, -, hz⟩ := zapToFloor_spec hn hm le_rfl l₀
    exact ⟨res, s', returns_of_extends (fun _ _ => zapToFloor_extends) heq, hz.undoes.rollsBack⟩
  · obtain ⟨res, s', hret, hu, -⟩ := zapToCeil_spec (s := ⟨cfg.heap, some l₀⟩) hn hm
    exact ⟨res, s', hret, hu.rollsBack⟩
  · exact undoChanges_appendChanges h' l₀ l₁

open StaleBound in
theorem calls_rollBack_fresh : (∀ {o : chainLattices.Obj} {l r : Allowance} (pp : noHint.Pinpoint)
      (a : Mode chainLattices noHint o allowed r) (b : Mode chainLattices noHint o l allowed),
      a.Over heap₀.vars → b.Over heap₀.vars →
      ∃ res s', Returns (fun fuel => submode fuel ⟨heap₀, some []⟩ pp a b) (res, s') ∧
        RollsBack heap₀ [] s') ∧
    (∀ {o : chainLattices.Obj} {r : Allowance} (m : Mode chainLattices noHint o allowed r),
      m.Over heap₀.vars →
      ∃ res s', Returns (fun fuel => zapToFloor fuel ⟨heap₀, some []⟩ m) (res, s') ∧
        RollsBack heap₀ [] s') ∧
    (∀ {o : chainLattices.Obj} {l : Allowance} (m : Mode chainLattices noHint o l allowed),
      m.Over heap₀.vars →
      ∃ res s', Returns (fun fuel => zapToCeil fuel ⟨heap₀, some []⟩ m) (res, s') ∧
        RollsBack heap₀ [] s') ∧
    ∀ (h' : Heap chainLattices noHint) (l₁ : List (Change chainLattices noHint)),
      undoChanges h' (appendChanges [] l₁) = undoChanges (undoChanges h' l₁) [] :=
  calls_rollBack session_heap₀ []

end Oxcaml.Typing.Solver
