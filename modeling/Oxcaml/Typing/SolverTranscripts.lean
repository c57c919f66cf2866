/-
Oxcaml.Typing.SolverTranscripts — sessions in which every mode comes from
the solver's own interface.

The type of modes is abstract: a client holds only modes that `of_const`,
`min`, `max`, `newvar`, `newvar_above`, `newvar_below`, `apply`, `join`,
`meet` and the changes of side have given out. A transcript records the
store together with these modes. In every transcript the store and all
the modes are explained (`SolverHints`), so the assertion with which
`populate_hint` checks the hints of an error holds.
-/
import Oxcaml.Typing.SolverHints

set_option linter.all false

namespace Oxcaml.Typing.Solver

open List (mem_cons_of_mem mem_cons_self)

open Allowance

variable {C : LatticesMono} {H : Hint} {o : C.Obj} {l r : Allowance}

/-! ## Transcripts -/

/-- A mode over any object, with any allowance. -/
structure AnyMode (C : LatticesMono) (H : Hint) where
  {o : C.Obj}
  {l r : Allowance}
  mode : Mode C H o l r

/-- The stores of all sessions, with the modes that they have given out. A
failed `submode` is undone with its log. -/
inductive Transcript : Heap C H → List (AnyMode C H) → Prop where
  | empty : Transcript Heap.empty []
  | min {h ms} (o : C.Obj) (l r : Allowance) : Transcript h ms →
      Transcript h (⟨(Mode.min : Mode C H o l r)⟩ :: ms)
  | max {h ms} (o : C.Obj) (l r : Allowance) : Transcript h ms →
      Transcript h (⟨(Mode.max : Mode C H o l r)⟩ :: ms)
  | ofConst {h ms} {o : C.Obj} {l r : Allowance} (hint : Option (H.Const l r)) (a : C.Elt o) :
      Transcript h ms → Transcript h (⟨Mode.ofConst hint a⟩ :: ms)
  | disallowLeft {h ms} {o : C.Obj} {l r : Allowance} {m : Mode C H o l r} : Transcript h ms →
      ⟨m⟩ ∈ ms → Transcript h (⟨m.disallowLeft⟩ :: ms)
  | disallowRight {h ms} {o : C.Obj} {l r : Allowance} {m : Mode C H o l r} : Transcript h ms →
      ⟨m⟩ ∈ ms → Transcript h (⟨m.disallowRight⟩ :: ms)
  | allowLeft {h ms} {o : C.Obj} {r : Allowance} {m : Mode C H o allowed r} (l : Allowance) :
      Transcript h ms → ⟨m⟩ ∈ ms → Transcript h (⟨(m.allowLeft : Mode C H o l r)⟩ :: ms)
  | allowRight {h ms} {o : C.Obj} {l : Allowance} {m : Mode C H o l allowed} (r : Allowance) :
      Transcript h ms → ⟨m⟩ ∈ ms → Transcript h (⟨(m.allowRight : Mode C H o l r)⟩ :: ms)
  | apply {h ms} {p o : C.Obj} {l r : Allowance} {m : Mode C H p l r} (hint : H.Morph l r)
      (f : C.Morph p o l r) : Transcript h ms → ⟨m⟩ ∈ ms → Transcript h (⟨apply hint f m⟩ :: ms)
  | join {h ms} {o : C.Obj} {r : Allowance} {xs : List (Mode C H o allowed r)} : Transcript h ms →
      (∀ m ∈ xs, ⟨m⟩ ∈ ms) → Transcript h (⟨join ⟨h, none⟩ xs⟩ :: ms)
  | meet {h ms} {o : C.Obj} {l : Allowance} {xs : List (Mode C H o l allowed)} : Transcript h ms →
      (∀ m ∈ xs, ⟨m⟩ ∈ ms) → Transcript h (⟨meet ⟨h, none⟩ xs⟩ :: ms)
  | newvar {h ms} (o : C.Obj) (l r : Allowance) : Transcript h ms →
      Transcript (newvar h o : Mode C H o l r × Heap C H).2
        (⟨(newvar h o : Mode C H o l r × Heap C H).1⟩ :: ms)
  | newvarAbove {h h' : Heap C H} {ms} {o : C.Obj} {l r r' : Allowance} {m : Mode C H o allowed r'}
      {res : Mode C H o l r × Bool} : Transcript h ms → ⟨m⟩ ∈ ms →
      newvarAbove h m = (res, h') → Transcript h' (⟨res.1⟩ :: ms)
  | newvarBelow {h h' : Heap C H} {ms} {o : C.Obj} {l r l' : Allowance} {m : Mode C H o l' allowed}
      {res : Mode C H o l r × Bool} : Transcript h ms → ⟨m⟩ ∈ ms →
      Returns (fun fuel => newvarBelow fuel h m) (res, h') → Transcript h' (⟨res.1⟩ :: ms)
  | submodeOk {h ms} {o : C.Obj} {l r : Allowance} {a : Mode C H o allowed r}
      {b : Mode C H o l allowed} {log : Option (List (Change C H))} {pp : H.Pinpoint}
      {s' : State C H} : Transcript h ms → ⟨a⟩ ∈ ms → ⟨b⟩ ∈ ms →
      Returns (fun fuel => submode fuel ⟨h, log⟩ pp a b) (.ok (), s') → Transcript s'.heap ms
  | submodeError {h ms} {o : C.Obj} {l r : Allowance} {a : Mode C H o allowed r}
      {b : Mode C H o l allowed} {pp : H.Pinpoint} {e : ErrorRaw C H o} {s' : State C H} :
      Transcript h ms → ⟨a⟩ ∈ ms → ⟨b⟩ ∈ ms →
      Returns (fun fuel => submode fuel ⟨h, some emptyChanges⟩ pp a b) (.error e, s') →
      Transcript (undoChanges s'.heap s'.logged) ms
  | zapToFloor {h ms} {o : C.Obj} {r : Allowance} {m : Mode C H o allowed r}
      {log : List (Change C H)} {floor : C.Elt o} {s' : State C H} : Transcript h ms → ⟨m⟩ ∈ ms →
      Returns (fun fuel => zapToFloor fuel ⟨h, some log⟩ m) (.ok floor, s') →
      Transcript s'.heap ms
  | zapToCeil {h ms} {o : C.Obj} {l : Allowance} {m : Mode C H o l allowed}
      {log : Option (List (Change C H))} {ceil : C.Elt o} {s' : State C H} : Transcript h ms →
      ⟨m⟩ ∈ ms → Returns (fun fuel => zapToCeil fuel ⟨h, log⟩ m) (.ok ceil, s') →
      Transcript s'.heap ms
  | getFloor {h h' : Heap C H} {ms} {o : C.Obj} {r : Allowance} {m : Mode C H o allowed r}
      {floor : C.Elt o} : Transcript h ms → ⟨m⟩ ∈ ms →
      Returns (fun fuel => getFloor fuel h m) (floor, h') → Transcript h' ms
  | eraseHints {h ms} : Transcript h ms → Transcript (eraseHints h) ms

/-! ## What each step keeps -/

/-- The store is explained and its names are in order, and the modes given
out are explained and over its variables. -/
structure Fits (h : Heap C H) (ms : List (AnyMode C H)) : Prop where
  named : Named h
  heap : h.Explained
  modes : ∀ m ∈ ms, m.mode.Explained ∧ m.mode.Over h.vars

variable {m : Mode C H o l r}

theorem Mode.Over.mono {vs vs' : List (VarId C)} (hsub : vs ⊆ vs')
    (hm : m.Over vs) : m.Over vs' := by
  cases m with
  | amode a lo up => trivial
  | amodevar mv => exact hsub hm
  | amodejoin a aHint mvs | amodemeet a aHint mvs => exact fun mv hmv => hsub (hm mv hmv)

variable {ms : List (AnyMode C H)} {h h' : Heap C H}

/-- A new mode over the same store. -/
theorem Fits.give (hf : Fits h ms)
    (hm : m.Explained) (hover : m.Over h.vars) : Fits h (⟨m⟩ :: ms) :=
  ⟨hf.named, hf.heap, List.forall_mem_cons.2 ⟨⟨hm, hover⟩, hf.modes⟩⟩

/-- A store with at least the variables of the old one. -/
theorem Fits.move (hf : Fits h ms) (hn : Named h')
    (he : h'.Explained) (hsub : h.vars ⊆ h'.vars) : Fits h' ms :=
  ⟨hn, he, fun m hm => ⟨(hf.modes m hm).1, (hf.modes m hm).2.mono hsub⟩⟩

theorem Heap.Explained.fresh (hh : h.Explained) {x : Var C H o}
    (hx : x.Explained) : (Solver.fresh h o x).Explained :=
  hh.set (v := freshId h o) hx

variable {res : Mode C H o l r × Bool}

theorem newvarAbove_fits (hf : Fits h ms)
    {r' : Allowance} {m : Mode C H o allowed r'} (hm : m.Explained) (hover : m.Over h.vars)
      (heq : newvarAbove h m = (res, h')) :
    Fits h' (⟨res.1⟩ :: ms) := by
  have hn := (newvarAbove_asks hf.named hover heq).named hf.named
  have hm := hm.disallowRight
  unfold newvarAbove at heq
  generalize m.disallowRight = m' at heq hm
  -- every branch but the first allocates a variable with an explained record
  have hfresh : ∀ x : Var C H o, h' = fresh h o x → res.1 = .amodevar (freshVar h o) →
      x.Explained → Fits h' (⟨res.1⟩ :: ms) := by
    intro x hh' hres hx
    refine (hf.move hn ?_ ?_).give ?_ ?_
    · rw [hh']; exact hf.heap.fresh hx
    · rw [hh']; exact fun v hv => mem_cons_of_mem _ hv
    · rw [hres]; exact explained_freshVar h o
    · rw [hres, hh']; exact mem_cons_self
  have hfree := explained_free (C := C) (H := H) o
  cases m' with
  | amode a lo up =>
    dsimp only at heq
    split at heq
    case isTrue htop =>
      cases heq
      refine hf.give ⟨by simpa using hm.1, ?_⟩ trivial
      rw [CompHint.eval_max, top_le_iff.1 htop]
    case isFalse =>
      cases heq
      exact hfresh _ rfl rfl ⟨hfree.upper, by simpa using hm.1, hfree.vlower⟩
  | amodevar mv =>
    cases heq
    refine hfresh _ rfl rfl ⟨hfree.upper, mlowerHint_eval hf.heap hm, ?_⟩
    exact fun mu hmu => (List.mem_singleton.1 hmu).symm ▸ hm
  | amodejoin a aHint mvs => cases heq; exact hfresh _ rfl rfl ⟨hfree.upper, hm.1, hm.2⟩

variable {fuel : Nat}

theorem submodeMvmvIter_explained {mu : MorphVar C H o allowed r}
    (hmu : mu.Explained) : ∀ (mvs : VarMap C H o l allowed) (s s' : State C H),
      s.heap.Explained → (∀ mv ∈ mvs, mv.Explained) → submodeMvmvIter fuel mu s mvs = some s' →
      s'.heap.Explained
  | [], s, s', hs, _, heq => by
    cases heq
    exact hs
  | mv :: mvs, s, s', hs, hmvs, heq => by
    simp only [submodeMvmvIter] at heq
    split at heq
    case h_2 => cases heq
    case h_1 s₁ hcall =>
      cases hmvmv : submodeMvmv fuel s H.pinpointUnknown mu mv with
      | none => simp [hmvmv, getOk] at hcall
      | some z =>
        obtain ⟨res, s₂⟩ := z
        rw [hmvmv] at hcall
        cases res with
        | error e => cases hcall
        | ok _ =>
          cases hcall
          refine submodeMvmvIter_explained hmu mvs s₁ s' ?_
            (fun mv' hmem => hmvs mv' (mem_cons_of_mem mv hmem)) heq
          exact (submodeMvmv_explained hs hmu (hmvs mv (by simp)) hmvmv).1

/-- What `newvar_below` leaves: its variable is new, unless the mode was
the bottom. -/
theorem newvarBelow_explained (hn : Named h) (hh : h.Explained)
    {l' : Allowance} {m : Mode C H o l' allowed} (hm : m.Explained) (hover : m.Over h.vars)
    (hfuel : enough (fresh h o (Var.free o : Var C H o)) ≤ fuel)
    (heq : newvarBelow fuel h m = some (res, h')) :
    h'.Explained ∧ h.vars ⊆ h'.vars ∧ res.1.Explained ∧ res.1.Over h'.vars := by
  have hm := hm.disallowLeft
  have hover := hover.disallowLeft
  have hasks := asks_newvar hn o
  have hfree := explained_free (C := C) (H := H) o
  have hs₀ : (fresh h o (Var.free o : Var C H o)).Explained := hh.fresh hfree
  have hmem : freshId h o ∈ (fresh h o (Var.free o : Var C H o)).vars := mem_cons_self
  have hsub : h.vars ⊆ (fresh h o (Var.free o : Var C H o)).vars :=
    fun v hv => mem_cons_of_mem _ hv
  have hvar : (freshVar h o : MorphVar C H o allowed r).Explained := explained_freshVar h o
  unfold newvarBelow at heq
  generalize m.disallowLeft = m' at heq hm hover
  cases m' with
  | amode a lo up =>
    dsimp only at heq
    split at heq
    case isTrue hbot =>
      cases heq
      refine ⟨hh, fun v hv => hv, ⟨?_, by simpa using hm.2⟩, trivial⟩
      rw [CompHint.eval_min, le_bot_iff.1 hbot]
    case isFalse =>
      cases heq
      exact ⟨hh.fresh ⟨by simpa using hm.2, hfree.lower, hfree.vlower⟩,
        fun v hv => mem_cons_of_mem _ hv, explained_freshVar h o, mem_cons_self⟩
  | amodevar mv =>
    obtain ⟨r₁, s₁, heq₁, h₁⟩ := submodeMvmv_weighs (s := ⟨fresh h o (Var.free o), none⟩)
      (hasks.named hn) hfuel H.pinpointUnknown (freshVar h o : MorphVar C H o allowed r) mv hmem
      (hsub hover)
    simp only [heq₁] at heq
    cases r₁ with
    | error e => cases heq
    | ok _ =>
      cases heq
      have hvars := (h₁.tightens rfl).vars_eq
      refine ⟨(submodeMvmv_explained hs₀ hvar hm heq₁).1, ?_, hvar.allowLeft, ?_⟩
      · rw [hvars]; exact hsub
      · exact hvars.symm ▸ hmem
  | amodemeet a aHint mvs =>
    obtain ⟨r₁, s₁, heq₁, h₁⟩ := submodeMvc_weighs (s := ⟨fresh h o (Var.free o), none⟩)
      (hasks.named hn) hfuel H.pinpointUnknown (freshVar h o : MorphVar C H o allowed r) a aHint
      hmem
    simp only [heq₁] at heq
    cases r₁ with
    | error e => cases heq
    | ok _ =>
      have ht₁ := h₁.tightens rfl
      simp only [getOk] at heq
      split at heq
      case h_2 => cases heq
      case h_1 s₂ heq₂ =>
        cases heq
        have ht₂ := submodeMvmvIter_tightens (freshVar h o : MorphVar C H o allowed r) mvs s₁ s₂
          (ht₁.asks.named (hasks.named hn)) (ht₁.enough_le.trans hfuel)
          (ht₁.vars_eq.symm ▸ hmem)
          (fun mv hmv => ht₁.vars_eq.symm ▸ hsub (hover mv hmv)) heq₂
        have hvars := ht₂.vars_eq.trans ht₁.vars_eq
        have hs₁ := (submodeMvc_explained hs₀ hvar hm.1 heq₁).1
        refine ⟨submodeMvmvIter_explained hvar mvs s₁ s₂ hs₁ hm.2 heq₂, ?_, hvar.allowLeft, ?_⟩
        · rw [hvars]; exact hsub
        · exact hvars.symm ▸ hmem

theorem explained_unhintVar {x : Var C H o} : (unhintVar x).Explained := by
  refine ⟨CompHint.eval_unknown _, CompHint.eval_unknown _, List.forall_mem_map.2 fun mu _ => ?_⟩
  intro y
  simp only [unhintMorphvar, MorphHint.map]

theorem explained_unhintVars : ∀ (vs : List (VarId C)) {h : Heap C H}, h.Explained →
    (unhintVars h vs).Explained
  | [], _, hh => hh
  | _ :: vs, _, hh => explained_unhintVars vs (hh.set explained_unhintVar)

theorem unhintVars_vars : ∀ (vs : List (VarId C)) (h : Heap C H), (unhintVars h vs).vars = h.vars
  | [], _ => rfl
  | v :: vs, h => (unhintVars_vars vs _).trans (Heap.set_vars h v _)

variable {s' s : State C H}

theorem zapToFloor_explained (hn : Named h) (hh : h.Explained)
    {m : Mode C H o allowed r} (hm : m.Explained) (hover : m.Over h.vars)
    (hfuel : enoughFloor h o ≤ fuel) {log : List (Change C H)} {res}
    (heq : zapToFloor fuel ⟨h, some log⟩ m = some (res, s')) : s'.heap.Explained := by
  cases m with
  | amode a lo up => cases heq; exact hh
  | amodevar mv =>
    obtain ⟨log', floor, h', haux, hz⟩ := zapToFloorMorphvarAux_spec hn mv hover hfuel
    obtain ⟨n, hattempt⟩ := hz.attempt
    simp only [zapToFloor, zapToFloorMorphvar, haux] at heq
    cases heq
    exact (submodeMvc_explained (s := ⟨h, some emptyChanges⟩) hh hm (CompHint.eval_unknown _)
      hattempt).1
  | amodejoin a aHint mvs =>
    obtain ⟨floor, hfold, -, -⟩ := joinFloors_spec hn hfuel mvs a hover
    simp only [zapToFloor, hfold] at heq
    cases hiter : findError
        (fun s mv => submodeMvc fuel s H.pinpointUnknown mv floor (.unknown floor))
        ⟨h, some log⟩ mvs with
    | none => simp [hiter] at heq
    | some z =>
      obtain ⟨res', s₁⟩ := z
      obtain ⟨hs₁, -⟩ := (explainedRule C H).findError (s := ⟨h, some log⟩)
        (P := fun _ _ => True) mvs
        (fun mv hmv _ _ _ hstep hs => ⟨(submodeMvc_explained hs (hm.2 mv hmv)
          (CompHint.eval_unknown _) hstep).1, fun _ _ => trivial⟩) hiter hh
      rw [hiter] at heq
      cases res' <;> cases heq <;> exact hs₁

theorem zapToCeil_explained (hs : s.heap.Explained)
    {m : Mode C H o l allowed} (hm : m.Explained) {res}
    (heq : zapToCeil fuel s m = some (res, s')) : s'.heap.Explained := by
  simp only [zapToCeil] at heq
  cases hcall : submode fuel s H.pinpointUnknown
      (unknownConst (getCeil s m) : Mode C H o allowed allowed) m with
  | none => simp [hcall] at heq
  | some z =>
    obtain ⟨res', s₁⟩ := z
    have hs₁ := (submode_explained hs (explained_unknownConst _) hm hcall).1
    rw [hcall] at heq
    cases res' <;> cases heq <;> exact hs₁

variable {vs : List (VarId C)}

theorem Mode.Over.allowLeft {m : Mode C H o allowed r} (hm : m.Over vs) :
    (m.allowLeft : Mode C H o l r).Over vs := by
  cases m with
  | amode a lo up => trivial
  | amodevar mv => exact hm
  | amodejoin a aHint mvs => exact List.forall_mem_map.2 hm

theorem Mode.Over.allowRight {m : Mode C H o l allowed} (hm : m.Over vs) :
    (m.allowRight : Mode C H o l r).Over vs := by
  cases m with
  | amode a lo up => trivial
  | amodevar mv => exact hm
  | amodemeet a aHint mvs => exact List.forall_mem_map.2 hm

theorem var_of_mem_foldl_add {p : C.Obj}
    {f : MorphVar C H p l r → MorphVar C H o l r} (hf : ∀ mv, (f mv).var = mv.var) :
    ∀ (mvs : VarMap C H p l r) (acc : VarMap C H o l r), (∀ mv ∈ mvs, mv.var ∈ vs) →
      (∀ y ∈ acc, y.var ∈ vs) →
      ∀ y ∈ mvs.foldl (fun acc mv => VarMap.add (f mv) acc) acc, y.var ∈ vs
  | [], _, _, hacc => hacc
  | mv :: mvs, acc, hmvs, hacc =>
    var_of_mem_foldl_add hf mvs _ (fun mv' hmem => hmvs mv' (mem_cons_of_mem mv hmem))
      fun y hy => (mem_of_mem_add hy).elim (fun heq => heq ▸ (hf mv).symm ▸ hmvs mv (by simp))
        (hacc y)

theorem Mode.Over.apply {p : C.Obj} (hint : H.Morph l r)
    (f : C.Morph p o l r) {m : Mode C H p l r} (hm : m.Over vs) :
    (Solver.apply hint f m).Over vs := by
  cases m with
  | amode a lo up => trivial
  | amodevar mv => exact hm
  | amodejoin a aHint mvs =>
    exact var_of_mem_foldl_add (f := applyMorphvar f (MorphHint.base hint f).disallowRight)
      (fun _ => rfl) mvs [] hm fun _ hy => by cases hy
  | amodemeet a aHint mvs =>
    exact var_of_mem_foldl_add (f := applyMorphvar f (MorphHint.base hint f).disallowLeft)
      (fun _ => rfl) mvs [] hm fun _ hy => by cases hy

theorem var_of_mem_union {b : C.Obj} {m₀ m₁ : VarMap C H b l r}
    (h₀ : ∀ y ∈ m₀, y.var ∈ vs) (h₁ : ∀ y ∈ m₁, y.var ∈ vs) :
    ∀ y ∈ VarMap.union m₀ m₁, y.var ∈ vs := by
  induction m₀ with
  | nil => exact h₁
  | cons x m₀ ih =>
    intro y hy
    rcases mem_of_mem_add hy with rfl | hy
    · exact h₀ y (by simp)
    · exact ih (fun z hz => h₀ z (mem_cons_of_mem x hz)) y hy

theorem over_joinLoop :
    ∀ (ms : List (Mode C H o allowed r)) (a : C.Elt o) (aHint : CompHint C H o allowed disallowed)
      (mvs : VarMap C H o allowed disallowed), (∀ m ∈ ms, m.Over vs) → (∀ mv ∈ mvs, mv.var ∈ vs) →
      (joinLoop s a aHint mvs ms).Over vs := by
  intro ms
  induction ms with
  | nil =>
    intro a aHint mvs _ hmvs
    rw [joinLoop]
    split
    · trivial
    · exact hmvs
  | cons m ms ih =>
    intro a aHint mvs hms hmvs
    rw [joinLoop]
    split
    case isTrue => trivial
    case isFalse =>
    obtain ⟨hm, hms⟩ := List.forall_mem_cons.1 hms
    have hm := hm.disallowRight
    generalize m.disallowRight = m' at hm
    cases m' with
    | amode b lo up => exact ih _ _ _ hms hmvs
    | amodevar mv =>
      exact ih _ _ _ hms fun y hy => (mem_of_mem_add hy).elim (fun heq => heq ▸ hm) (hmvs y)
    | amodejoin b bHint mvs' => exact ih _ _ _ hms (var_of_mem_union hm hmvs)

theorem over_meetLoop :
    ∀ (ms : List (Mode C H o l allowed)) (a : C.Elt o) (aHint : CompHint C H o disallowed allowed)
      (mvs : VarMap C H o disallowed allowed), (∀ m ∈ ms, m.Over vs) → (∀ mv ∈ mvs, mv.var ∈ vs) →
      (meetLoop s a aHint mvs ms).Over vs := by
  intro ms
  induction ms with
  | nil =>
    intro a aHint mvs _ hmvs
    rw [meetLoop]
    split
    · trivial
    · exact hmvs
  | cons m ms ih =>
    intro a aHint mvs hms hmvs
    rw [meetLoop]
    split
    case isTrue => trivial
    case isFalse =>
    obtain ⟨hm, hms⟩ := List.forall_mem_cons.1 hms
    have hm := hm.disallowLeft
    generalize m.disallowLeft = m' at hm
    cases m' with
    | amode b lo up => exact ih _ _ _ hms hmvs
    | amodevar mv =>
      exact ih _ _ _ hms fun y hy => (mem_of_mem_add hy).elim (fun heq => heq ▸ hm) (hmvs y)
    | amodemeet b bHint mvs' => exact ih _ _ _ hms (var_of_mem_union hm hmvs)

/-! ## The invariant of transcripts -/

/-- A call that returned is one that returned with a given large fuel. -/
theorem Returns.at {α : Type} {f : Nat → Option α} {x : α} (hret : Returns f x) (n : Nat) :
    ∃ fuel, n ≤ fuel ∧ f fuel = some x := by
  obtain ⟨k, hk⟩ := hret
  exact ⟨_, le_max_right k n, hk _ (le_max_left k n)⟩

theorem fits_of_transcript (ht : Transcript h ms) : Fits h ms := by
  induction ht with
  | empty => exact ⟨sound_empty.named, fun v => explained_free v.obj, fun _ hm => by cases hm⟩
  | min o l r _ ih => exact ih.give explained_min trivial
  | max o l r _ ih => exact ih.give explained_max trivial
  | ofConst hint a _ ih => refine ih.give (explained_ofConst hint a) ?_; cases hint <;> trivial
  | disallowLeft _ hm ih =>
    obtain ⟨hex, hover⟩ := ih.modes _ hm
    exact ih.give hex.disallowLeft hover.disallowLeft
  | disallowRight _ hm ih =>
    obtain ⟨hex, hover⟩ := ih.modes _ hm
    exact ih.give hex.disallowRight hover.disallowRight
  | allowLeft l _ hm ih =>
    obtain ⟨hex, hover⟩ := ih.modes _ hm
    exact ih.give hex.allowLeft hover.allowLeft
  | allowRight r _ hm ih =>
    obtain ⟨hex, hover⟩ := ih.modes _ hm
    exact ih.give hex.allowRight hover.allowRight
  | apply hint f _ hm ih =>
    obtain ⟨hex, hover⟩ := ih.modes _ hm
    exact ih.give (explained_apply hint f hex) (hover.apply hint f)
  | join _ hms ih =>
    refine ih.give ?_ ?_
    · exact explained_joinLoop ih.heap _ _ _ _ (fun m hm => (ih.modes _ (hms m hm)).1)
        CompHint.eval_min fun _ hmv => by cases hmv
    · exact over_joinLoop _ _ _ _ (fun m hm => (ih.modes _ (hms m hm)).2) fun _ hmv => by cases hmv
  | meet _ hms ih =>
    refine ih.give ?_ ?_
    · exact explained_meetLoop ih.heap _ _ _ _ (fun m hm => (ih.modes _ (hms m hm)).1)
        CompHint.eval_max fun _ hmv => by cases hmv
    · exact over_meetLoop _ _ _ _ (fun m hm => (ih.modes _ (hms m hm)).2) fun _ hmv => by cases hmv
  | newvar o l r _ ih =>
    refine (ih.move ((asks_newvar ih.named o).named ih.named) ?_ ?_).give ?_ ?_
    · exact ih.heap.fresh (explained_free o)
    · exact fun v hv => mem_cons_of_mem _ hv
    · exact explained_freshVar _ o
    · exact mem_cons_self
  | newvarAbove _ hm heq ih =>
    obtain ⟨hex, hover⟩ := ih.modes _ hm
    exact newvarAbove_fits ih hex hover heq
  | newvarBelow _ hm hret ih =>
    obtain ⟨hex, hover⟩ := ih.modes _ hm
    obtain ⟨fuel, hfuel, heq⟩ := hret.at _
    have hn := (newvarBelow_asks ih.named hover hfuel heq).named ih.named
    obtain ⟨hh, hsub, hres, hover'⟩ := newvarBelow_explained ih.named ih.heap hex hover hfuel heq
    exact (ih.move hn hh hsub).give hres hover'
  | submodeOk _ ha hb hret ih =>
    obtain ⟨haex, haover⟩ := ih.modes _ ha
    obtain ⟨hbex, hbover⟩ := ih.modes _ hb
    obtain ⟨res, s', hret', hw⟩ := submode_returns_weighs (s := ⟨_, _⟩) ih.named _ haover hbover
    obtain ⟨rfl, rfl⟩ := Prod.ext_iff.1 (hret.unique hret')
    obtain ⟨fuel, -, heq⟩ := hret.at 0
    have ht := hw.tightens rfl
    refine ih.move (ht.asks.named ih.named) (submode_explained ih.heap haex hbex heq).1 ?_
    rw [ht.vars_eq]
    exact fun _ hv => hv
  | submodeError _ ha hb hret ih =>
    obtain ⟨res, s', hret', hw⟩ := submode_returns_weighs (s := ⟨_, some []⟩) ih.named _
      (ih.modes _ ha).2 (ih.modes _ hb).2
    obtain ⟨rfl, rfl⟩ := Prod.ext_iff.1 (hret.unique hret')
    rw [hw.undoes.restores]
    exact ih
  | zapToFloor _ hm hret ih =>
    obtain ⟨hex, hover⟩ := ih.modes _ hm
    obtain ⟨floor, res, s', -, heq, -, hz⟩ := zapToFloor_spec ih.named hover le_rfl _
    obtain ⟨rfl, rfl⟩ := Prod.ext_iff.1
      (hret.unique (returns_of_extends (fun _ _ => zapToFloor_extends) heq))
    obtain ⟨-, ht, -⟩ := hz.result _ rfl
    refine ih.move (ht.asks.named ih.named)
      (zapToFloor_explained ih.named ih.heap hex hover le_rfl heq) ?_
    rw [ht.vars_eq]
    exact fun _ hv => hv
  | zapToCeil _ hm hret ih =>
    obtain ⟨hex, hover⟩ := ih.modes _ hm
    obtain ⟨res, s', hret', -, ht⟩ := zapToCeil_spec (s := ⟨_, _⟩) ih.named hover
    obtain ⟨rfl, rfl⟩ := Prod.ext_iff.1 (hret.unique hret')
    obtain ⟨fuel, -, heq⟩ := hret.at 0
    have ht := ht _ rfl
    refine ih.move (ht.asks.named ih.named) (zapToCeil_explained ih.heap hex heq) ?_
    rw [ht.vars_eq]
    exact fun _ hv => hv
  | getFloor _ hm hret ih =>
    obtain ⟨floor, heq, -⟩ := getFloor_spec ih.named (ih.modes _ hm).2 le_rfl
    obtain ⟨rfl, rfl⟩ := Prod.mk.inj
      (hret.unique (returns_of_extends (fun _ _ => getFloor_extends) heq))
    exact ih
  | eraseHints _ ih =>
    refine ih.move ((asks_eraseHints _).named ih.named) (explained_unhintVars _ ih.heap) ?_
    rw [eraseHints, unhintVars_vars]
    exact fun _ hv => hv

/-! ## Errors -/

theorem populateHint_eq (K : HintConsts H) {a : C.Elt o} {hint : CompHint C H o l r}
    (h : hint.eval = a) : populateHint K a hint = some (hint.populate K) := by
  unfold populateHint
  rw [if_pos]
  rw [CompHint.populate_value, h]
  exact ⟨le_rfl, le_rfl⟩

namespace StaleBound

def noHintConsts : HintConsts noHint := ⟨(), (), ()⟩

/-- `newvar`, `of_const 2` and `of_const 1`. -/
def modes : List (AnyMode chainLattices noHint) :=
  [⟨(Mode.ofConst none (1 : Fin 3) : ChainMode allowed allowed)⟩,
   ⟨(Mode.ofConst none (2 : Fin 3) : ChainMode allowed allowed)⟩,
   ⟨(newvar Heap.empty chain : ChainMode allowed allowed × _).1⟩]

def heap₁ : Heap chainLattices noHint :=
  (newvar Heap.empty chain : ChainMode allowed allowed × _).2

theorem transcript_heap₁ : Transcript heap₁ modes :=
  .ofConst none _ (.ofConst none _ (.newvar chain allowed allowed .empty))

/-- The two constants, as the outcome of a call. -/
def failure : ErrorRaw chainLattices noHint chain where
  left := (2 : Fin 3)
  leftHint := .unknown (2 : Fin 3)
  right := (1 : Fin 3)
  rightHint := .unknown (1 : Fin 3)

end StaleBound

end Oxcaml.Typing.Solver
