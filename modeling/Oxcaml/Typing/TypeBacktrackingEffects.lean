/-
Oxcaml.Typing.TypeBacktrackingEffects — what a call can do to the state.

Every call that changes types is a sequence of a few effects: it logs a
change that undoing takes back, it compresses a path, it overwrites a node
that no valid snapshot knows, or it makes something new. `mutation_effects`
says so once for all calls; the invariants of the log are then derived
effect by effect.
-/
import Oxcaml.Typing.TypeSessions

set_option linter.all false

namespace Oxcaml.Typing.Types

open Oxcaml.Lib

variable {J P A : Type} {s s' s'' : State J P A} {σ σ' : Store J P A} {V : State J P A → Prop}

/-! ## Effects -/

/-- Two stores that tell the same of what existed in the saved state. -/
structure Agree (saved : State J P A) (σ σ' : Store J P A) : Prop where
  desc : σ'.desc = σ.desc
  kind : σ'.kind = σ.kind
  ext : σ'.ext = σ.ext
  commu : σ'.commu = σ.commu
  level : ∀ z ≤ saved.newId, σ'.level z = σ.level z
  scope : ∀ z ≤ saved.newId, σ'.scope z = σ.scope z
  univar : ∀ r < saved.univars, σ'.univar r = σ.univar r
  name : ∀ r < saved.names, σ'.name r = σ.name r

/-- One effect, and the changes that it logs. `V` holds of the states that
valid snapshots have saved. -/
inductive Effect (V : State J P A → Prop) : State J P A → List (Change J P A) → State J P A → Prop
  | log {s : State J P A} {c : Change J P A} {σ' : Store J P A} :
    s.store.Grows σ' → c.undo σ' = s.store → c.isCompress = false → c.Stops σ'.kind →
    c.Known s.newId → (∀ z, (σ'.desc z).Known s.newId) →
    (∀ z, s.newId < z → σ'.desc z = s.store.desc z) →
    Effect V s [c] { logChange c s with store := σ' }
  | compress {s : State J P A} {t u z : TypeExpr} : s.store.next t ≠ none → Ends s.store.next t u →
    (s.store.desc z).leads s.store.kind = some u → t ≤ s.newId →
    Effect V s [.cCompress t (s.store.desc t) (s.store.desc z)] (compress t (s.store.desc z) s)
  | overwrite {s : State J P A} {ty : TypeExpr} {D : Desc J P} :
    s.store.next ty = none → D.Known s.newId → ty ≤ s.newId →
    (∀ saved, V saved → saved.newId < ty) →
    Effect V s [] (setDesc ty D s)
  | hidden {s : State J P A} {σ' : Store J P A} : σ'.desc = s.store.desc → σ'.kind = s.store.kind →
    (∀ saved, V saved → Agree saved s.store σ') →
    Effect V s [] { s with store := σ' }
  | count {s : State J P A} {newId : ℤ} {names univars : Nat} :
    s.newId ≤ newId → s.names ≤ names → s.univars ≤ univars →
    Effect V s [] { s with newId := newId, names := names, univars := univars }

/-- A sequence of effects, with the changes that it logs, the last first. -/
inductive Effects (V : State J P A → Prop) :
    State J P A → List (Change J P A) → State J P A → Prop
  | refl {s : State J P A} : Effects V s [] s
  | tail {s s' s'' : State J P A} {cs ds : List (Change J P A)} :
    Effects V s cs s' → Effect V s' ds s'' → Effects V s (ds ++ cs) s''

variable {cs : List (Change J P A)}

theorem Effects.single (h : Effect V s cs s') : Effects V s cs s' := by
  simpa using Effects.tail .refl h

theorem Effects.trans {cs ds : List (Change J P A)} (h : Effects V s cs s')
    (h' : Effects V s' ds s'') : Effects V s (ds ++ cs) s'' := by
  induction h' with
  | refl => exact h
  | tail h' he ih => rw [List.append_assoc]; exact .tail ih he

theorem Effect.journal (h : Effect V s cs s') : s'.journal = cs ++ s.journal := by
  cases h <;> rfl

theorem Effects.journal (h : Effects V s cs s') : s'.journal = cs ++ s.journal := by
  induction h with
  | refl => rfl
  | tail h he ih => rw [he.journal, ih, List.append_assoc]

theorem Effects.logged (h : Effects V s cs s') : Types.logged s s' = cs := by
  simp [Types.logged, h.journal]

/-! ## Well-formed states -/

/-- The log is upward and open, and pointers lead to nodes that exist. -/
structure State.Wf (s : State J P A) : Prop where
  upward : Upward s.changes
  trail : s.changes s.trail = .unchanged
  trail_lt : s.trail < s.fresh
  known : ∀ z, (s.store.desc z).Known s.newId
  plain : ∀ z, s.newId < z → ∀ kind, (s.store.desc z).leads kind = none

theorem upward_logChange (hs : s.Wf) (c : Change J P A) : Upward (logChange c s).changes := by
  intro r c' n hr
  have hlt := hs.trail_lt
  simp only [logChange] at hr
  by_cases ht : r = s.trail
  · simp only [ht, Function.update_self, Cell.change.injEq] at hr; omega
  rw [Function.update_of_ne ht] at hr
  by_cases hf : r = s.fresh
  · simp [hf] at hr
  · rw [Function.update_of_ne hf] at hr; exact hs.upward r c' n hr

theorem trail_logChange (hs : s.Wf) (c : Change J P A) :
    (logChange c s).changes (logChange c s).trail = .unchanged := by
  have hne : s.fresh ≠ s.trail := by
    have hlt := hs.trail_lt
    omega
  simp [logChange, hne]

variable {ty : TypeExpr} {n level : ℤ} {D : Desc J P}

/-- A node without a pointer keeps its description. -/
theorem known_setDesc (hσ : ∀ z, (σ.desc z).Known n)
    (hD : D.Known n) (z : TypeExpr) : ((σ.setDesc ty D).desc z).Known n := by
  by_cases hz : z = ty
  · simpa [Store.setDesc, hz] using hD
  · simpa [Store.setDesc, hz] using hσ z

variable {z t u : TypeExpr}

theorem desc_setDesc_of_lt (hty : ty ≤ n) (D : Desc J P)
    (hz : n < z) : (σ.setDesc ty D).desc z = σ.desc z := by
  have hne : z ≠ ty := (lt_of_le_of_lt hty hz).ne'
  simp [Store.setDesc, hne]

theorem Effect.wf (h : Effect V s cs s') (hs : s.Wf) : s'.Wf := by
  cases h with
  | log hgrows hundo hc hstop hknown hdesc hnew =>
    refine ⟨upward_logChange hs _, trail_logChange hs _, Nat.lt_succ_self _, hdesc, ?_⟩
    intro z hz kind
    show Desc.leads kind (Store.desc _ z) = none
    rw [hnew z hz]
    exact hs.plain z hz kind
  | compress ht hu hd htn =>
    refine ⟨upward_logChange hs _, trail_logChange hs _, Nat.lt_succ_self _,
      known_setDesc hs.known (hs.known _), ?_⟩
    intro z hz kind
    show Desc.leads kind (Store.desc (Store.setDesc _ _ _) z) = none
    rw [desc_setDesc_of_lt htn _ hz]
    exact hs.plain z hz kind
  | overwrite hty hD htn hfree =>
    refine ⟨hs.upward, hs.trail, hs.trail_lt, known_setDesc hs.known hD, ?_⟩
    intro z hz kind
    show Desc.leads kind (Store.desc (Store.setDesc _ _ _) z) = none
    rw [desc_setDesc_of_lt htn _ hz]
    exact hs.plain z hz kind
  | hidden hdesc hkind hagree =>
    refine ⟨hs.upward, hs.trail, hs.trail_lt, ?_, ?_⟩
    · intro z
      show (Store.desc _ z).Known _
      rw [hdesc]
      exact hs.known z
    intro z hz kind
    show Desc.leads kind (Store.desc _ z) = none
    rw [hdesc]
    exact hs.plain z hz kind
  | count hn hnames hunivars =>
    refine ⟨hs.upward, hs.trail, hs.trail_lt, fun z => (hs.known z).mono hn, ?_⟩
    intro z hz kind
    exact hs.plain z (lt_of_le_of_lt hn hz) kind

theorem Effects.wf (h : Effects V s cs s') (hs : s.Wf) : s'.Wf := by
  induction h with
  | refl => exact hs
  | tail h he ih => exact he.wf ih

theorem Effect.newId_le (h : Effect V s cs s') : s.newId ≤ s'.newId := by
  cases h with
  | count hn => exact hn
  | _ => exact le_refl s.newId

/-! ## Compressed paths -/

/-- The second state differs from the first in compressed paths at most. -/
structure Settled (s s' : State J P A) : Prop where
  ends : SameEnds s.store.next s'.store.next
  desc : ∀ z, s.store.next z = none → s'.store.desc z = s.store.desc z
  level : s'.store.level = s.store.level
  scope : s'.store.scope = s.store.scope
  newId : s'.newId = s.newId
  lastSnapshot : s'.lastSnapshot = s.lastSnapshot

theorem Settled.refl (s : State J P A) : Settled s s :=
  ⟨SameEnds.rfl, fun _ _ => rfl, rfl, rfl, rfl, rfl⟩

theorem Settled.next (h : Settled s s') (hz : s.store.next z = none) :
    s'.store.next z = none := (h.ends.eq_none_iff z).1 hz

theorem Settled.trans (h : Settled s s') (h' : Settled s' s'') : Settled s s'' where
  ends := h.ends.trans h'.ends
  desc := fun z hz => (h'.desc z (h.next hz)).trans (h.desc z hz)
  level := h'.level.trans h.level
  scope := h'.scope.trans h.scope
  newId := h'.newId.trans h.newId
  lastSnapshot := h'.lastSnapshot.trans h.lastSnapshot

theorem settled_compress {d : Desc J P} (ht : s.store.next t ≠ none)
    (hu : Ends s.store.next t u) (hd : d.leads s.store.kind = some u) :
    Settled s (compress t d s) where
  ends := by
    refine sameEnds_compress hu ht ?_ fun x hx => next_setDesc_of_ne hx d
    exact (next_setDesc_self t d).trans hd
  desc := by
    intro z hz
    have hne : z ≠ t := fun heq => ht (heq ▸ hz)
    simp [compress, setDesc, logChange, Store.setDesc, hne]
  level := rfl
  scope := rfl
  newId := rfl
  lastSnapshot := rfl

variable {fuel : Nat}

theorem repr_effects (h : repr fuel t s = .ok (u, s')) (hs : s.Wf) (ht : t ≤ s.newId) :
    (∃ cs, Effects V s cs s') ∧ Settled s s' ∧ Ends s.store.next t u ∧ u ≤ s.newId := by
  obtain ⟨hu, hcase⟩ := repr_spec h
  have hun : u ≤ s.newId := le_of_ends hs.known ht hu
  rcases hcase with rfl | ⟨d, hne, hd, ⟨z, rfl⟩, rfl⟩
  · exact ⟨⟨[], .refl⟩, .refl _, hu, hun⟩
  · exact ⟨⟨_, .single (.compress hne hu hd ht)⟩, settled_compress hne hu hd, hu, hun⟩

/-! ## Overwriting -/

/-- The node may be overwritten. -/
def Covered (V : State J P A → Prop) (s : State J P A) (z : TypeExpr) : Prop :=
  z ≤ s.lastSnapshot ∨ ∀ saved, V saved → saved.newId < z

theorem Settled.covered (h : Settled s s') (hz : Covered V s z) : Covered V s' z := by
  unfold Covered
  rw [h.lastSnapshot]
  exact hz

/-- A description is logged and overwritten. -/
theorem logType_effects (hs : s.Wf) (hu : s.store.next u = none)
    (hD : D.Known s.newId) (hun : u ≤ s.newId) (hcov : Covered V s u) :
    ∃ cs, Effects V s cs (setDesc u D (logType u s)) := by
  by_cases hlast : u ≤ s.lastSnapshot
  · rw [logType, if_pos hlast]
    refine ⟨_, .single (.log (grows_setDesc hu D) ?_ rfl hu ⟨hun, hs.known u⟩
      (known_setDesc hs.known hD) fun z hz => desc_setDesc_of_lt hun D hz)⟩
    simp [Change.undo, Store.setDesc, logChange]
  · rw [logType, if_neg hlast]
    exact ⟨[], .single (.overwrite hu hD hun (hcov.resolve_left hlast))⟩

/-- A change that leaves descriptions and kinds alone is logged. -/
theorem log_effect {c : Change J P A} {σ' : Store J P A} (hs : s.Wf)
    (hdesc : σ'.desc = s.store.desc) (hkind : σ'.kind = s.store.kind)
    (hundo : c.undo σ' = s.store) (hc : c.isCompress = false) (hstop : c.Stops σ'.kind)
    (hknown : c.Known s.newId) : Effect V s [c] { logChange c s with store := σ' } := by
  refine .log ⟨fun z _ => by rw [hdesc], fun k hk => hkind ▸ hk⟩ hundo hc hstop hknown ?_ ?_
  · intro z
    rw [hdesc]
    exact hs.known z
  · intro z _; rw [hdesc]

theorem setLevel_effects (h : setLevel fuel ty level s = .ok s') (hs : s.Wf) (hty : ty ≤ s.newId)
    (hcov : ∀ z, (Mutation.setLevel ty level : Mutation J P A).Overwrites s.store z →
      Covered V s z) : ∃ cs, Effects V s cs s' := by
  obtain ⟨⟨u, s₁⟩, hrepr, h⟩ := bind_eq_ok.1 h
  obtain ⟨⟨cs, heff⟩, hset, hu, hun⟩ := repr_effects (V := V) hrepr hs hty
  dsimp only at h
  split at h
  case isFalse => cases h; exact ⟨cs, heff⟩
  case isTrue hne =>
    have hcovu : Covered V s₁ u := hset.covered (hcov u ⟨hu, by rwa [hset.level] at hne⟩)
    rw [← hset.newId] at hun
    cases h
    by_cases hlast : u ≤ s₁.lastSnapshot
    · rw [if_pos hlast]
      refine ⟨_, heff.trans (.single (log_effect (heff.wf hs) rfl rfl ?_ rfl trivial hun))⟩
      simp [Change.undo, Store.setLevel, logChange]
    rw [if_neg hlast]
    refine ⟨_, heff.tail (.hidden rfl rfl fun saved hV => ?_)⟩
    have hlt := hcovu.resolve_left hlast saved hV
    exact
      { desc := rfl, kind := rfl, ext := rfl, commu := rfl
        level := fun z hz => by simp [Store.setLevel, (lt_of_le_of_lt hz hlt).ne]
        scope := fun _ _ => rfl
        univar := fun _ _ => rfl
        name := fun _ _ => rfl }

theorem scope_restored (a sc : BitVec 63) (hsc : sc &&& marksMask = 0) :
    (((a &&& marksMask) ||| sc) &&& marksMask) ||| (a &&& scopeMask) = a := by
  have hm : ∀ i < 63, marksMask.getLsbD i = !scopeMask.getLsbD i := by decide
  refine BitVec.eq_of_getLsbD_eq fun i hi => ?_
  have hi' : (sc &&& marksMask).getLsbD i = false := by simp [hsc]
  simp only [BitVec.getLsbD_and, BitVec.getLsbD_or] at hi' ⊢
  cases a.getLsbD i <;> cases hs : scopeMask.getLsbD i <;> simp_all

theorem setScope_effects {sc : BitVec 63}
    (h : setScope fuel ty sc s = .ok s') (hs : s.Wf) (hty : ty ≤ s.newId)
    (hcov : ∀ z, (Mutation.setScope ty sc : Mutation J P A).Overwrites s.store z →
      Covered V s z) : ∃ cs, Effects V s cs s' := by
  obtain ⟨⟨u, s₁⟩, hrepr, h⟩ := bind_eq_ok.1 h
  obtain ⟨⟨cs, heff⟩, hset, hu, hun⟩ := repr_effects (V := V) hrepr hs hty
  dsimp only at h
  split at h
  case isFalse => cases h; exact ⟨cs, heff⟩
  case isTrue hne =>
    have hcovu : Covered V s₁ u := hset.covered (hcov u ⟨hu, by rwa [hset.scope] at hne⟩)
    rw [← hset.newId] at hun
    obtain ⟨store, hstore, h⟩ := bind_eq_ok.1 h
    cases h
    have hmasked : s₁.store.scope u &&& scopeMask &&& marksMask = 0 := by
      rw [BitVec.and_assoc, show scopeMask &&& marksMask = 0 by decide]
      simp
    by_cases hlast : u ≤ s₁.lastSnapshot
    · rw [if_pos hlast] at hstore ⊢
      unfold Transient.setScope at hstore
      split at hstore
      case isTrue => cases hstore
      case isFalse hsc =>
        cases hstore
        refine ⟨_, heff.trans
          (.single (log_effect (heff.wf hs) rfl rfl ?_ rfl trivial ⟨hun, hmasked⟩))⟩
        have hback := scope_restored (s₁.store.scope u) sc (by simpa using hsc)
        simp [Change.undo, Store.setScope, logChange, hback]
    rw [if_neg hlast] at hstore ⊢
    unfold Transient.setScope at hstore
    split at hstore
    case isTrue => cases hstore
    case isFalse =>
      cases hstore
      refine ⟨_, heff.tail (.hidden rfl rfl fun saved hV => ?_)⟩
      have hlt := hcovu.resolve_left hlast saved hV
      exact
        { desc := rfl, kind := rfl, ext := rfl, commu := rfl
          level := fun _ _ => rfl
          scope := fun z hz => by simp [Store.setScope, (lt_of_le_of_lt hz hlt).ne]
          univar := fun _ _ => rfl
          name := fun _ _ => rfl }

theorem setTypeDesc_effects [DecidableEq J] [DecidableEq P]
    {td : Desc J P} (h : setTypeDesc fuel ty td s = .ok s') (hs : s.Wf) (hty : ty ≤ s.newId)
    (htd : td.Known s.newId)
    (hcov : ∀ z, (Mutation.setTypeDesc ty td : Mutation J P A).Overwrites s.store z →
      Covered V s z) : ∃ cs, Effects V s cs s' := by
  obtain ⟨⟨u, s₁⟩, hrepr, h⟩ := bind_eq_ok.1 h
  obtain ⟨⟨cs, heff⟩, hset, hu, hun⟩ := repr_effects (V := V) hrepr hs hty
  cases h
  split
  case isFalse => exact ⟨cs, heff⟩
  case isTrue hne =>
    rw [hset.desc u hu.eq_none] at hne
    have hcovu : Covered V s₁ u := hset.covered (hcov u ⟨hu, hne⟩)
    rw [← hset.newId] at hun htd
    obtain ⟨ds, heff'⟩ :=
      logType_effects (heff.wf hs) (hset.next hu.eq_none) htd hun hcovu
    exact ⟨_, heff.trans heff'⟩

theorem setVarJkind_effects {fuel addr : Nat} {jkind : J}
    (h : setVarJkind fuel addr ty jkind s = .ok s') (hs : s.Wf) (hty : ty ≤ s.newId)
    (hcov : ∀ z, (Mutation.setVarJkind addr ty jkind : Mutation J P A).Overwrites s.store z →
      Covered V s z) : ∃ cs, Effects V s cs s' := by
  obtain ⟨⟨u, s₁⟩, hrepr, h⟩ := bind_eq_ok.1 h
  obtain ⟨⟨cs, heff⟩, hset, hu, hun⟩ := repr_effects (V := V) hrepr hs hty
  obtain ⟨store, hstore, h⟩ := bind_eq_ok.1 h
  cases h
  unfold Transient.setVarJkind at hstore
  split at hstore
  case h_2 => cases hstore
  case h_1 name jkind₀ hb =>
    cases hstore
    have hcovu : Covered V s₁ u := hset.covered (hcov u hu)
    rw [← hset.newId] at hun
    obtain ⟨ds, heff'⟩ := logType_effects (D := ⟨addr, .tVar name jkind⟩) (heff.wf hs)
      (hset.next hu.eq_none) trivial hun hcovu
    exact ⟨_, heff.trans heff'⟩

theorem linkType_effects [DecidableEq J] [DecidableEq P] {fuel addr addr' : Nat}
    {ty ty' : TypeExpr} (h : linkType fuel addr addr' ty ty' s = .ok s') (hs : s.Wf)
    (hty : ty ≤ s.newId) (hty' : ty' ≤ s.newId)
    (hcov : ∀ z, (Mutation.linkType addr addr' ty ty' : Mutation J P A).Overwrites s.store z →
      Covered V s z) : ∃ cs, Effects V s cs s' := by
  obtain ⟨⟨u, s₁⟩, hrepr, h⟩ := bind_eq_ok.1 h
  obtain ⟨⟨cs, heff⟩, hset, hu, hun⟩ := repr_effects (V := V) hrepr hs hty
  obtain ⟨⟨u', s₂⟩, hrepr', h⟩ := bind_eq_ok.1 h
  obtain ⟨⟨ds, heff'⟩, hset', hu', hun'⟩ :=
    repr_effects (V := V) hrepr' (heff.wf hs) (hty'.trans hset.newId.ge)
  have hs₂ : s₂.Wf := heff'.wf (heff.wf hs)
  have hsettled : Settled s s₂ := hset.trans hset'
  have hends' : Ends s.store.next ty' u' := (hset.ends ty' u').2 hu'
  have hstop : s₂.store.next u = none := hsettled.next hu.eq_none
  have hstop' : s₂.store.next u' = none := hsettled.next hends'.eq_none
  rw [hset.newId, ← hsettled.newId] at hun'
  rw [← hsettled.newId] at hun
  have heff₂ : Effects V s (ds ++ cs) s₂ := heff.trans heff'
  dsimp only at h
  by_cases heq : u = u'
  · rw [if_pos heq] at h
    cases h
    exact ⟨_, heff₂⟩
  rw [if_neg heq] at h
  -- the link
  have hcovu : Covered V s₂ u :=
    hsettled.covered (hcov u ⟨u, u', hu, hends', heq, .inl rfl⟩)
  obtain ⟨es, heff₃⟩ := logType_effects (D := ⟨addr, .tLink u'⟩) hs₂ hstop hun' hun hcovu
  generalize hs₃ : setDesc u ⟨addr, .tLink u'⟩ (logType u s₂) = s₃ at h heff₃
  have hstore₃ : s₃.store = s₂.store.setDesc u ⟨addr, .tLink u'⟩ := by
    rw [← hs₃]
    unfold logType
    split <;> rfl
  have hnewId₃ : s₃.newId = s₂.newId := by
    rw [← hs₃]
    unfold logType
    split <;> rfl
  have hlast₃ : s₃.lastSnapshot = s₂.lastSnapshot := by
    rw [← hs₃]
    unfold logType
    split <;> rfl
  have hdesc : (logType u s₂).store.desc u = s.store.desc u := by
    rw [← hsettled.desc u hu.eq_none]
    unfold logType
    split <;> rfl
  have hdesc' : s₃.store.desc u' = s.store.desc u' := by
    rw [← hsettled.desc u' hends'.eq_none, hstore₃]
    simp [Store.setDesc, Ne.symm heq]
  have hlevel : s₃.store.level = s.store.level := by
    rw [hstore₃]
    exact hsettled.level
  -- the name
  have hrename : TakesName s.store u u' → ∀ (name : Option String) (jkind : J),
      ∃ fs, Effects V s fs (renameVar addr' u' name jkind s₃) := by
    intro htakes name jkind
    have hcovu' : Covered V s₃ u' := by
      have h₀ : Covered V s₂ u' :=
        hsettled.covered (hcov u' ⟨u, u', hu, hends', heq, .inr ⟨rfl, htakes⟩⟩)
      unfold Covered
      rw [hlast₃]
      exact h₀
    have hstop₃ : s₃.store.next u' = none := by
      rw [hstore₃, next_setDesc_of_ne (Ne.symm heq)]
      exact hstop'
    obtain ⟨fs, heff₄⟩ := logType_effects (D := ⟨addr', .tVar name jkind⟩) (heff₃.wf hs₂) hstop₃
      trivial (hun'.trans hnewId₃.ge) hcovu'
    exact ⟨_, (heff₂.trans heff₃).trans heff₄⟩
  rw [hdesc, hdesc', hlevel] at h
  unfold TakesName at hrename
  cases hb : (s.store.desc u).body with
  | tVar name jkind =>
    cases hb' : (s.store.desc u').body with
    | tVar name' jkind' =>
      simp only [hb, hb'] at h hrename
      rcases name with _ | name <;> rcases name' with _ | name' <;> simp only at h hrename
      · cases h; exact ⟨_, heff₂.trans heff₃⟩
      · cases h; exact ⟨_, heff₂.trans heff₃⟩
      · cases h; exact hrename trivial _ _
      by_cases hlt : s.store.level u < s.store.level u'
      · rw [if_pos hlt] at h
        cases h
        exact hrename hlt _ _
      rw [if_neg hlt] at h
      cases h
      exact ⟨_, heff₂.trans heff₃⟩
    | _ =>
      simp only [hb, hb'] at h
      cases h
      exact ⟨_, heff₂.trans heff₃⟩
  | _ =>
    simp only [hb] at h
    cases h
    exact ⟨_, heff₂.trans heff₃⟩

/-! ## The other calls -/

theorem linkRowFieldExt_effects {inside v : RowField}
    (h : linkRowFieldExt fuel inside v s = .ok s') (hs : s.Wf) : ∃ cs, Effects V s cs s' := by
  induction fuel generalizing inside with
  | zero => cases h
  | succ fuel ih =>
    cases inside with
    | rfEither noArg argType matched e =>
      rw [linkRowFieldExt] at h
      cases he : s.store.ext e with
      | none =>
        simp only [he] at h
        cases h
        refine ⟨_, .single (log_effect hs rfl rfl ?_ rfl trivial trivial)⟩
        simp [Change.undo, Store.setExt, logChange, ← he]
      | some rf => simp only [he] at h; exact ih h
    | rfPresent ty | rfAbsent => cases h

theorem linkKind_effects {inside k : FieldKind}
    (h : linkKind fuel inside k s = .ok s') (hs : s.Wf) : ∃ cs, Effects V s cs s' := by
  induction fuel generalizing inside with
  | zero => cases h
  | succ fuel ih =>
    cases inside with
    | fkVar rk =>
      rw [linkKind] at h
      cases hk : s.store.kind rk with
      | none =>
        simp only [hk] at h
        obtain ⟨k', hk', h⟩ := bind_eq_ok.1 h
        by_cases hne : k' ≠ .fkVar rk
        · rw [if_pos hne] at h
          cases h
          have hgrows : s.store.Grows (s.store.setKind rk (some k')) :=
            ⟨fun _ _ => rfl, fun _ ha => absent_setKind hk ha⟩
          refine ⟨_, .single (.log hgrows ?_ rfl trivial trivial hs.known fun _ _ => rfl)⟩
          simp [Change.undo, Store.setKind, logChange, ← hk]
        rw [if_neg hne] at h
        cases h
        exact ⟨[], .refl⟩
      | some fk => simp only [hk] at h; exact ih h
    | fkPublic | fkAbsent => cases h

theorem linkCommu_effects {inside c : Commutable}
    (h : linkCommu fuel inside c s = .ok s') (hs : s.Wf) : ∃ cs, Effects V s cs s' := by
  induction fuel generalizing inside with
  | zero => cases h
  | succ fuel ih =>
    cases inside with
    | cVar rc =>
      rw [linkCommu] at h
      cases hc : s.store.commu rc with
      | none =>
        simp only [hc] at h
        obtain ⟨c', hc', h⟩ := bind_eq_ok.1 h
        by_cases hne : c' ≠ .cVar rc
        · rw [if_pos hne] at h
          cases h
          refine ⟨_, .single (log_effect hs rfl rfl ?_ rfl trivial trivial)⟩
          simp [Change.undo, Store.setCommu, logChange, ← hc]
        rw [if_neg hne] at h
        cases h
        exact ⟨[], .refl⟩
      | some inside' => simp only [hc] at h; exact ih h
    | cOk => cases h

theorem newty3_effects {scope : BitVec 63} {desc : Desc J P} (hs : s.Wf)
    (hdesc : desc.Known s.newId) (hV : ∀ saved, V saved → saved.newId ≤ s.newId) :
    Effects V s [] (newty3 level scope desc s) := by
  have hlt : s.newId < s.newId + 1 := lt_add_one s.newId
  have hcount : Effects V s [] { s with newId := s.newId + 1 } :=
    .single (.count hlt.le le_rfl le_rfl)
  have hplain : s.store.next (s.newId + 1) = none := hs.plain _ hlt _
  have hwrite := hcount.tail (.overwrite (D := desc) hplain (hdesc.mono hlt.le) le_rfl
    fun saved h => (hV saved h).trans_lt hlt)
  refine hwrite.tail (show Effect V _ [] (newty3 level scope desc s) from ?_)
  refine .hidden rfl rfl fun saved h => ?_
  have hne : ∀ z ≤ saved.newId, z ≠ s.newId + 1 := fun z hz =>
    ((hz.trans (hV saved h)).trans_lt hlt).ne
  exact
    { desc := rfl, kind := rfl, ext := rfl, commu := rfl
      level := fun z hz => by simp [Store.setLevel, Store.setScope, setDesc, hne z hz]
      scope := fun z hz => by simp [Store.setLevel, Store.setScope, setDesc, hne z hz]
      univar := fun _ _ => rfl
      name := fun _ _ => rfl }

theorem newName_effects {v : Option (A × List TypeExpr)}
    (hV : ∀ saved, V saved → saved.names ≤ s.names) : Effects V s [] (newName v s) := by
  have hcount : Effects V s [] { s with names := s.names + 1 } :=
    .single (.count le_rfl (Nat.le_succ _) le_rfl)
  refine hcount.tail (show Effect V _ [] (newName v s) from ?_)
  refine .hidden rfl rfl fun saved h => ?_
  exact
    { desc := rfl, kind := rfl, ext := rfl, commu := rfl
      level := fun _ _ => rfl
      scope := fun _ _ => rfl
      univar := fun _ _ => rfl
      name := fun r hr => by simp [Store.setName, (hr.trans_le (hV saved h)).ne] }

theorem newUnivar_effects {v : Option TypeExpr}
    (hV : ∀ saved, V saved → saved.univars ≤ s.univars) : Effects V s [] (newUnivar v s) := by
  have hcount : Effects V s [] { s with univars := s.univars + 1 } :=
    .single (.count le_rfl le_rfl (Nat.le_succ _))
  refine hcount.tail (show Effect V _ [] (newUnivar v s) from ?_)
  refine .hidden rfl rfl fun saved h => ?_
  exact
    { desc := rfl, kind := rfl, ext := rfl, commu := rfl
      level := fun _ _ => rfl
      scope := fun _ _ => rfl
      univar := fun r hr => by simp [Store.setUnivar, (hr.trans_le (hV saved h)).ne]
      name := fun _ _ => rfl }

/-- A saved state is older than the present one. -/
structure Precedes (saved s : State J P A) : Prop where
  newId : saved.newId ≤ s.newId
  names : saved.names ≤ s.names
  univars : saved.univars ≤ s.univars

/-- Every call is a sequence of effects. -/
theorem mutation_effects [DecidableEq J] [DecidableEq P] {m : Mutation J P A}
    (h : m.run fuel s = .ok s') (hs : s.Wf) (hm : m.Exists s)
    (hcov : ∀ z, m.Overwrites s.store z → Covered V s z)
    (hV : ∀ saved, V saved → Precedes saved s) : ∃ cs, Effects V s cs s' := by
  cases m with
  | repr t =>
    simp only [Mutation.run] at h
    cases hrepr : repr fuel t s with
    | error e => simp [hrepr, Except.map] at h
    | ok r =>
      simp only [hrepr, Except.map, Except.ok.injEq] at h
      subst h
      exact (repr_effects hrepr hs hm).1
  | linkType addr addr' ty ty' => exact linkType_effects h hs hm.1 hm.2 hcov
  | setTypeDesc ty td => exact setTypeDesc_effects h hs hm.1 hm.2 hcov
  | setLevel ty level => exact setLevel_effects h hs hm hcov
  | setScope ty scope => exact setScope_effects h hs hm hcov
  | setVarJkind addr ty jkind => exact setVarJkind_effects h hs hm hcov
  | setUnivar rty ty =>
    cases h
    refine ⟨_, .single (log_effect hs rfl rfl ?_ rfl trivial trivial)⟩
    simp [Change.undo, Store.setUnivar, logChange]
  | setName nm v =>
    cases h
    refine ⟨_, .single (log_effect hs rfl rfl ?_ rfl trivial trivial)⟩
    simp [Change.undo, Store.setName, logChange]
  | linkRowFieldExt inside v => exact linkRowFieldExt_effects h hs
  | linkKind inside k => exact linkKind_effects h hs
  | linkCommu inside c => exact linkCommu_effects h hs
  | newty3 level scope desc =>
    cases h
    exact ⟨[], newty3_effects hs hm fun saved hsaved => (hV saved hsaved).newId⟩
  | newName v =>
    cases h
    exact ⟨[], newName_effects fun saved hsaved => (hV saved hsaved).names⟩
  | newUnivar v =>
    cases h
    exact ⟨[], newUnivar_effects fun saved hsaved => (hV saved hsaved).univars⟩

end Oxcaml.Typing.Types
