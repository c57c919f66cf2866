/-
Oxcaml.Backend.ZeroAllocUnitTheorems — one step of the resolution of summaries.

Symbolic values mean functions of an assignment of `Bot < Safe < Top` to the
variables (`LawfulSymbolic`), and `join` and `apply` are the pointwise operations.
A step `Refines` the unit: under every assignment that agrees with the functions
that are resolved afterwards, no summary means less than before. The table of
dependencies is `Exact`. §3 is about the table, §4 about fixpoints and §5 about
`propagate`, which goes down the table.
-/
import Oxcaml.Backend.ZeroAllocUnit
import Oxcaml.Lib.Fuel
import Oxcaml.Lib.Outcome

namespace Oxcaml.Backend.ZeroAlloc

open Option (isSome_iff_exists map_eq_some_iff)
open Finset (empty_subset mem_union)
open UnresolvedDependencies (removeCaller)

set_option linter.all false

open Lib (Halts)
open Symbolic (toResolved ofResolved)

/-! ## §1 Meaning -/

/-- The assignment after a lookup. -/
def withLookup {V ν : Type} (meaning : V → (Var ν → Level) → Level) (env : Var ν → Option V)
    (ρ : Var ν → Level) (x : Var ν) : Level :=
  match env x with
  | some v => meaning v ρ
  | none => ρ x

/-- Symbolic values whose operations are pointwise. -/
class LawfulSymbolic (V : Type) {ν ω : outParam Type} [DecidableEq ω] [Symbolic V ν ω] where
  meaning : V → (Var ν → Level) → Level
  witnesses : V → Witnesses ω
  toResolved_ofResolved : ∀ r : Resolved ω, toResolved (ofResolved r : V) = some r
  names_eq_empty : ∀ v : V, Symbolic.getUnresolvedNames v = ∅ ↔ (toResolved v).isSome
  names_unresolved : ∀ w x n,
    n ∈ Symbolic.getUnresolvedNames (Symbolic.unresolved w x : V) → n = x.1
  names_replaceWitnesses : ∀ w (v : V),
    Symbolic.getUnresolvedNames (Symbolic.replaceWitnesses w v) = Symbolic.getUnresolvedNames v
  meaning_resolved : ∀ (v : V) r ρ, toResolved v = some r → meaning v ρ = r.level
  meaning_congr : ∀ (v : V) ρ ρ', (∀ x : Var ν, x.1 ∈ Symbolic.getUnresolvedNames v → ρ x = ρ' x) →
    meaning v ρ = meaning v ρ'
  join_resolved : ∀ (v v' : V) r r', toResolved v = some r → toResolved v' = some r' →
    toResolved (Symbolic.join v v') = some (r.join r')
  lessequal_resolved : ∀ (v v' : V) r r', toResolved v = some r → toResolved v' = some r' →
    Symbolic.lessequal v v' = r.lessequal r'
  names_apply : ∀ (v : V) env n, (∀ x w, env x = some w → (toResolved w).isSome) →
    n ∈ Symbolic.getUnresolvedNames (Symbolic.apply v env) →
      n ∈ Symbolic.getUnresolvedNames v ∧ ∃ tag, env (n, tag) = none
  meaning_apply : ∀ (v : V) env ρ, (∀ x w, env x = some w → (toResolved w).isSome) →
    meaning (Symbolic.apply v env) ρ = meaning v (withLookup meaning env ρ)
  witnesses_apply : ∀ (v : V) env w, (∀ x w, env x = some w → (toResolved w).isSome) →
    toResolved (Symbolic.apply v env) = some (.top w) → w ⊆ witnesses v

open LawfulSymbolic

namespace Resolved

variable {ω : Type} [DecidableEq ω]

/-- A number that grows with the value. -/
def weight : Resolved ω → ℕ
  | bot => 0
  | safe => 1
  | top w => 2 + w.card

def witnesses : Resolved ω → Witnesses ω
  | top w => w
  | _ => ∅

theorem level_join (r r' : Resolved ω) : (r.join r').level = max r.level r'.level := by
  cases r <;> cases r' <;> rfl

variable {r r' : Resolved ω}

theorem level_le_of_lessequal (h : r.lessequal r' = true) : r.level ≤ r'.level := by
  cases r <;> cases r' <;> simp only [level] <;> first | decide | cases h

theorem witnesses_join (r r' : Resolved ω) :
    (r.join r').witnesses = r.witnesses ∪ r'.witnesses := by
  cases r <;> cases r' <;> simp [join, witnesses]

theorem weight_le_join (r r' : Resolved ω) : r.weight ≤ (r.join r').weight := by
  cases r <;> cases r' <;> simp only [join, weight] <;> first | omega | skip
  exact Nat.add_le_add_left (Finset.card_le_card Finset.subset_union_left) 2

theorem weight_lt_join (h : r'.lessequal r = false) : r.weight < (r.join r').weight := by
  cases r <;> cases r' <;> simp only [join, weight] <;> first | omega | cases h | skip
  rename_i w w'
  have hnot : ¬ w' ⊆ w := by simpa [lessequal] using h
  refine Nat.add_lt_add_left (Finset.card_lt_card ?_) 2
  refine Finset.ssubset_iff_subset_ne.2 ⟨Finset.subset_union_left, fun heq => hnot ?_⟩
  rw [heq]
  exact Finset.subset_union_right

theorem weight_le {W : Witnesses ω} (h : r.witnesses ⊆ W) : r.weight ≤ 2 + W.card := by
  cases r with
  | bot => simp [weight]
  | safe => simp only [weight]; omega
  | top w => exact Nat.add_le_add_left (Finset.card_le_card h) 2

end Resolved

variable {V ν ω : Type} [LinearOrder ν] [DecidableEq ω] [Symbolic V ν ω] [LawfulSymbolic V]

/-- The meaning of the components of a value. -/
def Value.meaning (v : Value V) (ρ : Var ν → Level) (tag : Tag) : Level :=
  LawfulSymbolic.meaning (v.getComponent tag) ρ

/-- The lookup gives resolved values. -/
def ResolvedLookup (env : Var ν → Option V) : Prop :=
  ∀ x w, env x = some w → (toResolved w).isSome

namespace Value

variable {v v' : Value V} {ρ ρ' : Var ν → Level} {env : Var ν → Option V}

theorem isResolved_iff : v.isResolved = true ↔ ∀ tag, (toResolved (v.getComponent tag)).isSome := by
  rw [isResolved, Bool.and_eq_true, Bool.and_eq_true]
  constructor
  · rintro ⟨⟨hn, he⟩, hd⟩ tag; cases tag <;> assumption
  · intro h; exact ⟨⟨h .n, h .e⟩, h .d⟩

theorem mem_names {n : ν} :
    n ∈ v.getUnresolvedNames ↔ ∃ tag, n ∈ Symbolic.getUnresolvedNames (v.getComponent tag) := by
  rw [getUnresolvedNames, mem_union, mem_union]
  constructor
  · rintro (h | h | h)
    · exact ⟨.n, h⟩
    · exact ⟨.e, h⟩
    · exact ⟨.d, h⟩
  rintro ⟨tag, h⟩
  cases tag
  · exact .inl h
  · exact .inr (.inl h)
  · exact .inr (.inr h)

theorem names_eq_empty : v.getUnresolvedNames = ∅ ↔ v.isResolved = true := by
  rw [isResolved_iff, Finset.eq_empty_iff_forall_notMem]
  constructor
  · intro h tag
    rw [← LawfulSymbolic.names_eq_empty, Finset.eq_empty_iff_forall_notMem]
    exact fun n hn => h n (mem_names.2 ⟨tag, hn⟩)
  intro h n hn
  obtain ⟨tag, hn⟩ := mem_names.1 hn
  have hempty := (LawfulSymbolic.names_eq_empty _).2 (h tag)
  rw [hempty] at hn
  exact absurd hn (Finset.notMem_empty n)

theorem meaning_congr (h : ∀ x : Var ν, x.1 ∈ v.getUnresolvedNames → ρ x = ρ' x) (tag : Tag) :
    v.meaning ρ tag = v.meaning ρ' tag :=
  LawfulSymbolic.meaning_congr _ ρ ρ' fun x hx => h x (mem_names.2 ⟨tag, hx⟩)

/-- A resolved value means the same under all assignments. -/
theorem meaning_resolved (h : v.isResolved = true) (tag : Tag) : v.meaning ρ tag =
    v.meaning ρ' tag :=
  meaning_congr (fun x hx => by rw [names_eq_empty.2 h] at hx; simp at hx) tag

theorem getComponent_apply (env : Var ν → Option V) (tag : Tag) :
    (v.apply env).getComponent tag = Symbolic.apply (v.getComponent tag) env := by
  cases tag <;> rfl

theorem getComponent_join (tag : Tag) :
    (v.join v').getComponent tag = Symbolic.join (v.getComponent tag) (v'.getComponent tag) := by
  cases tag <;> rfl

theorem names_apply (henv : ResolvedLookup env) {n : ν} (h : n ∈ (v.apply env).getUnresolvedNames) :
    n ∈ v.getUnresolvedNames ∧ ∃ tag, env (n, tag) = none := by
  obtain ⟨tag, h⟩ := mem_names.1 h
  rw [getComponent_apply] at h
  obtain ⟨hn, hnone⟩ := LawfulSymbolic.names_apply _ env n henv h
  exact ⟨mem_names.2 ⟨tag, hn⟩, hnone⟩

theorem meaning_apply (henv : ResolvedLookup env) (ρ : Var ν → Level) (tag : Tag) :
    (v.apply env).meaning ρ tag = v.meaning (withLookup LawfulSymbolic.meaning env ρ) tag := by
  rw [meaning, getComponent_apply, LawfulSymbolic.meaning_apply _ env ρ henv]
  rfl

theorem join_isResolved (h : v.isResolved = true) (h' : v'.isResolved = true) :
    (v.join v').isResolved = true := by
  rw [isResolved_iff] at h h' ⊢
  intro tag
  obtain ⟨r, hr⟩ := isSome_iff_exists.1 (h tag)
  obtain ⟨r', hr'⟩ := isSome_iff_exists.1 (h' tag)
  rw [getComponent_join, LawfulSymbolic.join_resolved _ _ r r' hr hr']
  rfl

theorem meaning_join (h : v.isResolved = true) (h' : v'.isResolved = true) (tag : Tag) :
    (v.join v').meaning ρ tag = max (v.meaning ρ tag) (v'.meaning ρ tag) := by
  rw [isResolved_iff] at h h'
  obtain ⟨r, hr⟩ := isSome_iff_exists.1 (h tag)
  obtain ⟨r', hr'⟩ := isSome_iff_exists.1 (h' tag)
  rw [meaning, getComponent_join,
    LawfulSymbolic.meaning_resolved _ _ ρ (LawfulSymbolic.join_resolved _ _ r r' hr hr'),
    meaning, LawfulSymbolic.meaning_resolved _ _ ρ hr, meaning,
    LawfulSymbolic.meaning_resolved _ _ ρ hr', Resolved.level_join]

theorem lessequal_iff : v.lessequal v' = true ↔
    ∀ tag, Symbolic.lessequal (v.getComponent tag) (v'.getComponent tag) = true := by
  rw [lessequal, Bool.and_eq_true, Bool.and_eq_true]
  constructor
  · rintro ⟨⟨hn, he⟩, hd⟩ tag; cases tag <;> assumption
  · intro h; exact ⟨⟨h .n, h .e⟩, h .d⟩

theorem meaning_le_of_lessequal (h : v.isResolved = true) (h' : v'.isResolved = true)
    (hle : v.lessequal v' = true) (tag : Tag) : v.meaning ρ tag ≤ v'.meaning ρ tag := by
  rw [isResolved_iff] at h h'
  obtain ⟨r, hr⟩ := isSome_iff_exists.1 (h tag)
  obtain ⟨r', hr'⟩ := isSome_iff_exists.1 (h' tag)
  have hle' := lessequal_iff.1 hle tag
  rw [LawfulSymbolic.lessequal_resolved _ _ r r' hr hr'] at hle'
  rw [meaning, LawfulSymbolic.meaning_resolved _ _ ρ hr, meaning,
    LawfulSymbolic.meaning_resolved _ _ ρ hr']
  exact Resolved.level_le_of_lessequal hle'

theorem ofResolved_isResolved (r1 r2 r3 : Resolved ω) :
    (⟨ofResolved r1, ofResolved r2, ofResolved r3⟩ : Value V).isResolved = true := by
  rw [isResolved_iff]
  intro tag
  cases tag <;> exact (by rw [getComponent, toResolved_ofResolved]; rfl)

theorem top_isResolved (w : Witnesses ω) : (top w : Value V).isResolved = true :=
  ofResolved_isResolved _ _ _

theorem ofAnnot_isResolved (strict neverReturnsNormally neverRaises : Bool) :
    (ofAnnot strict neverReturnsNormally neverRaises : Value V).isResolved = true := by
  cases strict <;> cases neverReturnsNormally <;> cases neverRaises <;>
    exact ofResolved_isResolved _ _ _

end Value

/-! ## §2 The unit -/

/-- The recorded summary of `f` mentions `c`. -/
def Mentions (unitInfo : UnitInfo V ν) (f c : ν) : Prop :=
  ∃ info, unitInfo[f]? = some info ∧ c ∈ info.value.getUnresolvedNames

/-- The assignment agrees with the functions that are resolved. -/
def AgreesWith (unitInfo : UnitInfo V ν) (ρ : Var ν → Level) : Prop :=
  ∀ f info, unitInfo[f]? = some info → info.value.isResolved = true →
    ∀ tag, ρ (f, tag) = info.value.meaning ρ tag

def NamesKept (unitInfo : UnitInfo V ν) : Prop :=
  ∀ (f : ν) (info : FuncInfo V ν), unitInfo[f]? = some info → info.name = f

/-- No summary means less than before, and none mentions more. -/
structure Refines (u u' : UnitInfo V ν) : Prop where
  domain : ∀ f : ν, (u'[f]?).isSome = (u[f]?).isSome
  agrees : ∀ ρ, AgreesWith u' ρ → AgreesWith u ρ
  names : ∀ (f : ν) info info', u[f]? = some info → u'[f]? = some info' →
    info'.value.getUnresolvedNames ⊆ info.value.getUnresolvedNames
  meaning : ∀ (f : ν) info info', u[f]? = some info → u'[f]? = some info' → ∀ ρ, AgreesWith u' ρ →
    ∀ tag, info.value.meaning ρ tag ≤ info'.value.meaning ρ tag

theorem Refines.refl (u : UnitInfo V ν) : Refines u u where
  domain _ := rfl
  agrees _ h := h
  names f info info' h h' := by
    rw [h] at h'
    cases h'
    exact Finset.Subset.refl _
  meaning f info info' h h' ρ _ tag := by
    rw [h] at h'
    cases h'
    exact le_refl _

variable {u : UnitInfo V ν}

theorem Refines.trans {u' u'' : UnitInfo V ν} (h : Refines u u') (h' : Refines u' u'') :
    Refines u u'' where
  domain f := (h'.domain f).trans (h.domain f)
  agrees ρ hρ := h.agrees ρ (h'.agrees ρ hρ)
  names f info info'' hinfo hinfo'' := by
    have hsome : (u'[f]?).isSome := by
      rw [h.domain f, hinfo]
      rfl
    obtain ⟨info', hinfo'⟩ := isSome_iff_exists.1 hsome
    exact (h'.names f info' info'' hinfo' hinfo'').trans (h.names f info info' hinfo hinfo')
  meaning f info info'' hinfo hinfo'' ρ hρ tag := by
    have hsome : (u'[f]?).isSome := by
      rw [h.domain f, hinfo]
      rfl
    obtain ⟨info', hinfo'⟩ := isSome_iff_exists.1 hsome
    exact (h.meaning f info info' hinfo hinfo' ρ (h'.agrees ρ hρ) tag).trans
      (h'.meaning f info' info'' hinfo' hinfo'' ρ hρ tag)

variable {f : ν} {info : FuncInfo V ν}

theorem findExn_eq (h : u[f]? = some info) : u.findExn f = .ok info := by
  rw [UnitInfo.findExn, h]
  rfl

theorem assertUnit_true {b : Bool} (h : b = true) : assertUnit b = .ok () := by
  rw [assertUnit, if_pos h]
  rfl

theorem forM_ok {α : Type} {f : α → Except ExnUnit Unit} {l : List α}
    (h : ∀ x ∈ l, f x = .ok ()) : l.forM f = .ok () := by
  induction l with
  | nil => rfl
  | cons x l ih => rw [List.forM, h x (by simp)]; exact ih fun y hy => h y (by simp [hy])

/-! ## §3 The table of dependencies -/

/-- The table has exactly the pairs of a caller and a callee of the relation. -/
structure Table (deps : UnresolvedDependencies ν) (rel : ν → ν → Prop) : Prop where
  callers : ∀ f c : ν, (∃ callers, deps[c]? = some callers ∧ f ∈ callers) ↔ rel f c
  nonempty : ∀ (c : ν) (callers : Finset ν), deps[c]? = some callers → callers ≠ ∅

namespace Table

variable {deps : UnresolvedDependencies ν} {rel : ν → ν → Prop} {callee caller : ν}

theorem congr {rel' : ν → ν → Prop} (h : Table deps rel) (hrel : ∀ f c, rel f c ↔ rel' f c) :
    Table deps rel' :=
  ⟨fun f c => (h.callers f c).trans (hrel f c), h.nonempty⟩

theorem mem_callers (h : Table deps rel) {c : ν} {callers : Finset ν}
    (hc : deps[c]? = some callers) (f : ν) : f ∈ callers ↔ rel f c := by
  rw [← h.callers, hc]
  simp

theorem empty : Table (∅ : UnresolvedDependencies ν) fun _ _ => False where
  callers f c := by simp
  nonempty c callers h := by simp at h

/-- A callee that is in the table, and calls nothing. -/
theorem remove (h : Table deps rel) (hcallee : deps[callee]? ≠ none) (hrel : ∀ c, ¬ rel callee c) :
    UnresolvedDependencies.remove callee deps = .ok (deps.erase callee) ∧
      Table (deps.erase callee) fun f c => rel f c ∧ c ≠ callee := by
  constructor
  · have hcontains : UnresolvedDependencies.contains callee deps = true := by
      rw [UnresolvedDependencies.contains, Std.ExtTreeMap.contains_eq_isSome_getElem?]
      exact Option.ne_none_iff_isSome.1 hcallee
    rw [UnresolvedDependencies.remove, assertUnit_true hcontains]
    rw [forM_ok]
    · rfl
    intro p hp
    have hp' : deps[p.1]? = some p.2 := Lib.mem_toList.1 hp
    have hnot : callee ∉ p.2 := fun hin => hrel p.1 ((h.mem_callers hp' callee).1 hin)
    exact assertUnit_true (by simp [hnot])
  refine ⟨fun f c => ?_, fun c callers hc => ?_⟩
  · rw [Lib.getElem?_erase]
    by_cases hc : callee = c
    · simp [hc]
    · simp only [if_neg hc, h.callers]; exact ⟨fun hr => ⟨hr, Ne.symm hc⟩, fun hr => hr.1⟩
  rw [Lib.getElem?_erase] at hc
  split at hc
  · cases hc
  · exact h.nonempty c callers hc

theorem addOne (h : Table deps rel) (hrel : ¬ rel caller callee) :
    ∃ deps', UnresolvedDependencies.addOne caller deps callee = .ok deps' ∧
      Table deps' fun f c => rel f c ∨ (f = caller ∧ c = callee) := by
  have hinsert : ∀ callers : Finset ν, (∀ f, f ∈ callers ↔ rel f callee ∨ f = caller) →
      Table (deps.insert callee callers) fun f c => rel f c ∨ (f = caller ∧ c = callee) := by
    intro callers hcallers
    refine ⟨fun f c => ?_, fun c callers' hc => ?_⟩
    · rw [Lib.getElem?_insert]
      by_cases hc : callee = c
      · subst hc; simp [hcallers]
      · simp only [if_neg hc, h.callers]
        exact ⟨.inl, fun hr => hr.resolve_right fun hcaller => hc hcaller.2.symm⟩
    rw [Lib.getElem?_insert] at hc
    split at hc
    · cases hc; exact Finset.ne_empty_of_mem ((hcallers caller).2 (.inr rfl))
    · exact h.nonempty c callers' hc
  rw [UnresolvedDependencies.addOne]
  cases hc : deps[callee]? with
  | none =>
    refine ⟨_, rfl, hinsert {caller} fun f => ?_⟩
    have hnone : ¬ rel f callee := by
      rw [← h.callers, hc]
      simp
    simp [hnone]
  | some callers =>
    have hnot : caller ∉ callers := fun hin => hrel ((h.mem_callers hc caller).1 hin)
    refine ⟨deps.insert callee (insert caller callers), ?_, hinsert _ fun f => ?_⟩
    · dsimp only
      rw [assertUnit_true (by simp [hnot])]
      rfl
    · rw [Finset.mem_insert, h.mem_callers hc, or_comm]

theorem add (h : Table deps rel) (hrel : ∀ c, ¬ rel caller c) (callees : Finset ν) :
    ∃ deps', deps.add caller callees = .ok deps' ∧
      Table deps' fun f c => rel f c ∨ (f = caller ∧ c ∈ callees) := by
  have hrun : ∀ (l : List ν) (deps : UnresolvedDependencies ν) (rel : ν → ν → Prop), l.Nodup →
      Table deps rel → (∀ c ∈ l, ¬ rel caller c) →
      ∃ deps', l.foldlM (UnresolvedDependencies.addOne caller) deps = .ok deps' ∧
        Table deps' fun f c => rel f c ∨ (f = caller ∧ c ∈ l) := by
    intro l
    induction l with
    | nil => intro deps rel _ h _; exact ⟨deps, rfl, h.congr fun f c => by simp⟩
    | cons callee l ih =>
      intro deps rel hnodup h hrel
      obtain ⟨hnot, hnodup⟩ := List.nodup_cons.1 hnodup
      obtain ⟨deps', hadd, h'⟩ := h.addOne (hrel callee (by simp))
      obtain ⟨deps'', hrest, h''⟩ := ih deps' _ hnodup h' (by
        rintro c hc (hr | ⟨-, rfl⟩)
        · exact hrel c (by simp [hc]) hr
        · exact hnot hc)
      refine ⟨deps'', ?_, h''.congr fun f c => ?_⟩
      · rw [List.foldlM_cons, hadd]; exact hrest
      · simp only [List.mem_cons]; tauto
  obtain ⟨deps', hadd, h'⟩ := hrun _ deps rel (Finset.sort_nodup callees (· ≤ ·)) h
    fun c _ => hrel c
  exact ⟨deps', hadd, h'.congr fun f c => by rw [Finset.mem_sort]⟩

/-- The callees of one caller become fewer. -/
theorem update (h : Table deps rel) {callees : Finset ν} (hcallees : ∀ c ∈ callees, rel caller c) :
    ∃ deps', deps.update caller callees = .ok deps' ∧
      Table deps' (fun f c => rel f c ∧ (f = caller → c ∈ callees)) ∧
      ∀ c : ν, deps'[c]? ≠ none → deps[c]? ≠ none := by
  have hget : ∀ c : ν, (deps.filterMap (removeCaller caller callees))[c]? =
      (deps[c]?).bind (removeCaller caller callees c) := fun c => by
    rw [Std.ExtTreeMap.getElem?_filterMap']
  refine ⟨deps.filterMap (removeCaller caller callees), ?_, ⟨?_, ?_⟩, ?_⟩
  · rw [UnresolvedDependencies.update, forM_ok]
    · rfl
    intro c hc
    obtain ⟨callers, hcallers, hin⟩ := (h.callers caller c).2 (hcallees c (by simpa using hc))
    rw [UnresolvedDependencies.checkCallee, hcallers]
    exact if_pos hin
  · intro f c
    rw [hget]
    cases hc : deps[c]? with
    | none =>
      have hnone : ¬ rel f c := by
        rw [← h.callers, hc]
        simp
      simp [hnone]
    | some callers =>
      rw [Option.bind_some, removeCaller]
      by_cases hin : c ∈ callees
      · simp [hin, h.mem_callers hc]
      simp only [hin, ← h.mem_callers hc f]
      have herase : f ∈ callers.erase caller ↔ f ∈ callers ∧ ¬ f = caller := by
        rw [Finset.mem_erase, and_comm]
      rw [← herase]
      by_cases hempty : callers.erase caller = ∅
      · simp [hempty]
      · simp [hempty]
  · intro c callers hc
    rw [hget] at hc
    cases hold : deps[c]? with
    | none => simp [hold] at hc
    | some callers' =>
      rw [hold, Option.bind_some, removeCaller] at hc
      split at hc
      · cases hc; exact h.nonempty c _ hold
      dsimp only at hc
      split at hc
      · cases hc
      · cases hc
        assumption
  intro c hc hnone
  rw [hget, hnone] at hc
  exact hc rfl

end Table

/-! ## §4 Fixpoints -/

def Value.weight (v : Value V) : ℕ :=
  ((toResolved v.nor).elim 0 Resolved.weight) + ((toResolved v.exn).elim 0 Resolved.weight) +
    ((toResolved v.div).elim 0 Resolved.weight)

/-- The witnesses of the components are among `W`. -/
def Value.WitnessesIn (v : Value V) (W : Witnesses ω) : Prop :=
  ∀ tag r, toResolved (v.getComponent tag) = some r → r.witnesses ⊆ W

variable {W : Witnesses ω}

theorem Value.weight_le {v : Value V} (h : v.WitnessesIn W) : v.weight ≤ 3 * (2 + W.card) := by
  have hcomponent : ∀ tag,
    (toResolved (v.getComponent tag)).elim 0 Resolved.weight ≤ 2 + W.card := by
    intro tag
    cases hr : toResolved (v.getComponent tag) with
    | none => simp
    | some r => exact Resolved.weight_le (h tag r hr)
  have hn := hcomponent .n
  have he := hcomponent .e
  have hd := hcomponent .d
  simp only [getComponent] at hn he hd
  simp only [weight]
  omega

/-- Joining raises the weight, unless it changes nothing. -/
theorem Value.weight_join {v v' : Value V} (h : v.isResolved = true) (h' : v'.isResolved = true) :
    v.weight ≤ (v.join v').weight ∧ (v'.lessequal v = false → v.weight < (v.join v').weight) := by
  have hcomponent : ∀ tag, (toResolved (v.getComponent tag)).elim 0 Resolved.weight ≤
      (toResolved ((v.join v').getComponent tag)).elim 0 Resolved.weight ∧
      (Symbolic.lessequal (v'.getComponent tag) (v.getComponent tag) = false →
        (toResolved (v.getComponent tag)).elim 0 Resolved.weight <
          (toResolved ((v.join v').getComponent tag)).elim 0 Resolved.weight) := by
    intro tag
    obtain ⟨r, hr⟩ := isSome_iff_exists.1 (isResolved_iff.1 h tag)
    obtain ⟨r', hr'⟩ := isSome_iff_exists.1 (isResolved_iff.1 h' tag)
    rw [getComponent_join, join_resolved _ _ r r' hr hr', lessequal_resolved _ _ r' r hr' hr, hr]
    exact ⟨r.weight_le_join r', Resolved.weight_lt_join⟩
  obtain ⟨hn, hn'⟩ := hcomponent .n
  obtain ⟨he, he'⟩ := hcomponent .e
  obtain ⟨hd, hd'⟩ := hcomponent .d
  simp only [getComponent] at hn hn' he he' hd hd'
  refine ⟨by simp only [weight]; omega, fun hnot => ?_⟩
  simp only [lessequal, Bool.and_eq_false_iff] at hnot
  simp only [weight]
  rcases hnot with (hnot | hnot) | hnot
  · have hlt := hn' hnot; omega
  · have hlt := he' hnot; omega
  · have hlt := hd' hnot; omega

namespace FixEnv

variable {env env₀ : FixEnv V ν} {W : Witnesses ω}

/-- What holds in every round: the entries keep their functions, and the approximations are
resolved. -/
structure Inv (env₀ : FixEnv V ν) (W : Witnesses ω) (env : FixEnv V ν) : Prop where
  infos : ∀ f : ν, (env[f]?).map (·.funcInfo) = (env₀[f]?).map (·.funcInfo)
  size : env.toList.length = env₀.toList.length
  closed : ∀ (f : ν) d, env[f]? = some d → ∀ n ∈ d.funcInfo.value.getUnresolvedNames,
    (env[n]?).isSome
  resolved : ∀ (f : ν) d, env[f]? = some d → d.approx.isResolved = true
  witnesses : ∀ (f : ν) d, env[f]? = some d → d.approx.WitnessesIn W ∧
    ∀ tag, LawfulSymbolic.witnesses (d.funcInfo.value.getComponent tag) ⊆ W
  kept : ∀ (f : ν) d, env[f]? = some d → d.funcInfo.value.isResolved = true →
    ∀ ρ tag, d.approx.meaning ρ tag = d.funcInfo.value.meaning ρ tag

theorem Inv.resolvedLookup (h : Inv env₀ W env) : ResolvedLookup env.lookup := by
  intro x w hx
  simp only [lookup, map_eq_some_iff] at hx
  obtain ⟨d, hd, rfl⟩ := hx
  exact Value.isResolved_iff.1 (h.resolved x.1 d hd) x.2

variable {d : EnvData V ν}

theorem Inv.apply_isResolved (h : Inv env₀ W env)
    (hd : env[f]? = some d) : (d.funcInfo.value.apply env.lookup).isResolved = true := by
  rw [← Value.names_eq_empty, Finset.eq_empty_iff_forall_notMem]
  intro n hn
  obtain ⟨hn, tag, hnone⟩ := Value.names_apply h.resolvedLookup hn
  obtain ⟨d', hd'⟩ := isSome_iff_exists.1 (h.closed f d hd n hn)
  simp [lookup, hd'] at hnone

theorem Inv.step_isResolved (h : Inv env₀ W env)
    (hd : env[f]? = some d) : (stepApprox env d).isResolved = true :=
  Value.join_isResolved (h.resolved f d hd) (h.apply_isResolved hd)

/-- One round fails no assertion. -/
theorem Inv.checkRound_eq (h : Inv env₀ W env) : checkRound env = .ok (env.toList.any fun p =>
    !(p.2.funcInfo.value.apply env.lookup).lessequal p.2.approx) := by
  have hrun : ∀ (l : List (ν × EnvData V ν)) (b : Bool), (∀ p ∈ l, p ∈ env.toList) →
      l.foldlM (fun changed p => do
        let v' ← applyExn p.2.funcInfo.value env
        assertUnit v'.isResolved
        assertUnit (stepApprox env p.2).isResolved
        pure (changed || !v'.lessequal p.2.approx)) b =
      (.ok (b || l.any fun p => !(p.2.funcInfo.value.apply env.lookup).lessequal p.2.approx) :
        Except ExnUnit Bool) := by
    intro l
    induction l with
    | nil =>
      intro b _
      simp
      rfl
    | cons p l ih =>
      intro b hsub
      have hp : env[p.1]? = some p.2 := Lib.mem_toList.1 (hsub p (by simp))
      have happly : applyExn p.2.funcInfo.value env =
          .ok (p.2.funcInfo.value.apply env.lookup) := if_pos (h.closed p.1 p.2 hp)
      rw [List.foldlM_cons, happly]
      change (do
        assertUnit (p.2.funcInfo.value.apply env.lookup).isResolved
        assertUnit (stepApprox env p.2).isResolved
        pure (b || !(p.2.funcInfo.value.apply env.lookup).lessequal p.2.approx)) >>= _ = _
      rw [assertUnit_true (h.apply_isResolved hp), assertUnit_true (h.step_isResolved hp)]
      change l.foldlM _ (b || _) = _
      rw [ih _ fun q hq => hsub q (by simp [hq]), List.any_cons, Bool.or_assoc]
  exact (hrun env.toList false fun p hp => hp).trans (by simp)

/-- The environment after a round. -/
def next (env : FixEnv V ν) : FixEnv V ν :=
  env.map fun _ d => { d with approx := stepApprox env d }

theorem getElem?_next (env : FixEnv V ν) (f : ν) :
    (next env)[f]? = (env[f]?).map fun d => { d with approx := stepApprox env d } := by
  rw [next, Std.ExtTreeMap.getElem?_map]

theorem toList_next (env : FixEnv V ν) :
    (next env).toList = env.toList.map fun p =>
      (p.1, { p.2 with approx := stepApprox env p.2 }) := by
  rw [next, Std.ExtTreeMap.toList_map]

/-- The meaning of an entry whose function is resolved does not change. -/
theorem Inv.meaning_step (h : Inv env₀ W env) (hd : env[f]? = some d)
    (hresolved : d.funcInfo.value.isResolved = true) (ρ : Var ν → Level) (tag : Tag) :
    (stepApprox env d).meaning ρ tag = d.funcInfo.value.meaning ρ tag := by
  rw [stepApprox, Value.meaning_join (h.resolved f d hd) (h.apply_isResolved hd),
    h.kept f d hd hresolved, Value.meaning_apply h.resolvedLookup, max_eq_left]
  exact le_of_eq (Value.meaning_resolved hresolved tag)

theorem Inv.next (h : Inv env₀ W env) : Inv env₀ W (next env) where
  infos f := by
    rw [getElem?_next, Option.map_map]
    exact h.infos f
  size := by
    rw [toList_next, List.length_map]
    exact h.size
  closed f d' hd' n hn := by
    rw [getElem?_next, map_eq_some_iff] at hd'
    obtain ⟨d, hd, rfl⟩ := hd'
    rw [getElem?_next, Option.isSome_map]
    exact h.closed f d hd n hn
  resolved f d' hd' := by
    rw [getElem?_next, map_eq_some_iff] at hd'
    obtain ⟨d, hd, rfl⟩ := hd'
    exact h.step_isResolved hd
  witnesses f d' hd' := by
    rw [getElem?_next, map_eq_some_iff] at hd'
    obtain ⟨d, hd, rfl⟩ := hd'
    obtain ⟨happrox, hvalue⟩ := h.witnesses f d hd
    refine ⟨fun tag r hr => ?_, hvalue⟩
    obtain ⟨r1, hr1⟩ := isSome_iff_exists.1 (Value.isResolved_iff.1 (h.resolved f d hd) tag)
    obtain ⟨r2, hr2⟩ := isSome_iff_exists.1
      (Value.isResolved_iff.1 (h.apply_isResolved hd) tag)
    dsimp only [stepApprox] at hr
    rw [Value.getComponent_join, join_resolved _ _ r1 r2 hr1 hr2] at hr
    obtain rfl := Option.some.inj hr
    rw [Resolved.witnesses_join]
    refine Finset.union_subset (happrox tag r1 hr1) ?_
    cases r2 with
    | bot | safe => exact empty_subset _
    | top w =>
      rw [Value.getComponent_apply] at hr2
      exact (witnesses_apply _ _ w h.resolvedLookup hr2).trans (hvalue tag)
  kept f d' hd' hresolved ρ tag := by
    rw [getElem?_next, map_eq_some_iff] at hd'
    obtain ⟨d, hd, rfl⟩ := hd'
    exact h.meaning_step hd hresolved ρ tag

/-- The sum of the weights. -/
def weight (env : FixEnv V ν) : ℕ := (env.toList.map fun p => p.2.approx.weight).sum

theorem Inv.weight_le (h : Inv env₀ W env) :
    weight env ≤ env₀.toList.length * (3 * (2 + W.card)) := by
  rw [← h.size, weight]
  refine (List.sum_le_card_nsmul _ (3 * (2 + W.card)) fun n hn => ?_).trans (by simp)
  obtain ⟨p, hp, rfl⟩ := List.mem_map.1 hn
  exact Value.weight_le (h.witnesses p.1 p.2 (Lib.mem_toList.1 hp)).1

theorem Inv.weight_lt (h : Inv env₀ W env) (hchanged : (env.toList.any fun p =>
    !(p.2.funcInfo.value.apply env.lookup).lessequal p.2.approx) = true) :
    weight env < weight (FixEnv.next env) := by
  rw [weight, weight, toList_next, List.map_map]
  rw [List.any_eq_true] at hchanged
  obtain ⟨p, hp, hnot⟩ := hchanged
  have hentry : ∀ q ∈ env.toList, env[q.1]? = some q.2 := fun q hq => Lib.mem_toList.1 hq
  refine List.sum_lt_sum _ _ (fun q hq => ?_) ⟨p, hp, ?_⟩
  · exact (Value.weight_join (h.resolved _ _ (hentry q hq)) (h.apply_isResolved (hentry q hq))).1
  · exact (Value.weight_join (h.resolved _ _ (hentry p hp)) (h.apply_isResolved (hentry p hp))).2
      (by simpa using hnot)

/-- What the iteration ends with: resolved values, and no function is above its own. -/
structure Fixed (env₀ env : FixEnv V ν) : Prop where
  infos : ∀ f : ν, (env[f]?).map (·.funcInfo) = (env₀[f]?).map (·.funcInfo)
  resolved : ∀ (f : ν) d, env[f]? = some d → d.approx.isResolved = true
  kept : ∀ (f : ν) d, env[f]? = some d → d.funcInfo.value.isResolved = true →
    ∀ ρ tag, d.approx.meaning ρ tag = d.funcInfo.value.meaning ρ tag
  below : ∀ ρ, (∀ (f : ν) d, env[f]? = some d → ∀ tag, ρ (f, tag) = d.approx.meaning ρ tag) →
    ∀ (f : ν) d, env[f]? = some d → ∀ tag, d.funcInfo.value.meaning ρ tag ≤ d.approx.meaning ρ tag

theorem Inv.fixed (h : Inv env₀ W env) (hround : checkRound env = .ok false) :
    Fixed env₀ (FixEnv.next env) where
  infos := h.next.infos
  resolved := h.next.resolved
  kept := h.next.kept
  below ρ hρ f d' hd' tag := by
    rw [getElem?_next, map_eq_some_iff] at hd'
    obtain ⟨d, hd, rfl⟩ := hd'
    rw [h.checkRound_eq] at hround
    have hany := Except.ok.inj hround
    rw [List.any_eq_false] at hany
    -- in the last round nothing has changed
    have hle : ∀ (g : ν) dg, env[g]? = some dg → ∀ tag,
        (dg.funcInfo.value.apply env.lookup).meaning ρ tag ≤ dg.approx.meaning ρ tag := by
      intro g dg hg tag
      have hnot := hany (g, dg) (Lib.mem_toList.2 hg)
      exact Value.meaning_le_of_lessequal (h.apply_isResolved hg) (h.resolved g dg hg)
        (by simpa using hnot) tag
    have hstep : ∀ (g : ν) dg, env[g]? = some dg → ∀ tag,
        (stepApprox env dg).meaning ρ tag = dg.approx.meaning ρ tag := by
      intro g dg hg tag
      rw [stepApprox, Value.meaning_join (h.resolved g dg hg) (h.apply_isResolved hg),
        max_eq_left (hle g dg hg tag)]
    have hsame : d.funcInfo.value.meaning ρ tag =
        (d.funcInfo.value.apply env.lookup).meaning ρ tag := by
      rw [Value.meaning_apply h.resolvedLookup]
      refine Value.meaning_congr (fun x hx => ?_) tag
      obtain ⟨dx, hdx⟩ := isSome_iff_exists.1 (h.closed f d hd x.1 hx)
      have hx' := hρ x.1 _ (by rw [getElem?_next, hdx]; rfl) x.2
      rw [hstep x.1 dx hdx] at hx'
      rw [withLookup, lookup, hdx]
      exact hx'
    rw [hstep f d hd, hsame]
    exact hle f d hd tag

/-- `fixpoint` iterates to an end. -/
theorem Inv.loop_halts (h : Inv env₀ W env₀) : Halts (fun fuel => loop fuel env₀) (Fixed env₀) := by
  have hhalts := Lib.halts_loop loop checkRound FixEnv.next (fun fuel env => rfl) (Inv env₀ W)
    weight (env₀.toList.length * (3 * (2 + W.card)))
    (fun env henv => ⟨_, henv.checkRound_eq, henv.next, henv.weight_lt⟩)
    (fun env henv => henv.weight_le) h
  refine hhalts.mono ?_
  rintro _ ⟨env, henv, hround, rfl⟩
  exact henv.fixed hround

end FixEnv

/-- The values of the environment are put into the unit. -/
theorem updates_eq {env : FixEnv V ν} (hname : ∀ (f : ν) d, env[f]? = some d → d.funcInfo.name = f)
    (hresolved : ∀ (f : ν) d, env[f]? = some d → d.approx.isResolved = true) :
    ∃ u', env.toList.foldlM (fun (u : UnitInfo V ν) p => do
        assertUnit p.2.approx.isResolved
        pure (u.update p.2.funcInfo p.2.approx)) u = .ok u' ∧
      (∀ (f : ν) d, env[f]? = some d → u'[f]? = some { d.funcInfo with value := d.approx }) ∧
      ∀ f : ν, env[f]? = none → u'[f]? = u[f]? := by
  have hfold : Lib.Outcome (fun _ => False) (env.toList.foldlM (fun (u : UnitInfo V ν) p => do
      assertUnit p.2.approx.isResolved
      pure (u.update p.2.funcInfo p.2.approx)) u) fun u' =>
        (∀ p : ν × EnvData V ν, p ∈ env.toList →
          u'[p.1]? = some { p.2.funcInfo with value := p.2.approx }) ∧
        ∀ f : ν, (∀ p ∈ env.toList, p.1 ≠ f) → u'[f]? = u[f]? := by
    refine Lib.Outcome.foldlM (I := fun done (u' : UnitInfo V ν) =>
      (∀ p : ν × EnvData V ν, p ∈ done →
        u'[p.1]? = some { p.2.funcInfo with value := p.2.approx }) ∧
      ∀ f : ν, (∀ p ∈ done, p.1 ≠ f) → u'[f]? = u[f]?) ?_ ?_
    · exact ⟨fun _ h => (nomatch h), fun _ _ => rfl⟩
    rintro done p rest u' hl ⟨hdone, hother⟩
    have hp : env[p.1]? = some p.2 := Lib.mem_toList.1 (by rw [hl]; simp)
    rw [assertUnit_true (hresolved _ _ hp)]
    refine .pure ⟨fun q hq => ?_, fun f hf => ?_⟩
    · rw [UnitInfo.update, hname _ _ hp, Lib.getElem?_insert]
      rw [List.mem_append, List.mem_singleton] at hq
      rcases hq with hq | rfl
      · rw [if_neg (Ne.symm (Lib.not_mem_done hl q hq))]; exact hdone q hq
      · simp [hname _ _ hp]
    · rw [UnitInfo.update, hname _ _ hp, Lib.getElem?_insert, if_neg (hf p (by simp))]
      exact hother f fun q hq => hf q (by simp [hq])
  obtain ⟨u', hu', hdone, hother⟩ := hfold.exists_ok
  refine ⟨u', hu', fun f d hd => hdone (f, d) (Lib.mem_toList.2 hd), fun f hf => ?_⟩
  refine hother f fun p hp heq => ?_
  rw [← heq, Lib.mem_toList.1 (show (p.1, p.2) ∈ env.toList from hp)] at hf
  cases hf

/-- `fixpoint` resolves the functions of the environment, and leaves the others. -/
theorem fixpoint_halts {env₀ : FixEnv V ν} (hinv : FixEnv.Inv env₀ W env₀)
    (hu : ∀ (f : ν) d, env₀[f]? = some d → u[f]? = some d.funcInfo ∧ d.funcInfo.name = f) :
    Halts (fun fuel => fixpoint fuel env₀ u) fun u' => Refines u u' ∧
      (∀ (f : ν) d, env₀[f]? = some d → ∃ info', u'[f]? = some info' ∧ info'.name = f ∧
        info'.value.isResolved = true) ∧
      ∀ f : ν, env₀[f]? = none → u'[f]? = u[f]? := by
  refine hinv.loop_halts.bind fun env henv => ?_
  -- the entries are those of the start
  have hentry : ∀ (f : ν) d, env[f]? = some d → u[f]? = some d.funcInfo ∧ d.funcInfo.name = f := by
    intro f d hd
    have hinfos := henv.infos f
    rw [hd, eq_comm, Option.map_some, map_eq_some_iff] at hinfos
    obtain ⟨d₀, hd₀, hsame⟩ := hinfos
    rw [← hsame]
    exact hu f d₀ hd₀
  have hdomain : ∀ f : ν, env[f]? = none ↔ env₀[f]? = none := by
    intro f
    have hinfos := henv.infos f
    cases h : env[f]? <;> cases h₀ : env₀[f]? <;> simp [h, h₀] at hinfos ⊢
  obtain ⟨u', hu', hsome, hnone⟩ :=
    updates_eq (u := u) (fun f d hd => (hentry f d hd).2) henv.resolved
  refine .of_ok hu' ⟨⟨fun f => ?_, fun ρ hρ f info hinfo hres tag => ?_, ?_, ?_⟩, ?_, ?_⟩
  · cases h : env[f]? with
    | none => rw [hnone f h]
    | some d => rw [hsome f d h, (hentry f d h).1]; rfl
  · cases h : env[f]? with
    | none => rw [← hnone f h] at hinfo; exact hρ f info hinfo hres tag
    | some d =>
      rw [(hentry f d h).1] at hinfo
      cases hinfo
      rw [hρ f _ (hsome f d h) (henv.resolved f d h) tag]
      exact henv.kept f d h hres ρ tag
  · intro f info info' hinfo hinfo'
    cases h : env[f]? with
    | none =>
      rw [hnone f h, hinfo] at hinfo'
      cases hinfo'
      exact Finset.Subset.refl _
    | some d =>
      rw [hsome f d h] at hinfo'
      cases hinfo'
      rw [Value.names_eq_empty.2 (henv.resolved f d h)]
      exact empty_subset _
  · intro f info info' hinfo hinfo' ρ hρ tag
    cases h : env[f]? with
    | none =>
      rw [hnone f h, hinfo] at hinfo'
      cases hinfo'
      exact le_refl _
    | some d =>
      rw [hsome f d h] at hinfo'
      rw [(hentry f d h).1] at hinfo
      cases hinfo'
      cases hinfo
      refine henv.below ρ (fun g dg hg tag => ?_) f d h tag
      exact hρ g _ (hsome g dg hg) (henv.resolved g dg hg) tag
  · intro f d₀ hd₀
    cases h : env[f]? with
    | none =>
      rw [hdomain] at h
      rw [h] at hd₀
      cases hd₀
    | some d => exact ⟨_, hsome f d h, (hentry f d h).2, henv.resolved f d h⟩
  · intro f hf; exact hnone f ((hdomain f).2 hf)

/-- The witnesses of a component, those of `Top` included. -/
def componentWitnesses (v : V) : Witnesses ω :=
  witnesses v ∪ (toResolved v).elim ∅ Resolved.witnesses

def Value.allWitnesses (v : Value V) : Witnesses ω :=
  componentWitnesses v.nor ∪ (componentWitnesses v.exn ∪ componentWitnesses v.div)

theorem Value.component_subset (v : Value V) (tag : Tag) :
    componentWitnesses (v.getComponent tag) ⊆ v.allWitnesses := by
  intro w hw
  rw [allWitnesses, mem_union, mem_union]
  cases tag
  · exact .inl hw
  · exact .inr (.inl hw)
  · exact .inr (.inr hw)

theorem Value.witnesses_subset (v : Value V) (tag : Tag) :
    witnesses (v.getComponent tag) ⊆ v.allWitnesses :=
  Finset.subset_union_left.trans (v.component_subset tag)

theorem Value.witnessesIn_all (v : Value V) : v.WitnessesIn v.allWitnesses := by
  intro tag r hr
  have hsub := v.component_subset tag
  rw [componentWitnesses, hr] at hsub
  exact Finset.subset_union_right.trans hsub

theorem initVal_isResolved : (FixEnv.initVal : Value V).isResolved = true :=
  Value.ofResolved_isResolved _ _ _

theorem initVal_witnessesIn (W : Witnesses ω) : (FixEnv.initVal : Value V).WitnessesIn W := by
  intro tag r hr
  cases tag <;>
    · simp only [FixEnv.initVal, Value.diverges, Value.bot, Value.getComponent,
        toResolved_ofResolved, Option.some.injEq] at hr
      subst hr
      exact empty_subset _

/-- A function that mentions only itself is resolved at once. -/
theorem fixpointSelfRec_halts (hinfo : u[info.name]? = some info) :
    Halts (fun fuel => fixpointSelfRec fuel info u) fun r => Refines u r.1 ∧
      (∃ info', r.1[info.name]? = some info' ∧ info'.name = info.name ∧
        r.2 = info'.value.getUnresolvedNames) ∧
      ∀ f : ν, f ≠ info.name → r.1[f]? = u[f]? := by
  by_cases hself : info.value.getUnresolvedNames = ∅ ∨ info.value.getUnresolvedNames ≠ {info.name}
  · simp only [fixpointSelfRec, if_pos hself]
    exact .pure ⟨.refl u, ⟨info, hinfo, rfl, rfl⟩, fun _ _ => rfl⟩
  simp only [fixpointSelfRec, if_neg hself]
  rw [not_or, not_not] at hself
  obtain ⟨hne, hnames⟩ := hself
  let env₀ : FixEnv V ν := (∅ : FixEnv V ν).insert info.name ⟨info, FixEnv.initVal⟩
  have hget : ∀ (f : ν) d, env₀[f]? = some d → f = info.name ∧ d = ⟨info, FixEnv.initVal⟩ := by
    intro f d hd
    simp only [env₀, Lib.getElem?_insert] at hd
    split at hd
    · rename_i heq
      exact ⟨heq.symm, (Option.some.inj hd).symm⟩
    · simp at hd
  have hself : env₀[info.name]? = some ⟨info, FixEnv.initVal⟩ := by
    simp [env₀]
  have hadd : FixEnv.add info FixEnv.initVal ∅ = .ok env₀ := by
    rw [FixEnv.add, assertUnit_true initVal_isResolved]
    rfl
  rw [hadd]
  have hinv : FixEnv.Inv env₀ info.value.allWitnesses env₀ := by
    refine ⟨fun _ => rfl, rfl, ?_, ?_, ?_, ?_⟩
    · intro f d hd n hn
      obtain ⟨-, rfl⟩ := hget f d hd
      rw [hnames, Finset.mem_singleton] at hn
      rw [hn, hself]
      rfl
    · intro f d hd
      obtain ⟨-, rfl⟩ := hget f d hd
      exact initVal_isResolved
    · intro f d hd
      obtain ⟨-, rfl⟩ := hget f d hd
      exact ⟨initVal_witnessesIn _, Value.witnesses_subset _⟩
    intro f d hd hres
    obtain ⟨-, rfl⟩ := hget f d hd
    exact absurd (Value.names_eq_empty.2 hres) hne
  refine (fixpoint_halts (u := u) hinv ?_).bind ?_
  · intro f d hd
    obtain ⟨rfl, rfl⟩ := hget f d hd
    exact ⟨hinfo, rfl⟩
  rintro u' ⟨href, hresolved, hother⟩
  obtain ⟨info', hinfo', hname, hres⟩ := hresolved info.name _ hself
  refine .pure ⟨href, ⟨info', hinfo', hname, (Value.names_eq_empty.2 hres).symm⟩, ?_⟩
  intro f hf
  refine hother f ?_
  simp [env₀, Ne.symm hf]

end Oxcaml.Backend.ZeroAlloc
