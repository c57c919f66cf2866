/-
Oxcaml.Flambda2.AliasesTheorems — one step of the alias tracker.

`Inv` is the invariant of the tracker: the three maps are inverse to each other,
canonical elements are not aliases, and none of the aliases is earlier than its
canonical element. The stars of the tracker are `pos`. Adding an alias between two
canonical elements moves one star under the other (`Lib.Demotes`), or is `Bottom`
for two constants (§4). Only a composition that is not defined fails.
-/
import Oxcaml.Flambda2.Aliases
import Oxcaml.Lib.Outcome
import Mathlib.Tactic
import Mathlib.Data.Prod.Lex
import Mathlib.Order.WithBot

namespace Oxcaml.Flambda2.Aliases

open Option (ne_none_iff_exists')
open Lib (getElem?_insert)

set_option linter.all false

open Lib (Labels LawfulLabels Outcome Entails Agrees Demotes)
open Lib.Labels (unit inverse compose)

variable {ν κ C U : Type} [LinearOrder ν] [LinearOrder κ] [DecidableEq C] [Labels C] [LinearOrder U]

/-! ## §1 Definition times -/

namespace Env

variable (env : Env ν U)

/-- Symbols are first, and all at the same time. -/
def nameKey (n : ν) : WithBot (ℕ ×ₗ U ×ₗ ℕ) :=
  if env.isSymbol n then ⊥
  else ↑(toLex (env.bindingTime n, toLex (env.compilationUnit n, (env.bindingTimeResolver n).1)))

/-- Constants are before the names. -/
def key : Simple ν κ C → WithBot (WithBot (ℕ ×ₗ U ×ₗ ℕ))
  | .const _ => ⊥
  | .name n _ => ↑(env.nameKey n)

theorem nameDefinedEarlier_iff (n m : ν) :
    env.nameDefinedEarlier n m = true ↔ env.nameKey n < env.nameKey m := by
  rw [nameDefinedEarlier, nameKey, nameKey]
  by_cases hn : env.isSymbol n = true <;> by_cases hm : env.isSymbol m = true
  · simp [hn, hm]
  · have hne : n ≠ m := fun h => hm (h ▸ hn); simp [hn, hm, hne]
  · simp [hn, hm]
  by_cases hnm : n = m
  · simp [hnm]
  · simp only [hn, hm, Bool.false_eq_true, if_false, WithBot.coe_lt_coe, Prod.Lex.toLex_lt_toLex]
    grind

theorem definedEarlier_iff (a b : Simple ν κ C) :
    env.definedEarlier a b = true ↔ env.key a < env.key b := by
  cases a <;> cases b <;> simp [definedEarlier, key, nameDefinedEarlier_iff]

/-- The name mode of a name. -/
def mode (n : ν) : NameMode := env.computeNameModeUnscoped (.name n () : Simple ν Unit Unit)

end Env

/-! ## §2 Results -/

/-- The errors of a composition that is not defined. -/
def Undefined (e : Exn) : Prop := e = .composition ∨ e = .cannotApplyCoercion

theorem composeExn_outcome (c d : C) :
    Outcome Undefined (composeExn c d) fun e => compose c d = some e := by
  rw [composeExn]
  split
  · rename_i e h
    exact .pure h
  · exact .inl rfl

theorem assert_true {b : Bool} (h : b = true) : assert b = .ok () := by
  rw [assert, if_pos h]
  rfl

/-! ## §3 Alias sets -/

namespace MapToCanonical

theorem mapValues_outcome (map : MapToCanonical ν C) (K : C) :
    Outcome Undefined (mapValues (composeExn · K) map) fun r =>
      (∀ (n : ν) (k : C), map[n]? = some k → ∃ k', r[n]? = some k' ∧ compose k K = some k') ∧
        ∀ n : ν, map[n]? = none → r[n]? = none := by
  refine (Lib.foldlM_insert (f := fun p : ν × C => composeExn p.2 K)
    map (fun p _ => composeExn_outcome p.2 K) ∅).mono fun r ⟨hsome, hnone⟩ => ⟨hsome, ?_⟩
  intro n hn
  simpa using hnone n hn

/-- Maps without a common name are united. -/
theorem union_outcome {map1 map2 : MapToCanonical ν C}
    (hdisjoint : ∀ n : ν, map2[n]? ≠ none → map1[n]? = none) :
    ∃ r, union map1 map2 = .ok r ∧ ∀ (n : ν) (k : C),
      r[n]? = some k ↔ map1[n]? = some k ∨ map2[n]? = some k := by
  have hfold : Outcome (fun _ => False) (union map1 map2) fun r => ∀ (n : ν) (k : C),
      r[n]? = some k ↔ map1[n]? = some k ∨ (n, k) ∈ map2.toList := by
    refine Outcome.foldlM (I := fun done (r : MapToCanonical ν C) => ∀ (n : ν) (k : C),
      r[n]? = some k ↔ map1[n]? = some k ∨ (n, k) ∈ done) (by simp) ?_
    intro done p rest r hl hr
    have hp : map2[p.1]? = some p.2 := Lib.mem_toList.1 (by rw [hl]; simp)
    have hnone : r[p.1]? = none := by
      cases h : r[p.1]? with
      | none => rfl
      | some k =>
        rcases (hr p.1 k).1 h with h1 | h1
        · rw [hdisjoint p.1 (by rw [hp]; simp)] at h1; cases h1
        · exact absurd rfl (Lib.not_mem_done hl (p.1, k) h1)
    rw [hnone]
    refine .pure fun n k => ?_
    rw [getElem?_insert, List.mem_append]
    by_cases hn : p.1 = n
    · subst hn
      have hmap1 := hdisjoint p.1 (by rw [hp]; simp)
      have hdone : ∀ k, (p.1, k) ∉ done := fun k hk => Lib.not_mem_done hl (p.1, k) hk rfl
      simp [hmap1, hdone, Prod.ext_iff, eq_comm]
    rw [if_neg hn, hr]
    have hne : ∀ k, (n, k) ≠ p := fun k h => hn (congrArg Prod.fst h).symm
    simp [hne]
  cases hunion : union map1 map2 with
  | error e => rw [hunion] at hfold; exact hfold.elim
  | ok r =>
    rw [hunion] at hfold
    refine ⟨r, rfl, fun n k => ?_⟩
    rw [hfold n k, Lib.mem_toList]

end MapToCanonical

namespace AliasesOfCanonicalElement

/-- The element is bound to the coercion under the name mode. -/
def At (t : AliasesOfCanonicalElement ν C) (mode : NameMode) (n : ν) (k : C) : Prop :=
  ∃ elts, t.aliases[mode]? = some elts ∧ elts[n]? = some k

/-- Every element is under its own name mode. -/
def WF (env : Env ν U) (t : AliasesOfCanonicalElement ν C) : Prop :=
  ∀ mode n k, t.At mode n k ↔ t.all[n]? = some k ∧ mode = env.mode n

section

variable {env : Env ν U} {t t1 t2 : AliasesOfCanonicalElement ν C} {K : C} {d : ν}

theorem wf_empty : (empty : AliasesOfCanonicalElement ν C).WF env := by
  intro mode n k
  simp [At, empty]

theorem compose_outcome (ht : t.WF env) (K : C) :
    Outcome Undefined (t.compose K) fun r => r.WF env ∧
      (∀ (n : ν) (k : C), t.all[n]? = some k → ∃ k',
        r.all[n]? = some k' ∧ Labels.compose k K = some k') ∧
        ∀ n : ν, t.all[n]? = none → r.all[n]? = none := by
  have haliases := Lib.foldlM_insert
    (f := fun p : NameMode × MapToCanonical ν C => MapToCanonical.mapValues (composeExn · K) p.2)
    t.aliases (fun p _ => MapToCanonical.mapValues_outcome p.2 K) ∅
  refine haliases.bind fun aliases ⟨hsome, hnone⟩ => ?_
  refine (MapToCanonical.mapValues_outcome t.all K).bind fun all ⟨hall, hall'⟩ =>
    .pure ⟨?_, hall, hall'⟩
  intro mode n k'
  constructor
  · rintro ⟨elts', helts', hn⟩
    cases helts : t.aliases[mode]? with
    | none => rw [hnone mode helts] at helts'; simp at helts'
    | some elts =>
      obtain ⟨elts'', helts'', hvalues, hvalues'⟩ := hsome mode elts helts
      obtain rfl : elts'' = elts' := Option.some.inj (helts''.symm.trans helts')
      cases hk : elts[n]? with
      | none => rw [hvalues' n hk] at hn; cases hn
      | some k =>
        obtain ⟨k'', hk'', hcompose⟩ := hvalues n k hk
        obtain rfl : k'' = k' := Option.some.inj (hk''.symm.trans hn)
        obtain ⟨hin, hmode⟩ := (ht mode n k).1 ⟨elts, helts, hk⟩
        obtain ⟨k3, hk3, hcompose'⟩ := hall n k hin
        obtain rfl : k3 = k'' := Option.some.inj (hcompose'.symm.trans hcompose)
        exact ⟨hk3, hmode⟩
  rintro ⟨hn, hmode⟩
  cases hk : t.all[n]? with
  | none => rw [hall' n hk] at hn; cases hn
  | some k =>
    obtain ⟨k'', hk'', hcompose⟩ := hall n k hk
    obtain rfl : k'' = k' := Option.some.inj (hk''.symm.trans hn)
    obtain ⟨elts, helts, hin⟩ := (ht mode n k).2 ⟨hk, hmode⟩
    obtain ⟨elts', helts', hvalues, -⟩ := hsome mode elts helts
    obtain ⟨k3, hk3, hcompose'⟩ := hvalues n k hin
    obtain rfl : k3 = k'' := Option.some.inj (hcompose'.symm.trans hcompose)
    exact ⟨elts', helts', hk3⟩

theorem foldlM_union (ht1 : t1.WF env) (ht2 : t2.WF env)
    (hdisjoint : ∀ n : ν, t2.all[n]? ≠ none → t1.all[n]? = none) :
    Outcome (fun _ : Exn => False) (t2.aliases.toList.foldlM (fun acc p =>
    match acc[p.1]? with
    | none => pure (acc.insert p.1 p.2)
    | some elts1 => do pure (acc.insert p.1 (← MapToCanonical.union elts1 p.2))) t1.aliases)
    fun r => (∀ p ∈ t2.aliases.toList, ∃ elts, r[p.1]? = some elts ∧ ∀ (n : ν) (k : C),
        elts[n]? = some k ↔ t1.At p.1 n k ∨ p.2[n]? = some k) ∧
      ∀ mode : NameMode, (∀ p ∈ t2.aliases.toList, p.1 ≠ mode) → r[mode]? =
        t1.aliases[mode]? := by
  have hinner : ∀ {mode : NameMode} {elts1 elts2 : MapToCanonical ν C},
      t1.aliases[mode]? = some elts1 → t2.aliases[mode]? = some elts2 →
        ∀ n : ν, elts2[n]? ≠ none → elts1[n]? = none := by
    intro mode elts1 elts2 h1 h2 n hn
    obtain ⟨k, hk⟩ := ne_none_iff_exists'.1 hn
    have hin := ((ht2 mode n k).1 ⟨elts2, h2, hk⟩).1
    cases hk1 : elts1[n]? with
    | none => rfl
    | some k1 =>
      have hin1 := ((ht1 mode n k1).1 ⟨elts1, h1, hk1⟩).1
      rw [hdisjoint n (by rw [hin]; simp)] at hin1
      cases hin1
  refine Outcome.foldlM (I := fun done (r : Std.ExtTreeMap NameMode (MapToCanonical ν C)) =>
    (∀ p : NameMode × MapToCanonical ν C, p ∈ done → ∃ elts, r[p.1]? = some elts ∧
      ∀ (n : ν) (k : C), elts[n]? = some k ↔ t1.At p.1 n k ∨ p.2[n]? = some k) ∧
    ∀ mode : NameMode, (∀ p ∈ done, p.1 ≠ mode) → r[mode]? = t1.aliases[mode]?) ?_ ?_
  · exact ⟨fun _ h => (nomatch h), fun _ _ => rfl⟩
  rintro done p rest r hl ⟨hdone, hother⟩
  have hp : t2.aliases[p.1]? = some p.2 := Lib.mem_toList.1 (by rw [hl]; simp)
  have hold : r[p.1]? = t1.aliases[p.1]? := hother p.1 (Lib.not_mem_done hl)
  have hinsert : ∀ elts : MapToCanonical ν C,
      (∀ (n : ν) (k : C), elts[n]? = some k ↔ t1.At p.1 n k ∨ p.2[n]? = some k) →
      (∀ q ∈ done ++ [p], ∃ elts', (r.insert p.1 elts)[q.1]? = some elts' ∧
        ∀ (n : ν) (k : C), elts'[n]? = some k ↔ t1.At q.1 n k ∨ q.2[n]? = some k) ∧
      ∀ mode : NameMode, (∀ q ∈ done ++ [p], q.1 ≠ mode) →
        (r.insert p.1 elts)[mode]? = t1.aliases[mode]? := by
    intro elts helts
    refine ⟨fun q hq => ?_, fun mode hmode => ?_⟩
    · simp only [List.mem_append, List.mem_singleton] at hq
      rcases hq with hq | rfl
      · obtain ⟨elts', helts', hspec⟩ := hdone q hq
        refine ⟨elts', ?_, hspec⟩
        rw [getElem?_insert, if_neg (Ne.symm (Lib.not_mem_done hl q hq)), helts']
      · exact ⟨elts, by rw [getElem?_insert, if_pos rfl], helts⟩
    · rw [getElem?_insert, if_neg (hmode p (by simp))]
      exact hother mode fun q hq => hmode q (by simp [hq])
  rw [hold]
  cases h1 : t1.aliases[p.1]? with
  | none => refine .pure (hinsert p.2 fun n k => ?_); simp [At, h1]
  | some elts1 =>
    obtain ⟨elts, hunion, hspec⟩ := MapToCanonical.union_outcome (hinner h1 hp)
    dsimp only
    rw [hunion]
    refine .pure (hinsert elts fun n k => ?_)
    rw [hspec]
    simp [At, h1]


/-- Sets without a common element are united. -/
theorem union_outcome (ht1 : t1.WF env) (ht2 : t2.WF env)
    (hdisjoint : ∀ n : ν, t2.all[n]? ≠ none → t1.all[n]? = none) :
    ∃ r, t1.union t2 = .ok r ∧ r.WF env ∧
      ∀ (n : ν) (k : C), r.all[n]? = some k ↔ t1.all[n]? = some k ∨ t2.all[n]? = some k := by
  obtain ⟨aliases, hresult, hdone, hother⟩ := (foldlM_union ht1 ht2 hdisjoint).exists_ok
  obtain ⟨all, hall, hallspec⟩ := MapToCanonical.union_outcome hdisjoint
  refine ⟨⟨aliases, all⟩, ?_, ?_, hallspec⟩
  · refine (congrArg (· >>= _) hresult).trans ?_
    change (MapToCanonical.union t1.all t2.all >>= _) = _
    rw [hall]
    rfl
  intro mode n k
  have hat : At ⟨aliases, all⟩ mode n k ↔ t1.At mode n k ∨ t2.At mode n k := by
    cases h2 : t2.aliases[mode]? with
    | none =>
      have hsame := hother mode fun p hp heq => by
        rw [← heq, Lib.mem_toList.1 (show (p.1, p.2) ∈ t2.aliases.toList from hp)] at h2
        cases h2
      simp [At, hsame, h2]
    | some elts2 =>
      obtain ⟨elts, helts, hspec⟩ := hdone (mode, elts2) (Lib.mem_toList.2 h2)
      simp [At, helts, h2] at hspec ⊢
      exact hspec n k
  rw [hat, ht1 mode n k, ht2 mode n k, hallspec, or_and_right]

theorem add_outcome (light : Bool) (ht : t.WF env) (hd : t.all[d]? = none) (K : C) :
    ∃ r, t.add light d K (env.mode d) = .ok r ∧ r.WF env ∧
      ∀ n : ν, r.all[n]? = if d = n then some K else t.all[n]? := by
  have hmem : t.mem d = false := by
    rw [mem, Std.ExtTreeMap.contains_eq_isSome_getElem?, hd]
    rfl
  have hnone : ∀ {elts : MapToCanonical ν C}, t.aliases[env.mode d]? = some elts →
      elts[d]? = none := by
    intro elts helts
    cases hk : elts[d]? with
    | none => rfl
    | some k =>
      have h := ((ht _ d k).1 ⟨elts, helts, hk⟩).1
      rw [hd] at h
      cases h
  have hinsert : ∀ elts : MapToCanonical ν C,
      (∀ (n : ν) (k : C), elts[n]? = some k ↔ (d = n ∧ K = k) ∨ t.At (env.mode d) n k) →
      WF env ⟨t.aliases.insert (env.mode d) elts, t.all.insert d K⟩ := by
    intro elts helts mode n k
    have hat : At ⟨t.aliases.insert (env.mode d) elts, t.all.insert d K⟩ mode n k ↔
        (env.mode d = mode ∧ d = n ∧ K = k) ∨ t.At mode n k := by
      simp only [At, getElem?_insert]
      by_cases hmode : env.mode d = mode
      · subst hmode
        simp only [if_true, Option.some.injEq, exists_eq_left', helts, true_and]
        rfl
      · simp [hmode]
    rw [hat, ht mode n k, getElem?_insert]
    by_cases hn : d = n
    · subst hn; simp [hd, eq_comm, and_comm]
    · simp [hn]
  rw [add, hmem]
  cases helts : t.aliases[env.mode d]? with
  | none =>
    refine ⟨_, rfl, hinsert _ fun n k => ?_, fun n => getElem?_insert _ _ _ _⟩
    have hat : ¬ t.At (env.mode d) n k := by simp [At, helts]
    rw [or_iff_left hat]
    by_cases hn : d = n <;> simp [hn]
  | some elts =>
    have hassert : elts.contains d = false := by
      rw [Std.ExtTreeMap.contains_eq_isSome_getElem?, hnone helts]
      rfl
    refine ⟨⟨t.aliases.insert (env.mode d) (elts.insert d K), t.all.insert d K⟩, ?_,
      hinsert _ fun n k => ?_, fun n => getElem?_insert _ _ _ _⟩
    · cases light <;> simp [hassert] <;> rfl
    rw [getElem?_insert]
    by_cases hn : d = n
    · subst hn; simp [At, helts, hnone helts]
    · simp [hn, At, helts]

end

end AliasesOfCanonicalElement

/-! ## §4 The invariant -/

/-- A simple without its coercion. -/
inductive Element (ν κ : Type)
  | const (c : κ)
  | name (n : ν)
  deriving DecidableEq

def Element.simple : Element ν κ → Simple ν κ C
  | const c => .const c
  | name n => .name n unit

def Simple.element : Simple ν κ C → Element ν κ
  | const c => .const c
  | name n _ => .name n

@[simp] theorem Element.element_simple (e : Element ν κ) :
    (e.simple : Simple ν κ C).element = e := by
  cases e <;> rfl

variable {e : Element ν κ}

theorem Element.simple_injective {e' : Element ν κ}
    (h : (e.simple : Simple ν κ C) = e'.simple) : e = e' := by
  rw [← element_simple (C := C) e, h, element_simple]

@[simp] theorem Element.hasCoercion_simple (e : Element ν κ) :
    (e.simple : Simple ν κ C).hasCoercion = false := by
  cases e <;> simp [simple, Simple.hasCoercion, Simple.coercion]

theorem Simple.withoutCoercion_eq (s : Simple ν κ C) : s.withoutCoercion = s.element.simple := by
  cases s <;> rfl

namespace T

variable (t : T ν κ C)

def aliasesOf : Element ν κ → AliasesOfCanonicalElement ν C
  | .name n => (t.aliasesOfCanonicalNames[n]?).getD .empty
  | .const c => (t.aliasesOfConsts[c]?).getD .empty

/-- The canonical element of an element, and the coercion to it. -/
def pos : Element ν κ → Element ν κ × C
  | .const c => (.const c, unit)
  | .name n =>
    match t.canonicalElements[n]? with
    | none => (.name n, unit)
    | some (s, k) => (s.element, k)

def IsCanonical : Element ν κ → Prop
  | .const _ => True
  | .name n => t.canonicalElements[n]? = none

end T

theorem getAliasesOfCanonicalElement_eq (t : T ν κ C) (e : Element ν κ) :
    getAliasesOfCanonicalElement t e.simple = .ok (t.aliasesOf e) := by
  cases e <;> rw [getAliasesOfCanonicalElement.eq_def, Element.hasCoercion_simple] <;> rfl

/-- What holds of every tracker that `add` and `add_alias_set` make. -/
structure Inv (env : Env ν U) (t : T ν κ C) : Prop where
  bare : ∀ (n : ν) (s : Simple ν κ C) (k : C), t.canonicalElements[n]? = some (s, k) →
    s = s.element.simple
  inverse : ∀ (n : ν) (e : Element ν κ) (k : C),
    t.canonicalElements[n]? = some (e.simple, k) ↔ (t.aliasesOf e).all[n]? = some k
  modes : ∀ e, (t.aliasesOf e).WF env
  centre : ∀ (n m : ν) (k : C), t.canonicalElements[n]? = some (.name m unit, k) →
    t.canonicalElements[m]? = none
  keys : ∀ n : ν, t.aliasesOfCanonicalNames[n]? ≠ none → t.canonicalElements[n]? = none
  earlier : ∀ (n : ν) (s : Simple ν κ C) (k : C), t.canonicalElements[n]? = some (s, k) →
    env.definedEarlier (.name n unit) s = false

variable {env : Env ν U} {t t' : T ν κ C} {e r : Element ν κ} {d : ν} {K : C}

theorem inv_empty : Inv env (empty : T ν κ C) where
  bare n s k h := by simp [empty] at h
  inverse n e k := by cases e <;> simp [empty, T.aliasesOf, AliasesOfCanonicalElement.empty]
  modes e := by
    cases e <;> simpa [empty, T.aliasesOf] using AliasesOfCanonicalElement.wf_empty
  centre n m k h := by simp [empty] at h
  keys n h := by simp [empty] at h
  earlier n s k h := by simp [empty] at h

variable {n : ν} {k : C} {s : Simple ν κ C}

theorem T.pos_of_some
    (h : t.canonicalElements[n]? = some (s, k)) : t.pos (.name n) = (s.element, k) := by
  rw [pos, h]

theorem T.IsCanonical.pos_eq (h : t.IsCanonical e) : t.pos e = (e, unit) := by
  cases e with
  | const c => rfl
  | name n => rw [T.IsCanonical] at h; rw [pos, h]

theorem Inv.pos_fst (hinv : Inv env t) (e : Element ν κ) : t.IsCanonical (t.pos e).1 := by
  cases e with
  | const c => trivial
  | name n =>
    rw [T.pos]
    cases h : t.canonicalElements[n]? with
    | none => exact h
    | some p =>
      obtain ⟨s, k⟩ := p
      cases s with
      | const c => trivial
      | name m c =>
        have hbare := hinv.bare n _ k h
        rw [hbare] at h
        exact hinv.centre n m k h

/-- The elements of the star of `d`. -/
theorem Inv.pos_eq_iff (hinv : Inv env t) (hne : e ≠ .name n) :
    t.pos (.name n) = (e, k) ↔ (t.aliasesOf e).all[n]? = some k := by
  rw [← hinv.inverse, T.pos]
  cases h : t.canonicalElements[n]? with
  | none => simp only [Prod.mk.injEq, reduceCtorEq, iff_false]; exact fun heq => hne heq.1.symm
  | some p =>
    obtain ⟨s, k'⟩ := p
    have hbare := hinv.bare n s k' h
    simp only [Prod.mk.injEq, Option.some.injEq]
    refine and_congr_left fun _ => ⟨fun hs => by rw [hbare, hs], fun hs => ?_⟩
    rw [hs, Element.element_simple]

/-- What `add_alias_between_canonical_elements` makes of the maps. -/
structure Demoted (t t' : T ν κ C) (d : ν) (K : C) (r : Element ν κ) : Prop where
  self : t'.canonicalElements[d]? = some (r.simple, K)
  moved : ∀ (n : ν) (k : C), (t.aliasesOf (.name d)).all[n]? = some k →
    ∃ k', compose k K = some k' ∧ (n ≠ d → t'.canonicalElements[n]? = some (r.simple, k'))
  kept : ∀ n : ν, n ≠ d → (t.aliasesOf (.name d)).all[n]? = none →
    t'.canonicalElements[n]? = t.canonicalElements[n]?
  aliases : ∀ (n : ν) (k : C), (t'.aliasesOf r).all[n]? = some k ↔ if d = n then K = k
    else (∃ k', (t.aliasesOf (.name d)).all[n]? = some k' ∧ compose k' K = some k) ∨
      (t.aliasesOf r).all[n]? = some k
  demoted : t'.aliasesOf (.name d) = .empty
  others : ∀ e, e ≠ r → e ≠ .name d → t'.aliasesOf e = t.aliasesOf e

/-- An alias of `d` is not canonical, and not `d`. -/
theorem Inv.alias_ne (hinv : Inv env t) (hd : t.IsCanonical (.name d))
    (h : (t.aliasesOf (.name d)).all[n]? = some k) : n ≠ d ∧ t.canonicalElements[n]? ≠ none := by
  rw [← hinv.inverse] at h
  refine ⟨?_, by simp [h]⟩
  rintro rfl
  rw [T.IsCanonical, h] at hd
  cases hd

namespace Demoted

variable (hinv : Inv env t) (hd : t.IsCanonical (.name d)) (hdem : Demoted t t' d K r)

include hinv hd hdem

/-- The star of `d` has gone under `r`. -/
theorem demotes [LawfulLabels C] : Demotes t.pos t'.pos (.name d) K r where
  moved a ha := by
    cases a with
    | const c => cases ha
    | name n =>
      by_cases hn : n = d
      · subst hn
        rw [hd.pos_eq, T.pos_of_some hdem.self]
        exact ⟨by simp, LawfulLabels.unit_compose K⟩
      have hpos : t.pos (.name n) = (.name d, (t.pos (.name n)).2) := Prod.ext ha rfl
      have hin := (hinv.pos_eq_iff (by simpa using Ne.symm hn)).1 hpos
      obtain ⟨k', hk', hmoved⟩ := hdem.moved n _ hin
      rw [hk', T.pos_of_some (hmoved hn)]
      exact ⟨by simp, rfl⟩
  kept a ha := by
    cases a with
    | const c => rfl
    | name n =>
      have hn : n ≠ d := by
        rintro rfl
        exact ha (by rw [hd.pos_eq])
      have hnone : (t.aliasesOf (.name d)).all[n]? = none := by
        by_contra hsome
        obtain ⟨k, hk⟩ := ne_none_iff_exists'.1 hsome
        exact ha (by rw [(hinv.pos_eq_iff (by simpa using Ne.symm hn)).2 hk])
      rw [T.pos, T.pos, hdem.kept n hn hnone]

/-- Where an element of the new tracker comes from. -/
theorem cases_elements (h : t'.canonicalElements[n]? = some (s, k)) :
    (n = d ∧ s = r.simple ∧ k = K) ∨
    (n ≠ d ∧ s = r.simple ∧
      ∃ k', (t.aliasesOf (.name d)).all[n]? = some k' ∧ compose k' K = some k) ∨
    (n ≠ d ∧ (t.aliasesOf (.name d)).all[n]? = none ∧ t.canonicalElements[n]? = some (s, k)) := by
  by_cases hn : n = d
  · subst hn
    rw [hdem.self] at h
    cases h
    exact .inl ⟨rfl, rfl, rfl⟩
  cases hall : (t.aliasesOf (.name d)).all[n]? with
  | none => rw [hdem.kept n hn hall] at h; exact .inr (.inr ⟨hn, rfl, h⟩)
  | some k' =>
    obtain ⟨k'', hk'', hmoved⟩ := hdem.moved n k' hall
    rw [hmoved hn] at h
    cases h
    exact .inr (.inl ⟨hn, rfl, k', rfl, hk''⟩)

/-- Canonical elements other than `d` stay canonical. -/
theorem isCanonical (he : t.IsCanonical e) (hne : e ≠ .name d) : t'.IsCanonical e := by
  cases e with
  | const c => trivial
  | name n =>
    have hn : n ≠ d := by simpa using hne
    have hnone : (t.aliasesOf (.name d)).all[n]? = none := by
      by_contra hsome
      obtain ⟨k, hk⟩ := ne_none_iff_exists'.1 hsome
      exact (hinv.alias_ne hd hk).2 he
    rw [T.IsCanonical, hdem.kept n hn hnone]
    exact he

/-- The invariant, when `r` is canonical and `d` is not earlier than it. -/
theorem inv (hr : t.IsCanonical r) (hne : r ≠ .name d)
    (hearlier : env.definedEarlier (.name d unit) (r.simple : Simple ν κ C) = false)
    (hmodes : (t'.aliasesOf r).WF env)
    (hkeys : ∀ n : ν, t'.aliasesOfCanonicalNames[n]? ≠ none →
      r = .name n ∨ (n ≠ d ∧ t.aliasesOfCanonicalNames[n]? ≠ none)) : Inv env t' where
  bare n s k h := by
    rcases hdem.cases_elements hinv hd h with ⟨-, rfl, -⟩ | ⟨-, rfl, -⟩ | ⟨-, -, hold⟩
    · simp
    · simp
    · exact hinv.bare n s k hold
  inverse n e k := by
    constructor
    · intro h
      rcases hdem.cases_elements hinv hd
        h with ⟨rfl, hs, rfl⟩ | ⟨hn, hs, k', hin, hk⟩ | ⟨hn, hnone, hold⟩
      · rw [Element.simple_injective hs, hdem.aliases, if_pos rfl]
      · rw [Element.simple_injective hs, hdem.aliases, if_neg (Ne.symm hn)]
        exact .inl ⟨k', hin, hk⟩
      have hin := (hinv.inverse n e k).1 hold
      by_cases her : e = r
      · subst her
        rw [hdem.aliases, if_neg (Ne.symm hn)]
        exact .inr hin
      rw [hdem.others e her ?_]
      · exact hin
      rintro rfl
      rw [hnone] at hin
      cases hin
    intro h
    by_cases her : e = r
    · subst her
      rw [hdem.aliases] at h
      split at h
      · rename_i hn
        subst hn h
        exact hdem.self
      rename_i hn
      rcases h with ⟨k', hin, hk⟩ | hin
      · obtain ⟨k'', hk'', hmoved⟩ := hdem.moved n k' hin
        obtain rfl : k'' = k := Option.some.inj (hk''.symm.trans hk)
        exact hmoved (Ne.symm hn)
      have hold := (hinv.inverse n e k).2 hin
      rw [hdem.kept n (Ne.symm hn) ?_]
      · exact hold
      by_contra hsome
      obtain ⟨k', hk'⟩ := ne_none_iff_exists'.1 hsome
      rw [← hinv.inverse, hold] at hk'
      exact hne (Element.simple_injective (Prod.ext_iff.1 (Option.some.inj hk')).1)
    by_cases hed : e = .name d
    · rw [hed, hdem.demoted] at h; simp [AliasesOfCanonicalElement.empty] at h
    rw [hdem.others e her hed] at h
    have hold := (hinv.inverse n e k).2 h
    have hn : n ≠ d := by
      rintro rfl
      rw [T.IsCanonical, hold] at hd
      cases hd
    rw [hdem.kept n hn ?_]
    · exact hold
    by_contra hsome
    obtain ⟨k', hk'⟩ := ne_none_iff_exists'.1 hsome
    rw [← hinv.inverse, hold] at hk'
    exact hed (Element.simple_injective (Prod.ext_iff.1 (Option.some.inj hk')).1)
  modes e := by
    by_cases her : e = r
    · rw [her]; exact hmodes
    by_cases hed : e = .name d
    · rw [hed, hdem.demoted]; exact AliasesOfCanonicalElement.wf_empty
    · rw [hdem.others e her hed]; exact hinv.modes e
  centre n m k h := by
    rcases hdem.cases_elements hinv hd h with ⟨-, hs, -⟩ | ⟨-, hs, -⟩ | ⟨hn, hnone, hold⟩
    · obtain rfl : Element.name m = r := Element.simple_injective hs
      exact hdem.isCanonical hinv hd hr hne
    · obtain rfl : Element.name m = r := Element.simple_injective hs
      exact hdem.isCanonical hinv hd hr hne
    refine hdem.isCanonical hinv hd (e := .name m) (hinv.centre n m k hold) ?_
    intro heq
    obtain rfl : m = d := by simpa using heq
    rw [(hinv.inverse n (.name m) k).1 hold] at hnone
    cases hnone
  keys n h := by
    rcases hkeys n h with rfl | ⟨hn, hold⟩
    · exact hdem.isCanonical hinv hd hr hne
    · exact hdem.isCanonical hinv hd (e := .name n) (hinv.keys n hold) (by simpa using hn)
  earlier n s k h := by
    rcases hdem.cases_elements hinv hd h with ⟨rfl, rfl, -⟩ | ⟨-, rfl, k', hin, -⟩ | ⟨-, -, hold⟩
    · exact hearlier
    · have hold := hinv.earlier n _ k' ((hinv.inverse n (.name d) k').2 hin)
      rw [Bool.eq_false_iff, ne_eq, Env.definedEarlier_iff, not_lt] at hold hearlier ⊢
      exact le_trans hearlier hold
    · exact hinv.earlier n s k hold

end Demoted

/-! ## §5 Adding an alias -/

/-- The bindings of the elements, after the fold over the aliases of `d`. -/
theorem moved_outcome (t : T ν κ C) (d : ν) (K : C) (r : Element ν κ) :
    Outcome Undefined ((t.aliasesOf (.name d)).all.toList.foldlM (fun acc p => do
      let coercion ← composeExn p.2 K
      pure (acc.insert p.1 ((r.simple : Simple ν κ C), coercion))) t.canonicalElements) fun moved =>
      (∀ (n : ν) (k : C), (t.aliasesOf (.name d)).all[n]? = some k →
        ∃ k', compose k K = some k' ∧ moved[n]? = some (r.simple, k')) ∧
      ∀ n : ν, (t.aliasesOf (.name d)).all[n]? = none → moved[n]? = t.canonicalElements[n]? := by
  have hf : ∀ p : ν × C, Outcome Undefined (do pure ((r.simple : Simple ν κ C), ← composeExn p.2 K))
      fun q => q.1 = r.simple ∧ compose p.2 K = some q.2 := fun p =>
    (composeExn_outcome p.2 K).bind fun k' hk' => .pure ⟨rfl, hk'⟩
  have hfold := Lib.foldlM_insert (t.aliasesOf (.name d)).all (fun p _ => hf p) t.canonicalElements
  have heq : ∀ (acc : Std.ExtTreeMap ν (Simple ν κ C × C)) (p : ν × C),
      (do pure (acc.insert p.1 (← (do pure ((r.simple : Simple ν κ C), ← composeExn p.2 K))))) =
        (do let coercion ← composeExn p.2 K
            pure (acc.insert p.1 ((r.simple : Simple ν κ C), coercion)) : Except Exn _) := by
    intro acc p
    cases composeExn p.2 K <;> rfl
  simp only [heq] at hfold
  refine hfold.mono fun moved ⟨hsome, hnone⟩ => ⟨fun n k hk => ?_, hnone⟩
  obtain ⟨⟨s, k'⟩, hmoved, rfl, hk'⟩ := hsome n k hk
  exact ⟨k', hk', hmoved⟩

theorem checkCanonicalNotAlias_eq (light : Bool) (hinv : Inv env t) (hr : t.IsCanonical r)
    (hd : t.IsCanonical (.name d)) :
    checkCanonicalNotAlias light (r.simple : Simple ν κ C) (t.aliasesOf (.name d)) = .ok () := by
  rw [checkCanonicalNotAlias.eq_def]
  split
  · cases r with
    | const c => rfl
    | name n =>
      have hnone : (t.aliasesOf (.name d)).all[n]? = none := by
        by_contra hsome
        obtain ⟨k, hk⟩ := ne_none_iff_exists'.1 hsome
        exact (hinv.alias_ne hd hk).2 hr
      have hmem : (t.aliasesOf (.name d)).mem n = false := by
        rw [AliasesOfCanonicalElement.mem, Std.ExtTreeMap.contains_eq_isSome_getElem?, hnone]
        rfl
      simp only [Element.simple, hmem]
      rfl
  · rfl

/-- The aliases of `d`, and those of `r`, which are others, and `d`. -/
theorem united_outcome (light : Bool) (hinv : Inv env t) (hd : t.IsCanonical (.name d))
    (hne : r ≠ .name d) (K : C) :
    Outcome Undefined (do
      let composed ← (t.aliasesOf (.name d)).compose K
      let united ← composed.union (t.aliasesOf r)
      united.add light d K (env.mode d)) fun a => a.WF env ∧ ∀ (n : ν) (k : C),
        a.all[n]? = some k ↔ if d = n then K = k
          else (∃ k', (t.aliasesOf (.name d)).all[n]? = some k' ∧ compose k' K = some k) ∨
            (t.aliasesOf r).all[n]? = some k := by
  refine (AliasesOfCanonicalElement.compose_outcome (hinv.modes (.name d)) K).bind
    fun composed ⟨hwf, hsome, hnone⟩ => ?_
  have hcomposed : ∀ (n : ν) (k : C), composed.all[n]? = some k ↔
      ∃ k', (t.aliasesOf (.name d)).all[n]? = some k' ∧ compose k' K = some k := by
    intro n k
    cases h : (t.aliasesOf (.name d)).all[n]? with
    | none => simp [hnone n h]
    | some k' => obtain ⟨k'', hk'', hcompose⟩ := hsome n k' h; simp [hk'', hcompose]
  have hdisjoint : ∀ n : ν, (t.aliasesOf r).all[n]? ≠ none → composed.all[n]? = none := by
    intro n hn
    obtain ⟨k, hk⟩ := ne_none_iff_exists'.1 hn
    refine hnone n ?_
    by_contra hsome'
    obtain ⟨k', hk'⟩ := ne_none_iff_exists'.1 hsome'
    rw [← hinv.inverse] at hk hk'
    rw [hk] at hk'
    exact hne (Element.simple_injective (Prod.ext_iff.1 (Option.some.inj hk')).1)
  obtain ⟨united, hunion, hwf', hunited⟩ :=
    AliasesOfCanonicalElement.union_outcome hwf (hinv.modes r) hdisjoint
  have hdnone : united.all[d]? = none := by
    have hcanonical : t.canonicalElements[d]? = none := hd
    by_contra hsome'
    obtain ⟨k, hk⟩ := ne_none_iff_exists'.1 hsome'
    rw [hunited, hcomposed] at hk
    rcases hk with ⟨k', hk', -⟩ | hk
    · rw [← hinv.inverse, hcanonical] at hk'; cases hk'
    · rw [← hinv.inverse, hcanonical] at hk; cases hk
  obtain ⟨a, hadd, hwf'', ha⟩ := AliasesOfCanonicalElement.add_outcome light hwf' hdnone K
  rw [hunion]
  change Outcome Undefined (united.add light d K (env.mode d)) _
  rw [hadd]
  refine .pure ⟨hwf'', fun n k => ?_⟩
  rw [ha]
  split
  · simp
  · rw [hunited, hcomposed]

/-- A canonical name goes under another canonical element, with all its aliases. -/
theorem addAliasBetween_outcome (light : Bool) (hinv : Inv env t) (hr : t.IsCanonical r)
    (hd : t.IsCanonical (.name d)) (hne : r ≠ .name d)
    (hearlier : env.definedEarlier (.name d unit) (r.simple : Simple ν κ C) = false) :
    Outcome Undefined
      (addAliasBetweenCanonicalElements light env t r.simple K (.name d unit)) fun result =>
        ∃ t', result = .ok t' ∧ Demoted t t' d K r ∧ Inv env t' := by
  have hneq : (r.simple : Simple ν κ C) ≠ (Element.name d).simple := fun h =>
    hne (Element.simple_injective h)
  change (r.simple : Simple ν κ C) ≠ .name d unit at hneq
  have hcoercion : (Simple.name d unit : Simple ν κ C).hasCoercion = false :=
    Element.hasCoercion_simple (.name d)
  have hget : getAliasesOfCanonicalElement t (.name d unit) = .ok (t.aliasesOf (.name d)) :=
    getAliasesOfCanonicalElement_eq t (.name d)
  rw [addAliasBetweenCanonicalElements, if_neg hneq, hcoercion, hget]
  change Outcome Undefined (do
    checkCanonicalNotAlias light r.simple (t.aliasesOf (.name d))
    _) _
  rw [checkCanonicalNotAlias_eq light hinv hr hd]
  refine (moved_outcome t d K r).bind fun moved ⟨hsome, hnone⟩ => ?_
  rw [getAliasesOfCanonicalElement_eq]
  refine (united_outcome light hinv hd hne K).unbind.bind fun composed hcomposed => ?_
  refine hcomposed.unbind.bind fun united hunited => ?_
  refine hunited.bind fun aliases ⟨hwf, haliases⟩ => ?_
  rw [Element.hasCoercion_simple]
  have hdem : ∀ t' : T ν κ C, t'.canonicalElements = moved.insert d (r.simple, K) →
      t'.aliasesOf r = aliases → t'.aliasesOf (.name d) = .empty →
      (∀ e, e ≠ r → e ≠ .name d → t'.aliasesOf e = t.aliasesOf e) → Demoted t t' d K r := by
    intro t' hcanonical hr' hd' hothers
    refine ⟨?_, fun n k hk => ?_, fun n hn hk => ?_, fun n k => ?_, hd', hothers⟩
    · rw [hcanonical, getElem?_insert, if_pos rfl]
    · obtain ⟨k', hk', hmoved⟩ := hsome n k hk
      refine ⟨k', hk', fun hn => ?_⟩
      rw [hcanonical, getElem?_insert, if_neg (Ne.symm hn), hmoved]
    · rw [hcanonical, getElem?_insert, if_neg (Ne.symm hn), hnone n hk]
    · rw [hr', haliases]
  cases r with
  | name m =>
    have hmd : m ≠ d := by simpa using hne
    refine .pure ⟨_, rfl, ?_⟩
    have hdemoted := hdem ⟨moved.insert d (.name m unit, K),
      (t.aliasesOfCanonicalNames.erase d).insert m aliases, t.aliasesOfConsts⟩ rfl ?_ ?_ ?_
    · refine ⟨hdemoted, hdemoted.inv hinv hd hr hne hearlier ?_ fun n hn => ?_⟩
      · simpa [T.aliasesOf] using hwf
      · grind
    · simp [T.aliasesOf]
    · simp [T.aliasesOf, hmd]
    intro e he he'
    cases e with
    | const c => rfl
    | name n =>
      have hn : m ≠ n := by simpa using Ne.symm he
      have hn' : d ≠ n := by simpa using Ne.symm he'
      simp [T.aliasesOf, getElem?_insert, Lib.getElem?_erase, hn, hn']
  | const c =>
    refine .pure ⟨_, rfl, ?_⟩
    have hdemoted := hdem ⟨moved.insert d (.const c, K),
      t.aliasesOfCanonicalNames.erase d, t.aliasesOfConsts.insert c aliases⟩ rfl ?_ ?_ ?_
    · refine ⟨hdemoted, hdemoted.inv hinv hd hr hne hearlier ?_ fun n hn => ?_⟩
      · simpa [T.aliasesOf] using hwf
      · grind
    · simp [T.aliasesOf]
    · simp [T.aliasesOf]
    intro e he he'
    cases e with
    | const c' =>
      have hc : c ≠ c' := by simpa using Ne.symm he
      simp [T.aliasesOf, getElem?_insert, hc]
    | name n =>
      have hn' : d ≠ n := by simpa using Ne.symm he'
      simp [T.aliasesOf, Lib.getElem?_erase, hn']

end Oxcaml.Flambda2.Aliases
