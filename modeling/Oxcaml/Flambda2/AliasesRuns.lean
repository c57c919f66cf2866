/-
Oxcaml.Flambda2.AliasesRuns — runs of the alias tracker.

§1 says what `add` does to the stars, §2 what `get_aliases` reads off them, and §3
follows the fold of `add_alias_set`. A run is a sequence of calls from the empty
tracker, with the equations that the calls state (§4). The tracker is exact: what
`get_aliases` returns is what the equations entail.

`add_alias_set` does not add an equation between an element and itself, whatever
the coercion, and a coercion of a constant is dropped. So its calls have to be free
of contradictions (`Consistent`): the equations equate no two constants, no two
elements by two coercions, and no element with a constant by a coercion that is not
the identity.
-/
import Oxcaml.Flambda2.AliasesTheorems

namespace Oxcaml.Flambda2.Aliases

open List (mem_cons mem_map)
open Element (hasCoercion_simple simple)

set_option linter.all false

open Lib (Labels LawfulLabels Outcome Entails Agrees Demotes compose_cancel_right
  compose_cancel_left
  inverse_unit inverse_inverse)
open Lib.Labels (unit inverse compose)

variable {ν κ C U : Type} [LinearOrder ν] [LinearOrder κ] [DecidableEq C] [Labels C]
  [LawfulLabels C] [LinearOrder U]

variable {light : Bool} {env : Env ν U} {t t' : T ν κ C} {e e1 e2 r : Element ν κ} {d n : ν}
  {k K : C}

/-! ## §1 Adding an equation -/

/-- The stars of the new tracker have the equation, and else no more than before. -/
structure Merged (env : Env ν U) (t t' : T ν κ C) (e2 : Element ν κ) (K : C)
    (e1 : Element ν κ) : Prop where
  inv : Inv env t'
  agrees : Agrees t'.pos e2 K e1
  keeps : ∀ a k b, Agrees t.pos a k b → Agrees t'.pos a k b
  entails : ∀ eqs, (∀ a, Entails eqs a (t.pos a).2 (t.pos a).1) → Entails eqs e2 K e1 →
    ∀ a, Entails eqs a (t'.pos a).2 (t'.pos a).1

theorem Demoted.merged (hinv : Inv env t) (hd : t.IsCanonical (.name d)) (hr : t.IsCanonical r)
    (hne : r ≠ .name d) (hdem : Demoted t t' d K r) (hinv' : Inv env t') :
    Merged env t t' (.name d) K r := by
  have hdemotes := hdem.demotes hinv hd
  exact ⟨hinv', hdemotes.agrees hd.pos_eq hr.pos_eq hne, fun a k b h => h.demote hdemotes,
    fun eqs hpos hK => hdemotes.entails hpos hK⟩

theorem Merged.symm (h : Merged env t t' e2 (inverse K) e1) : Merged env t t' e1 K e2 where
  inv := h.inv
  agrees := by simpa using h.agrees.symm
  keeps := h.keeps
  entails eqs hpos hK := h.entails eqs hpos hK.symm

/-- What `add_alias` returns: `Bottom` for two constants, and else which of the two has been
demoted. -/
inductive Added (env : Env ν U) (t : T ν κ C) (e1 : Element ν κ) (K : C) (e2 : Element ν κ) :
    OrBottom (T ν κ C × ToBeDemoted) → Prop
  | bottom {c1 c2 : κ} : e1 = .const c1 → e2 = .const c2 → Added env t e1 K e2 .bottom
  | demote1 {t' : T ν κ C} {d : ν} : e1 = .name d → t'.IsCanonical e2 →
      Merged env t t' e2 K e1 → Added env t e1 K e2 (.ok (t', .demoteCanonicalElement1))
  | demote2 {t' : T ν κ C} {d : ν} : e2 = .name d → t'.IsCanonical e1 →
      Merged env t t' e2 K e1 → Added env t e1 K e2 (.ok (t', .demoteCanonicalElement2))

theorem addAliasBetween_const {c c' : κ} (hne : c ≠ c') (K : C) :
    addAliasBetweenCanonicalElements light env t (.const c) K (.const c') = .ok .bottom := by
  have hbare : (Simple.const c' : Simple ν κ C).hasCoercion = false :=
    hasCoercion_simple (.const c')
  rw [addAliasBetweenCanonicalElements, if_neg (by simpa using hne), hbare]
  rfl

theorem addAlias_outcome (hinv : Inv env t) (h1 : t.IsCanonical e1) (h2 : t.IsCanonical e2)
    (hne : e1 ≠ e2) :
    Outcome Undefined (addAlias light env t e1.simple K e2.simple) (Added env t e1 K e2) := by
  rw [addAlias, hasCoercion_simple, hasCoercion_simple, chooseCanonicalElementToBeDemoted]
  simp only [show assert (!false) = .ok () from rfl, bind, Except.bind]
  by_cases hearlier : env.definedEarlier (e1.simple : Simple ν κ C) e2.simple = true
  · rw [if_pos hearlier]
    cases e2 with
    | const c => simp [simple, Env.definedEarlier] at hearlier
    | name d =>
      have hnot : env.definedEarlier (.name d unit) (e1.simple : Simple ν κ C) = false := by
        rw [Env.definedEarlier_iff] at hearlier
        rw [Bool.eq_false_iff, ne_eq, Env.definedEarlier_iff, not_lt]
        exact hearlier.le
      refine (addAliasBetween_outcome light hinv h1 h2 hne hnot).bind ?_
      rintro _ ⟨t', rfl, hdem, hinv'⟩
      exact .pure (.demote2 rfl (hdem.isCanonical hinv h2 h1 hne)
        (hdem.merged hinv h2 h1 hne hinv'))
  rw [if_neg hearlier]
  cases e1 with
  | const c =>
    cases e2 with
    | const c' =>
      dsimp only [simple]
      rw [addAliasBetween_const (by simpa using Ne.symm hne)]
      exact .pure (.bottom rfl rfl)
    | name d => simp [simple, Env.definedEarlier] at hearlier
  | name d =>
    have hnot : env.definedEarlier (.name d unit) (e2.simple : Simple ν κ C) = false :=
      Bool.eq_false_iff.2 hearlier
    refine (addAliasBetween_outcome light hinv h2 h1 (Ne.symm hne) hnot).bind ?_
    rintro _ ⟨t', rfl, hdem, hinv'⟩
    exact .pure (.demote1 rfl (hdem.isCanonical hinv h1 h2 (Ne.symm hne))
      (hdem.merged hinv h1 h2 (Ne.symm hne) hinv').symm)

variable {s1 s2 s : Simple ν κ C}

theorem add0_outcome (hinv : Inv env t) (h1 : t.IsCanonical s1.element)
    (h2 : t.IsCanonical s2.element) (hne : s1.element ≠ s2.element) :
    Outcome Undefined (add0 light env t s1 s2) fun result =>
      ∃ K, compose s2.coercion (inverse s1.coercion) = some K ∧
        Added env t s1.element K s2.element result := by
  refine (composeExn_outcome s2.coercion (inverse s1.coercion)).bind fun K hK => ?_
  have hneq : s1.withoutCoercion ≠ s2.withoutCoercion := by
    rw [Simple.withoutCoercion_eq, Simple.withoutCoercion_eq]
    exact fun h => hne (Element.simple_injective h)
  rw [if_neg fun h => hneq h.2]
  rw [Simple.withoutCoercion_eq, Simple.withoutCoercion_eq]
  exact (addAlias_outcome hinv h1 h2 hne).mono fun result h => ⟨K, hK, h⟩

/-! ## §2 What is read off the stars -/

theorem composeMapValuesExn_outcome (map : MapToCanonical ν C) (K : C) :
    Outcome Undefined (MapToCanonical.composeMapValuesExn map K) fun r =>
      ∀ (n : ν) (k' : C), r[n]? = some k' ↔ ∃ k, map[n]? = some k ∧ compose k K = some k' := by
  rw [MapToCanonical.composeMapValuesExn]
  split
  · rename_i hunit
    refine .pure fun n k' => ?_
    simp [hunit, LawfulLabels.compose_unit]
  refine (MapToCanonical.mapValues_outcome map K).mono fun r ⟨hsome, hnone⟩ n k' => ?_
  cases h : map[n]? with
  | none => simp [hnone n h]
  | some k => obtain ⟨k'', hr, hk''⟩ := hsome n k h; simp [hr, hk'']

/-- The members of the star of `r`, coerced by `K`. -/
theorem createAliases_outcome (hinv : Inv env t) (hr : t.IsCanonical r) (K : C) :
    Outcome Undefined (do
      let names ← MapToCanonical.composeMapValuesExn (t.aliasesOf r).all K
      createAliasesOfElement (r.simple : Simple ν κ C) K names) fun set =>
        (∀ (m : ν) (k : C), set.names[m]? = some k ↔
          (t.pos (.name m)).1 = r ∧ compose (t.pos (.name m)).2 K = some k) ∧
        ∀ c, set.const = some c ↔ r = .const c := by
  refine (composeMapValuesExn_outcome _ K).bind fun names hnames => ?_
  have hother : ∀ (m : ν) (k : C), r ≠ .name m → (names[m]? = some k ↔
      (t.pos (.name m)).1 = r ∧ compose (t.pos (.name m)).2 K = some k) := by
    intro m k hne
    rw [hnames]
    constructor
    · rintro ⟨k', hk', hcompose⟩
      rw [(hinv.pos_eq_iff hne).2 hk']
      exact ⟨rfl, hcompose⟩
    · rintro ⟨hcentre, hcompose⟩
      exact ⟨_, (hinv.pos_eq_iff hne).1 (Prod.ext hcentre rfl), hcompose⟩
  cases r with
  | const c => refine .pure ⟨fun m k => hother m k (by simp), fun c' => ?_⟩; simp
  | name n =>
    simp only [createAliasesOfElement, simple]
    refine .pure ⟨fun m k => ?_, fun c' => by simp⟩
    rw [Lib.getElem?_insert]
    split
    · rename_i heq
      subst heq
      rw [hr.pos_eq, LawfulLabels.unit_compose]
      simp
    · rename_i hne
      exact hother m k (by simpa using hne)

/-- `get_aliases` returns the star of the element, coerced to the element: `q` is the coercion
from the element to the centre. -/
theorem getAliases_outcome (hinv : Inv env t) (s : Simple ν κ C) :
    Outcome Undefined (getAliases t s) fun set =>
      ∃ q, compose (inverse s.coercion) (t.pos s.element).2 = some q ∧
        (∀ (m : ν) (k : C), set.names[m]? = some k ↔ (t.pos (.name m)).1 = (t.pos s.element).1 ∧
            compose (t.pos (.name m)).2 (inverse q) = some k) ∧
        ∀ c, set.const = some c ↔ (t.pos s.element).1 = .const c := by
  have hcanonical : t.IsCanonical s.element → canonical t s = .ok .isCanonical →
      Outcome Undefined (getAliases t s) fun set =>
      ∃ q, compose (inverse s.coercion) (t.pos s.element).2 = some q ∧
        (∀ (m : ν) (k : C), set.names[m]? = some k ↔ (t.pos (.name m)).1 = (t.pos s.element).1 ∧
            compose (t.pos (.name m)).2 (inverse q) = some k) ∧
        ∀ c, set.const = some c ↔ (t.pos s.element).1 = .const c := by
    intro hs heq
    rw [getAliases, heq]
    change Outcome Undefined (do
      assert (!s.withoutCoercion.hasCoercion)
      let aliases ← getAliasesOfCanonicalElement t s.withoutCoercion
      _) _
    rw [Simple.withoutCoercion_eq, hasCoercion_simple, getAliasesOfCanonicalElement_eq]
    refine (createAliases_outcome hinv hs s.coercion).mono fun set hset => ?_
    rw [hs.pos_eq]
    refine ⟨inverse s.coercion, LawfulLabels.compose_unit _, ?_⟩
    simpa using hset
  cases s with
  | const c => exact hcanonical trivial rfl
  | name n c =>
    cases h : t.canonicalElements[n]? with
    | none => exact hcanonical h (by rw [canonical, h]; rfl)
    | some p =>
      obtain ⟨s, p⟩ := p
      have hbare := hinv.bare n s p h
      rw [getAliases, canonical, h, Simple.element, T.pos_of_some h]
      have hs : t.IsCanonical s.element := by
        have hfst := hinv.pos_fst (.name n)
        rwa [T.pos_of_some h] at hfst
      have hne : (Simple.name n c : Simple ν κ C).withoutCoercion ≠ s := by
        rintro rfl
        have hnone : t.canonicalElements[n]? = none := hs
        rw [h] at hnone
        cases hnone
      refine Outcome.bind (Q := fun r => ∃ q, compose (inverse c) p = some q ∧
        r = .aliasOfCanonical s q) ?_ ?_
      · exact (composeExn_outcome (inverse c) p).bind fun q hq => .pure ⟨q, hq, rfl⟩
      rintro _ ⟨q, hq, rfl⟩
      dsimp only
      rw [hbare, hasCoercion_simple, assert_true (by rfl), ← hbare,
        assert_true (by simpa using hne)]
      rw [hbare, getAliasesOfCanonicalElement_eq]
      refine (createAliases_outcome hinv hs (inverse q)).mono fun set hset => ⟨q, hq, ?_⟩
      simpa using hset

/-! ## §3 Adding an alias set -/

/-- The element with a coercion; constants have none. -/
def Element.coerced (e : Element ν κ) (k : C) : Simple ν κ C :=
  match e with
  | .const c => .const c
  | .name n => .name n k

@[simp] theorem Element.element_coerced (e : Element ν κ) (k : C) : (e.coerced k).element = e := by
  cases e <;> rfl

theorem withCoercion_bare (n : ν) (k : C) :
    (Simple.name n unit : Simple ν κ C).withCoercion k = .ok (.name n k) := by
  by_cases hk : k = unit
  · simp [Simple.withCoercion, hk]; rfl
  · simp [Simple.withCoercion, hk, Simple.isConst, Simple.coercion]; rfl

theorem applyCoercionExn_outcome (e : Element ν κ) (k l : C) :
    Outcome Undefined ((e.coerced k).applyCoercionExn l) fun s =>
      s.element = e ∧ ∀ n, e = .name n → compose k l = some s.coercion := by
  cases e with
  | const c =>
    rw [Simple.applyCoercionExn, if_pos (.inr rfl)]
    exact .pure ⟨rfl, fun n h => by cases h⟩
  | name m =>
    rw [Element.coerced, Simple.applyCoercionExn]
    by_cases hl : l = unit
    · rw [if_pos (.inl hl), hl]; exact .pure ⟨rfl, fun n _ => LawfulLabels.compose_unit k⟩
    rw [if_neg (by simp [hl, Simple.isConst])]
    cases h : compose k l with
    | none => rw [Simple.coercion, h]; exact .inr rfl
    | some c =>
      rw [Simple.coercion, h, Simple.withoutCoercion]
      dsimp only
      rw [withCoercion_bare]
      exact .pure ⟨rfl, fun n _ => rfl⟩

theorem getCanonicalIgnoringNameMode_eq (hinv : Inv env t) (n : ν) :
    getCanonicalIgnoringNameMode t n =
      .ok ((t.pos (.name n)).1.coerced (inverse (t.pos (.name n)).2)) := by
  rw [getCanonicalIgnoringNameMode, canonical]
  cases h : t.canonicalElements[n]? with
  | none =>
    rw [T.IsCanonical.pos_eq (e := .name n) h]
    simp [Element.coerced]
    rfl
  | some p =>
    obtain ⟨s, p⟩ := p
    rw [T.pos_of_some h]
    dsimp only
    rw [composeExn, inverse_unit, LawfulLabels.unit_compose]
    change s.applyCoercionExn (inverse p) = _
    rw [hinv.bare n s p h]
    cases s.element with
    | const c => simp [simple, Simple.applyCoercionExn, Simple.isConst]; rfl
    | name m =>
      by_cases hp : inverse p = unit
      · simp [Simple.applyCoercionExn, hp]; rfl
      simp [simple, Element.coerced, Simple.applyCoercionExn, hp, Simple.isConst,
        Simple.coercion, LawfulLabels.unit_compose, Simple.withoutCoercion, withCoercion_bare,
        Simple.element]

/-- An equation between two elements: the first, coerced, is the second. -/
abbrev Equation (ν κ C : Type) := Element ν κ × C × Element ν κ

/-- Equations without a contradiction. -/
structure Consistent (eqs : List (Equation ν κ C)) : Prop where
  consts : ∀ c k c', Entails eqs (.const c) k (.const c') → c = c'
  unique : ∀ a k k' b, Entails eqs a k b → Entails eqs a k' b → k = k'
  const : ∀ a k c, Entails eqs a k (.const c) → k = unit

variable {eqs : List (Equation ν κ C)} {b : Element ν κ}

theorem Consistent.const_left (h : Consistent eqs) {c : κ} {k : C} (hk : Entails eqs (.const c) k b)
    : k = unit := by
  have hinverse := h.const b (inverse k) c hk.symm
  rw [← inverse_inverse k, hinverse, inverse_unit]

/-- Equations that hold in some stars are consistent, when no label leads to a constant. -/
theorem Consistent.of_agrees (pos : Element ν κ → Element ν κ × C)
    (heqs : ∀ a k b, (a, k, b) ∈ eqs → Agrees pos a k b)
    (hself : ∀ c, pos (.const c) = (.const c, unit))
    (hconst : ∀ a c, (pos a).1 = .const c → (pos a).2 = unit) : Consistent eqs where
  consts c k c' h := by
    have hcentre := (Agrees.of_entails heqs h).1
    rw [hself, hself] at hcentre
    simpa using hcentre
  unique a k k' b h h' := Lib.compose_right_injective (Agrees.of_entails heqs h).2
    (Agrees.of_entails heqs h').2
  const a k c h := by
    obtain ⟨hcentre, hlabel⟩ := Agrees.of_entails heqs h
    rw [hself] at hcentre hlabel
    rw [hconst a c hcentre, LawfulLabels.compose_unit] at hlabel
    exact Option.some.inj hlabel

/-- The equations of an alias set of `n`. -/
def AliasSet.equations (n : ν) (aliases : AliasSet ν κ C) : List (Equation ν κ C) :=
  (aliases.const.toList.map fun c => (.const c, unit, .name n)) ++
    aliases.names.toList.map fun p => (.name p.1, p.2, .name n)

/-- In the fold: what was, is; what is, is entailed; and the element that the fold holds is
canonical, and `n`. -/
structure Folding (env : Env ν U) (t : T ν κ C) (n : ν) (eqs : List (Equation ν κ C))
    (acc : T ν κ C × Simple ν κ C) : Prop where
  inv : Inv env acc.1
  keeps : ∀ a k b, Agrees t.pos a k b → Agrees acc.1.pos a k b
  entails : ∀ a, Entails eqs a (acc.1.pos a).2 (acc.1.pos a).1
  canonical : acc.1.IsCanonical acc.2.element
  agrees : Agrees acc.1.pos acc.2.element acc.2.coercion (.name n)

theorem addToAliasSet_outcome (hconsistent : Consistent eqs)
    {acc : T ν κ C × Simple ν κ C} (hacc : Folding env t n eqs acc) {elt : Simple ν κ C}
    (helt : acc.1.IsCanonical elt.element)
    (hentails : Entails eqs elt.element elt.coercion (.name n)) :
    Outcome Undefined (addToAliasSet light env acc elt) fun acc' =>
      Folding env acc.1 n eqs acc' ∧ Agrees acc'.1.pos elt.element elt.coercion (.name n) := by
  have hheld := hacc.agrees.entails hacc.entails
  rw [addToAliasSet]
  split
  · rename_i hsame
    rw [Simple.withoutCoercion_eq, Simple.withoutCoercion_eq] at hsame
    have helement := Element.simple_injective hsame
    refine .pure ⟨⟨hacc.inv, fun _ _ _ h => h, hacc.entails, hacc.canonical, hacc.agrees⟩, ?_⟩
    rw [← helement] at hentails ⊢
    rw [hconsistent.unique _ _ _ _ hentails hheld]
    exact hacc.agrees
  rename_i hother
  have hne : acc.2.element ≠ elt.element := by
    intro h
    rw [Simple.withoutCoercion_eq, Simple.withoutCoercion_eq, h] at hother
    exact hother rfl
  refine (add0_outcome hacc.inv hacc.canonical helt hne).bind ?_
  rintro result ⟨K, hK, hadded⟩
  have hback : compose K acc.2.coercion = some elt.coercion := by
    simpa using compose_cancel_right hK
  have hmerged : ∀ t', Merged env acc.1 t' elt.element K acc.2.element →
      Agrees t'.pos acc.2.element acc.2.coercion (.name n) ∧
      Agrees t'.pos elt.element elt.coercion (.name n) ∧
      ∀ a, Entails eqs a (t'.pos a).2 (t'.pos a).1 := by
    intro t' h
    have hkept := h.keeps _ _ _ hacc.agrees
    exact ⟨hkept, h.agrees.trans hkept hback,
      h.entails eqs hacc.entails (hentails.trans hheld.symm hK)⟩
  cases hadded with
  | @bottom c1 c2 h1 h2 =>
    rw [h1] at hheld
    rw [h2] at hentails
    have hunit1 := hconsistent.const_left hheld
    have hunit2 := hconsistent.const_left hentails
    rw [hunit1] at hheld
    rw [hunit2] at hentails
    have heq := hconsistent.consts c1 unit c2
      (hheld.trans hentails.symm (by rw [inverse_unit, LawfulLabels.unit_compose]))
    rw [h1, h2, heq] at hne
    exact absurd rfl hne
  | @demote1 t' d _ hcanonical h =>
    obtain ⟨-, hagrees, hpos⟩ := hmerged t' h
    exact .pure ⟨⟨h.inv, h.keeps, hpos, hcanonical, hagrees⟩, hagrees⟩
  | @demote2 t' d _ hcanonical h =>
    obtain ⟨hkept, hagrees, hpos⟩ := hmerged t' h
    exact .pure ⟨⟨h.inv, h.keeps, hpos, hcanonical, hkept⟩, hagrees⟩

/-- The canonical element of a name that an equation says to be `n`. -/
theorem canonical_entails (hconsistent : Consistent eqs)
    (hentails : ∀ a, Entails eqs a (t.pos a).2 (t.pos a).1) {y : ν} {l : C}
    (hl : Entails eqs (.name y) l b) (hs : s.element = (t.pos (.name y)).1)
    (hcoercion : ∀ m, (t.pos (.name y)).1 = .name m →
      compose (inverse (t.pos (.name y)).2) l = some s.coercion) :
    Entails eqs s.element s.coercion b ∧ compose (t.pos (.name y)).2 s.coercion = some l := by
  have hy := hentails (.name y)
  cases hcentre : (t.pos (.name y)).1 with
  | name m =>
    have hcompose := hcoercion m hcentre
    rw [hs, hcentre]
    rw [hcentre] at hy
    exact ⟨hy.symm.trans hl hcompose, by simpa using compose_cancel_left hcompose⟩
  | const c =>
    rw [hcentre] at hs hy
    have hunit := hconsistent.const _ _ _ hy
    have hcl : Entails eqs (.const c) l b := by
      refine hy.symm.trans hl ?_
      rw [hunit, inverse_unit, LawfulLabels.unit_compose]
    have hl' := hconsistent.const_left hcl
    have hscoercion : s.coercion = unit := by
      cases s with
      | const c => rfl
      | name m k => cases hs
    rw [hs, hscoercion, hunit, hl']
    exact ⟨hl' ▸ hcl, LawfulLabels.unit_compose unit⟩

theorem Inv.agrees_centre (hinv : Inv env t) (e : Element ν κ) :
    Agrees t.pos e (t.pos e).2 (t.pos e).1 := by
  rw [Agrees, (hinv.pos_fst e).pos_eq]
  exact ⟨rfl, LawfulLabels.compose_unit _⟩

/-- The fold starts from the canonical element of `n`. -/
theorem folding_start (hinv : Inv env t)
    (hconsistent : Consistent eqs) (hentails : ∀ a, Entails eqs a (t.pos a).2 (t.pos a).1) :
    Folding env t n eqs (t, (t.pos (.name n)).1.coerced (inverse (t.pos (.name n)).2)) := by
  have hcentre := hinv.pos_fst (.name n)
  have hagrees := hinv.agrees_centre (.name n)
  have hn := canonical_entails hconsistent hentails (.refl (Element.name n))
    (s := (t.pos (.name n)).1.coerced (inverse (t.pos (.name n)).2))
    (by simp) (fun m hm => by rw [hm, LawfulLabels.compose_unit]; rfl)
  refine ⟨hinv, fun _ _ _ h => h, hentails, ?_, ?_⟩
  · simpa using hcentre
  · rw [Lib.eq_inverse_of_compose hn.2, Element.element_coerced]; exact hagrees.symm

/-- The fold over the names of the set. -/
theorem addNames_outcome (hconsistent : Consistent eqs)
    {acc₀ : T ν κ C × Simple ν κ C} (hacc₀ : Folding env t n eqs acc₀)
    (names : MapToCanonical ν C)
    (hnames : ∀ p ∈ names.toList, Entails eqs (.name p.1) p.2 (.name n)) :
    Outcome Undefined (names.toList.foldlM (fun acc p => do
      let elt ← getCanonicalIgnoringNameMode acc.1 p.1
      addToAliasSet light env acc (← elt.applyCoercionExn p.2)) acc₀) fun acc =>
        Folding env acc₀.1 n eqs acc ∧
          ∀ p : ν × C, p ∈ names.toList → Agrees acc.1.pos (.name p.1) p.2 (.name n) := by
  refine Outcome.foldlM (I := fun done (acc : T ν κ C × Simple ν κ C) =>
    Folding env acc₀.1 n eqs acc ∧
      ∀ p : ν × C, p ∈ done → Agrees acc.1.pos (.name p.1) p.2 (.name n)) ?_ ?_
  · exact ⟨⟨hacc₀.inv, fun _ _ _ h => h, hacc₀.entails, hacc₀.canonical, hacc₀.agrees⟩,
      fun _ h => (nomatch h)⟩
  rintro done p rest acc hl ⟨hacc, hdone⟩
  rw [getCanonicalIgnoringNameMode_eq hacc.inv]
  refine (applyCoercionExn_outcome _ _ p.2).bind ?_
  rintro elt ⟨helement, hcoercion⟩
  have heqn := hnames p (by rw [hl]; simp)
  obtain ⟨helt, hback⟩ := canonical_entails hconsistent hacc.entails heqn helement hcoercion
  have hcanonical : acc.1.IsCanonical elt.element := helement ▸ hacc.inv.pos_fst _
  refine (addToAliasSet_outcome hconsistent hacc hcanonical helt).mono ?_
  rintro acc' ⟨hacc', hagrees⟩
  refine ⟨⟨hacc'.inv, fun a k b h => hacc'.keeps a k b (hacc.keeps a k b h), hacc'.entails,
    hacc'.canonical, hacc'.agrees⟩, fun q hq => ?_⟩
  rw [List.mem_append, List.mem_singleton] at hq
  rcases hq with hq | rfl
  · exact hacc'.keeps _ _ _ (hdone q hq)
  have hcentre := hacc'.keeps _ _ _ (hacc.inv.agrees_centre (.name q.1))
  rw [helement] at hagrees
  exact hcentre.trans hagrees hback

/-- Every equation of the set is in the stars afterwards, and all that is there is entailed. -/
theorem addAliasSet_outcome (hinv : Inv env t) {aliases : AliasSet ν κ C}
    (hconsistent : Consistent eqs)
    (hentails : ∀ a, Entails eqs a (t.pos a).2 (t.pos a).1)
    (hset : ∀ e ∈ aliases.equations n, e ∈ eqs) :
    Outcome Undefined (addAliasSet light env t n aliases) fun t' =>
      Inv env t' ∧ (∀ a k b, Agrees t.pos a k b → Agrees t'.pos a k b) ∧
        (∀ a, Entails eqs a (t'.pos a).2 (t'.pos a).1) ∧
        ∀ e ∈ aliases.equations n, Agrees t'.pos e.1 e.2.1 e.2.2 := by
  have hstart := folding_start (n := n) hinv hconsistent hentails
  have hnames : ∀ p ∈ aliases.names.toList, Entails eqs (.name p.1) p.2 (.name n) := by
    intro p hp
    refine .eqn (hset _ ?_)
    rw [AliasSet.equations, List.mem_append]
    exact .inr (mem_map.2 ⟨p, hp, rfl⟩)
  -- after the constant of the set
  have hrest : ∀ acc₀, Folding env t n eqs acc₀ →
      (∀ c, aliases.const = some c → Agrees acc₀.1.pos (.const c) unit (.name n)) →
      Outcome Undefined (do
        let result ← aliases.names.toList.foldlM (fun acc p => do
          let elt ← getCanonicalIgnoringNameMode acc.1 p.1
          addToAliasSet light env acc (← elt.applyCoercionExn p.2)) acc₀
        pure result.1) fun t' =>
          Inv env t' ∧ (∀ a k b, Agrees t.pos a k b → Agrees t'.pos a k b) ∧
            (∀ a, Entails eqs a (t'.pos a).2 (t'.pos a).1) ∧
            ∀ e ∈ aliases.equations n, Agrees t'.pos e.1 e.2.1 e.2.2 := by
    intro acc₀ hacc₀ hconst
    refine (addNames_outcome hconsistent hacc₀ aliases.names hnames).bind ?_
    rintro acc ⟨hacc, hagrees⟩
    refine .pure ⟨hacc.inv, fun a k b h => hacc.keeps a k b (hacc₀.keeps a k b h), hacc.entails, ?_⟩
    intro e he
    rw [AliasSet.equations, List.mem_append, mem_map, mem_map] at he
    rcases he with ⟨c, hc, rfl⟩ | ⟨p, hp, rfl⟩
    · exact hacc.keeps _ _ _ (hconst c (by simpa using hc))
    · exact hagrees p hp
  rw [addAliasSet, getCanonicalIgnoringNameMode_eq hinv]
  cases hconst : aliases.const with
  | none => exact hrest _ hstart fun c h => by rw [hconst] at h; cases h
  | some c =>
    have heqn : Entails eqs (.const c) unit (.name n) :=
      .eqn (hset _ (by simp [AliasSet.equations, hconst]))
    have hadd : Outcome Undefined (addToAliasSet light env _ (.const c)) _ :=
      addToAliasSet_outcome hconsistent hstart trivial heqn
    refine hadd.bind ?_
    rintro acc ⟨hacc, hagrees⟩
    refine hrest acc hacc fun c' h => ?_
    rw [hconst] at h
    cases h
    exact hagrees

/-! ## §4 Runs -/

theorem add_outcome (hinv : Inv env t) (h1 : t.IsCanonical s1.element)
    (h2 : t.IsCanonical s2.element) (hne : s1.element ≠ s2.element) :
    Outcome Undefined (add light env t s1 s2) fun result =>
      (result = .bottom ↔ ∃ c1 c2, s1 = .const c1 ∧ s2 = .const c2) ∧
        ∀ r, result = .ok r → ∃ K, compose s2.coercion (inverse s1.coercion) = some K ∧
          Merged env t r.t s2.element K s1.element := by
  refine (add0_outcome hinv h1 h2 hne).bind ?_
  rintro result ⟨K, hK, hadded⟩
  -- the coerced canonical element of the result
  have hresult : ∀ (t' : T ν κ C) (d : ν) (k : C) (s : Simple ν κ C),
      (¬ ∃ c1 c2, s1 = .const c1 ∧ s2 = .const c2) →
      Merged env t t' s2.element K s1.element →
      Outcome Undefined (do
        let canonicalElement ← s.applyCoercionExn (inverse k)
        pure (OrBottom.ok (⟨t', d, canonicalElement⟩ : AddResult ν κ C))) fun result =>
          (result = .bottom ↔ ∃ c1 c2, s1 = .const c1 ∧ s2 = .const c2) ∧
            ∀ r, result = .ok r → ∃ K, compose s2.coercion (inverse s1.coercion) = some K ∧
              Merged env t r.t s2.element K s1.element := by
    intro t' d k s hnames hmerged
    have hs : s = s.element.coerced s.coercion := by cases s <;> rfl
    rw [hs]
    refine (applyCoercionExn_outcome _ _ _).bind fun s' _ => .pure ⟨?_, ?_⟩
    · exact ⟨fun h => (nomatch h), fun h => absurd h hnames⟩
    intro r hr
    cases hr
    exact ⟨K, hK, hmerged⟩
  cases hadded with
  | @bottom c1 c2 he1 he2 =>
    refine .pure ⟨⟨fun _ => ⟨c1, c2, ?_⟩, fun _ => rfl⟩, fun r hr => by cases hr⟩
    cases s1 <;> cases s2 <;> cases he1 <;> cases he2
    exact ⟨rfl, rfl⟩
  | @demote1 t' d he1 _ hmerged =>
    cases s1 with
    | const c => cases he1
    | name n k => exact hresult t' n k s2 (by simp) hmerged
  | @demote2 t' d he2 _ hmerged =>
    cases s2 with
    | const c => cases he2
    | name n k => exact hresult t' n k s1 (by simp) hmerged

variable (light env) in
/-- The trackers that calls make from the empty one, with the equations of the calls: `add` has
two canonical elements, coerced; `add_alias_set` has no contradiction. -/
inductive Reachable : T ν κ C → List (Equation ν κ C) → Prop
  | empty : Reachable empty []
  | add {t : T ν κ C} {eqs : List (Equation ν κ C)} {s1 s2 : Simple ν κ C} {K : C}
      {r : AddResult ν κ C} :
      Reachable t eqs → t.IsCanonical s1.element → t.IsCanonical s2.element →
      s1.element ≠ s2.element → add light env t s1 s2 = .ok (.ok r) →
      compose s2.coercion (inverse s1.coercion) = some K →
      Reachable r.t ((s2.element, K, s1.element) :: eqs)
  | addAliasSet {t t' : T ν κ C} {eqs : List (Equation ν κ C)} {n : ν} {aliases : AliasSet ν κ C} :
      Reachable t eqs → Consistent (aliases.equations n ++ eqs) →
      addAliasSet light env t n aliases = .ok t' → Reachable t' (aliases.equations n ++ eqs)

/-- The stars are the classes of the equations. -/
structure RunInv (env : Env ν U) (t : T ν κ C) (eqs : List (Equation ν κ C)) : Prop where
  inv : Inv env t
  agrees : ∀ a k b, (a, k, b) ∈ eqs → Agrees t.pos a k b
  entails : ∀ a, Entails eqs a (t.pos a).2 (t.pos a).1

theorem RunInv.empty : RunInv env (empty : T ν κ C) [] where
  inv := inv_empty
  agrees a k b h := by cases h
  entails a := by
    have hcanonical : (Aliases.empty : T ν κ C).IsCanonical a := by
      cases a with
      | const c => trivial
      | name n => simp [T.IsCanonical, Aliases.empty]
    rw [hcanonical.pos_eq]
    exact .refl a

theorem Reachable.runInv (h : Reachable light env t eqs) : RunInv env t eqs := by
  induction h with
  | empty => exact .empty
  | @add t eqs s1 s2 K r _ h1 h2 hne hadd hK ih =>
    obtain ⟨K', hK', hmerged⟩ := ((add_outcome ih.inv h1 h2 hne).of_ok hadd).2 r rfl
    obtain rfl : K = K' := Option.some.inj (hK.symm.trans hK')
    refine ⟨hmerged.inv, fun a k b h => ?_, ?_⟩
    · rcases mem_cons.1 h with heq | hold
      · cases heq; exact hmerged.agrees
      · exact hmerged.keeps a k b (ih.agrees a k b hold)
    · refine hmerged.entails _ (fun a => ?_) (.eqn (by simp))
      exact (ih.entails a).mono fun e he => by simp [he]
  | @addAliasSet t t' eqs n aliases _ hconsistent hadd ih =>
    have hentails : ∀ a, Entails (aliases.equations n ++ eqs) a (t.pos a).2 (t.pos a).1 := fun a =>
      (ih.entails a).mono fun e he => by simp [he]
    obtain ⟨hinv, hkeeps, hpos, hset⟩ := (addAliasSet_outcome ih.inv hconsistent hentails
      fun e he => by simp [he]).of_ok hadd
    refine ⟨hinv, fun a k b h => ?_, hpos⟩
    rcases List.mem_append.1 h with hnew | hold
    · exact hset _ hnew
    · exact hkeeps a k b (ih.agrees a k b hold)

/-- The equations with the simple as an element of its own, `none`, which is the element of the
simple after its coercion. -/
def withSimple (eqs : List (Equation ν κ C)) (s : Simple ν κ C) :
    List (Option (Element ν κ) × C × Option (Element ν κ)) :=
  (some s.element, s.coercion, none) :: eqs.map fun e => (some e.1, e.2.1, some e.2.2)

/-- The stars with the element of the simple, at `q` from its centre. -/
def T.posWith (t : T ν κ C) (s : Simple ν κ C) (q : C) :
    Option (Element ν κ) → Option (Element ν κ) × C
  | none => (some (t.pos s.element).1, q)
  | some e => (some (t.pos e).1, (t.pos e).2)

theorem RunInv.entails_withSimple (hrun : RunInv env t eqs) {q : C}
    (hq : compose (inverse s.coercion) (t.pos s.element).2 = some q)
    (a : Element ν κ) (k : C) :
    Entails (withSimple eqs s) (some a) k none ↔
      (t.pos a).1 = (t.pos s.element).1 ∧ compose k q = some (t.pos a).2 := by
  have hlift : ∀ a k b, Entails eqs a k b → Entails (withSimple eqs s) (some a) k (some b) := by
    intro a k b h
    refine h.map some fun a k b hab => .eqn ?_
    rw [withSimple, mem_cons, mem_map]
    exact .inr ⟨(a, k, b), hab, rfl⟩
  have hiff : (∀ a k b, (a, k, b) ∈ withSimple eqs s → Agrees (t.posWith s q) a k b) →
      (∀ a, Entails (withSimple eqs s) a (t.posWith s q a).2 (t.posWith s q a).1) →
      (Entails (withSimple eqs s) (some a) k none ↔ Agrees (t.posWith s q) (some a) k none) :=
    Lib.entails_iff_agrees
  rw [hiff, Agrees, T.posWith, T.posWith]
  · simp
  · intro a k b hab
    rw [withSimple, mem_cons, mem_map] at hab
    rcases hab with heq | ⟨⟨x, l, y⟩, hx, heq⟩
    · cases heq; exact ⟨rfl, by simpa [T.posWith] using compose_cancel_left hq⟩
    cases heq
    obtain ⟨hcentre, hlabel⟩ := hrun.agrees x l y hx
    exact ⟨congrArg some hcentre, hlabel⟩
  intro a
  cases a with
  | some a => exact hlift _ _ _ (hrun.entails a)
  | none =>
    have hsimple : Entails (withSimple eqs s) (some s.element) s.coercion none :=
      .eqn List.mem_cons_self
    exact hsimple.symm.trans (hlift _ _ _ (hrun.entails s.element)) hq

/-- The alias tracker says exactly what the equations say. -/
structure Exact (light : Bool) (env : Env ν U) (t : T ν κ C) (eqs : List (Equation ν κ C)) :
    Prop where
  /-- The maps are inverse to each other. -/
  inverse : ∀ (n : ν) (s : Simple ν κ C) (k : C), t.canonicalElements[n]? = some (s, k) ↔
    ∃ e : Element ν κ, s = e.simple ∧ (t.aliasesOf e).all[n]? = some k
  /-- Every alias is under its own name mode. -/
  modes : ∀ (e : Element ν κ) mode n k, (t.aliasesOf e).At mode n k ↔
    (t.aliasesOf e).all[n]? = some k ∧ mode = env.computeNameModeUnscoped (.name n k : Simple ν κ C)
  /-- Canonical elements are not bound. -/
  canonical : ∀ (n m : ν) (c k : C), t.canonicalElements[n]? = some (.name m c, k) →
    t.canonicalElements[m]? = none
  keys : ∀ n : ν, t.aliasesOfCanonicalNames[n]? ≠ none → t.canonicalElements[n]? = none
  disjoint : ∀ (e e' : Element ν κ) (n : ν) (k k' : C), (t.aliasesOf e).all[n]? = some k →
    (t.aliasesOf e').all[n]? = some k' → e = e'
  irreflexive : ∀ n : ν, (t.aliasesOf (.name n)).all[n]? = none
  earlier : ∀ (n : ν) (s : Simple ν κ C) (k : C), t.canonicalElements[n]? = some (s, k) →
    env.definedEarlier (.name n unit) s = false
  /-- `get_aliases` returns what is entailed. -/
  related : ∀ s : Simple ν κ C, Outcome Undefined (getAliases t s) fun set =>
    (∀ (m : ν) (k : C), set.names[m]? = some k ↔
      Entails (withSimple eqs s) (some (.name m)) k none) ∧
    ∀ c, set.const = some c ↔ ∃ k, Entails (withSimple eqs s) (some (.const c)) k none
  /-- `add` is `Bottom` for two constants. -/
  bottom : ∀ s1 s2 : Simple ν κ C, t.IsCanonical s1.element → t.IsCanonical s2.element →
    s1.element ≠ s2.element → Outcome Undefined (add light env t s1 s2) fun result =>
      (result = .bottom ↔ ∃ c1 c2, s1 = .const c1 ∧ s2 = .const c2)

theorem reachable_exact (t : T ν κ C) (eqs : List (Equation ν κ C))
    (h : Reachable light env t eqs) : Exact light env t eqs := by
  have hrun := h.runInv
  have hinv := hrun.inv
  refine
    { inverse := fun n s k => ⟨fun h => ?_, ?_⟩
      modes := hinv.modes
      canonical := fun n m c k h => ?_
      keys := hinv.keys
      disjoint := fun e e' n k k' h h' => ?_
      irreflexive := fun n => ?_
      earlier := hinv.earlier
      related := fun s => ?_
      bottom := fun s1 s2 h1 h2 hne => (add_outcome hinv h1 h2 hne).mono fun _ h => h.1 }
  · have hbare := hinv.bare n s k h
    refine ⟨s.element, hbare, ?_⟩
    rw [← hinv.inverse, ← hbare, h]
  · rintro ⟨e, rfl, h⟩; rw [hinv.inverse, h]
  · have hbare := hinv.bare n _ k h
    rw [hbare] at h
    exact hinv.centre n m k h
  · rw [← hinv.inverse] at h h'
    rw [h] at h'
    exact Element.simple_injective (Prod.ext_iff.1 (Option.some.inj h')).1
  · by_contra hsome
    obtain ⟨k, hk⟩ := Option.ne_none_iff_exists'.1 hsome
    rw [← hinv.inverse] at hk
    have hnone := hinv.centre n n k hk
    rw [hk] at hnone
    cases hnone
  refine (getAliases_outcome hinv s).mono ?_
  rintro set ⟨q, hq, hnames, hconst⟩
  refine ⟨fun m k => ?_, fun c => ?_⟩
  · rw [hnames, hrun.entails_withSimple hq]
    refine and_congr_right fun _ => ⟨fun h => ?_, compose_cancel_right⟩
    simpa using compose_cancel_right h
  rw [hconst]
  simp only [hrun.entails_withSimple hq]
  constructor
  · intro h; exact ⟨Labels.inverse q, h.symm, LawfulLabels.inverse_compose q⟩
  · rintro ⟨k, h, -⟩; exact h.symm

section Examples

/-- Variables of one unit, defined in the order of their numbers. -/
def exampleEnv : Env ℕ ℕ where
  isSymbol _ := false
  compilationUnit _ := 0
  bindingTimesAndModes n := some (n + 3, .normal)
  bindingTimeResolver n := (n + 3, .normal)

theorem reachable_exact_aliases : ∃ (r : AddResult ℕ ℕ ℤˣ) (t : T ℕ ℕ ℤˣ),
    add true exampleEnv empty (.name 0 1) (.name 1 (-1)) = .ok (.ok r) ∧
    addAliasSet true exampleEnv r.t 2 ⟨none, {(1, 1)}⟩ = .ok t ∧
    Exact true exampleEnv t [(.name 1, 1, .name 2), (.name 1, -1, .name 0)] := by
  obtain ⟨r, t, hr, ht⟩ : ∃ (r : AddResult ℕ ℕ ℤˣ) (t : T ℕ ℕ ℤˣ),
      add true exampleEnv empty (.name 0 1) (.name 1 (-1)) = .ok (.ok r) ∧
      addAliasSet true exampleEnv r.t 2 ⟨none, {(1, 1)}⟩ = .ok t := ⟨_, _, rfl, rfl⟩
  refine ⟨r, t, hr, ht, reachable_exact t _ (.addAliasSet (.add .empty ?_ ?_ ?_ hr rfl) ?_ ht)⟩
  · rfl
  · rfl
  · decide
  let stars : Element ℕ ℕ → Element ℕ ℕ × ℤˣ := fun e => match e with
    | .const c => (.const c, 1)
    | .name n => if n = 1 ∨ n = 2 then (.name 0, -1) else (.name n, 1)
  refine .of_agrees stars ?_ (fun _ => rfl) ?_
  · intro a k b h
    have hmem : (a, k, b) ∈ ([(.name 1, 1, .name 2), (.name 1, -1, .name 0)] :
      List (Equation ℕ ℕ ℤˣ)) := h
    rw [mem_cons, List.mem_singleton] at hmem
    rcases hmem with heq | heq
    · cases heq; exact ⟨rfl, rfl⟩
    · cases heq; exact ⟨rfl, rfl⟩
  intro a c h
  cases a with
  | const c' => rfl
  | name n => dsimp only [stars] at h; split at h <;> cases h

/-- An equation between an element and itself is skipped, with its coercion; and the coercion to a
constant is lost. -/
theorem addAliasSet_forgets : (∃ (t : T ℕ ℕ ℤˣ) (set : AliasSet ℕ ℕ ℤˣ),
      addAliasSet true exampleEnv empty 0 ⟨none, {(0, -1)}⟩ = .ok t ∧
      getAliases t (.name 0 1) = .ok set ∧ set.names[0]? = some 1 ∧
      Entails (AliasSet.equations 0 (⟨none, {(0, -1)}⟩ : AliasSet ℕ ℕ ℤˣ))
        (.name 0) (-1) (.name 0)) ∧
    ∃ (r : AddResult ℕ ℕ ℤˣ) (t : T ℕ ℕ ℤˣ) (set : AliasSet ℕ ℕ ℤˣ),
      add true exampleEnv empty (.const 7) (.name 0 (-1)) = .ok (.ok r) ∧
      addAliasSet true exampleEnv r.t 1 ⟨none, {(0, 1)}⟩ = .ok t ∧
      getAliases t (.name 1 1) = .ok set ∧ set.names[0]? = some (-1 : ℤˣ) ∧
      Entails (AliasSet.equations 1 (⟨none, {(0, 1)}⟩ : AliasSet ℕ ℕ ℤˣ))
        (.name 0) 1 (.name 1) := by
  refine ⟨⟨_, _, rfl, rfl, rfl, .eqn ?_⟩, ⟨_, _, _, rfl, rfl, rfl, rfl, .eqn ?_⟩⟩
  · exact List.mem_singleton.2 rfl
  · exact List.mem_singleton.2 rfl

end Examples

end Oxcaml.Flambda2.Aliases
