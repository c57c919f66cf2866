/-
Oxcaml.Flambda2.AliasLookup — `get_canonical_element_exn` of the alias tracker.

The lookup returns the canonical element of a simple when its name mode is at
least `min_name_mode`, and else the earliest of the aliases of one of the name
modes that are. The aliases are in buckets by the mode that their binding gave
them; out of scope a variable has the mode `In_types`, so a bucket is filtered
before its earliest element is taken.

`Tracked` has every tracker that `add` and `add_alias_set` make while variables
are defined, contradictions included: the lookup needs no more than `Inv`.
`Not_found` is `none`.
-/
import Oxcaml.Flambda2.AliasesRuns

namespace Oxcaml.Flambda2.Aliases

set_option linter.all false

open Lib (Labels LawfulLabels Outcome Agrees)
open Lib.Labels (unit inverse compose)

variable {ν κ C U : Type} [LinearOrder ν] [LinearOrder κ] [DecidableEq C] [Labels C] [LinearOrder U]

/-! ## §1 The lookup -/

def NameMode.comparePartialOrder : NameMode → NameMode → Option Int
  | .normal, .normal | .phantom, .phantom | .inTypes, .inTypes => some 0
  | .normal, .phantom | .normal, .inTypes => some 1
  | .phantom, .normal | .inTypes, .normal => some (-1)
  | .phantom, .inTypes => some 1
  | .inTypes, .phantom => some (-1)

/-- The guard `match compare_partial_order t min with None -> false | Some c -> c >= 0`. -/
def NameMode.atLeast (t min : NameMode) : Bool :=
  match t.comparePartialOrder min with
  | none => false
  | some c => decide (0 ≤ c)

namespace BindingTime

def earliestVar : Nat := 3

def scopedNameMode (t : BindingTimeAndMode) (minBindingTime : Nat) : NameMode :=
  if t.1 < earliestVar ∨ minBindingTime ≤ t.1 then t.2 else .inTypes

end BindingTime

def Env.computeNameMode (env : Env ν U) (elt : Simple ν κ C) (minBindingTime : Nat) : NameMode :=
  BindingTime.scopedNameMode (env.bindingTimeAndNameMode elt) minBindingTime

def AliasesOfCanonicalElement.findEarliestCandidates (t : AliasesOfCanonicalElement ν C)
    (filterByScope : NameMode → MapToCanonical ν C → MapToCanonical ν C)
    (minNameMode : NameMode) : Option (MapToCanonical ν C) :=
  t.aliases.toList.foldl (fun resOpt p =>
    match resOpt with
    | some _ => resOpt
    | none =>
      if p.1.atLeast minNameMode then
        let aliases := filterByScope p.1 p.2
        if aliases.isEmpty then none else some aliases
      else none) none

/-- The local `filter_by_scope` of `find_earliest_alias`. -/
def filterByScope (env : Env ν U) (minBindingTime : Nat) (nameMode : NameMode)
    (names : MapToCanonical ν C) : MapToCanonical ν C :=
  if nameMode = .inTypes then names
  else names.filter fun n _ =>
    decide (nameMode = env.computeNameMode (.name n unit : Simple ν Unit C) minBindingTime)

/-- The fold over the candidates, from the first one. -/
def earliestBinding (env : Env ν U) (atEarliestMode : List (ν × C)) (minBinding : ν × C) : ν × C :=
  atEarliestMode.foldl
    (fun minBinding p => if env.nameDefinedEarlier p.1 minBinding.1 then p else minBinding)
    minBinding

def findEarliestAlias (env : Env ν U) (t : T ν κ C) (canonicalElement : Simple ν κ C)
    (minBindingTime : Nat) (minNameMode : NameMode) (coercionFromCanonicalToElement : C) :
    Except Exn (Option (Simple ν κ C)) := do
  let aliases ← getAliasesOfCanonicalElement t canonicalElement
  match aliases.findEarliestCandidates (filterByScope env minBindingTime) minNameMode with
  | none => pure none
  | some atEarliestMode =>
    match atEarliestMode.toList with
    | [] => throw .assertFailure
    | first :: rest =>
      let earliest := earliestBinding env (first :: rest) first
      let coercionFromEarliestToElement ← composeExn earliest.2 coercionFromCanonicalToElement
      some <$> (Simple.name earliest.1 unit).withCoercion coercionFromEarliestToElement

def getCanonicalElementExn (env : Env ν U) (t : T ν κ C) (element : Simple ν κ C)
    (eltNameMode minNameMode : NameMode) (minBindingTime : Nat) :
    Except Exn (Option (Simple ν κ C)) := do
  let found (canonicalElement : Simple ν κ C) (nameMode : NameMode)
      (coercionFromCanonicalToElement : C) : Except Exn (Option (Simple ν κ C)) := do
    assert (!canonicalElement.hasCoercion)
    if nameMode.atLeast minNameMode then
      some <$> canonicalElement.withCoercion coercionFromCanonicalToElement
    else
      findEarliestAlias env t canonicalElement minBindingTime minNameMode
        coercionFromCanonicalToElement
  match ← canonical t element with
  | .isCanonical =>
    if eltNameMode.atLeast minNameMode then pure (some element)
    else found element.withoutCoercion eltNameMode element.coercion
  | .aliasOfCanonical canonicalElement coercionToCanonical =>
    found canonicalElement (env.computeNameMode canonicalElement minBindingTime)
      (inverse coercionToCanonical)

/-! ## §2 Name modes, and the earliest candidate -/

theorem NameMode.atLeast_iff (t min : NameMode) : t.atLeast min = true ↔ min ≤ t := by
  cases t <;> cases min <;> decide

theorem NameMode.inTypes_le (t : NameMode) : inTypes ≤ t := by
  cases t <;> decide

/-- The scoped name mode of an element. -/
def Env.scopedMode (env : Env ν U) (e : Element ν κ) (minBindingTime : Nat) : NameMode :=
  match e with
  | .const c => env.computeNameMode (.const c : Simple ν κ Unit) minBindingTime
  | .name n => env.computeNameMode (.name n () : Simple ν κ Unit) minBindingTime

variable {env : Env ν U} {time : Nat}

theorem Env.computeNameMode_eq (s : Simple ν κ C) :
    env.computeNameMode s time = env.scopedMode s.element time := by
  cases s <;> rfl

/-- In scope, a name has the mode of its binding. -/
theorem Env.scopedMode_name (n : ν) : env.scopedMode (.name n : Element ν κ) time = env.mode n ∨
    env.scopedMode (.name n : Element ν κ) time = .inTypes := by
  rw [scopedMode, computeNameMode, BindingTime.scopedNameMode]
  split
  · exact .inl rfl
  · exact .inr rfl

/-- A fold that keeps the first result. -/
theorem foldl_first {α β : Type} {f : α → Option β} {g : Option β → α → Option β}
    (hsome : ∀ b a, g (some b) a = some b) (hnone : ∀ a, g none a = f a) (l : List α)
    (r : Option β) : l.foldl g r = r.or (l.findSome? f) := by
  induction l generalizing r with
  | nil => cases r <;> rfl
  | cons a l ih =>
    rw [List.foldl_cons, ih, List.findSome?_cons]
    cases r with
    | some b => rw [hsome]; rfl
    | none => rw [hnone]; cases f a <;> rfl

namespace AliasesOfCanonicalElement

variable {t : AliasesOfCanonicalElement ν C} {min : NameMode}
  {f : NameMode → MapToCanonical ν C → MapToCanonical ν C}

theorem findEarliestCandidates_eq : t.findEarliestCandidates f min =
    t.aliases.toList.findSome? fun p => if p.1.atLeast min then
      if (f p.1 p.2).isEmpty then none else some (f p.1 p.2) else none := by
  rw [findEarliestCandidates]
  exact foldl_first (fun _ _ => rfl) (fun _ => rfl) _ none

/-- The bucket that is taken. -/
theorem findEarliestCandidates_some {m : MapToCanonical ν C}
    (h : t.findEarliestCandidates f min = some m) :
    ∃ mode elts, t.aliases[mode]? = some elts ∧ min ≤ mode ∧ f mode elts = m ∧
      m.isEmpty = false := by
  rw [findEarliestCandidates_eq] at h
  obtain ⟨⟨mode, elts⟩, hmem, h⟩ := List.exists_of_findSome?_eq_some h
  split at h
  · rename_i hmode
    split at h
    · cases h
    rename_i hempty
    obtain rfl := Option.some.inj h
    exact ⟨mode, elts, Lib.mem_toList.1 hmem, (NameMode.atLeast_iff mode min).1 hmode, rfl,
      by simpa using hempty⟩
  · cases h

/-- No bucket has a candidate. -/
theorem findEarliestCandidates_none (h : t.findEarliestCandidates f min = none) {mode : NameMode}
    {elts : MapToCanonical ν C} (helts : t.aliases[mode]? = some elts) (hmin : min ≤ mode) :
    (f mode elts).isEmpty = true := by
  rw [findEarliestCandidates_eq, List.findSome?_eq_none_iff] at h
  have hmode := h (mode, elts) (Lib.mem_toList.2 helts)
  rw [if_pos ((NameMode.atLeast_iff mode min).2 hmin)] at hmode
  by_contra hempty
  rw [if_neg hempty] at hmode
  cases hmode

end AliasesOfCanonicalElement

variable (env) in
/-- The fold returns one of the bindings, and none is earlier. -/
theorem earliestBinding_spec (l : List (ν × C)) (p : ν × C) : earliestBinding env l p ∈ p :: l ∧
      ∀ p' ∈ p :: l, env.nameKey (earliestBinding env l p).1 ≤ env.nameKey p'.1 := by
  induction l generalizing p with
  | nil => simp [earliestBinding]
  | cons a l ih =>
    have hstep : earliestBinding env (a :: l) p =
        earliestBinding env l (if env.nameDefinedEarlier a.1 p.1 then a else p) := rfl
    rw [hstep]
    by_cases h : env.nameDefinedEarlier a.1 p.1 = true
    · rw [if_pos h]
      obtain ⟨hmem, hle⟩ := ih a
      rw [Env.nameDefinedEarlier_iff] at h
      refine ⟨List.mem_cons_of_mem p hmem, fun p' hp' => ?_⟩
      rcases List.mem_cons.1 hp' with rfl | hp'
      · exact (hle a List.mem_cons_self).trans h.le
      · exact hle p' hp'
    rw [if_neg h]
    obtain ⟨hmem, hle⟩ := ih p
    rw [Env.nameDefinedEarlier_iff, not_lt] at h
    refine ⟨by grind, fun p' hp' => ?_⟩
    rcases List.mem_cons.1 hp' with rfl | hp'
    · exact hle p' List.mem_cons_self
    rcases List.mem_cons.1 hp' with rfl | hp'
    · exact (hle p List.mem_cons_self).trans h
    · exact hle p' (List.mem_cons_of_mem p hp')

variable {mode : NameMode}

/-- The elements that are left in a bucket. -/
theorem getElem?_filterByScope {elts : MapToCanonical ν C} {n : ν} {k : C} :
    (filterByScope env time mode elts)[n]? = some k ↔ elts[n]? = some k ∧
      (mode ≠ .inTypes → mode = env.scopedMode (.name n : Element ν κ) time) := by
  rw [filterByScope]
  by_cases hmode : mode = .inTypes
  · simp [hmode]
  rw [if_neg hmode, ← Lib.mem_toList, Std.ExtTreeMap.toList_filter, List.mem_filter,
    Lib.mem_toList, decide_eq_true_eq]
  exact and_congr_right fun _ => ⟨fun h _ => h, fun h => h hmode⟩

/-! ## §3 What a tracker equates -/

/-- The element coerced by `k` is the simple. -/
def T.Way (t : T ν κ C) (a : Element ν κ) (k : C) (s : Simple ν κ C) : Prop :=
  (t.pos a).1 = (t.pos s.element).1 ∧
    ∃ q, compose (inverse s.coercion) (t.pos s.element).2 = some q ∧ compose k q = some (t.pos a).2

/-- The tracker says that the two are equal. Constants have no coercion. -/
def T.Equates (t : T ν κ C) (r s : Simple ν κ C) : Prop :=
  ∃ k, t.Way r.element k s ∧ (r.isConst = false → r.coercion = k)

variable [LawfulLabels C] {light : Bool} {t t' : T ν κ C} {s : Simple ν κ C}

/-! ## §4 Trackers -/

/-- The name is an alias, or has one. -/
def T.Mentions (t : T ν κ C) (n : ν) : Prop :=
  t.canonicalElements[n]? ≠ none ∨ ∃ (m : ν) (k : C),
    t.canonicalElements[m]? = some (.name n unit, k)

/-- What is known of a name is the same. -/
structure Env.SameAt (env env' : Env ν U) (n : ν) : Prop where
  isSymbol : env'.isSymbol n = env.isSymbol n
  compilationUnit : env'.compilationUnit n = env.compilationUnit n
  bindingTimesAndModes : env'.bindingTimesAndModes n = env.bindingTimesAndModes n
  bindingTimeResolver : env'.bindingTimeResolver n = env.bindingTimeResolver n

variable (light) in
/-- The trackers that calls make from the empty one, while other names are defined. `add` has two
canonical elements, coerced; `add_alias_set` may have any set. -/
inductive Tracked : Env ν U → T ν κ C → Prop
  | empty (env : Env ν U) : Tracked env empty
  | define {env env' : Env ν U} {t : T ν κ C} : Tracked env t →
      (∀ n, t.Mentions n → env.SameAt env' n) → Tracked env' t
  | add {env : Env ν U} {t : T ν κ C} {s1 s2 : Simple ν κ C} {r : AddResult ν κ C} :
      Tracked env t → t.IsCanonical s1.element → t.IsCanonical s2.element →
      s1.element ≠ s2.element → add light env t s1 s2 = .ok (.ok r) → Tracked env r.t
  | addAliasSet {env : Env ν U} {t t' : T ν κ C} {n : ν} {aliases : AliasSet ν κ C} :
      Tracked env t → addAliasSet light env t n aliases = .ok t' → Tracked env t'

theorem Inv.define {env' : Env ν U} (hinv : Inv env t)
    (hsame : ∀ n, t.Mentions n → env.SameAt env' n) : Inv env' t where
  bare := hinv.bare
  inverse := hinv.inverse
  centre := hinv.centre
  keys := hinv.keys
  modes e mode n k := by
    rw [hinv.modes e mode n k]
    refine and_congr_right fun hk => ?_
    rw [← hinv.inverse] at hk
    obtain ⟨hsymbol, -, htimes, -⟩ := hsame n (.inl (by rw [hk]; exact Option.some_ne_none _))
    have hmode : env'.mode n = env.mode n := by
      simp only [Env.mode, Env.computeNameModeUnscoped, Env.bindingTimeAndNameMode, hsymbol, htimes]
    rw [hmode]
  earlier n s k h := by
    have hearlier := hinv.earlier n s k h
    cases s with
    | const c => rfl
    | name m c =>
      obtain ⟨hsymbol, hunit, htimes, hresolver⟩ :=
        hsame n (.inl (by rw [h]; exact Option.some_ne_none _))
      rw [hinv.bare n _ k h] at h
      obtain ⟨hsymbol', hunit', htimes', hresolver'⟩ := hsame m (.inr ⟨n, k, h⟩)
      simp only [Env.definedEarlier, Env.nameDefinedEarlier, Env.bindingTime, hsymbol, hunit,
        htimes, hresolver, hsymbol', hunit', htimes', hresolver'] at hearlier ⊢
      exact hearlier

/-- The tracker has the invariant, and the element is canonical in it. -/
def Adding (env : Env ν U) (acc : T ν κ C × Simple ν κ C) : Prop :=
  Inv env acc.1 ∧ acc.1.IsCanonical acc.2.element

variable (light) in
theorem addToAliasSet_inv {acc : T ν κ C × Simple ν κ C} (hacc : Adding env acc)
    {elt : Simple ν κ C} (helt : acc.1.IsCanonical elt.element) :
    Outcome (fun _ => True) (addToAliasSet light env acc elt) (Adding env) := by
  rw [addToAliasSet]
  split
  · exact .pure hacc
  rename_i hother
  have hne : acc.2.element ≠ elt.element := by
    intro heq
    rw [Simple.withoutCoercion_eq, Simple.withoutCoercion_eq, heq] at hother
    exact hother rfl
  refine (add0_outcome hacc.1 hacc.2 helt hne).anyError.bind ?_
  rintro result ⟨K, -, hadded⟩
  cases hadded with
  | bottom _ _ => trivial
  | demote1 _ hcanonical hmerged
  | demote2 _ hcanonical hmerged => exact .pure ⟨hmerged.inv, hcanonical⟩

theorem addAliasSet_inv (hinv : Inv env t) (n : ν) (aliases : AliasSet ν κ C) :
    Outcome (fun _ => True) (addAliasSet light env t n aliases) (Inv env) := by
  have hrest : ∀ acc₀ : T ν κ C × Simple ν κ C, Adding env acc₀ → Outcome (fun _ => True) (do
      let result ← aliases.names.toList.foldlM (fun acc p => do
        let elt ← getCanonicalIgnoringNameMode acc.1 p.1
        addToAliasSet light env acc (← elt.applyCoercionExn p.2)) acc₀
      pure result.1) (Inv env) := by
    intro acc₀ hacc₀
    refine Outcome.bind (Q := Adding env) ?_ fun acc hacc => .pure hacc.1
    refine Outcome.foldlM (I := fun _ => Adding env) hacc₀ fun _ p _ acc _ hacc => ?_
    rw [getCanonicalIgnoringNameMode_eq hacc.1]
    refine (applyCoercionExn_outcome _ _ p.2).anyError.bind ?_
    rintro elt ⟨helement, -⟩
    exact addToAliasSet_inv light hacc (helement ▸ hacc.1.pos_fst _)
  have hstart : Adding env (t, (t.pos (.name n)).1.coerced (inverse (t.pos (.name n)).2)) := by
    refine ⟨hinv, ?_⟩
    rw [Element.element_coerced]
    exact hinv.pos_fst _
  rw [addAliasSet, getCanonicalIgnoringNameMode_eq hinv]
  cases aliases.const with
  | none => exact hrest _ hstart
  | some c =>
    have hadd := addToAliasSet_inv light hstart
      (show t.IsCanonical (Simple.const c : Simple ν κ C).element from trivial)
    exact hadd.bind hrest

theorem Tracked.inv (h : Tracked light env t) : Inv env t := by
  induction h with
  | empty env => exact inv_empty
  | define _ hsame ih => exact ih.define hsame
  | add _ h1 h2 hne hadd ih =>
    obtain ⟨K, -, hmerged⟩ := ((add_outcome ih h1 h2 hne).of_ok hadd).2 _ rfl
    exact hmerged.inv
  | addAliasSet _ hadd ih => exact (addAliasSet_inv ih _ _).of_ok hadd

/-! ## §5 What the lookup returns -/

/-- No coercion leads from one of the elements of the class to the simple. -/
def Unreached (t : T ν κ C) (s : Simple ν κ C) (e : Exn) : Prop :=
  e = .composition ∧ ∃ a, (t.pos a).1 = (t.pos s.element).1 ∧ ∀ k, ¬ t.Way a k s

/-- The answer `r` to a lookup of `s`. -/
structure Best (env : Env ν U) (t : T ν κ C) (s : Simple ν κ C) (minNameMode : NameMode)
    (minBindingTime : Nat) (r : Simple ν κ C) : Prop where
  equated : t.Equates r s
  qualifies : minNameMode ≤ env.computeNameMode r minBindingTime
  canonical : minNameMode ≤ env.scopedMode (t.pos s.element).1 minBindingTime →
    r.element = (t.pos s.element).1
  earliest : ¬ minNameMode ≤ env.scopedMode (t.pos s.element).1 minBindingTime →
    ∀ a : Element ν κ, (t.pos a).1 = (t.pos s.element).1 →
      minNameMode ≤ env.scopedMode a minBindingTime →
      env.scopedMode a minBindingTime = env.computeNameMode r minBindingTime →
      env.definedEarlier (a.simple : Simple ν κ C) r = false

/-- `Not_found` says that nothing in the class qualifies. -/
def Answers (env : Env ν U) (t : T ν κ C) (s : Simple ν κ C) (minNameMode : NameMode)
    (minBindingTime : Nat) : Option (Simple ν κ C) → Prop
  | some r => Best env t s minNameMode minBindingTime r
  | none => ∀ a : Element ν κ, (t.pos a).1 = (t.pos s.element).1 →
      ¬ minNameMode ≤ env.scopedMode a minBindingTime

variable {min : NameMode} {q : C}

/-- The canonical element does not qualify: `q` is the coercion from the simple to it. -/
theorem findEarliestAlias_outcome (hinv : Inv env t)
    (hq : compose (inverse s.coercion) (t.pos s.element).2 = some q)
    (hmin : ¬ min ≤ env.scopedMode (t.pos s.element).1 time) :
    Outcome (Unreached t s)
      (findEarliestAlias env t (t.pos s.element).1.simple time min (inverse q))
      (Answers env t s min time) := by
  have hcanonical := hinv.pos_fst s.element
  generalize hcentre : (t.pos s.element).1 = e at hmin hcanonical
  have hinTypes : min ≠ .inTypes := fun h => hmin (h ▸ NameMode.inTypes_le _)
  -- a qualifying element of the class is in the bucket of its mode
  have hmember : ∀ a : Element ν κ, (t.pos a).1 = e → min ≤ env.scopedMode a time →
      ∃ n k, a = .name n ∧ (t.aliasesOf e).At (env.scopedMode a time) n k := by
    intro a ha hmode
    cases a with
    | const c => rw [show e = .const c from ha.symm] at hmin; exact absurd hmode hmin
    | name n =>
      have hne : e ≠ .name n := fun h => hmin (h ▸ hmode)
      have hk := (hinv.pos_eq_iff (k := (t.pos (.name n)).2) hne).1 (Prod.ext ha rfl)
      refine ⟨n, _, rfl, (hinv.modes e _ n _).2 ⟨hk, ?_⟩⟩
      have hscope : env.scopedMode (.name n : Element ν κ) time = env.mode n ∨
          env.scopedMode (.name n : Element ν κ) time = .inTypes := env.scopedMode_name n
      rcases hscope with h | h
      · exact h
      · rw [h] at hmode; exact absurd (le_antisymm hmode (NameMode.inTypes_le _)) hinTypes
  rw [findEarliestAlias, getAliasesOfCanonicalElement_eq]
  change Outcome (Unreached t s)
    (match (t.aliasesOf e).findEarliestCandidates (filterByScope env time) min with
      | none => pure none
      | some atEarliestMode => _) _
  cases hfound : (t.aliasesOf e).findEarliestCandidates (filterByScope env time) min with
  | none =>
    refine .pure fun a ha hmode => ?_
    rw [hcentre] at ha
    obtain ⟨n, k, rfl, elts, helts, hk⟩ := hmember a ha hmode
    have hempty := AliasesOfCanonicalElement.findEarliestCandidates_none hfound helts hmode
    rw [Std.ExtTreeMap.isEmpty_iff] at hempty
    have hin : (filterByScope env time _ elts)[n]? = some k :=
      (getElem?_filterByScope (κ := κ)).2 ⟨hk, fun _ => rfl⟩
    rw [hempty] at hin
    cases hin
  | some m =>
    obtain ⟨mode, elts, helts, hmode, rfl, hempty⟩ :=
      AliasesOfCanonicalElement.findEarliestCandidates_some hfound
    have hnotInTypes : mode ≠ .inTypes := by
      rintro rfl
      exact hinTypes (le_antisymm hmode (NameMode.inTypes_le _))
    dsimp only
    cases hlist : (filterByScope env time mode elts).toList with
    | nil =>
      rw [Std.ExtTreeMap.toList_eq_nil_iff] at hlist
      rw [hlist] at hempty
      cases hempty
    | cons first rest =>
      dsimp only
      obtain ⟨hmem, hle⟩ := earliestBinding_spec env (first :: rest) first
      generalize earliestBinding env (first :: rest) first = earliest at hmem hle
      obtain ⟨n, k⟩ := earliest
      have hin : (n, k) ∈ (filterByScope env time mode elts).toList := by
        rw [hlist]
        simpa using hmem
      obtain ⟨hk, hscope⟩ := (getElem?_filterByScope (κ := κ)).1 (Lib.mem_toList.1 hin)
      have hscoped := hscope hnotInTypes
      have hne : e ≠ .name n := fun h => hmin (h ▸ hscoped ▸ hmode)
      have hpos : t.pos (.name n) = (e, k) :=
        (hinv.pos_eq_iff hne).2 ((hinv.modes e mode n k).1 ⟨elts, helts, hk⟩).1
      cases hcompose : compose k (inverse q) with
      | none =>
        rw [composeExn, hcompose]
        refine ⟨rfl, .name n, ?_, ?_⟩
        · rw [hpos, hcentre]
        rintro k' ⟨-, q', hq', hk'⟩
        obtain rfl : q = q' := Option.some.inj (hq.symm.trans hq')
        rw [hpos] at hk'
        rw [Lib.compose_cancel_right hk'] at hcompose
        cases hcompose
      | some k' =>
        rw [composeExn, hcompose]
        change Outcome (Unreached t s) (some <$> (Simple.name n unit).withCoercion k') _
        rw [withCoercion_bare]
        refine .pure ⟨⟨k', ⟨?_, q, hq, ?_⟩, fun _ => rfl⟩, ?_, ?_, ?_⟩
        · rw [Simple.element, hpos, hcentre]
        · rw [Simple.element, hpos]; simpa using Lib.compose_cancel_right hcompose
        · rw [Env.computeNameMode_eq, Simple.element, ← hscoped]; exact hmode
        · rw [hcentre]; exact fun h => absurd h hmin
        intro _ a ha hamode heq
        rw [hcentre] at ha
        obtain ⟨m, l, rfl, elts', helts', hl⟩ := hmember a ha hamode
        rw [heq, Env.computeNameMode_eq, Simple.element, ← hscoped, helts] at helts'
        obtain rfl := Option.some.inj helts'
        have hcandidate : (filterByScope env time mode elts)[m]? = some l :=
          (getElem?_filterByScope (κ := κ)).2 ⟨hl, fun _ => by
            rw [heq, Env.computeNameMode_eq, Simple.element, ← hscoped]⟩
        rw [← Lib.mem_toList, hlist] at hcandidate
        have hnot := hle _ (List.mem_cons_of_mem _ hcandidate)
        rw [Bool.eq_false_iff, ne_eq, Env.definedEarlier_iff, Env.key, Element.simple, Env.key,
          WithBot.coe_lt_coe, not_lt]
        exact hnot

theorem withCoercion_simple (e : Element ν κ) (k : C) :
    (e.simple : Simple ν κ C).withCoercion k = .ok (e.coerced k) := by
  cases e with
  | const c => rw [Element.simple, Simple.withCoercion, if_pos (.inr rfl)]; rfl
  | name n => exact withCoercion_bare n k

/-- The canonical element qualifies. -/
theorem best_canonical (hinv : Inv env t)
    (hq : compose (inverse s.coercion) (t.pos s.element).2 = some q)
    (hmin : min ≤ env.scopedMode (t.pos s.element).1 time) :
    Best env t s min time ((t.pos s.element).1.coerced (inverse q)) := by
  have hcentre := (hinv.pos_fst s.element).pos_eq
  refine ⟨⟨inverse q, ⟨?_, q, hq, ?_⟩, fun hname => ?_⟩, ?_, fun _ => ?_, fun h => absurd hmin h⟩
  · rw [Element.element_coerced, hcentre]
  · rw [Element.element_coerced, hcentre]; exact LawfulLabels.inverse_compose q
  · cases h : (t.pos s.element).1 with
    | const c => rw [h] at hname; cases hname
    | name n => rfl
  · rw [Env.computeNameMode_eq, Element.element_coerced]; exact hmin
  · exact Element.element_coerced _ _

variable (time min) in
/-- The canonical element when it qualifies, and else the earliest alias. -/
theorem found_outcome (hinv : Inv env t) (hmode : mode = env.scopedMode (t.pos s.element).1 time)
    (hq : compose (inverse s.coercion) (t.pos s.element).2 = some q) :
    Outcome (Unreached t s) (do
      assert (!((t.pos s.element).1.simple : Simple ν κ C).hasCoercion)
      if mode.atLeast min then
        some <$> ((t.pos s.element).1.simple : Simple ν κ C).withCoercion (inverse q)
      else findEarliestAlias env t (t.pos s.element).1.simple time min (inverse q))
      (Answers env t s min time) := by
  rw [Element.hasCoercion_simple, assert_true (by rfl)]
  change Outcome (Unreached t s) (if mode.atLeast min = true then _ else _) _
  split
  · rename_i hleast
    rw [NameMode.atLeast_iff, hmode] at hleast
    rw [withCoercion_simple]
    exact .pure (best_canonical hinv hq hleast)
  rename_i hleast
  rw [NameMode.atLeast_iff, hmode] at hleast
  exact findEarliestAlias_outcome hinv hq hleast

/-- The lookup in a tracker, with the name mode of the simple. -/
theorem getCanonicalElementExn_answers (h : Tracked light env t) (s : Simple ν κ C)
    (minNameMode : NameMode) (minBindingTime : Nat) :
    Outcome (Unreached t s)
      (getCanonicalElementExn env t s (env.computeNameMode s minBindingTime) minNameMode
        minBindingTime) (Answers env t s minNameMode minBindingTime) := by
  have hinv := h.inv
  have hcanonical : t.IsCanonical s.element → canonical t s = .ok .isCanonical →
      Outcome (Unreached t s)
        (getCanonicalElementExn env t s (env.computeNameMode s minBindingTime) minNameMode
          minBindingTime) (Answers env t s minNameMode minBindingTime) := by
    intro hs heq
    have hpos := hs.pos_eq
    have hq : compose (inverse s.coercion) (t.pos s.element).2 = some (inverse s.coercion) := by
      rw [hpos]
      exact LawfulLabels.compose_unit _
    have hfound := found_outcome minBindingTime minNameMode hinv rfl hq
    have hmode : env.computeNameMode s minBindingTime =
        env.scopedMode (t.pos s.element).1 minBindingTime := by
      rw [hpos, Env.computeNameMode_eq]
    rw [getCanonicalElementExn, heq, hmode]
    change Outcome (Unreached t s) (if (env.scopedMode (t.pos s.element).1 minBindingTime).atLeast
      minNameMode = true then pure (some s) else _) _
    split
    · rename_i hleast
      rw [NameMode.atLeast_iff] at hleast
      have hbest := best_canonical hinv hq hleast
      have hself : (t.pos s.element).1.coerced (inverse (inverse s.coercion)) = s := by
        rw [hpos, Lib.inverse_inverse]
        cases s <;> rfl
      rw [hself] at hbest
      exact .pure hbest
    rename_i hleast
    rw [if_neg hleast, hpos, Lib.inverse_inverse, ← Simple.withoutCoercion_eq] at hfound
    exact hfound
  cases s with
  | const c => exact hcanonical trivial rfl
  | name n c =>
    cases hn : t.canonicalElements[n]? with
    | none => exact hcanonical hn (by rw [canonical, hn]; rfl)
    | some p =>
      obtain ⟨s, p⟩ := p
      have hbare := hinv.bare n s p hn
      have hpos := T.pos_of_some hn
      rw [getCanonicalElementExn, canonical, hn]
      dsimp only
      cases hcompose : compose (inverse c) p with
      | none =>
        rw [composeExn, hcompose]
        refine ⟨rfl, .name n, rfl, ?_⟩
        rintro k ⟨-, q, hq, -⟩
        rw [Simple.element, hpos, Simple.coercion, hcompose] at hq
        cases hq
      | some q =>
        rw [composeExn, hcompose]
        have hfound := found_outcome (s := .name n c) minBindingTime minNameMode
          (q := q) hinv rfl (by rw [Simple.element, hpos]; exact hcompose)
        rw [Simple.element, hpos, ← hbare, ← Env.computeNameMode_eq] at hfound
        exact hfound

/-- An alias of a variable that is out of scope. -/
theorem getCanonicalElementExn_answers_scope : ∃ r : AddResult ℕ ℕ ℤˣ,
    add true exampleEnv empty (.name 0 1) (.name 1 (-1)) = .ok (.ok r) ∧
    Outcome (Unreached r.t (.name 0 1)) (getCanonicalElementExn exampleEnv r.t (.name 0 1)
        (exampleEnv.computeNameMode (.name 0 1 : Simple ℕ ℕ ℤˣ) 4) .normal 4)
      (Answers exampleEnv r.t (.name 0 1) .normal 4) := by
  obtain ⟨r, hr⟩ : ∃ r : AddResult ℕ ℕ ℤˣ,
      add true exampleEnv empty (.name 0 1) (.name 1 (-1)) = .ok (.ok r) := ⟨_, rfl⟩
  have hcanonical : ∀ s : Simple ℕ ℕ ℤˣ, (empty : T ℕ ℕ ℤˣ).IsCanonical s.element :=
    fun s => by
      cases s with
      | const c => trivial
      | name n c => rfl
  have htracked : Tracked true exampleEnv r.t :=
    .add (.empty _) (hcanonical _) (hcanonical _) (by decide) hr
  exact ⟨r, hr, getCanonicalElementExn_answers htracked _ _ _⟩

end Oxcaml.Flambda2.Aliases
