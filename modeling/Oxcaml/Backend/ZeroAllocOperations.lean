/-
Oxcaml.Backend.ZeroAllocOperations — the operations on symbolic values.

What matters about the members of a join is whether one is live, whether one is
`Top`, whether one has witnesses and whether there is one: four `Facet`s. Each
operation on `Args` says, for every facet, which members the result has (§1), and
from that what the facets of a product are (§2).
-/
import Oxcaml.Backend.ZeroAllocDomainTheorems

namespace Oxcaml.Backend.ZeroAlloc

open Transform (key_addTop varWithTop)

set_option linter.all false

variable {ν ω : Type} [LinearOrder ν] [DecidableEq ω] {config : Config ω}

/-! ## §1 Members -/

/-- A property that a variable or a transform can have. -/
structure Facet (ν ω : Type) [LinearOrder ν] [DecidableEq ω] where
  var : ν → Witnesses ω → Prop
  tr : Transform ν ω → Prop
  lasting_var : Vars.Lasting var
  lasting_tr : Transform.Lasting tr

namespace Facet

variable (ρ : ν → Level)

def live : Facet ν ω :=
  ⟨fun x _ => ρ x ≠ .bot, Transform.live ρ, Vars.lasting_var _, Transform.lasting_live ρ⟩

def tops : Facet ν ω :=
  ⟨fun x _ => ρ x = .top, Transform.tops ρ, Vars.lasting_var _, Transform.lasting_tops ρ⟩

def witnesses : Facet ν ω :=
  ⟨fun _ w => w ≠ ∅, fun tr => tr.hasWitnesses = true, Vars.lasting_witnesses,
    Transform.lasting_hasWitnesses⟩

/-- There is a member. -/
def any : Facet ν ω :=
  ⟨fun _ _ => True, fun _ => True, Vars.lasting_var _, Transform.lasting_true⟩

section

variable {ρ} {x : ν} {w : Witnesses ω} {tr : Transform ν ω}

@[simp] theorem live_var : (live ρ).var x w ↔ ρ x ≠ .bot := Iff.rfl

@[simp] theorem live_tr : (live ρ).tr tr ↔ tr.live ρ := Iff.rfl

@[simp] theorem tops_var : (tops ρ).var x w ↔ ρ x = .top := Iff.rfl

@[simp] theorem tops_tr : (tops ρ).tr tr ↔ tr.tops ρ := Iff.rfl

end

end Facet

variable {b new tr : Transform ν ω}

theorem Transform.Covers.trans {a c : Transform ν ω} (h : a.Covers b) (h' : b.Covers c) :
    a.Covers c :=
  ⟨fun hc => h.top (h'.top hc), fun hc => h.witnesses (h'.witnesses hc)⟩

theorem Transform.covers_flatten {a : Transform ν ω} :
    new.Covers (a.flatten b) ↔ new.Covers a ∧ new.Covers b := by
  constructor
  · intro h
    exact ⟨⟨fun ha => h.top ((getTop_flatten a b).2 (.inl ha)),
        fun ha => h.witnesses ((hasWitnesses_flatten a b).2 (.inl ha))⟩,
      ⟨fun hb => h.top ((getTop_flatten a b).2 (.inr hb)),
        fun hb => h.witnesses ((hasWitnesses_flatten a b).2 (.inr hb))⟩⟩
  rintro ⟨ha, hb⟩
  exact ⟨fun h => ((getTop_flatten a b).1 h).elim ha.top hb.top,
    fun h => ((hasWitnesses_flatten a b).1 h).elim ha.witnesses hb.witnesses⟩

/-- A transform that `new` would replace and not cover. -/
def Facet.lost (new : Transform ν ω) : Facet ν ω where
  var _ _ := False
  tr old := old.key = new.key ∧ ¬ new.Covers old
  lasting_var := Vars.lasting_var _
  lasting_tr :=
    { flatten := fun {a b} h => by
        rw [Transforms.key_flatten h, Transform.covers_flatten, h]
        tauto
      cover := fun h hcover hold => ⟨h ▸ hold.1, fun hnew => hold.2 (hnew.trans hcover)⟩ }

namespace Args

/-- Some member has the facet. -/
def Has (F : Facet ν ω) (a : Args ν ω) : Prop :=
  a.vars.Any F.var ∨ ∃ tr ∈ a.trs.elements, F.tr tr

def WellKeyed (a : Args ν ω) : Prop := a.trs.WellKeyed

variable {a : Args ν ω}

theorem addKeeps_iff : a.trs.AddKeeps new ↔ ¬ a.Has (.lost new) := by
  constructor
  · rintro h (⟨_, _, _, hfalse⟩ | ⟨old, hold, hkey, hnot⟩)
    · exact hfalse
    · exact hnot (h old hold hkey)
  intro h old hold hkey
  by_contra hnot
  exact h (.inr ⟨old, hold, hkey, hnot⟩)

theorem hasWitnesses_iff : a.hasWitnesses = true ↔ a.Has .witnesses := by
  rw [hasWitnesses, Bool.or_eq_true, Vars.hasWitnesses_iff, List.any_eq_true]
  rfl

theorem has_empty (F : Facet ν ω) : ¬ (empty : Args ν ω).Has F := by
  rintro (⟨x, w, h, -⟩ | ⟨tr, h, -⟩)
  · simp [empty] at h
  · obtain ⟨key, hkey⟩ := Transforms.mem_elements.1 h; simp [empty] at hkey

theorem wellKeyed_empty : (empty : Args ν ω).WellKeyed := Transforms.wellKeyed_empty

theorem has_addVar (F : Facet ν ω) (a : Args ν ω) (x : ν) (w : Witnesses ω) :
    (a.addVar x w).Has F ↔ a.Has F ∨ F.var x w := by
  rw [Has, addVar, Vars.any_update F.lasting_var]
  exact or_right_comm

/-- What an operation on `Args` returns: the facets that hold of a member. -/
def Holds (a : Args ν ω) (p : Facet ν ω → Prop) : Prop :=
  a.WellKeyed ∧ ∀ F, a.Has F ↔ p F

theorem keeps_of_distinct {l : List (Transform ν ω)} (h : l.Pairwise fun a b => a.key ≠ b.key) :
    Keeps l :=
  h.imp fun hne heq => absurd heq hne

theorem distinct_vars (t : Vars ν ω) : t.toList.Pairwise fun p q => p.1 ≠ q.1 :=
  Std.ExtTreeMap.distinct_keys_toList.imp fun h heq => h (compare_eq_iff_eq.2 heq)

variable {t : Transforms ν ω}

theorem distinct_elements (h : t.WellKeyed) : t.elements.Pairwise fun a b => a.key ≠ b.key := by
  refine List.pairwise_map.2 (Std.ExtTreeMap.distinct_keys_toList.imp_of_mem ?_)
  rintro ⟨key, tr⟩ ⟨key', tr'⟩ hmem hmem' hne heq
  have h1 := (h key tr (Std.ExtTreeMap.mem_toList_iff_getElem?_eq_some.1 hmem)).1
  have h2 := (h key' tr' (Std.ExtTreeMap.mem_toList_iff_getElem?_eq_some.1 hmem')).1
  refine hne (Std.LawfulEqCmp.compare_eq_iff_eq.2 ?_)
  exact h1.trans (Eq.trans heq h2.symm)

theorem key_ne_nil (h : t.WellKeyed) (htr : tr ∈ t.elements) : tr.key ≠ [] := by
  obtain ⟨key, hkey⟩ := Transforms.mem_elements.1 htr
  obtain ⟨rfl, hne⟩ := h key tr hkey
  exact hne

/-- The transform of two different variables. -/
def pair (y : ν) (w1 : Witnesses ω) (x : ν) (w : Witnesses ω) : Transform ν ω :=
  .args ((Vars.singleton y w1).update x w)

theorem mem_key_pair (y : ν) (w1 : Witnesses ω) (x : ν) (w : Witnesses ω) (z : ν) :
    z ∈ (pair y w1 x w).key ↔ z = x ∨ z = y := by
  refine (Vars.mem_keys_update _ _ _ _).trans (or_congr Iff.rfl ?_)
  rw [Vars.singleton, Std.ExtTreeMap.mem_keys, Std.ExtTreeMap.mem_insert]
  rw [compare_eq_iff_eq, eq_comm]
  simp

section

variable (hconfig : config.Valid)

include hconfig

theorem addTr_yields (ha : a.WellKeyed) (hne : tr.key ≠ []) (hkeeps : a.trs.AddKeeps tr) :
    Yields config (a.addTr config tr) fun a' => a'.Holds fun F => a.Has F ∨ F.tr tr := by
  refine (Transforms.maybeWiden_yields hconfig _).bind ?_
  rintro t rfl
  refine .pure ⟨Transforms.WellKeyed.insert ha hne, fun F => ?_⟩
  simp only [Has]
  rw [Transforms.exists_insert F.lasting_tr ha hkeeps, ← or_assoc]
  exact or_right_comm

theorem addTr_empty (hne : tr.key ≠ []) :
    ∃ a, (empty : Args ν ω).addTr config tr = .ok a ∧ a.Holds fun F => F.tr tr := by
  have hadd : (empty : Args ν ω).addTr config tr =
      .ok ⟨∅, (∅ : Transforms ν ω).insert tr.key tr⟩ := by
    rw [addTr, empty, Transforms.add_empty hconfig tr]
    rfl
  refine ⟨_, hadd, Transforms.WellKeyed.insert Transforms.wellKeyed_empty hne, fun F => ?_⟩
  have hkeeps : (∅ : Transforms ν ω).AddKeeps tr := addKeeps_iff.2 (has_empty (.lost tr))
  have hempty := has_empty F
  simp only [Has, empty, not_or] at hempty ⊢
  rw [Transforms.exists_insert F.lasting_tr Transforms.wellKeyed_empty hkeeps,
    or_iff_right hempty.1, or_iff_left hempty.2]

variable {a a' : Args ν ω}

theorem join_yields (ha : a.WellKeyed) (ha' : a'.WellKeyed) :
    Yields config (a.join config a') fun b => b.Holds fun F => a.Has F ∨ a'.Has F := by
  refine (Transforms.join_yields hconfig ha ha').bind ?_
  rintro t ⟨hkeyed, hspec⟩
  refine .pure ⟨hkeyed, fun F => ?_⟩
  simp only [Has]
  rw [Vars.any_join F.lasting_var, hspec F.lasting_tr]
  exact or_or_or_comm

/-- The members of `transform t tr`. -/
def product (a : Args ν ω) (tr : Transform ν ω) (F : Facet ν ω) : Prop :=
  a.vars.Any (fun x w => F.tr (tr.addVar x w)) ∨ ∃ tr' ∈ a.trs.elements, F.tr (tr.flatten tr')

/-- `transform t tr` loses nothing. -/
def TransformKeeps (a : Args ν ω) (tr : Transform ν ω) : Prop :=
  Keeps (a.vars.toList.map fun p => tr.addVar p.1 p.2) ∧
    Keeps (a.trs.elements.map fun tr' => tr.flatten tr')

theorem transform_yields (hne : tr.key ≠ []) (hkeeps : a.TransformKeeps tr) :
    Yields config (a.transform config tr) fun a' => a'.Holds (a.product tr) := by
  have hmem : ∀ tr' : Transform ν ω, (∃ x ∈ tr.key, x ∈ tr'.key) → tr'.key ≠ [] := by
    rintro tr' ⟨x, -, hx⟩ hnil
    rw [hnil] at hx
    cases hx
  obtain ⟨x, hx⟩ := List.exists_mem_of_ne_nil _ hne
  have hvars := Transforms.addAll_yields hconfig hkeeps.1 (by
    simp only [List.mem_map, forall_exists_index, and_imp]
    rintro tr' p - rfl
    exact hmem _ ⟨x, hx, (Transform.mem_key_addVar tr p.1 x p.2).2 (.inr hx)⟩)
  rw [List.foldlM_map] at hvars
  have htrs := Transforms.map_yields hconfig hkeeps.2 fun tr' _ =>
    hmem _ ⟨x, hx, (Transform.mem_key_flatten tr tr' x).2 (.inl hx)⟩
  refine hvars.bind fun fromVars ⟨hkeyed, _, hspec⟩ => ?_
  refine htrs.bind fun fromTrs ⟨hkeyed', _, hspec'⟩ => ?_
  refine (Transforms.join_yields hconfig hkeyed hkeyed').bind fun t ⟨hkeyedt, hspect⟩ => ?_
  refine .pure ⟨hkeyedt, fun F => ?_⟩
  simp only [Has, product]
  rw [hspect F.lasting_tr, hspec F.lasting_tr, hspec' F.lasting_tr]
  simp [Vars.Any]

/-- The members of `transform t (Top w)`. No two of them have the same variables. -/
def topProduct (a : Args ν ω) (w : Witnesses ω) (F : Facet ν ω) : Prop :=
  a.vars.Any (fun x w' => F.tr (.varWithTop x w' w)) ∨ ∃ tr ∈ a.trs.elements, F.tr (tr.addTop w)

theorem transformTop_yields (ha : a.WellKeyed) (w : Witnesses ω) :
    Yields config (a.transformTop config w) fun a' => a'.Holds (a.topProduct w) := by
  have hkeepsVars : Keeps (a.vars.toList.map fun p => varWithTop p.1 p.2 w) :=
    keeps_of_distinct (List.pairwise_map.2 ((distinct_vars a.vars).imp fun hne heq => by
      simp only [Transform.key_varWithTop, List.cons.injEq, and_true] at heq
      exact hne heq))
  have hkeepsTrs : Keeps (a.trs.elements.map fun tr => tr.addTop w) :=
    keeps_of_distinct (List.pairwise_map.2 ((distinct_elements ha).imp fun hne heq => by
      rw [key_addTop, key_addTop] at heq
      exact hne heq))
  have hvars := Transforms.addAll_yields hconfig hkeepsVars (by
    simp only [List.mem_map, forall_exists_index, and_imp]
    rintro tr p - rfl
    simp)
  rw [List.foldlM_map] at hvars
  have htrs := Transforms.map_yields hconfig hkeepsTrs fun tr htr => by
    rw [key_addTop]
    exact key_ne_nil ha htr
  refine hvars.bind fun fromVars ⟨hkeyed, _, hspec⟩ => ?_
  refine htrs.bind fun fromTrs ⟨hkeyed', _, hspec'⟩ => ?_
  refine (Transforms.join_yields hconfig hkeyed hkeyed').bind fun t ⟨hkeyedt, hspect⟩ => ?_
  refine .pure ⟨hkeyedt, fun F => ?_⟩
  simp only [Has, topProduct]
  rw [hspect F.lasting_tr, hspec F.lasting_tr, hspec' F.lasting_tr]
  simp [Vars.Any]

/-- The members of `transform t var`. -/
def varProduct (a : Args ν ω) (x : ν) (w : Witnesses ω) (F : Facet ν ω) : Prop :=
  (a.vars.Any (fun y _ => y = x ∧ F.var x w) ∨
    a.vars.Any fun y w1 => y ≠ x ∧ F.tr (pair y w1 x w)) ∨
    ∃ tr ∈ a.trs.elements, F.tr (tr.addVar x w)

/-- `transform t var` loses no transform. -/
def TransformVarKeeps (a : Args ν ω) (x : ν) (w : Witnesses ω) : Prop :=
  Keeps (a.trs.elements.map fun tr => tr.addVar x w)

/-- The variables of `transform t var`. -/
theorem varPairs_yields (a : Args ν ω) (x : ν) (w : Witnesses ω) :
    Yields config (a.vars.toList.foldlM
      (fun args (p : ν × Witnesses ω) =>
        if p.1 = x then pure (args.addVar x w)
        else do
          let tr ← Transform.vars p.1 p.2 x w
          args.addTr config tr) empty)
      fun acc => acc.Holds fun F => a.vars.Any (fun y _ => y = x ∧ F.var x w) ∨
        a.vars.Any fun y w1 => y ≠ x ∧ F.tr (pair y w1 x w) := by
  have hfold : Yields config (a.vars.toList.foldlM
      (fun args (p : ν × Witnesses ω) =>
        if p.1 = x then pure (args.addVar x w)
        else do
          let tr ← Transform.vars p.1 p.2 x w
          args.addTr config tr) empty)
      fun acc => (acc.Holds fun F => (∃ p ∈ a.vars.toList, p.1 = x ∧ F.var x w) ∨
        ∃ p ∈ a.vars.toList, p.1 ≠ x ∧ F.tr (pair p.1 p.2 x w)) := by
    refine Yields.foldlM (I := fun done (acc : Args ν ω) =>
      acc.Holds fun F => (∃ p : ν × Witnesses ω, p ∈ done ∧ p.1 = x ∧ F.var x w) ∨
        ∃ p : ν × Witnesses ω, p ∈ done ∧ p.1 ≠ x ∧ F.tr (pair p.1 p.2 x w)) ?_ ?_
    · exact ⟨wellKeyed_empty, fun F => by simp [has_empty]⟩
    rintro done p rest acc hl ⟨hkeyed, hspec⟩
    have hdistinct : ∀ q ∈ done, q.1 ≠ p.1 := fun q hq =>
      (List.pairwise_append.1 (hl ▸ distinct_vars a.vars)).2.2 q hq p (by simp)
    split
    · rename_i hx
      refine .pure ⟨hkeyed, fun F => ?_⟩
      rw [has_addVar, hspec]
      simp only [List.mem_append, List.mem_singleton, or_and_right, exists_or, exists_eq_left, hx,
        ne_eq, not_true_eq_false, false_and, or_false, true_and]
      exact or_right_comm
    rename_i hx
    have hvars : Transform.vars p.1 p.2 x w = .ok (pair p.1 p.2 x w) := by
      rw [Transform.vars, if_neg hx]
      rfl
    rw [hvars]
    have hne : (pair p.1 p.2 x w).key ≠ [] := by
      intro hnil
      have hmem := (mem_key_pair p.1 p.2 x w x).2 (.inl rfl)
      rw [hnil] at hmem
      cases hmem
    have hkeeps : acc.trs.AddKeeps (pair p.1 p.2 x w) := by
      rw [addKeeps_iff, hspec]
      rintro (⟨_, _, _, hfalse⟩ | ⟨q, hq, hqx, hkey, -⟩)
      · exact hfalse
      have hmem := (mem_key_pair q.1 q.2 x w q.1).2 (.inr rfl)
      rw [hkey, mem_key_pair] at hmem
      exact hmem.elim hqx (hdistinct q hq)
    refine (addTr_yields hconfig hkeyed hne hkeeps).mono fun acc' ⟨hkeyed', hspec'⟩ => ?_
    refine ⟨hkeyed', fun F => (hspec' F).trans ?_⟩
    dsimp only
    rw [hspec]
    simp only [List.mem_append, List.mem_singleton, or_and_right, exists_or, exists_eq_left, hx,
      ne_eq, not_false_eq_true, false_and, or_false, true_and]
    exact or_assoc
  refine hfold.mono fun acc ⟨hkeyed, hspec⟩ => ⟨hkeyed, fun F => ?_⟩
  rw [hspec]
  simp [Vars.Any]

theorem transformVar_yields {x : ν} {w : Witnesses ω} (hkeeps : a.TransformVarKeeps x w) :
    Yields config (a.transformVar config x w) fun a' => a'.Holds (a.varProduct x w) := by
  have htrs := Transforms.map_yields hconfig hkeeps fun tr _ hnil => by
    have hmem := (Transform.mem_key_addVar tr x x w).2 (.inl rfl)
    rw [hnil] at hmem
    cases hmem
  refine (varPairs_yields hconfig a x w).bind fun acc ⟨hkeyed, hspec⟩ => ?_
  refine htrs.bind fun fromTrs ⟨hkeyed', _, hspec'⟩ => ?_
  refine (Transforms.join_yields hconfig hkeyed' hkeyed).bind fun t ⟨hkeyedt, hspect⟩ => ?_
  refine .pure ⟨hkeyedt, fun F => ?_⟩
  have hF := hspec F
  simp only [Has, varProduct] at hF ⊢
  rw [hspect F.lasting_tr, hspec' F.lasting_tr, ← hF, or_left_comm, or_comm]

/-- The members of `transform_join t t'`. -/
def joinProduct (a a' : Args ν ω) (F : Facet ν ω) : Prop :=
  a'.vars.Any (fun x w => a.varProduct x w F) ∨ ∃ tr ∈ a'.trs.elements, a.product tr F

/-- `transform_join t t'` loses no transform. -/
def TransformJoinKeeps (a a' : Args ν ω) : Prop :=
  (∀ (x : ν) (w : Witnesses ω), a'.vars[x]? = some w → a.TransformVarKeeps x w) ∧
    ∀ tr ∈ a'.trs.elements, a.TransformKeeps tr

/-- A variable of both has witnesses in `t'` if it has some in `t`, whose are dropped. -/
def WitnessesKept (a a' : Args ν ω) : Prop :=
  ∀ (x : ν) (w w' : Witnesses ω), a.vars[x]? = some w → a'.vars[x]? = some w' → w ≠ ∅ → w' ≠ ∅

theorem transformJoin_yields (ha' : a'.WellKeyed) (hkeeps : a.TransformJoinKeeps a') :
    Yields config (a.transformJoin config a') fun b => b.Holds (a.joinProduct a') := by
  have hvars : Yields config (a'.vars.toList.foldlM
      (fun acc (p : ν × Witnesses ω) => do acc.join config (← a.transformVar config p.1 p.2)) empty)
      fun acc => acc.Holds fun F => ∃ p : ν × Witnesses ω, p ∈ a'.vars.toList ∧
        a.varProduct p.1 p.2 F := by
    refine Yields.foldlM (I := fun done (acc : Args ν ω) => acc.Holds fun F =>
      ∃ p : ν × Witnesses ω, p ∈ done ∧ a.varProduct p.1 p.2 F) ?_ ?_
    · exact ⟨wellKeyed_empty, fun F => by simp [has_empty]⟩
    rintro done p rest acc hl ⟨hkeyed, hspec⟩
    have hp : a'.vars[p.1]? = some p.2 :=
      Std.ExtTreeMap.mem_toList_iff_getElem?_eq_some.1 (by rw [hl]; simp)
    refine (transformVar_yields hconfig (hkeeps.1 p.1 p.2 hp)).bind fun b ⟨hb, hbspec⟩ => ?_
    refine (join_yields hconfig hkeyed hb).mono fun c ⟨hc, hcspec⟩ => ⟨hc, fun F => ?_⟩
    refine (hcspec F).trans ?_
    dsimp only
    rw [hspec, hbspec]
    simp [exists_or]
  refine hvars.bind fun acc0 ⟨hkeyed0, hspec0⟩ => ?_
  have htrs : Yields config (a'.trs.elements.foldlM
      (fun acc tr => do acc.join config (← a.transform config tr)) acc0)
      fun acc => acc.Holds fun F => acc0.Has F ∨ ∃ tr ∈ a'.trs.elements, a.product tr F := by
    refine Yields.foldlM (I := fun done (acc : Args ν ω) => acc.Holds fun F =>
      acc0.Has F ∨ ∃ tr ∈ done, a.product tr F) ?_ ?_
    · exact ⟨hkeyed0, fun F => by simp⟩
    rintro done tr rest acc hl ⟨hkeyed, hspec⟩
    have htr : tr ∈ a'.trs.elements := by rw [hl]; simp
    refine (transform_yields hconfig (key_ne_nil ha' htr) (hkeeps.2 tr htr)).bind
      fun b ⟨hb, hbspec⟩ => ?_
    refine (join_yields hconfig hkeyed hb).mono fun c ⟨hc, hcspec⟩ => ⟨hc, fun F => ?_⟩
    refine (hcspec F).trans ?_
    dsimp only
    rw [hspec, hbspec, or_assoc]
    simp [exists_or]
  refine htrs.mono fun acc ⟨hkeyed, hspec⟩ => ⟨hkeyed, fun F => ?_⟩
  refine (hspec F).trans ?_
  dsimp only
  rw [hspec0]
  simp [joinProduct, Vars.Any]

end

/-! ## §2 The meaning of members -/

section

variable {ρ : ν → Level}

theorem tops_live {tr : Transform ν ω} (h : tr.tops ρ) : tr.live ρ := h.1

theorem has_live_of_tops {a : Args ν ω} (h : a.Has (.tops ρ)) : a.Has (.live ρ) := by
  rcases h with ⟨x, w, hx, htop⟩ | ⟨tr, htr, htop⟩
  · refine .inl ⟨x, w, hx, ?_⟩
    simp only [Facet.tops, Facet.live] at htop ⊢
    rw [htop]
    decide
  · exact .inr ⟨tr, htr, htop.1⟩

theorem product_live (a : Args ν ω) (tr : Transform ν ω) :
    a.product tr (.live ρ) ↔ a.Has (.live ρ) ∧ tr.live ρ := by
  simp only [product, Has, Vars.Any, Facet.live, Transform.live_addVar, Transform.live_flatten]
  grind

theorem product_tops (a : Args ν ω) (tr : Transform ν ω) : a.product tr (.tops ρ) ↔
      a.Has (.live ρ) ∧ tr.live ρ ∧ (a.Has (.tops ρ) ∨ tr.tops ρ) := by
  have hlive := @has_live_of_tops ν ω _ _ ρ a
  simp only [product, Has, Vars.Any, Facet.live, Facet.tops, Transform.tops_addVar,
    Transform.tops_flatten] at hlive ⊢
  grind [tops_live]

theorem live_pair (y : ν) (w1 : Witnesses ω) (x : ν) (w : Witnesses ω) :
    (pair y w1 x w).live ρ ↔ ρ x ≠ .bot ∧ ρ y ≠ .bot := by
  simp [Transform.live, mem_key_pair]

theorem tops_pair (y : ν) (w1 : Witnesses ω) (x : ν) (w : Witnesses ω) :
    (pair y w1 x w).tops ρ ↔ ρ x ≠ .bot ∧ ρ y ≠ .bot ∧ (ρ x = .top ∨ ρ y = .top) := by
  have hnone : (pair y w1 x w).getTop = none := rfl
  simp only [Transform.tops, live_pair, mem_key_pair, exists_eq_or_imp, hnone]
  simp [and_assoc]

theorem hasWitnesses_pair (y : ν) (w1 : Witnesses ω) (x : ν) (w : Witnesses ω) :
    (pair y w1 x w).hasWitnesses = true ↔ w1 ≠ ∅ ∨ w ≠ ∅ := by
  rw [pair, Transform.hasWitnesses, Vars.hasWitnesses_update, Vars.hasWitnesses_singleton]

section

variable (a : Args ν ω)

theorem varProduct_live (x : ν) (w : Witnesses ω) :
    a.varProduct x w (.live ρ) ↔ ρ x ≠ .bot ∧ a.Has (.live ρ) := by
  simp only [varProduct, Has, Vars.Any, Facet.live, live_pair, Transform.live_addVar]
  grind

theorem varProduct_tops (x : ν) (w : Witnesses ω) : a.varProduct x w (.tops ρ) ↔
      ρ x ≠ .bot ∧ a.Has (.live ρ) ∧ (ρ x = .top ∨ a.Has (.tops ρ)) := by
  have hlive := @has_live_of_tops ν ω _ _ ρ a
  simp only [varProduct, Has, Vars.Any, Facet.live, Facet.tops, tops_pair,
    Transform.tops_addVar] at hlive ⊢
  grind [tops_live]

theorem topProduct_live (w : Witnesses ω) :
    a.topProduct w (.live ρ) ↔ a.Has (.live ρ) := by
  simp only [topProduct, Has, Facet.live, Transform.live_addTop]
  simp [Transform.live]

theorem topProduct_tops (w : Witnesses ω) :
    a.topProduct w (.tops ρ) ↔ a.Has (.live ρ) := by
  have hvar : ∀ (x : ν) (w' : Witnesses ω), (varWithTop x w' w).tops ρ ↔ ρ x ≠ .bot := by
    intro x w'
    have hsome : (varWithTop x w' w).getTop = some w := rfl
    simp [Transform.tops, Transform.live, hsome]
  simp [topProduct, Has, Facet.live, Transform.tops_addTop, hvar]

end

theorem joinProduct_live (a a' : Args ν ω) :
    a.joinProduct a' (.live ρ) ↔ a.Has (.live ρ) ∧ a'.Has (.live ρ) := by
  simp only [joinProduct, varProduct_live, product_live]
  rw [Has, Has]
  simp only [Vars.Any, Facet.live]
  grind

theorem joinProduct_tops (a a' : Args ν ω) : a.joinProduct a' (.tops ρ) ↔
      a.Has (.live ρ) ∧ a'.Has (.live ρ) ∧ (a.Has (.tops ρ) ∨ a'.Has (.tops ρ)) := by
  have hlive := @has_live_of_tops ν ω _ _ ρ a'
  simp only [joinProduct, varProduct_tops, product_tops]
  generalize a.Has (.live ρ) = p
  generalize a.Has (.tops ρ) = q
  simp only [Has, Vars.Any, Facet.live, Facet.tops] at hlive ⊢
  grind [tops_live]

end

theorem product_any (a : Args ν ω) (tr : Transform ν ω) : a.product tr .any ↔ a.Has .any := Iff.rfl

theorem varProduct_any (a : Args ν ω) (x : ν) (w : Witnesses ω) :
    a.varProduct x w .any ↔ a.Has .any := by
  simp only [varProduct, Has, Vars.Any, Facet.any]
  grind

theorem topProduct_any (a : Args ν ω) (w : Witnesses ω) :
    a.topProduct w .any ↔ a.Has .any := Iff.rfl

theorem joinProduct_any (a a' : Args ν ω) : a.joinProduct a' .any ↔ a.Has .any ∧ a'.Has .any := by
  simp only [joinProduct, varProduct_any, product_any]
  generalize a.Has .any = p
  simp only [Has, Vars.Any, Facet.any]
  grind

theorem topProduct_witnesses (w : Witnesses ω) (h : a.Has .witnesses) :
    a.topProduct w .witnesses := by
  rcases h with ⟨x, w', hx, hw⟩ | ⟨tr, htr, hw⟩
  · refine .inl ⟨x, w', hx, ?_⟩
    have hvars : (Vars.singleton x w').hasWitnesses = true := Vars.hasWitnesses_singleton.2 hw
    simp [Facet.witnesses, varWithTop, Transform.hasWitnesses, hvars]
  · exact .inr ⟨tr, htr, (Transform.hasWitnesses_addTop tr w).2 (.inl hw)⟩

theorem joinProduct_witnesses {a a' : Args ν ω} (h : a.Has .witnesses) (h' : a'.Has .any)
    (hkept : a.WitnessesKept a') : a.joinProduct a' .witnesses := by
  rcases h' with ⟨x, w, hx, -⟩ | ⟨tr', htr', -⟩
  · refine .inl ⟨x, w, hx, ?_⟩
    rcases h with ⟨y, w1, hy, hw⟩ | ⟨tr, htr, hw⟩
    · by_cases hxy : y = x
      · subst hxy; exact .inl (.inl ⟨y, w1, hy, rfl, hkept y w1 w hy hx hw⟩)
      · exact .inl (.inr ⟨y, w1, hy, hxy, (hasWitnesses_pair y w1 x w).2 (.inl hw)⟩)
    · exact .inr ⟨tr, htr, (Transform.hasWitnesses_addVar tr x w).2 (.inl hw)⟩
  refine .inr ⟨tr', htr', ?_⟩
  rcases h with ⟨y, w1, hy, hw⟩ | ⟨tr, htr, hw⟩
  · exact .inl ⟨y, w1, hy, (Transform.hasWitnesses_addVar tr' y w1).2 (.inr hw)⟩
  · exact .inr ⟨tr, htr, (Transform.hasWitnesses_flatten tr' tr).2 (.inr hw)⟩

end Args

end Oxcaml.Backend.ZeroAlloc
