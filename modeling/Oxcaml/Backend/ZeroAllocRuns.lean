/-
Oxcaml.Backend.ZeroAllocRuns — apply, and runs of the operations.

`V.apply` substitutes resolved values for some of the variables (§1, §2): a
transform is folded with `transform` and a join with `join`. Two transforms of a
join can be left with the same variables then, and the second replaces the first.
`Built` are the values that the operations make from constants and variables when
no step loses a member (§3).
-/
import Oxcaml.Backend.ZeroAllocFaithful

namespace Oxcaml.Backend.ZeroAlloc

set_option linter.all false

variable {ν ω : Type} [LinearOrder ν] [DecidableEq ω] {config : Config ω}

/-! ## §1 Transforms under an environment -/

variable {ρ ρ' : ν → Level}

theorem Transform.meaning_congr
    (tr : Transform ν ω) (h : ∀ x ∈ tr.key, ρ x = ρ' x) : tr.meaning ρ = tr.meaning ρ' := by
  simp only [Transform.meaning, List.map_congr_left h]

theorem Join.meaning_congr (j : Join ν ω) (h : ∀ x ∈ j.get.vars.keys, ρ x = ρ' x)
    (h' : ∀ tr ∈ j.get.trs.elements, tr.meaning ρ = tr.meaning ρ') :
    j.meaning ρ = j.meaning ρ' := by
  simp only [Join.meaning, List.map_congr_left h, List.map_congr_left h']

namespace V

/-- The environment has resolved values only. -/
def Resolved (env : ν → Option (V ν ω)) : Prop := ∀ x v, env x = some v → v.isResolved = true

/-- The assignment that `env` overrides. -/
def override (env : ν → Option (V ν ω)) (ρ : ν → Level) (x : ν) : Level :=
  match env x with
  | none => ρ x
  | some v => v.meaning ρ

/-- A constant or a variable. -/
def Atomic : V ν ω → Prop
  | ofTransform _ => False
  | ofJoin _ => False
  | _ => True

/-- Not a join. -/
def Single : V ν ω → Prop
  | ofJoin _ => False
  | _ => True

variable {v acc : V ν ω}

theorem Atomic.single (h : v.Atomic) : v.Single := by
  cases v <;> trivial

theorem Atomic.joinKeeps (h : v.Atomic) (acc : V ν ω) : JoinKeeps v acc := by
  cases v <;> first | exact h.elim | (cases acc <;> trivial)

theorem Single.transformKeeps (h : v.Single) (hacc : acc.Single) : TransformKeeps v acc := by
  cases v <;> cases acc <;> trivial

theorem Single.transform {c : V ν ω} (h : v.Single) (hacc : acc.Single)
    (hc : transform config v acc = .ok c) : c.Single := by
  cases v <;> cases acc <;> first
    | exact h.elim
    | exact hacc.elim
    | (cases hc; trivial)
    | skip
  simp only [V.transform] at hc
  split at hc
  · cases hc; trivial
  rename_i hxy
  rw [Transform.vars, if_neg hxy] at hc
  cases hc
  trivial

theorem override_none {env : ν → Option (V ν ω)} {vars : Vars ν ω}
    (h : (!containsAny env vars) = true) {x : ν} (hx : x ∈ vars.keys) (ρ : ν → Level) :
    ρ x = override env ρ x := by
  have hnone : env x = none := by
    simp only [containsAny, Bool.not_eq_true', List.any_eq_false] at h
    simpa using h x hx
  rw [override, hnone]

section

variable {env : ν → Option (V ν ω)} (henv : Resolved env)

include henv

theorem getEnv_spec (config : Config ω) (x : ν) (w : Witnesses ω) :
    ∃ v, getEnv config env x w = .ok v ∧ v.Atomic ∧ v.WF ∧ ∀ ρ, v.meaning ρ = override env ρ x := by
  simp only [getEnv, override]
  cases h : env x with
  | none => exact ⟨var x w, rfl, trivial, trivial, fun _ => rfl⟩
  | some v =>
    have hresolved := henv x v h
    cases v with
    | top w' => exact ⟨top w, rfl, trivial, trivial, fun _ => rfl⟩
    | safe => exact ⟨safe, rfl, trivial, trivial, fun _ => rfl⟩
    | bot => exact ⟨bot, rfl, trivial, trivial, fun _ => rfl⟩
    | var _ _ | ofTransform _ | ofJoin _ => cases hresolved

variable (hconfig : config.Valid)

include hconfig

theorem foldTransform_spec (l : List (ν × Witnesses ω)) {f : (ν → Level) → Level}
    (hsingle : acc.Single) (hacc : Approx config acc f) :
    ∃ v, l.foldlM (fun acc (p : ν × Witnesses ω) => do
        V.transform config (← getEnv config env p.1 p.2) acc) acc = .ok v ∧ v.Single ∧
      Approx config v fun ρ => l.foldl (fun m p => Level.seq (override env ρ p.1) m) (f ρ) := by
  induction l generalizing acc f with
  | nil => exact ⟨acc, rfl, hsingle, hacc⟩
  | cons p l ih =>
    obtain ⟨v, hv, hatomic, hwf, hmeaning⟩ := getEnv_spec henv config p.1 p.2
    obtain ⟨c, hc, happrox⟩ := transform_means hconfig hwf hacc.wf
      (hatomic.single.transformKeeps hsingle)
    have hnext : Approx config c fun ρ => Level.seq (override env ρ p.1) (f ρ) := by
      refine ⟨happrox.wf, fun ρ => ?_, fun hkeep ρ => ?_⟩
      · refine le_trans (Level.seq_le_seq (hmeaning ρ).ge (hacc.le ρ)) (happrox.le ρ)
      · rw [happrox.eq hkeep, hmeaning, hacc.eq hkeep]
    obtain ⟨u, hu, husingle, hspec⟩ := ih (hatomic.single.transform hsingle hc) hnext
    refine ⟨u, ?_, husingle, hspec⟩
    rw [List.foldlM_cons, hv]
    change (V.transform config v acc >>= _) = _
    rw [hc]
    exact hu

omit henv hconfig in
variable (config) in
theorem start_transform (tr : Transform ν ω) : ∃ init : V ν ω,
    (match tr.getTop with | none => safe | some w => top w) = init ∧
      init.Single ∧ Approx config init fun _ => if tr.getTop.isSome then .top else .safe := by
  cases tr.getTop with
  | none => exact ⟨safe, rfl, trivial, trivial, fun ρ => le_rfl, fun _ ρ => rfl⟩
  | some w => exact ⟨top w, rfl, trivial, trivial, fun ρ => le_rfl, fun _ ρ => rfl⟩

theorem applyTransform_spec {tr : Transform ν ω} (hne : tr.key ≠ []) :
    ∃ v, applyTransform config env tr = .ok v ∧ v.Single ∧
      Approx config v fun ρ => tr.meaning (override env ρ) := by
  rw [applyTransform]
  split
  · rename_i hnone
    refine ⟨ofTransform tr, rfl, trivial, hne, fun ρ => le_of_eq ?_, fun _ ρ => ?_⟩ <;>
      rw [meaning, tr.meaning_congr fun x hx => override_none hnone hx ρ]
  obtain ⟨init, heq, hsingle, hinit⟩ := start_transform config tr
  obtain ⟨v, hv, hvsingle, hspec⟩ :=
    foldTransform_spec henv hconfig tr.getVars.toList hsingle hinit
  refine ⟨v, ?_, hvsingle, hspec.congr fun ρ => ?_⟩
  · subst heq; exact hv
  rw [Level.eq_iff, Level.foldl_seq_ne_bot, Level.foldl_seq_eq_top,
    Transform.meaning_ne_bot hne, Transform.meaning_eq_top, Transform.tops, Transform.live]
  have hkey : ∀ {P : ν → Prop}, (∀ p ∈ tr.getVars.toList, P p.1) ↔ ∀ x ∈ tr.key, P x := by
    intro P
    simp [Transform.key, ← Std.ExtTreeMap.map_fst_toList_eq_keys]
  have hkey' : ∀ {P : ν → Prop}, (∃ p ∈ tr.getVars.toList, P p.1) ↔ ∃ x ∈ tr.key, P x := by
    intro P
    simp [Transform.key, ← Std.ExtTreeMap.map_fst_toList_eq_keys]
  rw [hkey (P := fun x => override env ρ x ≠ .bot),
    hkey' (P := fun x => override env ρ x = .top)]
  cases tr.getTop <;> simp

end

end V

/-! ## §2 Joins under an environment -/

variable {tr : Transform ν ω}

theorem Args.has_of_addTr {a a' : Args ν ω} {F : Facet ν ω}
    (hadd : a.addTr config tr = .ok a') (h : a'.Has F) : a.Has F ∨ F.tr tr := by
  rw [addTr, Transforms.add] at hadd
  cases hwiden : Transforms.maybeWiden config (a.trs.insert tr.key tr) with
  | error e => rw [hwiden] at hadd; cases hadd
  | ok t =>
    rw [hwiden] at hadd
    cases hadd
    have ht : t = a.trs.insert tr.key tr := by
      rw [Transforms.maybeWiden] at hwiden
      split at hwiden
      · exact (Except.ok.inj hwiden).symm
      · split at hwiden
        · split at hwiden <;> cases hwiden
        · exact (Except.ok.inj hwiden).symm
      split at hwiden
      · cases hwiden
      · exact (Except.ok.inj hwiden).symm
    subst ht
    rcases h with h | ⟨tr', hmem, htr'⟩
    · exact .inl (.inl h)
    rcases Transforms.mem_elements_insert hmem with rfl | hmem
    · exact .inr htr'
    · exact .inl (.inr ⟨tr', hmem, htr'⟩)

namespace Join

variable {w : Witnesses ω} {j j' : Join ν ω}

theorem withTop_ok {a : Args ν ω} (h : withTop w a = .ok j) : j.get = a := by
  rw [withTop] at h
  split at h
  · cases h
  · cases h; rfl

theorem get_addTop (h : j.addTop w = .ok j') : j'.get = j.get := by
  cases j <;> exact withTop_ok h

theorem get_addVar {x : ν} (h : j.addVar x w = .ok j') : j'.get = j.get.addVar x w := by
  cases j with
  | argsWithTop w' a => exact withTop_ok h
  | argsWithSafe a | args a => cases h; rfl

theorem get_addTr (h : j.addTr config tr = .ok j') :
    j.get.addTr config tr = .ok j'.get := by
  cases j <;> simp only [addTr, get] at h ⊢
  all_goals
    rename_i a
    cases hadd : a.addTr config tr with
    | error e => rw [hadd] at h; cases h
    | ok a' =>
      rw [hadd] at h
      first
        | (cases h; rfl)
        | exact congrArg Except.ok (withTop_ok h).symm

end Join

namespace V

/-- A transform of the value that `new` would replace and not cover. -/
def Lost (new : Transform ν ω) : V ν ω → Prop
  | ofTransform tr => (Facet.lost new).tr tr
  | ofJoin j => j.get.Has (.lost new)
  | _ => False

section

variable {new : Transform ν ω} {P : Prop} {c : V ν ω} {r : Except (Exn ω) (Join ν ω)}

theorem lost_unboundedJoin (hc : unboundedJoin r = .ok c)
    (hlost : c.Lost new) : ∃ j, r = .ok j ∧ j.get.Has (.lost new) := by
  cases r with
  | error e => cases hc
  | ok j => cases hc; exact ⟨j, rfl, hlost⟩

theorem lost_boundedJoin (hc : boundedJoin r = .ok c)
    (hlost : c.Lost new) : ∃ j, r = .ok j ∧ j.get.Has (.lost new) := by
  cases r with
  | error e => cases e <;> cases hc; exact hlost.elim
  | ok j => cases hc; exact ⟨j, rfl, hlost⟩

theorem bind_ok {α β : Type} {r : Except (Exn ω) α} {f : α → Except (Exn ω) β} {b : β}
    (h : (r >>= f) = .ok b) : ∃ a, r = .ok a ∧ f a = .ok b := by
  cases r with
  | error e => cases h
  | ok a => exact ⟨a, rfl, h⟩

variable {x : ν} {w w' : Witnesses ω} {tr tr' : Transform ν ω} {j : Join ν ω}

theorem not_lost_var : ¬ ((Args.empty : Args ν ω).addVar x w).Has (.lost new) := by
  rw [Args.has_addVar, or_iff_right (Args.has_empty _)]
  exact id

theorem lost_addTr_empty {a : Args ν ω} (hadd : Args.empty.addTr config tr = .ok a)
    (h : a.Has (.lost new)) : (Facet.lost new).tr tr :=
  (Args.has_of_addTr hadd h).resolve_left (Args.has_empty _)

theorem lost_joinTopVar (hc : joinTopVar w x w' = .ok c) : ¬ c.Lost new := by
  intro hlost
  rw [joinTopVar] at hc
  split at hc
  · cases hc; exact hlost
  obtain ⟨j, hj, hhas⟩ := lost_unboundedJoin hc hlost
  rw [Join.withTop_ok hj] at hhas
  exact not_lost_var hhas

theorem lost_joinTopTransform (hc : joinTopTransform config w tr = .ok c) (hlost : c.Lost new) :
    (Facet.lost new).tr tr := by
  rw [joinTopTransform] at hc
  split at hc
  · obtain ⟨j, hj, hhas⟩ := lost_unboundedJoin hc hlost
    obtain ⟨a, hadd, hj⟩ := bind_ok hj
    rw [Join.withTop_ok hj] at hhas
    exact lost_addTr_empty hadd hhas
  · cases hc; exact hlost.elim

theorem lost_joinSafeTransform (hc : unboundedJoin (Join.trWithSafe config tr) = .ok c)
    (hlost : c.Lost new) : (Facet.lost new).tr tr := by
  obtain ⟨j, hj, hhas⟩ := lost_unboundedJoin hc hlost
  obtain ⟨a, hadd, hj⟩ := bind_ok hj
  cases hj
  exact lost_addTr_empty hadd hhas

theorem lost_joinVarTransform (hc : unboundedJoin (Join.varWithTr config x w tr) = .ok c)
    (hlost : c.Lost new) : (Facet.lost new).tr tr := by
  obtain ⟨j, hj, hhas⟩ := lost_unboundedJoin hc hlost
  obtain ⟨a, hadd, hj⟩ := bind_ok hj
  cases hj
  exact lost_addTr_empty hadd (((Args.has_addVar _ a x w).1 hhas).resolve_right id)

theorem lost_joinTransforms (hc : join config (ofTransform tr) (ofTransform tr') = .ok c)
    (hlost : c.Lost new) : (Facet.lost new).tr tr ∨ (Facet.lost new).tr tr' := by
  simp only [join] at hc
  split at hc
  · cases hc; exact .inl hlost
  split at hc
  · rename_i hsame
    cases hc
    exact ((Facet.lost new).lasting_tr.flatten (by simpa [Transform.sameVars] using hsame)).1
      hlost
  obtain ⟨j, hj, hhas⟩ := lost_boundedJoin hc hlost
  rw [Join.trs, if_neg ‹_›] at hj
  obtain ⟨a, hadd, hj⟩ := bind_ok hj
  obtain ⟨a', hadd', hj⟩ := bind_ok hj
  cases hj
  exact (Args.has_of_addTr hadd' hhas).imp_left (lost_addTr_empty hadd)

theorem lost_joinTopJoin (hc : joinTopJoin w j = .ok c) (hlost : c.Lost new) :
    j.get.Has (.lost new) := by
  rw [joinTopJoin] at hc
  split at hc
  · obtain ⟨j', hj', hhas⟩ := lost_unboundedJoin hc hlost; rwa [Join.get_addTop hj'] at hhas
  · cases hc; exact hlost.elim

theorem lost_joinVarJoin (hc : unboundedJoin (j.addVar x w) = .ok c) (hlost : c.Lost new) :
    j.get.Has (.lost new) := by
  obtain ⟨j', hj', hhas⟩ := lost_unboundedJoin hc hlost
  rw [Join.get_addVar hj', Args.has_addVar] at hhas
  exact hhas.resolve_right id

theorem lost_joinTransformJoin (hc : boundedJoin (j.addTr config tr) = .ok c)
    (hlost : c.Lost new) : (Facet.lost new).tr tr ∨ j.get.Has (.lost new) := by
  obtain ⟨j', hj', hhas⟩ := lost_boundedJoin hc hlost
  exact (Args.has_of_addTr (Join.get_addTr hj') hhas).symm

/-- What a join loses was in one of the two. -/
theorem lost_join {v acc : V ν ω} (hv : v.Single) (hc : join config v acc = .ok c)
    (hlost : c.Lost new) : v.Lost new ∨ acc.Lost new := by
  cases v <;> cases acc
  case var.var x w y w' =>
    simp only [join] at hc
    split at hc
    · cases hc; exact hlost.elim
    obtain ⟨j, hj, hhas⟩ := lost_unboundedJoin hc hlost
    rw [Join.vars, if_neg ‹_›] at hj
    cases hj
    exact (not_lost_var (((Args.has_addVar _ _ x w).1 hhas).resolve_right id)).elim
  case safe.var => exact (not_lost_var (Except.ok.inj hc ▸ hlost :)).elim
  case var.safe => exact (not_lost_var (Except.ok.inj hc ▸ hlost :)).elim
  case safe.ofJoin j => cases hc; cases j <;> exact .inr hlost
  case top.var => exact (lost_joinTopVar hc hlost).elim
  case var.top => exact (lost_joinTopVar hc hlost).elim
  case top.ofTransform => exact .inr (lost_joinTopTransform hc hlost)
  case ofTransform.top => exact .inl (lost_joinTopTransform hc hlost)
  case safe.ofTransform => exact .inr (lost_joinSafeTransform hc hlost)
  case ofTransform.safe => exact .inl (lost_joinSafeTransform hc hlost)
  case var.ofTransform => exact .inr (lost_joinVarTransform hc hlost)
  case ofTransform.var => exact .inl (lost_joinVarTransform hc hlost)
  case ofTransform.ofTransform => exact lost_joinTransforms hc hlost
  case top.ofJoin => exact .inr (lost_joinTopJoin hc hlost)
  case var.ofJoin => exact .inr (lost_joinVarJoin hc hlost)
  case ofTransform.ofJoin => exact lost_joinTransformJoin hc hlost
  all_goals first
    | exact hv.elim
    | (cases hc; exact .inr hlost)
    | (cases hc; exact .inl hlost)

theorem joinKeeps_of_not_lost {v acc : V ν ω} (hv : v.Single)
    (h : ∀ tr, v = ofTransform tr → ¬ acc.Lost tr) : JoinKeeps v acc := by
  cases v with
  | ofTransform tr =>
    cases acc with
    | ofJoin j => exact Args.addKeeps_iff.2 (h tr rfl)
    | _ => trivial
  | ofJoin j => exact hv.elim
  | _ => refine Atomic.joinKeeps ?_ acc; trivial

end

/-- Of two transforms of a join that are left with the same variables, the second has what
the first has. -/
def ApplyKeeps (config : Config ω) (env : ν → Option (V ν ω)) : V ν ω → Prop
  | ofJoin j => j.get.trs.elements.Pairwise fun tr tr' => ∀ left left',
      applyTransform config env tr = .ok (ofTransform left) →
        applyTransform config env tr' = .ok (ofTransform left') →
          left.key = left'.key → left'.Covers left
  | _ => True

variable {f : (ν → Level) → Level}

theorem Approx.join {v acc c : V ν ω} {g : (ν → Level) → Level} (hv : Approx config v f)
    (hacc : Approx config acc g)
    (hc : Approx config c fun ρ => max (v.meaning ρ) (acc.meaning ρ)) :
    Approx config c fun ρ => max (f ρ) (g ρ) where
  wf := hc.wf
  le ρ := le_trans (max_le_max (hv.le ρ) (hacc.le ρ)) (hc.le ρ)
  eq hkeep ρ := by rw [hc.eq hkeep, hv.eq hkeep, hacc.eq hkeep]

section

variable {env : ν → Option (V ν ω)} (henv : Resolved env) (hconfig : config.Valid)

include henv hconfig

theorem foldJoinVars_spec (l : List (ν × Witnesses ω)) {acc : V ν ω}
    (hacc : Approx config acc f) (hnot : ∀ new, ¬ acc.Lost new) :
    ∃ v, l.foldlM (fun acc (p : ν × Witnesses ω) => do
        V.join config (← getEnv config env p.1 p.2) acc) acc = .ok v ∧ (∀ new, ¬ v.Lost new) ∧
      Approx config v fun ρ => l.foldl (fun m p => max (override env ρ p.1) m) (f ρ) := by
  induction l generalizing acc f with
  | nil => exact ⟨acc, rfl, hnot, hacc⟩
  | cons p l ih =>
    obtain ⟨v, hv, hatomic, hwf, hmeaning⟩ := getEnv_spec henv config p.1 p.2
    obtain ⟨c, hc, happrox⟩ := join_means hconfig hwf hacc.wf (hatomic.joinKeeps acc)
    have hvapprox : Approx config v fun ρ => override env ρ p.1 :=
      ⟨hwf, fun ρ => (hmeaning ρ).ge, fun _ => hmeaning⟩
    have hnot' : ∀ new, ¬ c.Lost new := by
      intro new hlost
      rcases lost_join hatomic.single hc hlost with h | h
      · cases v <;> first | exact h | exact hatomic
      · exact hnot new h
    obtain ⟨u, hu, hnotu, hspec⟩ := ih (hvapprox.join hacc happrox) hnot'
    refine ⟨u, ?_, hnotu, hspec⟩
    rw [List.foldlM_cons, hv]
    change (V.join config v acc >>= _) = _
    rw [hc]
    exact hu

theorem foldJoinTransforms_spec {l : List (Transform ν ω)} (hne : ∀ tr ∈ l, tr.key ≠ [])
    (hkeeps : l.Pairwise fun tr tr' => ∀ left left',
      applyTransform config env tr = .ok (ofTransform left) →
        applyTransform config env tr' = .ok (ofTransform left') →
          left.key = left'.key → left'.Covers left)
    {acc : V ν ω} (hacc : Approx config acc f)
    (hnot : ∀ tr ∈ l, ∀ left, applyTransform config env tr = .ok (ofTransform left) →
      ¬ acc.Lost left) :
    ∃ v, l.foldlM (fun acc tr => do
        V.join config (← applyTransform config env tr) acc) acc = .ok v ∧
      Approx config v fun ρ => l.foldl (fun m tr => max (tr.meaning (override env ρ)) m) (f ρ) := by
  induction l generalizing acc f with
  | nil => exact ⟨acc, rfl, hacc⟩
  | cons tr l ih =>
    obtain ⟨hhead, htail⟩ := List.pairwise_cons.1 hkeeps
    obtain ⟨v, hv, hsingle, hvapprox⟩ :=
      applyTransform_spec henv hconfig (hne tr List.mem_cons_self)
    have hjoinKeeps : JoinKeeps v acc := by
      refine joinKeeps_of_not_lost hsingle ?_
      rintro left rfl
      exact hnot tr List.mem_cons_self left hv
    obtain ⟨c, hc, happrox⟩ := join_means hconfig hvapprox.wf hacc.wf hjoinKeeps
    have hnot' : ∀ tr' ∈ l, ∀ left', applyTransform config env tr' = .ok (ofTransform left') →
        ¬ c.Lost left' := by
      intro tr' htr' left' hleft' hlost
      rcases lost_join hsingle hc hlost with h | h
      · cases v with
        | ofTransform left => exact h.2 (hhead tr' htr' left left' hv hleft' h.1)
        | ofJoin _ => exact hsingle
        | _ => exact h
      · exact hnot tr' (List.mem_cons_of_mem _ htr') left' hleft' h
    obtain ⟨u, hu, hspec⟩ := ih (fun tr' h => hne tr' (List.mem_cons_of_mem _ h)) htail
      (hvapprox.join hacc happrox) hnot'
    refine ⟨u, ?_, hspec⟩
    rw [List.foldlM_cons, hv]
    change (V.join config v acc >>= _) = _
    rw [hc]
    exact hu

omit henv hconfig in
variable (config) in
theorem start_join (j : Join ν ω) : ∃ init : V ν ω,
    (match j.getTop with | none => if j.hasSafe then safe else bot | some w => top w) = init ∧
      (∀ new, ¬ init.Lost new) ∧
      Approx config init fun _ =>
        if j.getTop.isSome then .top else if j.hasSafe then .safe else .bot := by
  cases j.getTop with
  | none =>
    cases j.hasSafe with
    | false => exact ⟨bot, rfl, fun _ => id, trivial, fun ρ => le_rfl, fun _ ρ => rfl⟩
    | true => exact ⟨safe, rfl, fun _ => id, trivial, fun ρ => le_rfl, fun _ ρ => rfl⟩
  | some w => exact ⟨top w, rfl, fun _ => id, trivial, fun ρ => le_rfl, fun _ ρ => rfl⟩

theorem applyJoin_means {j : Join ν ω} (hj : j.WF) (hkeeps : ApplyKeeps config env (ofJoin j)) :
    Means config (applyJoin config env j) fun ρ => j.meaning (override env ρ) := by
  have hne : ∀ tr ∈ j.get.trs.elements, tr.key ≠ [] := fun tr htr => Args.key_ne_nil hj.keyed htr
  rw [applyJoin]
  split
  · rename_i hnone
    rw [Bool.and_eq_true] at hnone
    refine means_ok (v := ofJoin j) hj fun ρ => j.meaning_congr ?_ fun tr htr => ?_
    · exact fun x hx => override_none hnone.1 hx ρ
    refine tr.meaning_congr fun x hx => override_none ?_ hx ρ
    have h := hnone.2
    simp only [Bool.not_eq_true', List.any_eq_false] at h ⊢
    simpa using h tr htr
  obtain ⟨init, heq, hnot, hinit⟩ := start_join config j
  obtain ⟨acc, hacc, hnotacc, hspec⟩ :=
    foldJoinVars_spec henv hconfig j.get.vars.toList hinit hnot
  obtain ⟨v, hv, hspec'⟩ := foldJoinTransforms_spec henv hconfig hne hkeeps hspec
    fun _ _ left _ => hnotacc left
  refine ⟨v, ?_, hspec'.congr fun ρ => ?_⟩
  · subst heq; exact (congrArg (· >>= _) hacc).trans hv
  have hvars : ∀ P : ν → Prop, (∃ p ∈ j.get.vars.toList, P p.1) ↔
      j.get.vars.Any fun x _ => P x := by
    intro P
    simp only [Prod.exists, Std.ExtTreeMap.mem_toList_iff_getElem?_eq_some]
    rfl
  have hlive : (∃ tr ∈ j.get.trs.elements, tr.meaning (override env ρ) ≠ .bot) ↔
      ∃ tr ∈ j.get.trs.elements, tr.live (override env ρ) :=
    exists_congr fun tr => and_congr_right fun htr => Transform.meaning_ne_bot (hne tr htr)
  have htops : (∃ tr ∈ j.get.trs.elements, tr.meaning (override env ρ) = .top) ↔
      ∃ tr ∈ j.get.trs.elements, tr.tops (override env ρ) :=
    exists_congr fun tr => and_congr_right fun _ => Transform.meaning_eq_top
  rw [Level.eq_iff, Level.foldl_max_ne_bot, Level.foldl_max_ne_bot, Level.foldl_max_eq_top,
    Level.foldl_max_eq_top, Join.meaning_ne_bot hj.keyed, Join.meaning_eq_top, hlive, htops,
    hvars (fun x => override env ρ x ≠ .bot), hvars (fun x => override env ρ x = .top)]
  simp only [Args.Has, Facet.live, Facet.tops]
  cases j.getTop <;> cases j.hasSafe <;> simp

/-- Apply means the value under the assignment that the environment overrides. -/
theorem apply_means {a : V ν ω} (ha : a.WF) (hkeeps : ApplyKeeps config env a) :
    Means config (apply config env a) fun ρ => a.meaning (override env ρ) := by
  cases a with
  | top w => exact means_ok (v := top w) trivial fun _ => rfl
  | safe => exact means_ok (v := safe) trivial fun _ => rfl
  | bot => exact means_ok (v := bot) trivial fun _ => rfl
  | var x w =>
    obtain ⟨v, hv, -, hwf, hmeaning⟩ := getEnv_spec henv config x w
    rw [apply, hv]
    exact means_ok hwf hmeaning
  | ofTransform tr =>
    obtain ⟨v, hv, -, happrox⟩ := applyTransform_spec henv hconfig (show tr.key ≠ [] from ha)
    exact ⟨v, hv, happrox⟩
  | ofJoin j => exact applyJoin_means henv hconfig ha hkeeps

end

end V

/-! ## §3 Runs -/

namespace V

/-- `lessequal` is right when it says yes. -/
theorem lessequal_sound (hconfig : config.Valid) {a b : V ν ω} (ha : a.WF) (hb : b.WF)
    (hkeeps : JoinKeeps a b) : ∃ yes, lessequal config a b = .ok yes ∧
      (yes = true → ∀ ρ, a.meaning ρ ≤ b.meaning ρ) := by
  obtain ⟨c, hc, happrox⟩ := join_means hconfig ha hb hkeeps
  have hjoin : ∃ yes, (do pure (decide ((← join config a b) = b))) = Except.ok yes ∧
      (yes = true → ∀ ρ, a.meaning ρ ≤ b.meaning ρ) := by
    rw [hc]
    refine ⟨decide (c = b), rfl, fun hyes ρ => ?_⟩
    have hcb : c = b := of_decide_eq_true hyes
    calc a.meaning ρ ≤ max (a.meaning ρ) (b.meaning ρ) := le_max_left _ _
      _ ≤ c.meaning ρ := happrox.le ρ
      _ = b.meaning ρ := by rw [hcb]
  cases a <;> cases b <;> first
    | exact hjoin
    | exact ⟨_, rfl, fun _ ρ => by simp [meaning]⟩

/-- The values that the operations make from constants and variables, where no step loses a
member. -/
inductive Built (config : Config ω) : V ν ω → Prop
  | top (w : Witnesses ω) : Built config (top w)
  | safe : Built config safe
  | bot : Built config bot
  | var (x : ν) (w : Witnesses ω) : Built config (var x w)
  | join {a b c : V ν ω} : Built config a → Built config b → JoinKeeps a b →
      V.join config a b = .ok c → Built config c
  | transform {a b c : V ν ω} : Built config a → Built config b → TransformKeeps a b →
      V.transform config a b = .ok c → Built config c
  | apply {a c : V ν ω} {env : ν → Option (V ν ω)} : Built config a → Resolved env →
      ApplyKeeps config env a → V.apply config env a = .ok c → Built config c

theorem Means.wf {r : Except (Exn ω) (V ν ω)} {f : (ν → Level) → Level} (h : Means config r f)
    {c : V ν ω} (hc : r = .ok c) : c.WF := by
  obtain ⟨v, rfl, happrox⟩ := h
  cases hc
  exact happrox.wf

theorem Built.wf (hconfig : config.Valid) {a : V ν ω} (h : Built config a) : a.WF := by
  induction h with
  | top _ | safe | bot | var _ _ => trivial
  | join _ _ hkeeps hc iha ihb => exact (join_means hconfig iha ihb hkeeps).wf hc
  | transform _ _ hkeeps hc iha ihb => exact (transform_means hconfig iha ihb hkeeps).wf hc
  | apply _ henv hkeeps hc iha => exact (apply_means henv hconfig iha hkeeps).wf hc

/-- Along every run in which no step loses a member, the operations mean what they should,
widening only makes more of it, and nothing fails. -/
theorem built_faithful (hconfig : config.Valid) {a b : V ν ω} (ha : Built config a)
    (hb : Built config b) :
    (JoinKeeps a b → Means config (join config a b) fun ρ => max (a.meaning ρ) (b.meaning ρ)) ∧
    (TransformKeeps a b →
      Means config (transform config a b) fun ρ => Level.seq (a.meaning ρ) (b.meaning ρ)) ∧
    (∀ env, Resolved env → ApplyKeeps config env a →
      Means config (apply config env a) fun ρ => a.meaning (override env ρ)) ∧
    (JoinKeeps a b → ∃ yes, lessequal config a b = .ok yes ∧
      (yes = true → ∀ ρ, a.meaning ρ ≤ b.meaning ρ)) :=
  ⟨join_means hconfig (ha.wf hconfig) (hb.wf hconfig),
    transform_means hconfig (ha.wf hconfig) (hb.wf hconfig),
    fun _ henv => apply_means henv hconfig (ha.wf hconfig),
    lessequal_sound hconfig (ha.wf hconfig) (hb.wf hconfig)⟩

/-- A run of two steps: the transform of `f` and `g`, joined with `Safe`. -/
theorem built_faithful_safe_transform :
    ∃ a b : V Nat Nat, transform ⟨.keepAll, ∅⟩ (var 0 ∅) (var 1 ∅) = .ok a ∧
      join ⟨.keepAll, ∅⟩ safe a = .ok b ∧
      ∀ ρ, b.meaning ρ = max .safe (Level.seq (ρ 0) (ρ 1)) := by
  have hconfig : (⟨.keepAll, ∅⟩ : Config Nat).Valid := .inl rfl
  obtain ⟨a, ha, happrox⟩ := (built_faithful hconfig (.var 0 ∅) (.var 1 ∅)).2.1 trivial
  have hbuilt : Built ⟨.keepAll, ∅⟩ a := .transform (.var 0 ∅) (.var 1 ∅) trivial ha
  have hkeeps : JoinKeeps safe a := by
    cases a <;> trivial
  obtain ⟨b, hb, happrox'⟩ := (built_faithful hconfig .safe hbuilt).1 hkeeps
  refine ⟨a, b, ha, hb, fun ρ => ?_⟩
  rw [happrox'.eq rfl, happrox.eq rfl]
  rfl

/-- Joining a transform to a join that has it with `Top` loses `Top`; and a transform of joins
can end in the fatal error of `args_with_top`. -/
theorem join_loses_top :
    (∃ xy xyTop a c : V Nat Nat, transform ⟨.keepAll, ∅⟩ (var 0 ∅) (var 1 ∅) = .ok xy ∧
      transform ⟨.keepAll, ∅⟩ xy (top ∅) = .ok xyTop ∧
      join ⟨.keepAll, ∅⟩ (var 2 ∅) xyTop = .ok a ∧ join ⟨.keepAll, ∅⟩ a xy = .ok c ∧
      c.meaning (fun _ => .safe) = .safe ∧
      max (a.meaning fun _ => .safe) (xy.meaning fun _ => .safe) = .top) ∧
    ∃ a b : V Nat Nat, join ⟨.keepAll, ∅⟩ (top ∅) (var 0 {0}) = .ok a ∧
      join ⟨.keepAll, ∅⟩ safe (var 0 ∅) = .ok b ∧
      transform ⟨.keepAll, ∅⟩ a b = .error .joinTopWithoutWitnesses := by
  refine ⟨⟨_, _, _, _, rfl, rfl, rfl, rfl, ?_, ?_⟩, _, _, rfl, rfl, ?_⟩
  · decide
  · decide
  · rfl

end V

end Oxcaml.Backend.ZeroAlloc
