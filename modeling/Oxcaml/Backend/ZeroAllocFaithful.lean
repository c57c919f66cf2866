/-
Oxcaml.Backend.ZeroAllocFaithful — join, transform and apply on whole values.

A value is well formed when its transforms have variables, its joins have members
and a join with `Top` has witnesses. §1 reads the meaning of such a value off its
members. §2 and §3 go through the cases of `V.join` and `V.transform`, with the
condition under which no member is lost; §4 does the same for `V.apply`. §5 puts
the steps together to runs.
-/
import Oxcaml.Backend.ZeroAllocOperations

namespace Oxcaml.Backend.ZeroAlloc

open Level (eq_iff max_ne_bot seq seq_eq_top seq_ne_bot)

set_option linter.all false

variable {ν ω : Type} [LinearOrder ν] [DecidableEq ω] {config : Config ω}

/-! ## §1 Well-formed values -/

section

variable {ρ : ν → Level}

namespace Transform

/-- The members of a transform. -/
def members (ρ : ν → Level) (tr : Transform ν ω) : List Level :=
  tr.key.map ρ ++ if tr.getTop.isSome then [.top] else []

variable {tr : Transform ν ω}

theorem mem_members {l : Level} :
    l ∈ tr.members ρ ↔ (∃ x ∈ tr.key, ρ x = l) ∨ tr.getTop.isSome = true ∧ l = .top := by
  rw [members]
  split <;> rename_i h <;> simp [h]

theorem meaning_of_live (h : tr.live ρ) : tr.meaning ρ = Level.lub (tr.members ρ) := by
  refine if_neg fun hbot => ?_
  rcases mem_members.1 hbot with ⟨x, hx, hρ⟩ | ⟨-, htop⟩
  · exact h x hx hρ
  · cases htop

theorem meaning_of_not_live (h : ¬ tr.live ρ) : tr.meaning ρ = .bot := by
  simp only [live, not_forall, not_not] at h
  obtain ⟨x, hx, hρ⟩ := h
  exact if_pos (mem_members.2 (.inl ⟨x, hx, hρ⟩))

theorem meaning_ne_bot (hne : tr.key ≠ []) : tr.meaning ρ ≠ .bot ↔ tr.live ρ := by
  obtain ⟨x, hx⟩ := List.exists_mem_of_ne_nil _ hne
  by_cases h : tr.live ρ
  · rw [meaning_of_live h, Level.lub_ne_bot]
    exact iff_of_true ⟨ρ x, mem_members.2 (.inl ⟨x, hx, rfl⟩), h x hx⟩ h
  · rw [meaning_of_not_live h]; simp [h]

theorem meaning_eq_top : tr.meaning ρ = .top ↔ tr.tops ρ := by
  by_cases h : tr.live ρ
  · rw [meaning_of_live h, Level.lub_eq_top, mem_members, tops, or_comm]; simp [h]
  · rw [meaning_of_not_live h]; simp [tops, h]

end Transform

namespace Join

/-- A join has members, and one with `Top` has witnesses. -/
structure WF (j : Join ν ω) : Prop where
  keyed : j.get.WellKeyed
  any : j.get.Has .any
  witnesses : j.getTop.isSome = true → j.get.Has .witnesses

theorem meaning_ne_bot {j : Join ν ω} (h : j.get.WellKeyed) : j.meaning ρ ≠ .bot ↔
      j.get.Has (.live ρ) ∨ j.getTop.isSome = true ∨ j.hasSafe = true := by
  have hvars : (∃ x ∈ j.get.vars.keys, ρ x ≠ .bot) ↔ j.get.vars.Any fun x _ => ρ x ≠ .bot := by
    simp only [Vars.Any]
    grind
  have htrs : (∃ tr ∈ j.get.trs.elements, tr.meaning ρ ≠ .bot) ↔
      ∃ tr ∈ j.get.trs.elements, tr.live ρ :=
    exists_congr fun tr => and_congr_right fun htr =>
      Transform.meaning_ne_bot (Args.key_ne_nil h htr)
  rw [meaning, Level.lub_ne_bot, Args.Has, Facet.live]
  rw [← hvars, ← htrs]
  cases j.getTop <;> cases j.hasSafe <;> simp [or_and_right, exists_or]

theorem meaning_eq_top {j : Join ν ω} :
    j.meaning ρ = .top ↔ j.get.Has (.tops ρ) ∨ j.getTop.isSome = true := by
  have hvars : (∃ x ∈ j.get.vars.keys, ρ x = .top) ↔ j.get.vars.Any fun x _ => ρ x = .top := by
    simp only [Vars.mem_keys_iff, Vars.Any]
    grind
  have htrs : (∃ tr ∈ j.get.trs.elements, tr.meaning ρ = .top) ↔
      ∃ tr ∈ j.get.trs.elements, tr.tops ρ :=
    exists_congr fun tr => and_congr_right fun _ =>
      Transform.meaning_eq_top
  rw [meaning, Level.lub_eq_top, Args.Has, Facet.tops]
  rw [← hvars, ← htrs]
  cases j.getTop <;> cases j.hasSafe <;> simp

theorem args_ne_bot {a : Args ν ω} (h : a.WellKeyed) :
    (args a).meaning ρ ≠ .bot ↔ a.Has (.live ρ) := by
  rw [meaning_ne_bot (j := args a) h]
  simp [getTop, hasSafe, get]

theorem WF.args_ne_bot {a : Args ν ω} (h : (args a).WF) :
    (args a).meaning ρ ≠ .bot ↔ a.Has (.live ρ) :=
  Join.args_ne_bot h.keyed

@[simp] theorem args_eq_top {a : Args ν ω} : (args a).meaning ρ = .top ↔ a.Has (.tops ρ) := by
  rw [meaning_eq_top]
  simp [getTop, get]

@[simp] theorem argsWithSafe_ne_bot (a : Args ν ω) : (argsWithSafe a).meaning ρ ≠ .bot := by
  rw [meaning, Level.lub_ne_bot]
  exact ⟨.safe, by simp [hasSafe], by decide⟩

@[simp] theorem argsWithSafe_eq_top {a : Args ν ω} :
    (argsWithSafe a).meaning ρ = .top ↔ a.Has (.tops ρ) := by
  rw [meaning_eq_top]
  simp [getTop, get]

@[simp] theorem argsWithTop_meaning (w : Witnesses ω) (a : Args ν ω) :
    (argsWithTop w a).meaning ρ = .top :=
  meaning_eq_top.2 (.inr rfl)

/-- A well-formed join of the given meaning. -/
structure Meant (j : Join ν ω) (f : (ν → Level) → Level) : Prop where
  wf : j.WF
  meaning : ∀ ρ, j.meaning ρ = f ρ

variable {a : Args ν ω} {p : Facet ν ω → Prop} {f : (ν → Level) → Level}

theorem meant_args (ha : a.Holds p) (hany : p .any) (hlive : ∀ ρ, p (.live ρ) ↔ f ρ ≠ .bot)
    (htops : ∀ ρ, p (.tops ρ) ↔ f ρ = .top) : (args a).Meant f where
  wf := ⟨ha.1, (ha.2 _).2 hany, fun h => nomatch h⟩
  meaning ρ := by
    rw [eq_iff, args_ne_bot ha.1, args_eq_top, ha.2, ha.2]
    exact ⟨hlive ρ, htops ρ⟩

theorem meant_argsWithSafe (ha : a.Holds p) (hany : p .any) (hlive : ∀ ρ, f ρ ≠ .bot)
    (htops : ∀ ρ, p (.tops ρ) ↔ f ρ = .top) : (argsWithSafe a).Meant f where
  wf := ⟨ha.1, (ha.2 _).2 hany, fun h => nomatch h⟩
  meaning ρ := by
    rw [eq_iff, argsWithSafe_eq_top, ha.2]
    exact ⟨iff_of_true (argsWithSafe_ne_bot a) (hlive ρ), htops ρ⟩

/-- With witnesses, `args_with_top` does not fail. -/
theorem withTop_meant (w : Witnesses ω) (ha : a.Holds p) (hany : p .any) (hw : p .witnesses)
    (htop : ∀ ρ, f ρ = .top) : ∃ j, withTop w a = .ok j ∧ j.Meant f := by
  have hwitnesses : a.Has .witnesses := (ha.2 _).2 hw
  refine ⟨argsWithTop w a, ?_, ⟨ha.1, (ha.2 _).2 hany, fun _ => hwitnesses⟩, fun ρ => ?_⟩
  · rw [withTop, Args.hasWitnesses_iff.2 hwitnesses]; rfl
  · rw [htop, argsWithTop_meaning]

end Join

end

namespace V

def WF : V ν ω → Prop
  | ofTransform tr => tr.key ≠ []
  | ofJoin j => j.WF
  | _ => True

/-- A well-formed value that is at least `f`, and without widening means `f`. -/
structure Approx (config : Config ω) (v : V ν ω) (f : (ν → Level) → Level) : Prop where
  wf : v.WF
  le : ∀ ρ, f ρ ≤ v.meaning ρ
  eq : config.join = .keepAll → ∀ ρ, v.meaning ρ = f ρ

/-- The result is a value, not an exception. -/
def Means (config : Config ω) (r : Except (Exn ω) (V ν ω)) (f : (ν → Level) → Level) : Prop :=
  ∃ v, r = .ok v ∧ Approx config v f

variable {f g : (ν → Level) → Level} {v : V ν ω}

theorem means_ok (hwf : v.WF) (h : ∀ ρ, v.meaning ρ = f ρ) : Means config (.ok v) f :=
  ⟨v, rfl, hwf, fun ρ => (h ρ).ge, fun _ => h⟩

theorem Approx.congr (h : Approx config v f) (hfg : ∀ ρ, f ρ = g ρ) : Approx config v g := by
  obtain rfl : f = g := funext hfg
  exact h

theorem Means.congr {r : Except (Exn ω) (V ν ω)} (h : Means config r f) (hfg : ∀ ρ, f ρ = g ρ) :
    Means config r g := by
  obtain rfl : f = g := funext hfg
  exact h

variable {r : Except (Exn ω) (Join ν ω)}

theorem boundedJoin_means (h : Yields config r (·.Meant f)) : Means config (boundedJoin r) f := by
  rcases h with ⟨j, rfl, hj⟩ | ⟨⟨w, rfl⟩, hpolicy⟩
  · exact means_ok (v := ofJoin j) hj.wf hj.meaning
  · exact ⟨top w, rfl, trivial, fun ρ => Level.le_top (f ρ), fun h => absurd h hpolicy⟩

theorem unboundedJoin_means (h : ∃ j, r = .ok j ∧ j.Meant f) :
    Means config (unboundedJoin r) f := by
  obtain ⟨j, rfl, hj⟩ := h
  exact means_ok (v := ofJoin j) hj.wf hj.meaning

end V

/-! ## §2 Join -/

variable {a a1 a2 : Args ν ω}

theorem Args.holds_self (ha : a.WellKeyed) : a.Holds fun F => a.Has F :=
  ⟨ha, fun _ => Iff.rfl⟩

theorem Args.holds_addVar (ha : a.WellKeyed) (x : ν) (w : Witnesses ω) :
    (a.addVar x w).Holds fun F => a.Has F ∨ F.var x w :=
  ⟨ha, fun F => has_addVar F a x w⟩

theorem Args.holds_empty_addVar (x : ν) (w : Witnesses ω) :
    ((empty : Args ν ω).addVar x w).Holds fun F => F.var x w :=
  ⟨wellKeyed_empty, fun F => by rw [has_addVar, or_iff_right (has_empty F)]⟩

namespace V

/-- A transform that is added to a join loses nothing of it. -/
def JoinKeeps : V ν ω → V ν ω → Prop
  | ofJoin j, ofTransform tr => j.get.trs.AddKeeps tr
  | ofTransform tr, ofJoin j => j.get.trs.AddKeeps tr
  | _, _ => True

section

variable {x y : ν} {w w1 w2 : Witnesses ω} {tr tr' : Transform ν ω} {j j' : Join ν ω}

theorem joinTopVar_means : Means config (joinTopVar w x w1) fun ρ => max .top (ρ x) := by
  rw [joinTopVar]
  split
  · exact means_ok (v := top w) trivial fun ρ => by simp [meaning]
  rename_i hw
  exact unboundedJoin_means (Join.withTop_meant w (Args.holds_empty_addVar x w1) trivial hw
    fun ρ => by simp)

theorem joinSafeVar_means :
    Means config (.ok (ofJoin (Join.varWithSafe x w))) fun ρ => max .safe (ρ x) := by
  have h := Join.meant_argsWithSafe (f := fun ρ => max .safe (ρ x)) (Args.holds_empty_addVar x w)
    trivial (fun ρ => by simp) fun ρ => by simp [Facet.tops]
  exact means_ok (v := ofJoin (Join.varWithSafe x w)) h.wf h.meaning

theorem joinVars_means (hxy : x ≠ y) :
    Means config (unboundedJoin (Join.vars x w1 y w2)) fun ρ => max (ρ x) (ρ y) := by
  refine unboundedJoin_means ⟨.args ((Args.empty.addVar y w2).addVar x w1), ?_, ?_⟩
  · rw [Join.vars, if_neg hxy]; rfl
  have hy := Args.holds_empty_addVar y w2
  have hxy := Args.holds_addVar hy.1 x w1
  refine Join.meant_args hxy (.inr trivial) (fun ρ => ?_) fun ρ => ?_
  · rw [hy.2, max_ne_bot, or_comm]; rfl
  · rw [hy.2, Level.max_eq_top, or_comm]; rfl

section

variable (hconfig : config.Valid)

include hconfig

section

variable (hne : tr.key ≠ [])
include hne

theorem joinSafeTransform_means :
    Means config (unboundedJoin (Join.trWithSafe config tr)) fun ρ => max .safe (tr.meaning ρ) := by
  obtain ⟨a, hadd, ha⟩ := Args.addTr_empty hconfig hne
  refine unboundedJoin_means ⟨.argsWithSafe a, ?_, ?_⟩
  · rw [Join.trWithSafe, hadd]; rfl
  · refine Join.meant_argsWithSafe ha trivial (fun ρ => by simp) fun ρ => ?_
    simp [Transform.meaning_eq_top]

theorem joinTopTransform_means :
    Means config (joinTopTransform config w tr) fun ρ => max .top (tr.meaning ρ) := by
  rw [joinTopTransform]
  split
  · rename_i hw
    obtain ⟨a, hadd, ha⟩ := Args.addTr_empty hconfig hne
    refine unboundedJoin_means ?_
    rw [Join.trWithTop, hadd]
    exact Join.withTop_meant w ha trivial hw fun ρ => by simp
  · exact means_ok (v := top w) trivial fun ρ => by simp [meaning]

theorem joinVarTransform_means :
    Means config (unboundedJoin (Join.varWithTr config x w tr))
      fun ρ => max (ρ x) (tr.meaning ρ) := by
  obtain ⟨a, hadd, ha⟩ := Args.addTr_empty hconfig hne
  refine unboundedJoin_means ⟨.args (a.addVar x w), ?_, ?_⟩
  · rw [Join.varWithTr, hadd]; rfl
  refine Join.meant_args (Args.holds_addVar ha.1 x w) (.inr trivial) (fun ρ => ?_) fun ρ => ?_
  · rw [ha.2, max_ne_bot, Transform.meaning_ne_bot hne, or_comm]; rfl
  · rw [ha.2, Level.max_eq_top, Transform.meaning_eq_top, or_comm]; rfl

/-- Two transforms with different variables. -/
theorem joinTransforms_means (hne' : tr'.key ≠ []) (hkey : tr.key ≠ tr'.key) :
    Means config (boundedJoin (Join.trs config tr tr'))
      fun ρ => max (tr.meaning ρ) (tr'.meaning ρ) := by
  obtain ⟨a, hadd, ha⟩ := Args.addTr_empty hconfig hne
  have hkeeps : a.trs.AddKeeps tr' := by
    rw [Args.addKeeps_iff, ha.2]
    exact fun h => hkey h.1
  have hne'' : tr ≠ tr' := fun h => hkey (congrArg Transform.key h)
  rw [Join.trs, if_neg hne'', hadd]
  refine boundedJoin_means
    ((Args.addTr_yields hconfig ha.1 hne' hkeeps).bind fun a' ha' => .pure ?_)
  refine Join.meant_args ha' (.inr trivial) (fun ρ => ?_) fun ρ => ?_
  · rw [ha.2, max_ne_bot, Transform.meaning_ne_bot hne, Transform.meaning_ne_bot hne']; rfl
  · rw [ha.2, Level.max_eq_top, Transform.meaning_eq_top, Transform.meaning_eq_top]; rfl

end

end

theorem joinTopJoin_means (hj : j.WF) :
    Means config (joinTopJoin w j) fun ρ => max .top (j.meaning ρ) := by
  rw [joinTopJoin]
  split
  · rename_i hw
    refine unboundedJoin_means ?_
    cases j with
    | argsWithSafe a =>
      exact Join.withTop_meant w (Args.holds_self hj.keyed) hj.any (Args.hasWitnesses_iff.1 hw)
        fun ρ => by simp
    | argsWithTop w' a =>
      exact Join.withTop_meant _ (Args.holds_self hj.keyed) hj.any (hj.witnesses rfl)
        fun ρ => by simp
    | args a =>
      exact Join.withTop_meant w (Args.holds_self hj.keyed) hj.any (Args.hasWitnesses_iff.1 hw)
        fun ρ => by simp
  · exact means_ok (v := top w) trivial fun ρ => by simp [meaning]

theorem joinSafeJoin_means (hj : j.WF) :
    Means config (.ok (ofJoin j.addSafe)) fun ρ => max .safe (j.meaning ρ) := by
  cases j with
  | argsWithSafe a =>
    have h := Join.meant_argsWithSafe (f := fun ρ => max .safe ((Join.argsWithSafe a).meaning ρ))
      (Args.holds_self hj.keyed) hj.any (fun ρ => by simp) fun ρ => by simp [Join.get]
    exact means_ok (v := ofJoin (.argsWithSafe a)) h.wf h.meaning
  | argsWithTop w a =>
    refine means_ok (v := ofJoin (.argsWithTop w a)) hj fun ρ => ?_
    simp [meaning]
  | args a =>
    have h := Join.meant_argsWithSafe (f := fun ρ => max .safe ((Join.args a).meaning ρ))
      (Args.holds_self hj.keyed) hj.any (fun ρ => by simp) fun ρ => by simp [Join.get]
    exact means_ok (v := ofJoin (.argsWithSafe a)) h.wf h.meaning

theorem joinVarJoin_means (hj : j.WF) :
    Means config (unboundedJoin (j.addVar x w)) fun ρ => max (ρ x) (j.meaning ρ) := by
  have ha := Args.holds_addVar hj.keyed x w
  refine unboundedJoin_means ?_
  cases j with
  | argsWithSafe a =>
    refine ⟨_, rfl, Join.meant_argsWithSafe ha (.inr trivial) (fun ρ => by simp) fun ρ => ?_⟩
    rw [Level.max_eq_top, Join.argsWithSafe_eq_top, or_comm]
    rfl
  | argsWithTop w' a =>
    exact Join.withTop_meant w' ha (.inr trivial) (.inl (hj.witnesses rfl)) fun ρ => by simp
  | args a =>
    refine ⟨_, rfl, Join.meant_args ha (.inr trivial) (fun ρ => ?_) fun ρ => ?_⟩
    · rw [max_ne_bot, hj.args_ne_bot, or_comm]; rfl
    · rw [Level.max_eq_top, Join.args_eq_top, or_comm]; rfl

section

variable (hconfig : config.Valid)

include hconfig

theorem joinTransformJoin_means (hne : tr.key ≠ []) (hj : j.WF) (hkeeps : j.get.trs.AddKeeps tr) :
    Means config (boundedJoin (j.addTr config tr)) fun ρ => max (tr.meaning ρ) (j.meaning ρ) := by
  have hadd := Args.addTr_yields hconfig hj.keyed hne hkeeps
  refine boundedJoin_means ?_
  cases j with
  | argsWithSafe a =>
    refine hadd.bind fun a' ha' => .pure ?_
    refine Join.meant_argsWithSafe ha' (.inr trivial) (fun ρ => by simp) fun ρ => ?_
    rw [Level.max_eq_top, Join.argsWithSafe_eq_top, Transform.meaning_eq_top, or_comm]
    rfl
  | argsWithTop w' a =>
    refine hadd.bind fun a' ha' => .inl ?_
    exact Join.withTop_meant w' ha' (.inr trivial) (.inl (hj.witnesses rfl)) fun ρ => by simp
  | args a =>
    refine hadd.bind fun a' ha' => .pure ?_
    refine Join.meant_args ha' (.inr trivial) (fun ρ => ?_) fun ρ => ?_
    · rw [max_ne_bot, hj.args_ne_bot, Transform.meaning_ne_bot hne, or_comm]; rfl
    · rw [Level.max_eq_top, Join.args_eq_top, Transform.meaning_eq_top, or_comm]; rfl

/-- The joins of the two are made by the same `Args.join`, in either order. -/
theorem joinJoins_means (hj : j.WF) (hj' : j'.WF) :
    Means config (boundedJoin (Join.flatten config j j'))
      fun ρ => max (j.meaning ρ) (j'.meaning ρ) := by
  have hjoin := Args.join_yields hconfig hj.keyed hj'.keyed
  have hjoin' := Args.join_yields hconfig hj'.keyed hj.keyed
  refine boundedJoin_means ?_
  cases j <;> cases j' <;> simp only [Join.get] at hjoin hjoin'
  case argsWithSafe.argsWithSafe a a' =>
    refine hjoin.bind fun b hb => .pure ?_
    exact Join.meant_argsWithSafe hb (.inl hj.any) (fun ρ => by simp) fun ρ => by simp
  case argsWithSafe.args a a' =>
    refine hjoin.bind fun b hb => .pure ?_
    exact Join.meant_argsWithSafe hb (.inl hj.any) (fun ρ => by simp) fun ρ => by simp
  case args.argsWithSafe a a' =>
    refine hjoin.bind fun b hb => .pure ?_
    exact Join.meant_argsWithSafe hb (.inl hj.any) (fun ρ => by simp) fun ρ => by simp
  case args.args a a' =>
    refine hjoin.bind fun b hb => .pure ?_
    refine Join.meant_args hb (.inl hj.any) (fun ρ => ?_) fun ρ => by simp
    rw [max_ne_bot, hj.args_ne_bot, hj'.args_ne_bot]
  case argsWithTop.argsWithTop w a w' a' =>
    refine hjoin.bind fun b hb => .inl ?_
    exact Join.withTop_meant _ hb (.inl hj.any) (.inl (hj.witnesses rfl)) fun ρ => by simp
  case argsWithTop.argsWithSafe w a a' =>
    refine hjoin.bind fun b hb => .inl ?_
    exact Join.withTop_meant _ hb (.inl hj.any) (.inl (hj.witnesses rfl)) fun ρ => by simp
  case argsWithTop.args w a a' =>
    refine hjoin.bind fun b hb => .inl ?_
    exact Join.withTop_meant _ hb (.inl hj.any) (.inl (hj.witnesses rfl)) fun ρ => by simp
  case argsWithSafe.argsWithTop a w a' =>
    refine hjoin'.bind fun b hb => .inl ?_
    exact Join.withTop_meant _ hb (.inr hj.any) (.inl (hj'.witnesses rfl)) fun ρ => by simp
  case args.argsWithTop a w a' =>
    refine hjoin'.bind fun b hb => .inl ?_
    exact Join.withTop_meant _ hb (.inr hj.any) (.inl (hj'.witnesses rfl)) fun ρ => by simp

/-- Join is the least upper bound. -/
theorem join_means {a b : V ν ω} (ha : a.WF) (hb : b.WF) (hkeeps : JoinKeeps a b) :
    Means config (join config a b) fun ρ => max (a.meaning ρ) (b.meaning ρ) := by
  have hcomm : ∀ {r : Except (Exn ω) (V ν ω)} {f g : (ν → Level) → Level},
      Means config r (fun ρ => max (f ρ) (g ρ)) → Means config r fun ρ => max (g ρ) (f ρ) :=
    fun h => h.congr fun ρ => max_comm _ _
  cases a <;> cases b
  case var.var x w1 y w2 =>
    simp only [join]
    split
    · rename_i hxy
      subst hxy
      exact means_ok (v := var x (w1 ∪ w2)) trivial fun ρ => by simp [meaning]
    · exact joinVars_means ‹_›
  case ofTransform.ofTransform tr tr' =>
    simp only [join]
    split
    · rename_i heq
      subst heq
      exact means_ok ha fun ρ => by simp
    split
    · rename_i hsame
      have hkey : tr.key = tr'.key := by simpa [Transform.sameVars] using hsame
      have hkey' : (tr.flatten tr').key ≠ [] := Transforms.key_flatten hkey ▸ ha
      refine means_ok (v := ofTransform (tr.flatten tr')) hkey' fun ρ => ?_
      rw [meaning, meaning, meaning, eq_iff, max_ne_bot, Level.max_eq_top,
        Transform.meaning_ne_bot hkey', Transform.meaning_ne_bot ha, Transform.meaning_ne_bot hb,
        Transform.meaning_eq_top, Transform.meaning_eq_top, Transform.meaning_eq_top]
      exact ⟨(Transform.lasting_live ρ).flatten hkey, (Transform.lasting_tops ρ).flatten hkey⟩
    rename_i hsame
    have hkey : tr.key ≠ tr'.key := by simpa [Transform.sameVars] using hsame
    exact joinTransforms_means hconfig ha hb hkey
  case top.var => exact joinTopVar_means
  case var.top => exact hcomm joinTopVar_means
  case safe.var => exact joinSafeVar_means
  case var.safe => exact hcomm joinSafeVar_means
  case safe.ofTransform => exact joinSafeTransform_means hconfig hb
  case ofTransform.safe => exact hcomm (joinSafeTransform_means hconfig ha)
  case top.ofTransform => exact joinTopTransform_means hconfig hb
  case ofTransform.top => exact hcomm (joinTopTransform_means hconfig ha)
  case var.ofTransform => exact joinVarTransform_means hconfig hb
  case ofTransform.var => exact hcomm (joinVarTransform_means hconfig ha)
  case top.ofJoin => exact joinTopJoin_means hb
  case ofJoin.top => exact hcomm (joinTopJoin_means ha)
  case safe.ofJoin => exact joinSafeJoin_means hb
  case ofJoin.safe => exact hcomm (joinSafeJoin_means ha)
  case var.ofJoin => exact joinVarJoin_means hb
  case ofJoin.var => exact hcomm (joinVarJoin_means ha)
  case ofTransform.ofJoin => exact joinTransformJoin_means hconfig ha hb hkeeps
  case ofJoin.ofTransform => exact hcomm (joinTransformJoin_means hconfig hb ha hkeeps)
  case ofJoin.ofJoin => exact joinJoins_means hconfig ha hb
  all_goals exact means_ok (by assumption) fun ρ => by simp [meaning]

end

end

end V

/-! ## §3 Transform -/

namespace Join

/-- `distribute_transform_over_join` loses nothing. -/
def DistributeTransformKeeps (tr : Transform ν ω) : Join ν ω → Prop
  | argsWithSafe a => a.TransformKeeps tr ∧ ¬ a.product tr (.lost tr)
  | argsWithTop w a => a.TransformKeeps tr ∧ ¬ a.product tr (.lost (tr.addTop w))
  | args a => a.TransformKeeps tr

/-- `distribute_transform_var_over_join` loses nothing. -/
def DistributeTransformVarKeeps (x : ν) (w : Witnesses ω) : Join ν ω → Prop
  | argsWithSafe a => a.TransformVarKeeps x w
  | argsWithTop w' a =>
    a.TransformVarKeeps x w ∧ ¬ a.varProduct x w (.lost (.varWithTop x w w'))
  | args a => a.TransformVarKeeps x w

/-- `distribute_transform_over_joins` loses nothing. Of two joins the one with more is the
first argument of `transform_join`. -/
def DistributeTransformJoinKeeps : Join ν ω → Join ν ω → Prop
  | args a2, argsWithSafe a1 => a1.TransformJoinKeeps a2
  | args a2, argsWithTop _ a1 => a1.TransformJoinKeeps a2
  | argsWithSafe a2, argsWithTop _ a1 => a1.TransformJoinKeeps a2 ∧ a1.WitnessesKept a2
  | argsWithTop _ a1, argsWithSafe a2 => a1.TransformJoinKeeps a2 ∧ a1.WitnessesKept a2
  | j1, j2 => j1.get.TransformJoinKeeps j2.get

end Join

namespace V

/-- No member gets lost in `transform`. -/
def TransformKeeps : V ν ω → V ν ω → Prop
  | ofTransform tr, ofJoin j => j.DistributeTransformKeeps tr
  | ofJoin j, ofTransform tr => j.DistributeTransformKeeps tr
  | var x w, ofJoin j => j.DistributeTransformVarKeeps x w
  | ofJoin j, var x w => j.DistributeTransformVarKeeps x w
  | ofJoin j1, ofJoin j2 => j1.DistributeTransformJoinKeeps j2
  | _, _ => True

section

variable {x : ν} {w : Witnesses ω} {tr : Transform ν ω} {j j' : Join ν ω} {f : (ν → Level) → Level}

theorem ofTransform_means (hne : tr.key ≠ []) (hlive : ∀ ρ, tr.live ρ ↔ f ρ ≠ .bot)
    (htops : ∀ ρ, tr.tops ρ ↔ f ρ = .top) : Means config (.ok (ofTransform tr)) f := by
  refine means_ok (v := ofTransform tr) hne fun ρ => ?_
  rw [meaning, eq_iff, Transform.meaning_ne_bot hne, Transform.meaning_eq_top]
  exact ⟨hlive ρ, htops ρ⟩

theorem transformTopTransform_means (hne : tr.key ≠ []) :
    Means config (.ok (ofTransform (tr.addTop w))) fun ρ => seq .top (tr.meaning ρ) := by
  refine ofTransform_means (Transform.key_addTop tr w ▸ hne) (fun ρ => ?_) fun ρ => ?_
  · rw [Transform.live_addTop, seq_ne_bot, Transform.meaning_ne_bot hne]; simp
  · rw [Transform.tops_addTop, seq_eq_top, Transform.meaning_ne_bot hne]; simp

theorem transformTopVar_means {w' : Witnesses ω} :
    Means config (.ok (ofTransform (.varWithTop x w' w))) fun ρ => seq .top (ρ x) := by
  have hsome : (Transform.varWithTop x w' w).getTop = some w := rfl
  refine ofTransform_means (by simp) (fun ρ => ?_) fun ρ => ?_
  · rw [seq_ne_bot]; simp [Transform.live]
  · rw [seq_eq_top]; simp [Transform.tops, Transform.live, hsome]

theorem transformVarTransform_means (hne : tr.key ≠ []) :
    Means config (.ok (ofTransform (tr.addVar x w))) fun ρ => seq (ρ x) (tr.meaning ρ) := by
  have hne' : (tr.addVar x w).key ≠ [] :=
    List.ne_nil_of_mem ((Transform.mem_key_addVar tr x x w).2 (.inl rfl))
  refine ofTransform_means hne' (fun ρ => ?_) fun ρ => ?_
  · rw [Transform.live_addVar, seq_ne_bot, Transform.meaning_ne_bot hne]
  · rw [Transform.tops_addVar, seq_eq_top, Transform.meaning_ne_bot hne,
      Transform.meaning_eq_top]

variable (hconfig : config.Valid)

include hconfig

theorem transformJoin_means (hne : tr.key ≠ []) (hj : j.WF)
    (hkeeps : j.DistributeTransformKeeps tr) :
    Means config (boundedJoin (j.distributeTransformOverJoin config tr))
      fun ρ => seq (tr.meaning ρ) (j.meaning ρ) := by
  refine boundedJoin_means ?_
  cases j with
  | argsWithSafe a =>
    refine (Args.transform_yields hconfig hne hkeeps.1).bind fun b hb => ?_
    have hadd : b.trs.AddKeeps tr := by
      rw [Args.addKeeps_iff, hb.2]
      exact hkeeps.2
    refine (Args.addTr_yields hconfig hb.1 hne hadd).bind fun c hc => .pure ?_
    refine Join.meant_args hc (.inr trivial) (fun ρ => ?_) fun ρ => ?_
    · rw [hb.2, Args.product_live, seq_ne_bot, Transform.meaning_ne_bot hne]; simp
    have htr := @Args.tops_live ν ω _ _ ρ tr
    have ha := @Args.has_live_of_tops ν ω _ _ ρ a
    rw [hb.2, Args.product_tops, seq_eq_top, Transform.meaning_ne_bot hne,
      Transform.meaning_eq_top, Join.argsWithSafe_eq_top]
    simp only [Join.argsWithSafe_ne_bot, ne_eq, not_false_eq_true]
    tauto
  | argsWithTop w a =>
    refine (Args.transform_yields hconfig hne hkeeps.1).bind fun b hb => ?_
    have hadd : b.trs.AddKeeps (tr.addTop w) := by
      rw [Args.addKeeps_iff, hb.2]
      exact hkeeps.2
    have hne' : (tr.addTop w).key ≠ [] := Transform.key_addTop tr w ▸ hne
    refine (Args.addTr_yields hconfig hb.1 hne' hadd).bind fun c hc => .pure ?_
    refine Join.meant_args hc (.inr trivial) (fun ρ => ?_) fun ρ => ?_
    · rw [hb.2, Args.product_live, seq_ne_bot, Transform.meaning_ne_bot hne]
      simp [Transform.live_addTop]
    rw [hb.2, Args.product_tops, seq_eq_top, Transform.meaning_ne_bot hne]
    simp only [Facet.tops_tr, Transform.tops_addTop, Join.argsWithTop_meaning]
    tauto
  | args a =>
    refine (Args.transform_yields hconfig hne hkeeps).bind fun b hb => .pure ?_
    refine Join.meant_args hb hj.any (fun ρ => ?_) fun ρ => ?_
    · rw [Args.product_live, seq_ne_bot, Transform.meaning_ne_bot hne, hj.args_ne_bot]; tauto
    rw [Args.product_tops, seq_eq_top, Transform.meaning_ne_bot hne, hj.args_ne_bot,
      Transform.meaning_eq_top, Join.args_eq_top]
    tauto

theorem transformVarJoin_means (hj : j.WF) (hkeeps : j.DistributeTransformVarKeeps x w) :
    Means config (boundedJoin (j.distributeTransformVarOverJoin config x w))
      fun ρ => seq (ρ x) (j.meaning ρ) := by
  refine boundedJoin_means ?_
  cases j with
  | argsWithSafe a =>
    refine (Args.transformVar_yields hconfig hkeeps).bind fun b hb => .pure ?_
    refine Join.meant_args (Args.holds_addVar hb.1 x w) (.inr trivial) (fun ρ => ?_) fun ρ => ?_
    · rw [hb.2, Args.varProduct_live, seq_ne_bot]
      simp only [Join.argsWithSafe_ne_bot, ne_eq, not_false_eq_true]
      tauto
    have ha := @Args.has_live_of_tops ν ω _ _ ρ a
    rw [hb.2, Args.varProduct_tops, seq_eq_top, Join.argsWithSafe_eq_top]
    simp only [Facet.tops_var, Join.argsWithSafe_ne_bot, ne_eq, not_false_eq_true]
    grind
  | argsWithTop w' a =>
    refine (Args.transformVar_yields hconfig hkeeps.1).bind fun b hb => ?_
    have hadd : b.trs.AddKeeps (.varWithTop x w w') := by
      rw [Args.addKeeps_iff, hb.2]
      exact hkeeps.2
    refine (Args.addTr_yields hconfig hb.1 (by simp) hadd).bind fun c hc => .pure ?_
    have hsome : (Transform.varWithTop x w w').getTop = some w' := rfl
    refine Join.meant_args hc (.inr trivial) (fun ρ => ?_) fun ρ => ?_
    · rw [hb.2, Args.varProduct_live, seq_ne_bot]
      simp only [Facet.live_tr, Transform.live, forall_eq]
      simp +contextual
    rw [hb.2, Args.varProduct_tops, seq_eq_top]
    simp only [Facet.tops_tr, Transform.tops, Transform.live, hsome]
    simp
    tauto
  | args a =>
    refine (Args.transformVar_yields hconfig hkeeps).bind fun b hb => .pure ?_
    refine Join.meant_args hb ((Args.varProduct_any a x w).2 hj.any) (fun ρ => ?_) fun ρ => ?_
    · rw [Args.varProduct_live, seq_ne_bot, hj.args_ne_bot]
    · rw [Args.varProduct_tops, seq_eq_top, hj.args_ne_bot, Join.args_eq_top]

theorem transformTopJoin_means (hj : j.WF) :
    Means config (transformTopJoin config w j) fun ρ => seq .top (j.meaning ρ) := by
  rw [transformTopJoin]
  cases j with
  | argsWithSafe a =>
    split
    · refine means_ok (v := top w) trivial fun ρ => ?_
      rw [meaning, eq_comm, seq_eq_top]
      simp
    rename_i hw
    have hwitnesses : a.Has .witnesses := by
      simpa [Join.hasSafe, Join.hasWitnesses, Args.hasWitnesses_iff] using hw
    refine boundedJoin_means ?_
    refine (Args.transformTop_yields hconfig hj.keyed w).bind fun b hb => .inl ?_
    refine Join.withTop_meant w hb hj.any (Args.topProduct_witnesses w hwitnesses) fun ρ => ?_
    rw [seq_eq_top]
    simp
  | argsWithTop w' a =>
    refine boundedJoin_means ?_
    refine (Args.transformTop_yields hconfig hj.keyed w).bind fun b hb => .inl ?_
    refine Join.withTop_meant _ hb hj.any (Args.topProduct_witnesses w (hj.witnesses rfl))
      fun ρ => ?_
    simp
  | args a =>
    refine boundedJoin_means ?_
    refine (Args.transformTop_yields hconfig hj.keyed w).bind fun b hb => .pure ?_
    refine Join.meant_args hb hj.any (fun ρ => ?_) fun ρ => ?_
    · rw [Args.topProduct_live, seq_ne_bot, hj.args_ne_bot]; simp [Join.get]
    · rw [Args.topProduct_tops, seq_eq_top, hj.args_ne_bot]; simp [Join.get]

/-- `Safe` on one side. -/
theorem distributeSafe_yields (h2 : (Join.args a2).WF) (hkeeps : a1.TransformJoinKeeps a2) :
    Yields config (Join.distributeSafe config a1 a2) (·.Meant
      fun ρ => seq ((Join.argsWithSafe a1).meaning ρ) ((Join.args a2).meaning ρ)) := by
  refine (Args.transformJoin_yields hconfig h2.keyed hkeeps).bind fun b hb => ?_
  refine (Args.join_yields hconfig h2.keyed hb.1).bind fun c hc => .pure ?_
  refine Join.meant_args hc (.inl h2.any) (fun ρ => ?_) fun ρ => ?_
  · rw [hb.2, Args.joinProduct_live, seq_ne_bot, h2.args_ne_bot]
    simp only [Join.argsWithSafe_ne_bot, ne_eq, not_false_eq_true, true_and]
    exact or_iff_left_of_imp And.right
  have hlive1 := @Args.has_live_of_tops ν ω _ _ ρ a1
  have hlive2 := @Args.has_live_of_tops ν ω _ _ ρ a2
  rw [hb.2, Args.joinProduct_tops, seq_eq_top, h2.args_ne_bot, Join.args_eq_top,
    Join.argsWithSafe_eq_top]
  simp only [Join.argsWithSafe_ne_bot, ne_eq, not_false_eq_true]
  tauto

/-- `Top` on one side. -/
theorem distributeTop_yields (h2 : a2.WellKeyed) (hkeeps : a1.TransformJoinKeeps a2) :
    Yields config (Join.distributeTop config w a1 a2)
      (·.Holds fun F => a1.joinProduct a2 F ∨ a2.topProduct w F) := by
  refine (Args.transformJoin_yields hconfig h2 hkeeps).bind fun b hb => ?_
  refine (Args.transformTop_yields hconfig h2 w).bind fun c hc => ?_
  refine (Args.join_yields hconfig hb.1 hc.1).mono fun d hd => ⟨hd.1, fun F => ?_⟩
  exact (hd.2 F).trans (or_congr (hb.2 F) (hc.2 F))

theorem distributeTopArgs_yields (h2 : (Join.args a2).WF) (hkeeps : a1.TransformJoinKeeps a2) :
    Yields config (do pure (.args (← Join.distributeTop config w a1 a2))) (Join.Meant ·
      fun ρ => seq ((Join.argsWithTop w a1).meaning ρ) ((Join.args a2).meaning ρ)) := by
  refine (distributeTop_yields hconfig h2.keyed hkeeps).bind fun b hb => .pure ?_
  refine Join.meant_args hb (.inr ((Args.topProduct_any a2 w).2 h2.any)) (fun ρ => ?_) fun ρ => ?_
  · rw [Args.joinProduct_live, Args.topProduct_live, seq_ne_bot, h2.args_ne_bot]
    simp only [Join.get]
    simp
  rw [Args.joinProduct_tops, Args.topProduct_tops, seq_eq_top, h2.args_ne_bot]
  simp only [Join.get]
  simp +contextual

theorem distributeTopSafe_yields (h1 : (Join.argsWithTop w a1).WF)
    (h2 : (Join.argsWithSafe a2).WF) (hkeeps : a1.TransformJoinKeeps a2)
    (hkept : a1.WitnessesKept a2) :
    Yields config (do Join.withTop w (← Join.distributeTop config w a1 a2)) (·.Meant
      fun ρ => seq ((Join.argsWithTop w a1).meaning ρ) ((Join.argsWithSafe a2).meaning ρ)) := by
  refine (distributeTop_yields hconfig h2.keyed hkeeps).bind fun b hb => .inl ?_
  refine Join.withTop_meant w hb (.inr ((Args.topProduct_any a2 w).2 h2.any))
    (.inl (Args.joinProduct_witnesses (h1.witnesses rfl) h2.any hkept)) fun ρ => ?_
  rw [seq_eq_top]
  simp

theorem transformJoins_means (hj : j.WF) (hj' : j'.WF)
    (hkeeps : j.DistributeTransformJoinKeeps j') :
    Means config (boundedJoin (Join.distributeTransformOverJoins config j j'))
      fun ρ => seq (j.meaning ρ) (j'.meaning ρ) := by
  have hcomm : ∀ {r : Except (Exn ω) (V ν ω)} {f g : (ν → Level) → Level},
      Means config r (fun ρ => seq (f ρ) (g ρ)) →
        Means config r fun ρ => seq (g ρ) (f ρ) :=
    fun h => h.congr fun ρ => Level.seq_comm _ _
  cases j <;> cases j'
  case args.args a a' =>
    refine boundedJoin_means ?_
    refine (Args.transformJoin_yields hconfig hj'.keyed hkeeps).bind fun b hb => .pure ?_
    refine Join.meant_args hb ((Args.joinProduct_any a a').2 ⟨hj.any, hj'.any⟩) (fun ρ => ?_)
      fun ρ => ?_
    · rw [Args.joinProduct_live, seq_ne_bot, hj.args_ne_bot, hj'.args_ne_bot]; rfl
    rw [Args.joinProduct_tops, seq_eq_top, hj.args_ne_bot, hj'.args_ne_bot,
      Join.args_eq_top, Join.args_eq_top]
    rfl
  case argsWithSafe.argsWithSafe a a' =>
    refine boundedJoin_means ?_
    refine (Args.transformJoin_yields hconfig hj'.keyed hkeeps).bind fun b hb => ?_
    refine (Args.join_yields hconfig hj'.keyed hb.1).bind fun c hc => ?_
    refine (Args.join_yields hconfig hj.keyed hc.1).bind fun d hd => .pure ?_
    refine Join.meant_argsWithSafe hd (.inl hj.any) (fun ρ => ?_) fun ρ => ?_
    · rw [seq_ne_bot]; simp
    rw [hc.2]
    dsimp only
    rw [hb.2, Args.joinProduct_tops, seq_eq_top, Join.argsWithSafe_eq_top,
      Join.argsWithSafe_eq_top]
    simp only [Join.argsWithSafe_ne_bot, ne_eq, not_false_eq_true, true_and]
    tauto
  case argsWithSafe.args => exact boundedJoin_means (distributeSafe_yields hconfig hj' hkeeps)
  case args.argsWithSafe =>
    exact hcomm (boundedJoin_means (distributeSafe_yields hconfig hj hkeeps))
  case argsWithTop.argsWithTop w a w' a' =>
    refine boundedJoin_means ?_
    refine (Args.transformJoin_yields hconfig hj'.keyed hkeeps).bind fun b hb => ?_
    refine (Args.transformTop_yields hconfig hj.keyed w').bind fun c hc => ?_
    refine (Args.transformTop_yields hconfig hj'.keyed w).bind fun c' hc' => ?_
    refine (Args.join_yields hconfig hc.1 hc'.1).bind fun d hd => ?_
    refine (Args.join_yields hconfig hb.1 hd.1).bind fun e he => .inl ?_
    have hwitnesses : d.Has .witnesses :=
      (hd.2 _).2 (.inl ((hc.2 _).2 (Args.topProduct_witnesses w' (hj.witnesses rfl))))
    have hany : d.Has .any := (hd.2 _).2 (.inl ((hc.2 _).2 hj.any))
    refine Join.withTop_meant _ he (.inr hany) (.inr hwitnesses) fun ρ => ?_
    simp
  case argsWithTop.args => exact boundedJoin_means (distributeTopArgs_yields hconfig hj' hkeeps)
  case args.argsWithTop =>
    exact hcomm (boundedJoin_means (distributeTopArgs_yields hconfig hj hkeeps))
  case argsWithTop.argsWithSafe =>
    exact boundedJoin_means (distributeTopSafe_yields hconfig hj hj' hkeeps.1 hkeeps.2)
  case argsWithSafe.argsWithTop =>
    exact hcomm (boundedJoin_means (distributeTopSafe_yields hconfig hj' hj hkeeps.1 hkeeps.2))

/-- Transform is `Bot` if one of the two is, and else the least upper bound. -/
theorem transform_means {a b : V ν ω} (ha : a.WF) (hb : b.WF) (hkeeps : TransformKeeps a b) :
    Means config (transform config a b) fun ρ => seq (a.meaning ρ) (b.meaning ρ) := by
  have hcomm : ∀ {r : Except (Exn ω) (V ν ω)} {f g : (ν → Level) → Level},
      Means config r (fun ρ => seq (f ρ) (g ρ)) →
        Means config r fun ρ => seq (g ρ) (f ρ) :=
    fun h => h.congr fun ρ => Level.seq_comm _ _
  cases a <;> cases b
  case var.var x w1 y w2 =>
    simp only [transform]
    split
    · rename_i hxy
      subst hxy
      exact means_ok (v := var x (w1 ∪ w2)) trivial fun ρ => by simp [meaning]
    rename_i hxy
    have hvars : (Transform.vars x w1 y w2).map ofTransform =
        .ok (ofTransform (Args.pair x w1 y w2)) := by
      rw [Transform.vars, if_neg hxy]
      rfl
    have hne : (Args.pair x w1 y w2).key ≠ [] :=
      List.ne_nil_of_mem ((Args.mem_key_pair x w1 y w2 x).2 (.inr rfl))
    rw [hvars]
    refine hcomm (ofTransform_means hne (fun ρ => ?_) fun ρ => ?_)
    · rw [Args.live_pair, seq_ne_bot]; rfl
    · rw [Args.tops_pair, seq_eq_top]; rfl
  case ofTransform.ofTransform tr tr' =>
    have hne : (tr.flatten tr').key ≠ [] := by
      obtain ⟨x, hx⟩ := List.exists_mem_of_ne_nil _ ha
      exact List.ne_nil_of_mem ((Transform.mem_key_flatten tr tr' x).2 (.inl hx))
    refine ofTransform_means hne (fun ρ => ?_) fun ρ => ?_
    · rw [Transform.live_flatten, seq_ne_bot, meaning, meaning,
        Transform.meaning_ne_bot ha, Transform.meaning_ne_bot hb]
    rw [Transform.tops_flatten, seq_eq_top, meaning, meaning,
      Transform.meaning_ne_bot ha, Transform.meaning_ne_bot hb, Transform.meaning_eq_top,
      Transform.meaning_eq_top]
  case top.ofTransform w tr => exact transformTopTransform_means hb
  case ofTransform.top tr w => exact hcomm (transformTopTransform_means ha)
  case top.var => exact transformTopVar_means
  case var.top => exact hcomm transformTopVar_means
  case var.ofTransform => exact transformVarTransform_means hb
  case ofTransform.var => exact hcomm (transformVarTransform_means ha)
  case top.ofJoin => exact transformTopJoin_means hconfig hb
  case ofJoin.top => exact hcomm (transformTopJoin_means hconfig ha)
  case var.ofJoin => exact transformVarJoin_means hconfig hb hkeeps
  case ofJoin.var => exact hcomm (transformVarJoin_means hconfig ha hkeeps)
  case ofTransform.ofJoin => exact transformJoin_means hconfig ha hb hkeeps
  case ofJoin.ofTransform => exact hcomm (transformJoin_means hconfig hb ha hkeeps)
  case ofJoin.ofJoin => exact transformJoins_means hconfig ha hb hkeeps
  case top.top => exact means_ok (v := top _) trivial fun ρ => by simp [meaning]
  all_goals exact means_ok (by assumption) fun ρ => by simp [meaning]

end

end V

end Oxcaml.Backend.ZeroAlloc
