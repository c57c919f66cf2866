/-
Oxcaml.Typing.MorphTheorems — `compose` of the mode morphisms composes,
and their adjoints are adjoint.

The solver never looks inside a morphism: it relies on `apply` turning
`compose` into composition, and on `left_adjoint` and `right_adjoint`
being the Galois adjoints. Both are proved layer by layer:

  §1 Axes        a product is determined by its projections; completions
                 with minima and maxima are the adjoints of a projection.
  §2 Locality    `compose_spec` and the adjunctions, by enumeration.
  §3 Core        adjunctions; every core morphism preserves binary meets
                 (`apply_inf`), which is what lets constants commute
                 through it (`apply_meetConst`, `himp_apply`).
  §4 Simple      each helper of `compose` composes, then `compose` does.
  §5, §6         the same for `Morph`, and the two contract theorems
                 `compose_functorial` and `adjoints_galois`.

A rewrite of the normaliser that collapses to a constant is only taken
when the morphism in front has an adjoint; `apply_constMaxOrApply` and
`apply_constMinOrApply` are where that side condition is used.
-/
import Oxcaml.Typing.LatticesTheorems
import Oxcaml.Typing.Morphs
import Mathlib.Order.GaloisConnection.Basic

set_option linter.all false

namespace Oxcaml.Typing

/-! ## §1 Axes -/

namespace Axis

variable {t p q : Obj}

@[simp] theorem proj_inf (ax : Axis t p) (x y : t.El) :
    ax.proj (x ⊓ y) = ax.proj x ⊓ ax.proj y := by
  cases ax <;> rfl

@[simp] theorem proj_himp (ax : Axis t p) (x y : t.El) :
    ax.proj (x ⇨ y) = ax.proj x ⇨ ax.proj y := by
  cases ax <;> rfl

@[simp] theorem proj_top (ax : Axis t p) : ax.proj (⊤ : t.El) = ⊤ := by
  cases ax <;> rfl

@[simp] theorem proj_bot (ax : Axis t p) : ax.proj (⊥ : t.El) = ⊥ := by
  cases ax <;> rfl

@[simp] theorem proj_set (ax : Axis t p) (r : p.El) (x : t.El) : ax.proj (ax.set r x) = r := by
  cases ax <;> rfl

theorem proj_set_of_ne (ax : Axis t p) (ax' : Axis t q) (h : q ≠ p) (r : p.El) (x : t.El) :
    ax'.proj (ax.set r x) = ax'.proj x := by
  cases ax <;> cases ax' <;> first | rfl | exact absurd rfl h

/-- Two axes of one product with the same target are the same axis. -/
theorem eq_of_target (ax ax' : Axis t p) : ax = ax' := by
  cases ax <;> cases ax' <;> rfl

theorem ne_of_equal (ax : Axis t p) (ax' : Axis t q) (h : ax.equal ax' = .isNotEq) : p ≠ q := by
  rintro rfl
  cases ax <;> cases ax' <;> cases h

/-- An element of a product is determined by its projections. -/
theorem ext_proj (ax : Axis t p) {x y : t.El}
    (h : ∀ (q : Obj) (ax' : Axis t q), ax'.proj x = ax'.proj y) : x = y := by
  have comonadic : ∀ (a : Areality) (x y : (Obj.comonadicWith a).El),
      (∀ (q : Obj) (ax' : Axis (.comonadicWith a) q), ax'.proj x = ax'.proj y) → x = y := by
    rintro a ⟨x1, x2, x3, x4, x5, x6⟩ ⟨y1, y2, y3, y4, y5, y6⟩ h
    obtain rfl : x1 = y1 := h _ .areality
    obtain rfl : x2 = y2 := h _ .linearity
    obtain rfl : x3 = y3 := h _ .portability
    obtain rfl : x4 = y4 := h _ .forkable
    obtain rfl : x5 = y5 := h _ .yielding
    obtain rfl : x6 = y6 := h _ .statefulness
    rfl
  have monadic : ∀ (x y : Obj.monadicOp.El),
      (∀ (q : Obj) (ax' : Axis .monadicOp q), ax'.proj x = ax'.proj y) → x = y := by
    rintro ⟨x1, x2, x3, x4⟩ ⟨y1, y2, y3, y4⟩ h
    obtain rfl : x1 = y1 := h _ .uniqueness
    obtain rfl : x2 = y2 := h _ .contention
    obtain rfl : x3 = y3 := h _ .visibility
    obtain rfl : x4 = y4 := h _ .staticity
    rfl
  cases ax <;> first | exact comonadic _ _ _ h | exact monadic _ _ h

/-- The order of a product is componentwise. -/
theorem le_iff_proj (ax : Axis t p) {x y : t.El} :
    x ≤ y ↔ ∀ (q : Obj) (ax' : Axis t q), ax'.proj x ≤ ax'.proj y := by
  constructor
  · intro h q ax'; rw [← inf_eq_left, ← proj_inf, inf_eq_left.2 h]
  intro h
  rw [← inf_eq_left]
  apply ax.ext_proj
  intro q ax'
  rw [proj_inf, inf_eq_left.2 (h q ax')]

end Axis

/-- The order of the comonadic product, axis by axis. -/
theorem comonadicWith_le_iff {a : Areality} {x y : (Obj.comonadicWith a).El} :
    x ≤ y ↔ Axis.areality.proj x ≤ Axis.areality.proj y
      ∧ Axis.linearity.proj x ≤ Axis.linearity.proj y
      ∧ Axis.portability.proj x ≤ Axis.portability.proj y
      ∧ Axis.forkable.proj x ≤ Axis.forkable.proj y
      ∧ Axis.yielding.proj x ≤ Axis.yielding.proj y
      ∧ Axis.statefulness.proj x ≤ Axis.statefulness.proj y := by
  rw [Axis.areality.le_iff_proj]
  constructor
  · intro h; exact ⟨h _ _, h _ _, h _ _, h _ _, h _ _, h _ _⟩
  · rintro ⟨h1, h2, h3, h4, h5, h6⟩ q ax; cases ax <;> assumption

/-- The order of the monadic product, axis by axis. -/
theorem monadicOp_le_iff {x y : Obj.monadicOp.El} :
    x ≤ y ↔ Axis.uniqueness.proj x ≤ Axis.uniqueness.proj y
      ∧ Axis.contention.proj x ≤ Axis.contention.proj y
      ∧ Axis.visibility.proj x ≤ Axis.visibility.proj y
      ∧ Axis.staticity.proj x ≤ Axis.staticity.proj y := by
  rw [Axis.uniqueness.le_iff_proj]
  constructor
  · intro h; exact ⟨h _ _, h _ _, h _ _, h _ _⟩
  · rintro ⟨h1, h2, h3, h4⟩ q ax; cases ax <;> assumption

variable {t p : Obj} {x : t.El} {y : p.El}

section

variable (ax : Axis t p)

/-- Projections and maximal completions are adjoint. -/
theorem proj_le_iff : ax.proj x ≤ y ↔ x ≤ maxWith t ax y := by
  rw [ax.le_iff_proj]
  constructor
  · intro h q ax'
    by_cases hq : q = p
    · subst hq
      obtain rfl := ax'.eq_of_target ax
      simpa [maxWith] using h
    · rw [maxWith, ax.proj_set_of_ne ax' hq, Obj.max_eq, ax'.proj_top]; exact le_top
  · intro h; simpa [maxWith] using h p ax

/-- Minimal completions and projections are adjoint. -/
theorem minWith_le_iff : minWith t ax y ≤ x ↔ y ≤ ax.proj x := by
  rw [ax.le_iff_proj]
  constructor
  · intro h; simpa [minWith] using h p ax
  intro h q ax'
  by_cases hq : q = p
  · subst hq
    obtain rfl := ax'.eq_of_target ax
    simpa [minWith] using h
  · rw [minWith, ax.proj_set_of_ne ax' hq, Obj.min_eq, ax'.proj_bot]; exact bot_le

/-- The projections of a completion determine it. -/
theorem eq_maxWith (h : ax.proj x = y)
    (htop : ∀ (q : Obj) (ax' : Axis t q), q ≠ p → ax'.proj x = ⊤) : x = maxWith t ax y := by
  apply ax.ext_proj
  intro q ax'
  by_cases hq : q = p
  · subst hq
    obtain rfl := ax'.eq_of_target ax
    rw [maxWith, Axis.proj_set, h]
  · rw [maxWith, ax.proj_set_of_ne ax' hq, htop q ax' hq, Obj.max_eq, ax'.proj_top]

theorem eq_minWith (h : ax.proj x = y)
    (hbot : ∀ (q : Obj) (ax' : Axis t q), q ≠ p → ax'.proj x = ⊥) : x = minWith t ax y := by
  apply ax.ext_proj
  intro q ax'
  by_cases hq : q = p
  · subst hq
    obtain rfl := ax'.eq_of_target ax
    rw [minWith, Axis.proj_set, h]
  · rw [minWith, ax.proj_set_of_ne ax' hq, hbot q ax' hq, Obj.min_eq, ax'.proj_bot]

end

@[simp] theorem proj_minWith {t p : Obj} (ax : Axis t p) (y : p.El) :
    ax.proj (minWith t ax y) = y :=
  ax.proj_set y _

@[simp] theorem proj_maxWith {t p : Obj} (ax : Axis t p) (y : p.El) :
    ax.proj (maxWith t ax y) = y :=
  ax.proj_set y _

theorem proj_minWith_of_ne {t p q : Obj} (ax : Axis t p) (ax' : Axis t q) (h : q ≠ p)
    (y : p.El) : ax'.proj (minWith t ax y) = ⊥ := by
  rw [minWith, ax.proj_set_of_ne ax' h, Obj.min_eq, ax'.proj_bot]

theorem proj_maxWith_of_ne {t p q : Obj} (ax : Axis t p) (ax' : Axis t q) (h : q ≠ p)
    (y : p.El) : ax'.proj (maxWith t ax y) = ⊤ := by
  rw [maxWith, ax.proj_set_of_ne ax' h, Obj.max_eq, ax'.proj_top]

section

variable (ax : Axis t p)

/-- An implication from a minimal completion only looks at one axis. -/
theorem minWith_himp (c : p.El) (y : t.El) :
    minWith t ax c ⇨ y = maxWith t ax (c ⇨ ax.proj y) := by
  apply eq_maxWith
  · rw [Axis.proj_himp, proj_minWith]
  · intro q ax' hq; rw [Axis.proj_himp, proj_minWith_of_ne ax ax' hq, bot_himp]

/-- A meet with a minimal completion only looks at one axis. -/
theorem minWith_inf (c : p.El) (y : t.El) :
    minWith t ax c ⊓ y = minWith t ax (c ⊓ ax.proj y) := by
  apply eq_minWith
  · rw [Axis.proj_inf, proj_minWith]
  · intro q ax' hq; rw [Axis.proj_inf, proj_minWith_of_ne ax ax' hq, bot_inf_eq]

theorem himp_maxWith (c : t.El) (y : p.El) :
    c ⇨ maxWith t ax y = maxWith t ax (ax.proj c ⇨ y) := by
  apply eq_maxWith
  · rw [Axis.proj_himp, proj_maxWith]
  · intro q ax' hq; rw [Axis.proj_himp, proj_maxWith_of_ne ax ax' hq, himp_top]

theorem inf_minWith (c : t.El) (y : p.El) :
    c ⊓ minWith t ax y = minWith t ax (ax.proj c ⊓ y) := by
  apply eq_minWith
  · rw [Axis.proj_inf, proj_minWith]
  · intro q ax' hq; rw [Axis.proj_inf, proj_minWith_of_ne ax ax' hq, inf_bot_eq]

end

@[simp] theorem maxWith_top {t p : Obj} (ax : Axis t p) : maxWith t ax ⊤ = ⊤ :=
  (eq_maxWith ax ax.proj_top fun _ ax' _ => ax'.proj_top).symm

@[simp] theorem minWith_bot {t p : Obj} (ax : Axis t p) : minWith t ax ⊥ = ⊥ :=
  (eq_minWith ax ax.proj_bot fun _ ax' _ => ax'.proj_bot).symm

/-! ## §2 Locality morphisms -/

namespace LocalityMorph

variable {a b c : Areality} {l r : Allowance}

theorem src_eq (m : LocalityMorph a b l r) : m.src = a := by
  cases m <;> rfl

theorem gc_rightAdjoint (m : LocalityMorph a b .allowed r) (x : (Obj.areality a).El)
    (y : (Obj.areality b).El) :
    Obj.le (.areality b) (m.apply x) y = Obj.le (.areality a) x (m.rightAdjoint.apply y) := by
  cases m <;> cases x <;> cases y <;> rfl

theorem apply_rightAdjoint_leftAdjoint (m : LocalityMorph a b l .allowed) :
    m.leftAdjoint.rightAdjoint.apply = m.apply := by
  cases m <;> rfl

theorem apply_inf (m : LocalityMorph a b l r) (x y : (Obj.areality a).El) :
    m.apply (Obj.meet (.areality a) x y) = Obj.meet (.areality b) (m.apply x) (m.apply y) := by
  cases m <;> cases x <;> cases y <;> rfl

/-- The map a `compose_result` stands for; `Disallowed` stands for none. -/
def ComposeResult.Spec : {a b : Areality} → {l r : Allowance} → ComposeResult a b l r →
    (a.El → b.El) → Prop
  | _, _, _, _, id, f => ∀ x, f x = x
  | _, _, _, _, morph m, f => ∀ x, f x = m.apply x
  | _, _, _, _, disallowed, _ => True

theorem compose_spec (m1 : LocalityMorph b c l r) (m2 : LocalityMorph a b l r) :
    (m1.compose m2).Spec fun x => m1.apply (m2.apply x) := by
  cases m1 <;> cases m2 <;> first | exact trivial | (intro x; cases x <;> rfl)

end LocalityMorph

/-! ## §3 Core morphisms -/

namespace CoreMorph

variable {a b c dst p q : Obj} {l r : Allowance}

theorem src_eq (m : CoreMorph a b l r) : m.src = a := by
  cases m <;> first | rfl | exact congrArg _ (LocalityMorph.src_eq _)

/-! The six dualities between an axis and its opposite are order
isomorphisms. -/

theorem gc_uniqueness : GaloisConnection (α := Obj.uniquenessOp.El) (β := Obj.linearity.El)
    uniquenessOpToLinearityFun linearityToUniquenessOpFun := by
  intro x y
  change Obj.linearity.le (uniquenessOpToLinearityFun x) y ↔
    Obj.uniquenessOp.le x (linearityToUniquenessOpFun y)
  cases x <;> cases y <;> decide

theorem gc_linearity : GaloisConnection (α := Obj.linearity.El) (β := Obj.uniquenessOp.El)
    linearityToUniquenessOpFun uniquenessOpToLinearityFun := by
  intro x y
  change Obj.uniquenessOp.le (linearityToUniquenessOpFun x) y ↔
    Obj.linearity.le x (uniquenessOpToLinearityFun y)
  cases x <;> cases y <;> decide

theorem gc_contention : GaloisConnection (α := Obj.contentionOp.El) (β := Obj.portability.El)
    contentionOpToPortabilityFun portabilityToContentionOpFun := by
  intro x y
  change Obj.portability.le (contentionOpToPortabilityFun x) y ↔
    Obj.contentionOp.le x (portabilityToContentionOpFun y)
  cases x <;> cases y <;> decide

theorem gc_portability : GaloisConnection (α := Obj.portability.El) (β := Obj.contentionOp.El)
    portabilityToContentionOpFun contentionOpToPortabilityFun := by
  intro x y
  change Obj.contentionOp.le (portabilityToContentionOpFun x) y ↔
    Obj.portability.le x (contentionOpToPortabilityFun y)
  cases x <;> cases y <;> decide

theorem gc_visibility : GaloisConnection (α := Obj.visibilityOp.El) (β := Obj.statefulness.El)
    visibilityOpToStatefulnessFun statefulnessToVisibilityOpFun := by
  intro x y
  change Obj.statefulness.le (visibilityOpToStatefulnessFun x) y ↔
    Obj.visibilityOp.le x (statefulnessToVisibilityOpFun y)
  cases x <;> cases y <;> decide

theorem gc_statefulness : GaloisConnection (α := Obj.statefulness.El) (β := Obj.visibilityOp.El)
    statefulnessToVisibilityOpFun visibilityOpToStatefulnessFun := by
  intro x y
  change Obj.visibilityOp.le (statefulnessToVisibilityOpFun x) y ↔
    Obj.statefulness.le x (visibilityOpToStatefulnessFun y)
  cases x <;> cases y <;> decide

theorem linearity_dual_dual (x : Linearity) :
    uniquenessOpToLinearityFun (linearityToUniquenessOpFun x) = x := by
  cases x <;> rfl

theorem uniqueness_dual_dual (x : Uniqueness) :
    linearityToUniquenessOpFun (uniquenessOpToLinearityFun x) = x := by
  cases x <;> rfl

theorem portability_dual_dual (x : Portability) :
    contentionOpToPortabilityFun (portabilityToContentionOpFun x) = x := by
  cases x <;> rfl

theorem contention_dual_dual (x : Contention) :
    portabilityToContentionOpFun (contentionOpToPortabilityFun x) = x := by
  cases x <;> rfl

theorem statefulness_dual_dual (x : Statefulness) :
    visibilityOpToStatefulnessFun (statefulnessToVisibilityOpFun x) = x := by
  cases x <;> rfl

theorem visibility_dual_dual (x : Visibility) :
    statefulnessToVisibilityOpFun (visibilityOpToStatefulnessFun x) = x := by
  cases x <;> rfl

variable {l r : Allowance}

/-- `monadic_op_to_comonadic_min` and `comonadic_to_monadic_op_max`. -/
theorem gc_monadicOp {a : Areality} : GaloisConnection
      ((monadicOpToComonadicMin : CoreMorph _ _ l _).apply (.comonadicWith a))
      ((comonadicToMonadicOpMax a : CoreMorph _ _ _ r).apply .monadicOp) := by
  intro x y
  rw [comonadicWith_le_iff, monadicOp_le_iff]
  constructor
  · rintro ⟨-, hl, hp, -, -, hs⟩
    exact ⟨(gc_uniqueness _ _).1 hl, (gc_contention _ _).1 hp, (gc_visibility _ _).1 hs, le_top⟩
  rintro ⟨hu, hc, hv, -⟩
  exact ⟨bot_le, (gc_uniqueness _ _).2 hu, (gc_contention _ _).2 hc, bot_le, bot_le,
    (gc_visibility _ _).2 hv⟩

/-- `comonadic_to_monadic_op_min` and `monadic_op_to_comonadic_max`. -/
theorem gc_comonadicWith {a : Areality} : GaloisConnection
      ((comonadicToMonadicOpMin a : CoreMorph _ _ l _).apply .monadicOp)
      ((monadicOpToComonadicMax : CoreMorph _ _ _ r).apply (.comonadicWith a)) := by
  intro x y
  rw [comonadicWith_le_iff, monadicOp_le_iff]
  constructor
  · rintro ⟨hu, hc, hv, -⟩
    exact ⟨le_top, (gc_linearity _ _).1 hu, (gc_portability _ _).1 hc, le_top, le_top,
      (gc_statefulness _ _).1 hv⟩
  · rintro ⟨-, hl, hp, -, -, hs⟩
    exact ⟨(gc_linearity _ _).2 hl, (gc_portability _ _).2 hp, (gc_statefulness _ _).2 hs, bot_le⟩

theorem gc_localityRestricted {a b : Areality} (m : LocalityMorph a b .allowed r) :
    GaloisConnection ((localityRestricted m).apply (.areality b))
      ((localityRestricted m.rightAdjoint).apply (.areality a)) := by
  intro x y
  rw [← Obj.le_iff]
  exact Bool.eq_iff_iff.1 (m.gc_rightAdjoint x y)

/-- A morphism of the areality axis alone leaves the others in place. -/
theorem gc_localityFull {a b : Areality} (m : LocalityMorph a b .allowed r) :
    GaloisConnection ((localityFull m).apply (.comonadicWith b))
      ((localityFull m.rightAdjoint).apply (.comonadicWith a)) := by
  intro x y
  rw [comonadicWith_le_iff, comonadicWith_le_iff]
  exact and_congr_left fun _ => gc_localityRestricted m _ _

/-- A core morphism allowed on the left has `right_adjoint` as its right
adjoint. -/
theorem gc_rightAdjoint (m : CoreMorph a dst .allowed r) :
    GaloisConnection (m.apply dst) ((m.rightAdjoint dst).apply a) := by
  cases m with
  | localityRestricted m => exact gc_localityRestricted m
  | localityFull m => exact gc_localityFull m
  | uniquenessOpToLinearity => exact gc_uniqueness
  | linearityToUniquenessOp => exact gc_linearity
  | contentionOpToPortability => exact gc_contention
  | portabilityToContentionOp => exact gc_portability
  | visibilityOpToStatefulness => exact gc_visibility
  | statefulnessToVisibilityOp => exact gc_statefulness
  | monadicOpToComonadicMin => exact gc_monadicOp
  | comonadicToMonadicOpMin _ => exact gc_comonadicWith

theorem apply_rightAdjoint_leftAdjoint (m : CoreMorph a dst l .allowed) :
    ((m.leftAdjoint dst).rightAdjoint a).apply dst = m.apply dst := by
  cases m with
  | localityRestricted m => exact m.apply_rightAdjoint_leftAdjoint
  | localityFull m =>
    funext x
    simp only [leftAdjoint, rightAdjoint, apply, m.apply_rightAdjoint_leftAdjoint]
    rfl
  | _ => rfl

theorem gc_leftAdjoint (m : CoreMorph a dst l .allowed) :
    GaloisConnection ((m.leftAdjoint dst).apply a) (m.apply dst) := by
  have h := (m.leftAdjoint dst).gc_rightAdjoint
  rwa [apply_rightAdjoint_leftAdjoint] at h

/-- Every core morphism preserves binary meets, as the source's comment on
`commute_meet_const_from_right` asks. -/
theorem apply_inf (m : CoreMorph a dst l r) (x y : a.El) :
    m.apply dst (x ⊓ y) = m.apply dst x ⊓ m.apply dst y := by
  rw [← Obj.meet_eq]
  cases m with
  | localityRestricted m => exact m.apply_inf x y
  | localityFull m =>
    apply Axis.areality.ext_proj
    intro q ax
    cases ax <;> first | rfl | exact m.apply_inf _ _
  | uniquenessOpToLinearity => exact gc_linearity.u_inf
  | linearityToUniquenessOp => exact gc_uniqueness.u_inf
  | contentionOpToPortability => exact gc_portability.u_inf
  | portabilityToContentionOp => exact gc_contention.u_inf
  | visibilityOpToStatefulness => exact gc_statefulness.u_inf
  | statefulnessToVisibilityOp => exact gc_visibility.u_inf
  | monadicOpToComonadicMin =>
    apply Axis.areality.ext_proj
    intro q ax
    cases ax with
    | areality => exact (inf_idem _).symm
    | linearity => exact gc_linearity.u_inf
    | portability => exact gc_portability.u_inf
    | forkable | yielding => rfl
    | statefulness => exact gc_statefulness.u_inf
  | comonadicToMonadicOpMin _ =>
    apply Axis.uniqueness.ext_proj
    intro q ax
    cases ax with
    | uniqueness => exact gc_uniqueness.u_inf
    | contention => exact gc_contention.u_inf
    | visibility => exact gc_visibility.u_inf
    | staticity => rfl
  | monadicOpToComonadicMax => exact (gc_comonadicWith (l := .disallowed)).u_inf
  | comonadicToMonadicOpMax _ => exact (gc_monadicOp (l := .disallowed)).u_inf

/-- `commute_meet_const_from_right` does what its comment says. -/
theorem apply_meetConst (m : CoreMorph a dst l r) (c x : a.El) :
    m.apply dst (c ⊓ x) = m.commuteMeetConstFromRight dst c ⊓ m.apply dst x :=
  m.apply_inf c x

/-- `commute_imply_from_left` does what its comment says, by the argument
given there. -/
theorem himp_apply (m : CoreMorph a dst l .allowed) (c : dst.El) (x : a.El) :
    c ⇨ m.apply dst x = m.apply dst (commuteImplyFromLeft dst c m ⇨ x) := by
  apply eq_of_forall_le_iff
  intro y
  rw [le_himp_iff, ← m.gc_leftAdjoint.le_iff_le, apply_inf, ← m.gc_leftAdjoint.le_iff_le,
    le_himp_iff]
  rfl

theorem apply_of_maybeAllowedRight {m : CoreMorph a dst l r} {m' : CoreMorph a dst l .allowed}
    (h : m.maybeAllowedRight = .allowedRight m') : m'.apply dst = m.apply dst := by
  cases m with
  | localityRestricted m | localityFull m => cases m <;> cases h <;> rfl
  | _ => cases h <;> rfl

theorem apply_of_maybeAllowedLeft {m : CoreMorph a dst l r} {m' : CoreMorph a dst .allowed r}
    (h : m.maybeAllowedLeft = .allowedLeft m') : m'.apply dst = m.apply dst := by
  cases m with
  | localityRestricted m | localityFull m => cases m <;> cases h <;> rfl
  | _ => cases h <;> rfl

@[simp] theorem apply_allowLeft (m : CoreMorph a dst .allowed r) :
    (m.allowLeft : CoreMorph a dst l r).apply dst = m.apply dst := by
  cases m with
  | localityRestricted m | localityFull m => cases m <;> rfl
  | _ => rfl

@[simp] theorem apply_allowRight (m : CoreMorph a dst l .allowed) :
    (m.allowRight : CoreMorph a dst l r).apply dst = m.apply dst := by
  cases m with
  | localityRestricted m | localityFull m => cases m <;> rfl
  | _ => rfl

/-- The map a `compose_proj_result` stands for. -/
def ComposeProjResult.apply (dst : Obj) : ComposeProjResult a dst l r → a.El → dst.El
  | .projCore m ax, x => m.apply dst (ax.proj x)
  | .projId ax, x => ax.proj x
  | .projConstMax, _ => ⊤
  | .projConstMin, _ => ⊥

theorem proj_apply (ax0 : Axis b p) (m1 : CoreMorph a b l r) (x : a.El) :
    ax0.proj (m1.apply b x) = (composeProjectionCore ax0 m1).apply p x := by
  cases m1 <;> cases ax0 <;> rfl

/-- What a `compose_and_max_result` says about a map. -/
def ComposeAndMaxResult.Spec : {q c : Obj} → {l r : Allowance} → ComposeAndMaxResult q c l r →
    (q.El → c.El) → Prop
  | _, c, _, _, @andMaxCore _ q' _ _ ax m, f => ∀ y, f y = maxWith c ax (m.apply q' y)
  | _, _, _, _, constMaxCore, f => ∀ y, f y = ⊤
  | _, _, _, _, @andMaxId c _ _ _ ax, f => ∀ y, f y = maxWith (.comonadicWith c) ax y
  | _, _, _, _, disallowed, _ => True

theorem composeCoreMaxWith_spec (m0 : CoreMorph b c .disallowed r) (ax1 : Axis b q) :
    (composeCoreMaxWith m0 ax1).Spec fun y => m0.apply c (maxWith b ax1 y) := by
  cases m0 with
  | localityFull lm => cases ax1 <;> cases lm <;> first | exact fun _ => rfl | exact trivial
  | _ => cases ax1 <;> first | exact fun _ => rfl | exact trivial

/-- What a `compose_and_min_result` says about a map. -/
def ComposeAndMinResult.Spec : {q c : Obj} → {l r : Allowance} → ComposeAndMinResult q c l r →
    (q.El → c.El) → Prop
  | _, c, _, _, @andMinCore _ q' _ _ ax m, f => ∀ y, f y = minWith c ax (m.apply q' y)
  | _, _, _, _, constMinCore, f => ∀ y, f y = ⊥
  | _, _, _, _, @andMinId c _ _ _ ax, f => ∀ y, f y = minWith (.comonadicWith c) ax y
  | _, _, _, _, disallowed, _ => True

theorem composeCoreMinWith_spec (m0 : CoreMorph b c l .disallowed) (ax1 : Axis b q) :
    (composeCoreMinWith m0 ax1).Spec fun y => m0.apply c (minWith b ax1 y) := by
  cases m0 with
  | localityFull lm => cases ax1 <;> cases lm <;> exact fun _ => rfl
  | _ => cases ax1 <;> first | exact fun _ => rfl | exact trivial

end CoreMorph

/-! ## §4 Simple morphisms -/

namespace SimpleMorph

variable {a b c dst p q : Obj} {l r : Allowance}

theorem src_eq (m : SimpleMorph a dst l r) : m.src dst = a := by
  induction m with
  | id => rfl
  | core m => exact m.src_eq
  | meetConst _ | implyConst _ => rfl
  | meetConstCore _ m | coreImplyConst m _ => exact m.src_eq
  | compose _ _ _ iha => exact iha

/-! The maps of the constructors, in the language of Heyting algebras. -/

@[simp] theorem apply_id (x : a.El) : (id : SimpleMorph a a l r).apply a x = x := rfl

@[simp] theorem apply_core (m : CoreMorph a dst l r) (x : a.El) :
    (core m).apply dst x = m.apply dst x := rfl

@[simp] theorem apply_meetConst (c x : a.El) :
    (meetConst c : SimpleMorph a a l _).apply a x = c ⊓ x := rfl

@[simp] theorem apply_implyConst (c x : a.El) :
    (implyConst c : SimpleMorph a a _ r).apply a x = c ⇨ x := rfl

@[simp] theorem apply_meetConstCore (c : dst.El) (m : CoreMorph a dst l .disallowed) (x : a.El) :
    (meetConstCore c m).apply dst x = c ⊓ m.apply dst x := rfl

@[simp] theorem apply_coreImplyConst (m : CoreMorph a dst .disallowed r) (c x : a.El) :
    (coreImplyConst m c).apply dst x = m.apply dst (c ⇨ x) := rfl

@[simp] theorem apply_compose (mb : SimpleMorph b dst .disallowed .disallowed)
    (ma : SimpleMorph a b .disallowed .disallowed) (x : a.El) :
    (compose mb ma).apply dst x = mb.apply dst (ma.apply b x) := rfl

/-! Each helper of `compose` composes. -/

@[simp] theorem apply_composeMeetConstLeft (c : dst.El) (m : SimpleMorph a dst l .disallowed)
    (x : a.El) : (composeMeetConstLeft dst c m).apply dst x = c ⊓ m.apply dst x := by
  cases m <;> simp [composeMeetConstLeft, Obj.meet_eq, inf_assoc]

@[simp] theorem apply_composeImplyConstRight (m : SimpleMorph a dst .disallowed r) (c x : a.El) :
    (composeImplyConstRight dst m c).apply dst x = m.apply dst (c ⇨ x) := by
  cases m <;> simp [composeImplyConstRight, Obj.meet_eq, himp_himp, inf_comm]

@[simp] theorem apply_composeMeetConstRight (m : SimpleMorph a dst l .disallowed) (c x : a.El) :
    (composeMeetConstRight dst m c).apply dst x = m.apply dst (c ⊓ x) := by
  cases m <;> simp [composeMeetConstRight, Obj.meet_eq, inf_assoc, CoreMorph.apply_meetConst]

@[simp] theorem apply_composeImplyConstLeft (c : dst.El) (m : SimpleMorph a dst .disallowed r)
    (x : a.El) : (composeImplyConstLeft dst c m).apply dst x = c ⇨ m.apply dst x := by
  cases m with
  | core m =>
    simp only [composeImplyConstLeft]
    cases h : m.maybeAllowedRight with
    | notAllowedRight => rfl
    | allowedRight m' =>
      have hm := CoreMorph.apply_of_maybeAllowedRight h
      simp only [apply_coreImplyConst, apply_core, ← hm, CoreMorph.himp_apply]
  | coreImplyConst m c' =>
    simp only [composeImplyConstLeft]
    cases h : m.maybeAllowedRight with
    | notAllowedRight => rfl
    | allowedRight m' =>
      have hm := CoreMorph.apply_of_maybeAllowedRight h
      simp only [apply_coreImplyConst, ← hm, CoreMorph.himp_apply, Obj.meet_eq, himp_himp]
  | _ => simp [composeImplyConstLeft, Obj.meet_eq, himp_himp]

theorem apply_composeCore_localityRestricted {a b c : Areality} (m1 : LocalityMorph b c l r)
    (m2 : LocalityMorph a b l r) (x : (Obj.areality a).El) :
    (composeCore (.areality c) (.localityRestricted m1) (.localityRestricted m2)).apply _ x
      = m1.apply (m2.apply x) := by
  have h := m1.compose_spec m2
  simp only [composeCore]
  cases hc : m1.compose m2 with
  | id | morph m => rw [hc] at h; exact (h x).symm
  | disallowed => rfl

theorem apply_composeCore_localityFull {a b c : Areality} (m1 : LocalityMorph b c l r)
    (m2 : LocalityMorph a b l r) (x : (Obj.comonadicWith a).El) :
    (composeCore (.comonadicWith c) (.localityFull m1) (.localityFull m2)).apply _ x
      = (CoreMorph.localityFull m1).apply (.comonadicWith c)
          ((CoreMorph.localityFull m2).apply (.comonadicWith b) x) := by
  have h := m1.compose_spec m2
  simp only [composeCore]
  cases hc : m1.compose m2 with
  | id =>
    rw [hc] at h
    apply Axis.areality.ext_proj
    intro q ax
    cases ax <;> first | rfl | exact (h _).symm
  | morph m =>
    rw [hc] at h
    apply Axis.areality.ext_proj
    intro q ax
    cases ax <;> first | rfl | exact (h _).symm
  | disallowed => rfl

/-- Dualizing to the comonadic fragment and back, with minima. -/
theorem apply_composeCore_monadicMin {d ar : Areality} (x : (Obj.comonadicWith ar).El) :
    (composeCore (l := l) (.comonadicWith d) .monadicOpToComonadicMin
        (.comonadicToMonadicOpMin ar)).apply _ x
      = CoreMorph.monadicOpToComonadicMinFun d (CoreMorph.comonadicToMonadicOpMinFun x) := by
  apply Axis.areality.ext_proj
  intro q ax
  cases ax with
  | areality => cases ar <;> cases d <;> exact bot_inf_eq _
  | linearity =>
    cases ar <;> cases d <;> exact (top_inf_eq _).trans (CoreMorph.linearity_dual_dual _).symm
  | portability =>
    cases ar <;> cases d <;> exact (top_inf_eq _).trans (CoreMorph.portability_dual_dual _).symm
  | forkable | yielding => cases ar <;> cases d <;> exact bot_inf_eq _
  | statefulness =>
    cases ar <;> cases d <;> exact (top_inf_eq _).trans (CoreMorph.statefulness_dual_dual _).symm

theorem apply_composeCore_comonadicMin {ar : Areality} (x : Obj.monadicOp.El) :
    (composeCore (l := l) .monadicOp (.comonadicToMonadicOpMin ar)
        .monadicOpToComonadicMin).apply _ x
      = CoreMorph.comonadicToMonadicOpMinFun (CoreMorph.monadicOpToComonadicMinFun ar x) := by
  apply Axis.uniqueness.ext_proj
  intro q ax
  cases ax with
  | uniqueness =>
    exact (top_inf_eq (α := Obj.uniquenessOp.El) _).trans (CoreMorph.uniqueness_dual_dual _).symm
  | contention => exact (top_inf_eq _).trans (CoreMorph.contention_dual_dual _).symm
  | visibility => exact (top_inf_eq _).trans (CoreMorph.visibility_dual_dual _).symm
  | staticity => exact bot_inf_eq _

/-- Dualizing to the comonadic fragment and back, with maxima. -/
theorem apply_composeCore_monadicMax {d ar : Areality} (x : (Obj.comonadicWith ar).El) :
    (composeCore (r := r) (.comonadicWith d) .monadicOpToComonadicMax
        (.comonadicToMonadicOpMax ar)).apply _ x
      = CoreMorph.monadicOpToComonadicMaxFun d (CoreMorph.comonadicToMonadicOpMaxFun x) := by
  apply Axis.areality.ext_proj
  intro q ax
  cases ax with
  | areality =>
    cases ar <;> cases d
    case locality.regionality =>
      exact congrArg LocalityMorph.localityAsRegionalityFun (bot_himp (Axis.areality.proj x))
    case regionality.locality =>
      exact congrArg LocalityMorph.regionalToLocalFun (bot_himp (Axis.areality.proj x))
    all_goals exact bot_himp _
  | linearity =>
    cases ar <;> cases d <;> exact top_himp.trans (CoreMorph.linearity_dual_dual _).symm
  | portability =>
    cases ar <;> cases d <;> exact top_himp.trans (CoreMorph.portability_dual_dual _).symm
  | forkable => cases ar <;> cases d <;> exact bot_himp (Axis.forkable.proj x)
  | yielding => cases ar <;> cases d <;> exact bot_himp (Axis.yielding.proj x)
  | statefulness =>
    cases ar <;> cases d <;> exact top_himp.trans (CoreMorph.statefulness_dual_dual _).symm

theorem apply_composeCore_comonadicMax {ar : Areality} (x : Obj.monadicOp.El) :
    (composeCore (r := r) .monadicOp (.comonadicToMonadicOpMax ar)
        .monadicOpToComonadicMax).apply _ x
      = CoreMorph.comonadicToMonadicOpMaxFun (CoreMorph.monadicOpToComonadicMaxFun ar x) := by
  apply Axis.uniqueness.ext_proj
  intro q ax
  cases ax with
  | uniqueness => exact top_himp.trans (CoreMorph.uniqueness_dual_dual _).symm
  | contention => exact top_himp.trans (CoreMorph.contention_dual_dual _).symm
  | visibility => exact top_himp.trans (CoreMorph.visibility_dual_dual _).symm
  | staticity => exact bot_himp _

theorem apply_composeCore (m1 : CoreMorph b dst l r) (m2 : CoreMorph a b l r) (x : a.El) :
    (composeCore dst m1 m2).apply dst x = m1.apply dst (m2.apply b x) := by
  cases m1 with
  | localityRestricted m1 =>
    cases m2 with
    | localityRestricted m2 => exact apply_composeCore_localityRestricted m1 m2 x
  | localityFull m1 =>
    cases m2 with
    | localityFull m2 => exact apply_composeCore_localityFull m1 m2 x
    -- the areality is min (max) and `m1` keeps it so where it has an adjoint
    | monadicOpToComonadicMin => cases m1 <;> rfl
    | monadicOpToComonadicMax => cases m1 <;> rfl
  | uniquenessOpToLinearity => cases m2; exact (CoreMorph.linearity_dual_dual x).symm
  | linearityToUniquenessOp => cases m2; exact (CoreMorph.uniqueness_dual_dual x).symm
  | contentionOpToPortability => cases m2; exact (CoreMorph.portability_dual_dual x).symm
  | portabilityToContentionOp => cases m2; exact (CoreMorph.contention_dual_dual x).symm
  | visibilityOpToStatefulness => cases m2; exact (CoreMorph.statefulness_dual_dual x).symm
  | statefulnessToVisibilityOp => cases m2; exact (CoreMorph.visibility_dual_dual x).symm
  | monadicOpToComonadicMin =>
    cases m2 with
    | comonadicToMonadicOpMin _ => exact apply_composeCore_monadicMin x
    | comonadicToMonadicOpMax _ => rfl
  | comonadicToMonadicOpMin _ =>
    cases m2 with
    | monadicOpToComonadicMin => exact apply_composeCore_comonadicMin x
    | monadicOpToComonadicMax | localityFull _ => rfl
  | monadicOpToComonadicMax =>
    cases m2 with
    | comonadicToMonadicOpMax _ => exact apply_composeCore_monadicMax x
    | comonadicToMonadicOpMin _ => rfl
  | comonadicToMonadicOpMax _ =>
    cases m2 with
    | monadicOpToComonadicMax => exact apply_composeCore_comonadicMax x
    | monadicOpToComonadicMin | localityFull _ => rfl

@[simp] theorem apply_composeCoreRight (m1 : SimpleMorph b dst l r) (m2 : CoreMorph a b l r)
    (x : a.El) : (composeCoreRight dst m1 m2).apply dst x = m1.apply dst (m2.apply b x) := by
  cases m1 with
  | id => rfl
  | core m1 => exact apply_composeCore m1 m2 x
  | implyConst c1 =>
    simp only [composeCoreRight]
    cases h : m2.maybeAllowedRight with
    | notAllowedRight => rfl
    | allowedRight m2' =>
      have hm := CoreMorph.apply_of_maybeAllowedRight h
      simp only [apply_coreImplyConst, apply_implyConst, ← hm, CoreMorph.himp_apply]
  | coreImplyConst m1 c1 =>
    simp only [composeCoreRight]
    cases h : m2.maybeAllowedRight with
    | notAllowedRight => rfl
    | allowedRight m2' =>
      have hm := CoreMorph.apply_of_maybeAllowedRight h
      simp only [apply_composeImplyConstRight, apply_composeCore, apply_coreImplyConst, ← hm,
        CoreMorph.himp_apply]
  | meetConst c1 => rfl
  | meetConstCore c1 m1 => simp [composeCoreRight, apply_composeCore]
  | compose mb ma => rfl

@[simp] theorem apply_composeCoreLeft (m1 : CoreMorph b dst l r) (m2 : SimpleMorph a b l r)
    (x : a.El) : (composeCoreLeft dst m1 m2).apply dst x = m1.apply dst (m2.apply b x) := by
  cases m2 <;> simp [composeCoreLeft, apply_composeCore, CoreMorph.apply_meetConst]

/-- `Simple_morph.compose` composes. -/
@[simp] theorem apply_comp (m1 : SimpleMorph b dst l r) (m2 : SimpleMorph a b l r) (x : a.El) :
    (m1.comp dst m2).apply dst x = m1.apply dst (m2.apply b x) := by
  cases m2 with
  | id => cases m1 <;> rfl
  | core m2 =>
    cases m1 with
    | id => rfl
    | core m => exact apply_composeCoreRight (core m) m2 x
    | meetConst c' => exact apply_composeMeetConstLeft c' (core m2) x
    | implyConst c' => exact apply_composeImplyConstLeft c' (core m2) x
    | meetConstCore c' m => exact apply_composeCoreRight (meetConstCore c' m) m2 x
    | coreImplyConst m c' => exact apply_composeCoreRight (coreImplyConst m c') m2 x
    | compose mb ma => exact apply_composeCoreRight (compose mb ma) m2 x
  | meetConst c2 =>
    cases m1 with
    | id => rfl
    | core m => exact apply_composeMeetConstRight (core m) c2 x
    | meetConst c' => exact apply_composeMeetConstRight (meetConst c') c2 x
    | implyConst c' => exact apply_composeMeetConstRight (implyConst c') c2 x
    | meetConstCore c' m => exact apply_composeMeetConstRight (meetConstCore c' m) c2 x
    | coreImplyConst m c' => exact apply_composeMeetConstRight (coreImplyConst m c') c2 x
    | compose mb ma => exact apply_composeMeetConstRight (compose mb ma) c2 x
  | implyConst c2 =>
    cases m1 with
    | id => rfl
    | core m => exact apply_composeImplyConstRight (core m) c2 x
    | meetConst c' => exact apply_composeMeetConstLeft c' (implyConst c2) x
    | implyConst c' => exact apply_composeImplyConstRight (implyConst c') c2 x
    | meetConstCore c' m => exact apply_composeImplyConstRight (meetConstCore c' m) c2 x
    | coreImplyConst m c' => exact apply_composeImplyConstRight (coreImplyConst m c') c2 x
    | compose mb ma => exact apply_composeImplyConstRight (compose mb ma) c2 x
  | meetConstCore c2 m2 =>
    cases m1 with
    | id => rfl
    | core m => exact apply_composeCoreLeft m (meetConstCore c2 m2) x
    | meetConst c' => exact apply_composeMeetConstLeft c' (meetConstCore c2 m2) x
    | implyConst c' => exact apply_composeImplyConstLeft c' (meetConstCore c2 m2) x
    | meetConstCore c' m =>
      refine (apply_composeCoreRight (composeMeetConstRight _ (meetConstCore c' m) c2) m2 x).trans
        ?_
      exact apply_composeMeetConstRight (meetConstCore c' m) c2 _
    | coreImplyConst m c' =>
      refine (apply_composeCoreRight (composeMeetConstRight _ (coreImplyConst m c') c2) m2 x).trans
        ?_
      exact apply_composeMeetConstRight (coreImplyConst m c') c2 _
    | compose mb ma =>
      refine (apply_composeCoreRight (composeMeetConstRight _ (compose mb ma) c2) m2 x).trans ?_
      exact apply_composeMeetConstRight (compose mb ma) c2 _
  | coreImplyConst m2 c2 =>
    cases m1 with
    | id => rfl
    | core m => exact apply_composeCoreLeft m (coreImplyConst m2 c2) x
    | meetConst c' => exact apply_composeMeetConstLeft c' (coreImplyConst m2 c2) x
    | implyConst c' => exact apply_composeImplyConstLeft c' (coreImplyConst m2 c2) x
    | meetConstCore c' m =>
      refine (apply_composeMeetConstLeft c' (composeCoreLeft _ m (coreImplyConst m2 c2)) x).trans ?_
      exact congrArg (c' ⊓ ·) (apply_composeCoreLeft m (coreImplyConst m2 c2) x)
    | coreImplyConst m c' =>
      refine (apply_composeImplyConstRight (composeCoreRight _ (coreImplyConst m c') m2) c2 x).trans
        ?_
      exact apply_composeCoreRight (coreImplyConst m c') m2 _
    | compose mb ma =>
      refine (apply_composeImplyConstRight (composeCoreRight _ (compose mb ma) m2) c2 x).trans ?_
      exact apply_composeCoreRight (compose mb ma) m2 _
  | compose nb na =>
    cases m1 with
    | id => rfl
    | core m => exact apply_composeCoreLeft m (compose nb na) x
    | meetConst c' => exact apply_composeMeetConstLeft c' (compose nb na) x
    | implyConst c' => exact apply_composeImplyConstLeft c' (compose nb na) x
    | meetConstCore c' m =>
      refine (apply_composeMeetConstLeft c' (composeCoreLeft _ m (compose nb na)) x).trans ?_
      exact congrArg (c' ⊓ ·) (apply_composeCoreLeft m (compose nb na) x)
    | coreImplyConst m c' =>
      refine (apply_composeCoreLeft m (composeImplyConstLeft _ c' (compose nb na)) x).trans ?_
      exact congrArg (m.apply dst) (apply_composeImplyConstLeft c' (compose nb na) x)
    | compose mb ma => rfl

/-! Adjoints. -/

theorem gc_rightAdjoint (m : SimpleMorph a dst .allowed r) :
    GaloisConnection (m.apply dst) ((m.rightAdjoint dst).apply a) := by
  cases m with
  | id => exact GaloisConnection.id
  | core m => exact m.gc_rightAdjoint
  | meetConst c =>
    intro x y
    rw [apply_meetConst, inf_comm, ← le_himp_iff]
    rfl
  | meetConstCore c m =>
    intro x y
    rw [apply_meetConstCore, inf_comm, ← le_himp_iff, m.gc_rightAdjoint.le_iff_le]
    rfl

theorem apply_rightAdjoint_leftAdjoint (m : SimpleMorph a dst l .allowed) :
    ((m.leftAdjoint dst).rightAdjoint a).apply dst = m.apply dst := by
  cases m with
  | id => rfl
  | core m => exact m.apply_rightAdjoint_leftAdjoint
  | implyConst c => rfl
  | coreImplyConst m c => funext x; exact congrFun m.apply_rightAdjoint_leftAdjoint (c ⇨ x)

theorem gc_leftAdjoint (m : SimpleMorph a dst l .allowed) :
    GaloisConnection ((m.leftAdjoint dst).apply a) (m.apply dst) := by
  have h := (m.leftAdjoint dst).gc_rightAdjoint
  rwa [apply_rightAdjoint_leftAdjoint] at h

theorem apply_of_maybeAllowedRight {m : SimpleMorph a dst l r}
    {m' : SimpleMorph a dst l .allowed} (h : m.maybeAllowedRight = .allowedRight m') :
    m'.apply dst = m.apply dst := by
  cases m with
  | id => cases h; rfl
  | core m =>
    simp only [maybeAllowedRight] at h
    cases hm : m.maybeAllowedRight with
    | notAllowedRight => rw [hm] at h; cases h
    | allowedRight m₁ =>
      rw [hm] at h
      cases h
      exact CoreMorph.apply_of_maybeAllowedRight hm
  | implyConst c => cases h; rfl
  | coreImplyConst m c =>
    simp only [maybeAllowedRight] at h
    cases hm : m.maybeAllowedRight with
    | notAllowedRight => rw [hm] at h; cases h
    | allowedRight m₁ =>
      rw [hm] at h
      cases h
      funext x
      exact congrFun (CoreMorph.apply_of_maybeAllowedRight hm) (c ⇨ x)
  | _ => cases h

theorem apply_of_maybeAllowedLeft {m : SimpleMorph a dst l r}
    {m' : SimpleMorph a dst .allowed r} (h : m.maybeAllowedLeft = .allowedLeft m') :
    m'.apply dst = m.apply dst := by
  cases m with
  | id => cases h; rfl
  | core m =>
    simp only [maybeAllowedLeft] at h
    cases hm : m.maybeAllowedLeft with
    | notAllowedLeft => rw [hm] at h; cases h
    | allowedLeft m₁ =>
      rw [hm] at h
      cases h
      exact CoreMorph.apply_of_maybeAllowedLeft hm
  | meetConst c => cases h; rfl
  | meetConstCore c m =>
    simp only [maybeAllowedLeft] at h
    cases hm : m.maybeAllowedLeft with
    | notAllowedLeft => rw [hm] at h; cases h
    | allowedLeft m₁ =>
      rw [hm] at h
      cases h
      funext x
      exact congrArg (c ⊓ ·) (congrFun (CoreMorph.apply_of_maybeAllowedLeft hm) x)
  | _ => cases h

@[simp] theorem apply_allowLeft (m : SimpleMorph a dst .allowed r) :
    (m.allowLeft : SimpleMorph a dst l r).apply dst = m.apply dst := by
  funext x
  cases m <;> simp [allowLeft]

@[simp] theorem apply_allowRight (m : SimpleMorph a dst l .allowed) :
    (m.allowRight : SimpleMorph a dst l r).apply dst = m.apply dst := by
  funext x
  cases m <;> simp [allowRight]

/-! Lifting a morphism between axes to one between products. -/

theorem proj_liftCoreComposeResultR_id (ax0 : Axis a p) (ax1 : Axis b p) (x : a.El) :
    ax1.proj ((liftCoreComposeResultR (l := l)
      (CoreMorph.idExceptForAreality a b ax0 ax1)).apply b x) = ax0.proj x := by
  cases ax0 <;> cases ax1 <;> first
    | rfl
    | (rename_i s d; cases s <;> cases d <;> rfl)
    | (rename_i s; cases s <;> rfl)

theorem proj_liftCoreComposeResultL_id (ax0 : Axis a p) (ax1 : Axis b p) (x : a.El) :
    ax1.proj ((liftCoreComposeResultL (r := r)
      (CoreMorph.idExceptForAreality a b ax0 ax1)).apply b x) = ax0.proj x := by
  cases ax0 <;> cases ax1 <;> first
    | rfl
    | (rename_i s d; cases s <;> cases d <;> rfl)
    | (rename_i s; cases s <;> rfl)

theorem proj_liftR (m : CoreMorph p q l .allowed) (ax0 : Axis a p) (ax1 : Axis b q) (x : a.El) :
    ax1.proj ((liftCoreComposeResultR (m.liftR a b ax0 ax1)).apply b x)
      = m.apply q (ax0.proj x) := by
  cases m with
  | localityRestricted m => cases ax0; cases ax1; cases m <;> rfl
  | _ => cases ax0 <;> cases ax1 <;> rfl

theorem proj_liftL (m : CoreMorph p q .allowed r) (ax0 : Axis a p) (ax1 : Axis b q) (x : a.El) :
    ax1.proj ((liftCoreComposeResultL (m.liftL a b ax0 ax1)).apply b x)
      = m.apply q (ax0.proj x) := by
  cases m with
  | localityRestricted m => cases ax0; cases ax1; cases m <;> rfl
  | _ => cases ax0 <;> cases ax1 <;> rfl

theorem apply_pushToMax (ax1 : Axis dst q) (m : SimpleMorph a dst .disallowed .allowed)
    (x : a.El) : (pushToMax dst ax1 m).apply dst x =
      maxWith dst ax1 (ax1.proj (m.apply dst x)) := by
  rw [pushToMax, apply_comp, apply_implyConst, minWith_himp, Obj.max_eq, top_himp]

theorem apply_pushToMin (ax1 : Axis dst q) (m : SimpleMorph a dst .allowed .disallowed)
    (x : a.El) : (pushToMin dst ax1 m).apply dst x =
      minWith dst ax1 (ax1.proj (m.apply dst x)) := by
  rw [pushToMin, apply_comp, apply_meetConst, minWith_inf, Obj.max_eq, top_inf_eq]

theorem apply_liftMaxCore (m : CoreMorph p q .disallowed .allowed) (ax0 : Axis a p)
    (ax1 : Axis dst q) (x : a.El) :
    (liftMaxCore a dst m ax0 ax1).apply dst x = maxWith dst ax1 (m.apply q (ax0.proj x)) := by
  rw [liftMaxCore, apply_pushToMax, proj_liftR]

theorem apply_liftMinCore (m : CoreMorph p q .allowed .disallowed) (ax0 : Axis a p)
    (ax1 : Axis dst q) (x : a.El) :
    (liftMinCore a dst m ax0 ax1).apply dst x = minWith dst ax1 (m.apply q (ax0.proj x)) := by
  rw [liftMinCore, apply_pushToMin, proj_liftL]

/-- `lift_max`: project, apply, and complete with maxima. -/
theorem apply_liftMax (m : SimpleMorph p q .disallowed .allowed) (ax0 : Axis a p)
    (ax1 : Axis dst q) (x : a.El) :
    (liftMax a dst m ax0 ax1).apply dst x = maxWith dst ax1 (m.apply q (ax0.proj x)) := by
  cases m with
  | id => rw [liftMax, apply_pushToMax, proj_liftCoreComposeResultR_id]; rfl
  | core m => exact apply_liftMaxCore m ax0 ax1 x
  | implyConst c =>
    rw [liftMax, apply_comp, apply_implyConst, ← minWith, minWith_himp,
      proj_liftCoreComposeResultR_id]
    rfl
  | coreImplyConst m c =>
    rw [liftMax, apply_comp, apply_liftMaxCore, apply_implyConst, Axis.proj_himp, Axis.proj_set]
    rfl

/-- `lift_min`: project, apply, and complete with minima. -/
theorem apply_liftMin (m : SimpleMorph p q .allowed .disallowed) (ax0 : Axis a p)
    (ax1 : Axis dst q) (x : a.El) :
    (liftMin a dst m ax0 ax1).apply dst x = minWith dst ax1 (m.apply q (ax0.proj x)) := by
  cases m with
  | id => rw [liftMin, apply_pushToMin, proj_liftCoreComposeResultL_id]; rfl
  | core m => exact apply_liftMinCore m ax0 ax1 x
  | meetConst c =>
    rw [liftMin, apply_comp, apply_meetConst, ← minWith, minWith_inf,
      proj_liftCoreComposeResultL_id]
    rfl
  | meetConstCore c m =>
    rw [liftMin, apply_comp, apply_meetConst, apply_liftMinCore, inf_minWith, Axis.proj_set]
    rfl

end SimpleMorph

/-! ## §5 Morphisms -/

namespace Morph

variable {a b c dst p q : Obj} {l r : Allowance}

/-- `src` computes the object a morphism starts from. -/
theorem src_eq (m : Morph a dst l r) : m.src dst = a := by
  induction m with
  | simple m | maxWithSimple _ m | minWithSimple _ m => exact m.src_eq
  | compose _ _ _ iha => exact iha
  | _ => rfl

theorem gc_rightAdjoint (m : Morph a dst .allowed r) :
    GaloisConnection (m.apply dst) ((m.rightAdjoint dst).apply a) := by
  cases m with
  | simple m => exact m.gc_rightAdjoint
  | simpleProj m ax => intro x y; exact (m.gc_rightAdjoint _ _).trans (proj_le_iff ax)
  | minWithSimple ax m => intro x y; exact (minWith_le_iff ax).trans (m.gc_rightAdjoint _ _)
  | constMin _ => intro x y; exact iff_of_true bot_le le_top

theorem gc_leftAdjoint (m : Morph a dst l .allowed) :
    GaloisConnection ((m.leftAdjoint dst).apply a) (m.apply dst) := by
  cases m with
  | simple m => exact m.gc_leftAdjoint
  | simpleProj m ax => intro x y; exact (minWith_le_iff ax).trans (m.gc_leftAdjoint _ _)
  | maxWithSimple ax m => intro x y; exact (m.gc_leftAdjoint _ _).trans (proj_le_iff ax)
  | constMax _ => intro x y; exact iff_of_true bot_le le_top

@[simp] theorem apply_constMaxOrApply (m : SimpleMorph p dst .disallowed r) (x : a.El) :
    (constMaxOrApply dst m a).apply dst x = m.apply dst ⊤ := by
  simp only [constMaxOrApply]
  cases h : m.maybeAllowedRight with
  | allowedRight m' =>
    rw [← SimpleMorph.apply_of_maybeAllowedRight h]
    exact m'.gc_leftAdjoint.u_top.symm
  | notAllowedRight => rfl

@[simp] theorem apply_constMinOrApply (m : SimpleMorph p dst l .disallowed) (x : a.El) :
    (constMinOrApply dst m a).apply dst x = m.apply dst ⊥ := by
  simp only [constMinOrApply]
  cases h : m.maybeAllowedLeft with
  | allowedLeft m' =>
    rw [← SimpleMorph.apply_of_maybeAllowedLeft h]
    exact m'.gc_rightAdjoint.l_bot.symm
  | notAllowedLeft => rfl

/-! The maps of the constructors. -/

@[simp] theorem apply_simple (m : SimpleMorph a dst l r) (x : a.El) :
    (simple m).apply dst x = m.apply dst x := rfl

@[simp] theorem apply_simpleProj (m : SimpleMorph p dst l r) (ax : Axis a p) (x : a.El) :
    (simpleProj m ax).apply dst x = m.apply dst (ax.proj x) := rfl

@[simp] theorem apply_maxWithSimple (ax : Axis dst q) (m : SimpleMorph a q .disallowed r)
    (x : a.El) : (maxWithSimple ax m).apply dst x = maxWith dst ax (m.apply q x) := rfl

@[simp] theorem apply_minWithSimple (ax : Axis dst q) (m : SimpleMorph a q l .disallowed)
    (x : a.El) : (minWithSimple ax m).apply dst x = minWith dst ax (m.apply q x) := rfl

@[simp] theorem apply_constMax (x : a.El) :
    (constMax a : Morph a dst _ r).apply dst x = ⊤ := rfl

@[simp] theorem apply_constMin (x : a.El) :
    (constMin a : Morph a dst l _).apply dst x = ⊥ := rfl

@[simp] theorem apply_const (c : dst.El) (x : a.El) :
    (const a c : Morph a dst _ _).apply dst x = c := rfl

@[simp] theorem apply_compose (mb : Morph b dst .disallowed .disallowed)
    (ma : Morph a b .disallowed .disallowed) (x : a.El) :
    (compose mb ma).apply dst x = mb.apply dst (ma.apply b x) := rfl

@[simp] theorem apply_allowLeft (m : Morph a dst .allowed r) (x : a.El) :
    (m.allowLeft : Morph a dst l r).apply dst x = m.apply dst x := by
  cases m <;> simp [allowLeft]

@[simp] theorem apply_allowRight (m : Morph a dst l .allowed) (x : a.El) :
    (m.allowRight : Morph a dst l r).apply dst x = m.apply dst x := by
  cases m <;> simp [allowRight]

/-! Each helper of `compose` composes. -/

theorem apply_composeSimpleProjCore (m0 : SimpleMorph p dst l r)
    (pm1 : CoreMorph.ComposeProjResult a p l r) (x : a.El) :
    (composeSimpleProjCore dst m0 pm1).apply dst x = m0.apply dst (pm1.apply p x) := by
  cases pm1 <;> simp [composeSimpleProjCore, CoreMorph.ComposeProjResult.apply]

theorem apply_composeSimpleProjMeetConstCore (m0 : SimpleMorph p dst l .disallowed) (c1 : p.El)
    (pm1 : CoreMorph.ComposeProjResult a p l .disallowed) (x : a.El) :
    (composeSimpleProjMeetConstCore dst m0 c1 pm1).apply dst x
      = m0.apply dst (c1 ⊓ pm1.apply p x) := by
  cases pm1 <;> simp [composeSimpleProjMeetConstCore, CoreMorph.ComposeProjResult.apply]

theorem apply_composeSimpleProjCoreImplyConst (m0 : SimpleMorph p dst .disallowed r) (c1 : a.El)
    (pm1 : CoreMorph.ComposeProjResult a p .disallowed r) (x : a.El) :
    (composeSimpleProjCoreImplyConst dst m0 c1 pm1).apply dst x
      = m0.apply dst (pm1.apply p (c1 ⇨ x)) := by
  cases pm1 <;> simp [composeSimpleProjCoreImplyConst, CoreMorph.ComposeProjResult.apply]

theorem apply_composeSimpleProjWithSimple (m0 : SimpleMorph p dst l r) (ax0 : Axis b p)
    (m1 : SimpleMorph a b l r) (x : a.El) :
    (composeSimpleProjWithSimple dst m0 ax0 m1).apply dst x
      = m0.apply dst (ax0.proj (m1.apply b x)) := by
  cases m1 with
  | id => rfl
  | core m1 =>
    rw [composeSimpleProjWithSimple, apply_composeSimpleProjCore, ← CoreMorph.proj_apply]
    rfl
  | meetConst c1 | implyConst c1 => simp [composeSimpleProjWithSimple]
  | meetConstCore c1 m1 =>
    rw [composeSimpleProjWithSimple, apply_composeSimpleProjMeetConstCore,
      ← CoreMorph.proj_apply, SimpleMorph.apply_meetConstCore, Axis.proj_inf]
  | coreImplyConst m1 c1 =>
    rw [composeSimpleProjWithSimple, apply_composeSimpleProjCoreImplyConst, ← CoreMorph.proj_apply]
    rfl
  | compose mb ma => rfl

theorem apply_composeAndMaxCore (m0 : CoreMorph b dst .disallowed r) (ax1 : Axis b q)
    (m1 : SimpleMorph a q .disallowed r) (x : a.El) :
    (composeAndMaxCore dst m0 ax1 m1).apply dst x
      = m0.apply dst (maxWith b ax1 (m1.apply q x)) := by
  have h := m0.composeCoreMaxWith_spec ax1
  simp only [composeAndMaxCore]
  cases hm : m0.composeCoreMaxWith ax1 with
  | andMaxCore ax m =>
    rw [hm] at h
    exact (congrArg (maxWith dst ax) (SimpleMorph.apply_comp (.core m) m1 x)).trans (h _).symm
  | constMaxCore | andMaxId ax => rw [hm] at h; exact (h _).symm
  | disallowed => rfl

theorem apply_composeAndMaxCoreImplyConst (m0 : CoreMorph b dst .disallowed r) (c0 : b.El)
    (ax1 : Axis b q) (m1 : SimpleMorph a q .disallowed r) (x : a.El) :
    (composeAndMaxCoreImplyConst dst m0 c0 ax1 m1).apply dst x
      = m0.apply dst (c0 ⇨ maxWith b ax1 (m1.apply q x)) := by
  have h := m0.composeCoreMaxWith_spec ax1
  rw [himp_maxWith]
  simp only [composeAndMaxCoreImplyConst]
  cases hm : m0.composeCoreMaxWith ax1 with
  | andMaxCore ax m =>
    rw [hm] at h
    have hcomp := SimpleMorph.apply_comp (.coreImplyConst m (ax1.proj c0)) m1 x
    exact (congrArg (maxWith dst ax) hcomp).trans (h _).symm
  | constMaxCore => rw [hm] at h; exact (h _).symm
  | @andMaxId c _ _ _ ax =>
    rw [hm] at h
    have hcomp := SimpleMorph.apply_comp (.implyConst (ax1.proj c0)) m1 x
    exact (congrArg (maxWith (.comonadicWith c) ax) hcomp).trans (h _).symm
  | disallowed => exact congrArg (m0.apply dst) (himp_maxWith ax1 c0 (m1.apply q x))

theorem apply_composeSimpleMaxWithSimple (m0 : SimpleMorph b dst .disallowed r)
    (ax1 : Axis b q) (m1 : SimpleMorph a q .disallowed r) (x : a.El) :
    (composeSimpleMaxWithSimple dst m0 ax1 m1).apply dst x
      = m0.apply dst (maxWith b ax1 (m1.apply q x)) := by
  cases m0 with
  | core m0 => exact apply_composeAndMaxCore m0 ax1 m1 x
  | implyConst c0 => simp [composeSimpleMaxWithSimple, himp_maxWith]
  | coreImplyConst m0 c0 => exact apply_composeAndMaxCoreImplyConst m0 c0 ax1 m1 x
  | _ => rfl

theorem apply_composeAndMinCore (m0 : CoreMorph b dst l .disallowed) (ax1 : Axis b q)
    (m1 : SimpleMorph a q l .disallowed) (x : a.El) :
    (composeAndMinCore dst m0 ax1 m1).apply dst x
      = m0.apply dst (minWith b ax1 (m1.apply q x)) := by
  have h := m0.composeCoreMinWith_spec ax1
  simp only [composeAndMinCore]
  cases hm : m0.composeCoreMinWith ax1 with
  | andMinCore ax m =>
    rw [hm] at h
    exact (congrArg (minWith dst ax) (SimpleMorph.apply_comp (.core m) m1 x)).trans (h _).symm
  | constMinCore | andMinId ax => rw [hm] at h; exact (h _).symm
  | disallowed => rfl

theorem apply_composeAndMinMeetConstCore (c0 : dst.El) (m0 : CoreMorph b dst l .disallowed)
    (ax1 : Axis b q) (m1 : SimpleMorph a q l .disallowed) (x : a.El) :
    (composeAndMinMeetConstCore dst c0 m0 ax1 m1).apply dst x
      = c0 ⊓ m0.apply dst (minWith b ax1 (m1.apply q x)) := by
  have h := m0.composeCoreMinWith_spec ax1
  simp only [composeAndMinMeetConstCore]
  cases hm : m0.composeCoreMinWith ax1 with
  | andMinCore ax m =>
    rw [hm] at h
    refine Eq.trans ?_ (congrArg (c0 ⊓ ·) (h _).symm)
    refine Eq.trans ?_ (inf_minWith ax c0 _).symm
    exact congrArg (minWith dst ax) (SimpleMorph.apply_comp (.meetConstCore (ax.proj c0) m) m1 x)
  | constMinCore =>
    rw [hm] at h
    refine Eq.trans ?_ (congrArg (c0 ⊓ ·) (h _).symm)
    exact (inf_bot_eq c0).symm
  | @andMinId c _ _ _ ax =>
    rw [hm] at h
    refine Eq.trans ?_ (congrArg (c0 ⊓ ·) (h _).symm)
    refine Eq.trans ?_ (inf_minWith ax c0 _).symm
    exact congrArg (minWith (.comonadicWith c) ax)
      (SimpleMorph.apply_comp (.meetConst (ax.proj c0)) m1 x)
  | disallowed => rfl

theorem apply_composeSimpleMinWithSimple (m0 : SimpleMorph b dst l .disallowed)
    (ax1 : Axis b q) (m1 : SimpleMorph a q l .disallowed) (x : a.El) :
    (composeSimpleMinWithSimple dst m0 ax1 m1).apply dst x
      = m0.apply dst (minWith b ax1 (m1.apply q x)) := by
  cases m0 with
  | core m0 => exact apply_composeAndMinCore m0 ax1 m1 x
  | meetConst c0 => simp [composeSimpleMinWithSimple, inf_minWith]
  | meetConstCore c0 m0 => exact apply_composeAndMinMeetConstCore c0 m0 ax1 m1 x
  | _ => rfl

theorem apply_composeProjMaxWith (m0 : SimpleMorph p dst .disallowed r) (ax0 : Axis b p)
    (ax1 : Axis b q) (m1 : SimpleMorph a q .disallowed r) (x : a.El) :
    (composeProjMaxWith dst m0 ax0 ax1 m1).apply dst x
      = m0.apply dst (ax0.proj (maxWith b ax1 (m1.apply q x))) := by
  simp only [composeProjMaxWith]
  have hne := ax0.ne_of_equal ax1
  cases h : ax0.equal ax1 with
  | isEq =>
    obtain rfl := ax0.eq_of_target ax1
    rw [proj_maxWith]
    exact SimpleMorph.apply_comp m0 m1 x
  | isNotEq => rw [proj_maxWith_of_ne ax1 ax0 (hne h)]; exact apply_constMaxOrApply m0 x

theorem apply_composeProjMinWith (m0 : SimpleMorph p dst l .disallowed) (ax0 : Axis b p)
    (ax1 : Axis b q) (m1 : SimpleMorph a q l .disallowed) (x : a.El) :
    (composeProjMinWith dst m0 ax0 ax1 m1).apply dst x
      = m0.apply dst (ax0.proj (minWith b ax1 (m1.apply q x))) := by
  simp only [composeProjMinWith]
  have hne := ax0.ne_of_equal ax1
  cases h : ax0.equal ax1 with
  | isEq =>
    obtain rfl := ax0.eq_of_target ax1
    rw [proj_minWith]
    exact SimpleMorph.apply_comp m0 m1 x
  | isNotEq => rw [proj_minWith_of_ne ax1 ax0 (hne h)]; exact apply_constMinOrApply m0 x

section

variable (ax0 : Axis dst q)

theorem apply_composeMaxWithProj (m0 : SimpleMorph b q .disallowed r)
    (m1 : SimpleMorph p b .disallowed r) (ax1 : Axis a p) (x : a.El) :
    (composeMaxWithProj dst ax0 m0 m1 ax1).apply dst x
      = maxWith dst ax0 (m0.apply q (m1.apply b (ax1.proj x))) := by
  simp only [composeMaxWithProj]
  cases h : (m0.comp q m1).maybeAllowedRight with
  | allowedRight m0m1 =>
    simp [SimpleMorph.apply_liftMax, SimpleMorph.apply_of_maybeAllowedRight h]
  | notAllowedRight => rfl

theorem apply_composeMinWithProj (m0 : SimpleMorph b q l .disallowed)
    (m1 : SimpleMorph p b l .disallowed) (ax1 : Axis a p) (x : a.El) :
    (composeMinWithProj dst ax0 m0 m1 ax1).apply dst x
      = minWith dst ax0 (m0.apply q (m1.apply b (ax1.proj x))) := by
  simp only [composeMinWithProj]
  cases h : (m0.comp q m1).maybeAllowedLeft with
  | allowedLeft m0m1 =>
    simp [SimpleMorph.apply_liftMin, SimpleMorph.apply_of_maybeAllowedLeft h]
  | notAllowedLeft => rfl

theorem apply_composeMinWithConstMin (m0 : SimpleMorph b q l .disallowed)
    (x : a.El) :
    (composeMinWithConstMin dst ax0 m0 a).apply dst x = minWith dst ax0 (m0.apply q ⊥) := by
  simp only [composeMinWithConstMin]
  cases h : m0.maybeAllowedLeft with
  | allowedLeft m' =>
    rw [← SimpleMorph.apply_of_maybeAllowedLeft h, m'.gc_rightAdjoint.l_bot, minWith_bot,
      apply_constMin]
  | notAllowedLeft => rfl

theorem apply_composeMaxWithConstMax (m0 : SimpleMorph b q .disallowed r)
    (x : a.El) :
    (composeMaxWithConstMax dst ax0 m0 a).apply dst x = maxWith dst ax0 (m0.apply q ⊤) := by
  simp only [composeMaxWithConstMax]
  cases h : m0.maybeAllowedRight with
  | allowedRight m' =>
    rw [← SimpleMorph.apply_of_maybeAllowedRight h, m'.gc_leftAdjoint.u_top, maxWith_top,
      apply_constMax]
  | notAllowedRight => rfl

end

/-- `compose` composes. -/
theorem apply_comp (m0 : Morph b dst l r) (m1 : Morph a b l r) (x : a.El) :
    (m0.comp dst m1).apply dst x = m0.apply dst (m1.apply b x) := by
  cases m0 with
  | simple m0 =>
    cases m1 with
    | simple m1 => exact m0.apply_comp m1 x
    | constMax _ => exact apply_constMaxOrApply m0 x
    | constMin _ => exact apply_constMinOrApply m0 x
    | const _ _ => rfl
    | simpleProj m1 ax1 => exact m0.apply_comp m1 (ax1.proj x)
    | maxWithSimple ax1 m1 => exact apply_composeSimpleMaxWithSimple m0 ax1 m1 x
    | minWithSimple ax1 m1 => exact apply_composeSimpleMinWithSimple m0 ax1 m1 x
    | compose _ _ => rfl
  | constMax _ | constMin _ | const _ _ => cases m1 <;> rfl
  | simpleProj m0 ax0 =>
    cases m1 with
    | simple m1 => exact apply_composeSimpleProjWithSimple m0 ax0 m1 x
    | constMax _ =>
      rw [apply_constMax, apply_simpleProj, Axis.proj_top]
      exact apply_constMaxOrApply m0 x
    | constMin _ =>
      rw [apply_constMin, apply_simpleProj, Axis.proj_bot]
      exact apply_constMinOrApply m0 x
    | const _ _ => rfl
    | simpleProj m1 ax1 => exact (not_axis_to_product ax0 m1 ax1).elim
    | maxWithSimple ax1 m1 => exact apply_composeProjMaxWith m0 ax0 ax1 m1 x
    | minWithSimple ax1 m1 => exact apply_composeProjMinWith m0 ax0 ax1 m1 x
    | compose _ _ => rfl
  | maxWithSimple ax0 m0 =>
    cases m1 with
    | simple m1 => exact congrArg (maxWith dst ax0) (m0.apply_comp m1 x)
    | constMax _ => exact apply_composeMaxWithConstMax ax0 m0 x
    | constMin _ | const _ _ => rfl
    | simpleProj m1 ax1 => exact apply_composeMaxWithProj ax0 m0 m1 ax1 x
    | maxWithSimple ax1 m1 | minWithSimple ax1 m1 => exact (not_product_to_axis ax0 m0 ax1).elim
    | compose _ _ => rfl
  | minWithSimple ax0 m0 =>
    cases m1 with
    | simple m1 => exact congrArg (minWith dst ax0) (m0.apply_comp m1 x)
    | constMax _ => rfl
    | constMin _ => exact apply_composeMinWithConstMin ax0 m0 x
    | const _ _ => rfl
    | simpleProj m1 ax1 => exact apply_composeMinWithProj ax0 m0 m1 ax1 x
    | maxWithSimple ax1 m1 | minWithSimple ax1 m1 => exact (not_product_to_axis ax0 m0 ax1).elim
    | compose _ _ => rfl
  | compose _ _ => cases m1 <;> rfl

/-! ## §6 The category of mode lattices -/

/-- Composition is functorial: the composite of `m1 : a → b` and
`m0 : b → dst` starts where `m1` starts and maps `x` to the image under
`m0` of the image under `m1`. -/
theorem compose_functorial (dst : Obj) (m0 : Morph b dst l r) (m1 : Morph a b l r) :
    src dst m0 = b ∧ src dst (comp dst m0 m1) = src b m1
      ∧ ∀ x : a.El, apply dst (comp dst m0 m1) x = apply dst m0 (apply b m1 x) :=
  ⟨m0.src_eq, (src_eq _).trans m1.src_eq.symm, fun x => apply_comp m0 m1 x⟩

/-- The adjoints of a morphism are its Galois adjoints: a morphism allowed
on the left has `right_adjoint` as its right adjoint, one allowed on the
right has `left_adjoint` as its left adjoint. -/
theorem adjoints_galois (dst : Obj) : (∀ (a : Obj) (r : Allowance) (f : Morph a dst .allowed r),
      src dst f = a ∧ src a (rightAdjoint dst f) = dst ∧ ∀ (x : a.El) (y : dst.El),
            dst.le (apply dst f x) y ↔ a.le x (apply a (rightAdjoint dst f) y))
    ∧ (∀ (a : Obj) (l : Allowance) (f : Morph a dst l .allowed),
      src dst f = a ∧ src a (leftAdjoint dst f) = dst ∧ ∀ (y : dst.El) (x : a.El),
            a.le (apply a (leftAdjoint dst f) y) x ↔ dst.le y (apply dst f x)) :=
  ⟨fun _ _ f => ⟨f.src_eq, src_eq _, f.gc_rightAdjoint⟩,
    fun _ _ f => ⟨f.src_eq, src_eq _, f.gc_leftAdjoint⟩⟩

end Morph

end Oxcaml.Typing
