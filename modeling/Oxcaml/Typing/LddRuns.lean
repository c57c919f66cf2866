/-
Oxcaml.Typing.LddRuns — kinds over the axis lattice, in reachable states.

A state is reachable when solving, enqueueing and inlining on well-formed
nodes lead to it from the state without solutions. All reachable states are
ranked (§1), so every function on them returns; `map_rigid` (§2) and
`leq_with_reason` (§3) are the functions that use the state without solving.

§4 follows whole runs of equations through `solve_lfp` and `solve_pending`;
§5 states the results for `Axis_lattice.t`: canonical forms, the exactness of
subsumption, and extremal solutions by elimination.
-/
import Oxcaml.Typing.AxisLattice
import Oxcaml.Typing.LddSolveTheorems
import Mathlib.Order.Bounds.Defs

set_option linter.all false

namespace Oxcaml.Typing.Ldd

open Prod (fst)

open Oxcaml.Lib

variable {V L : Type} [Ordered V] [CoheytingAlgebra L] [DecidableEq L] [DecidableLE L]

/-! ## §1 Reachable states -/

inductive Reachable (peq : PhysEq V L) : State V L → Prop
  | fresh : Reachable peq .fresh
  | inline {s s' n n'} : Reachable peq s → n.WF peq → inlineSolvedVars peq n s = some (n', s') →
    Reachable peq s'
  | solveLfp {s s' x rhs} : Reachable peq s → rhs.WF peq → solveLfp peq x rhs s = some (.ok s') →
    Reachable peq s'
  | solveGfp {s s' x rhs} : Reachable peq s → rhs.WF peq → solveGfp peq x rhs s = some (.ok s') →
    Reachable peq s'
  | enqueueGfp {s x rhs} : Reachable peq s → rhs.WF peq → Reachable peq (enqueueGfp x rhs s)
  | solvePending {s s'} : Reachable peq s → solvePending peq s = some (.ok s') → Reachable peq s'

/-- The invariant of reachable states. -/
structure Good (s : State V L) : Prop where
  ranked : ∃ rank, Ranked s rank
  pending : ∀ e ∈ s.gfpPending, e.2.Canonical

section Good

variable (peq : PhysEq V L)

theorem ranked_of_solution_eq {s s' : State V L} {rank : Var V → Nat} (h : Ranked s rank)
    (heq : s'.solution = s.solution) : Ranked s' rank := by
  have hstate : ∀ v, s'.varState v = s.varState v := by
    intro v
    cases v with
    | rigid name => rfl
    | nonRigid id hid => simp only [State.varState, heq]
  have hsolved : ∀ v, s'.IsSolved v ↔ s.IsSolved v := fun v => by
    simp only [State.IsSolved, hstate]
  refine ⟨fun v d hd => h.canonical v d (hstate v ▸ hd), fun v d hd => ?_⟩
  exact (h.descends v d (hstate v ▸ hd)).mono fun w hw hw' => hw ((hsolved w).1 hw')

/-- A solving function that succeeds has solved an unsolved variable. -/
theorem unsolved_of_solveLfp {x : Var V} {rhs : Node V L} {s s' : State V L}
    (h : solveLfp peq x rhs s = some (.ok s')) : s.varState x = .unsolved := by
  rw [solveLfp] at h
  split at h
  · cases h
  · cases h
  · assumption

theorem unsolved_of_solveGfp {x : Var V} {rhs : Node V L} {s s' : State V L}
    (h : solveGfp peq x rhs s = some (.ok s')) : s.varState x = .unsolved := by
  rw [solveGfp] at h
  split at h
  · cases h
  · cases h
  · assumption

theorem Good.step {b : L}
    {solve : Var V → Node V L → State V L → Option (Except String (State V L))}
    (hsolve : StepsFrom b solve) {s s' : State V L} (h : Good s) {x : Var V} {rhs : Node V L}
    (hrhs : rhs.Canonical) (hx : s.varState x = .unsolved) (heq : solve x rhs s = some (.ok s')) :
    Good s' := by
  obtain ⟨rank, hs⟩ := h.ranked
  obtain ⟨s₁, heq₁, hpend, hsteps⟩ := hsolve hs hrhs hx
  rw [heq] at heq₁
  cases heq₁
  exact ⟨⟨_, hsteps.ranked hx⟩, fun e he => h.pending e (hpend ▸ he)⟩

theorem Good.iterSolveGfp (E : List (Var V × Node V L)) : ∀ {s s' : State V L}, Good s →
    (∀ e ∈ E, e.2.Canonical) → iterSolve (solveGfp peq) E s = some (.ok s') → Good s' := by
  induction E with
  | nil =>
    intro s s' h _ heq
    cases heq
    exact h
  | cons e E ih =>
    intro s s' h hE heq
    rw [iterSolve] at heq
    split at heq
    case h_1 s₁ hs₁ =>
      exact ih (h.step (solveGfp_solves peq) (hE _ List.mem_cons_self)
        (unsolved_of_solveGfp peq hs₁) hs₁) (fun e he => hE e (List.mem_cons_of_mem _ he)) heq
    case h_2 hne => exact absurd heq (hne s')

theorem Reachable.good {peq : PhysEq V L} {s : State V L} (h : Reachable peq s) : Good s := by
  induction h with
  | fresh =>
    have hnone : ∀ v d, (State.fresh : State V L).varState v ≠ .solved d := by
      intro v d hv
      cases v <;> cases hv
    exact ⟨⟨fun _ => 0, fun v d hv => absurd hv (hnone v d), fun v d hv => absurd hv (hnone v d)⟩,
      fun e he => absurd he List.not_mem_nil⟩
  | inline _ hn heq ih =>
    obtain ⟨rank, hs⟩ := ih.ranked
    obtain ⟨n₁, s₁, heq₁, hspec⟩ := inlineSolvedVars_returns peq hs ((wf_iff_canonical peq).1 hn)
    rw [heq] at heq₁
    cases heq₁
    exact ⟨⟨rank, hspec.forced.ranked⟩, fun e he => ih.pending e (hspec.forced.pending ▸ he)⟩
  | solveLfp _ hrhs heq ih =>
    exact ih.step (solveLfp_solves peq) ((wf_iff_canonical peq).1 hrhs)
      (unsolved_of_solveLfp peq heq) heq
  | solveGfp _ hrhs heq ih =>
    exact ih.step (solveGfp_solves peq) ((wf_iff_canonical peq).1 hrhs)
      (unsolved_of_solveGfp peq heq) heq
  | enqueueGfp _ hrhs ih =>
    obtain ⟨rank, hs⟩ := ih.ranked
    refine ⟨⟨rank, ranked_of_solution_eq hs rfl⟩, fun e he => ?_⟩
    rcases List.mem_cons.1 he with rfl | he
    · exact (wf_iff_canonical peq).1 hrhs
    · exact ih.pending e he
  | @solvePending s s' _ heq ih =>
    obtain ⟨rank, hs⟩ := ih.ranked
    have hempty : Good { s with gfpPending := [] } :=
      ⟨⟨rank, ranked_of_solution_eq hs rfl⟩, fun e he => absurd he List.not_mem_nil⟩
    exact hempty.iterSolveGfp peq _ ih.pending heq

end Good

/-! ## §2 `map_rigid` -/

/-- Rigid variables have the values of their replacements. -/
def substRigid (f : V → Node V L) (ρ : Var V → L) : Var V → L
  | .rigid name => den (f name) ρ
  | v@(.nonRigid _ _) => ρ v

/-- What replacing rigid variables in `n` has to return. -/
structure MapRigidSpec (f : V → Node V L) (rank : Var V → Nat) (s : State V L) (n n' : Node V L)
    (s' : State V L) : Prop where
  forced : Forced rank s s'
  canonical : n'.Canonical
  free : n'.All (¬ s.IsSolved ·)
  den_eq : ∀ ρ, Sat s ρ → den n' ρ = den n (substRigid f ρ)

section MapRigid

variable (peq : PhysEq V L)

/-- The result of a computation that returns. -/
def returned {α : Type} (x : α) : ExceptT String Option α :=
    (some (.ok x) : Option (Except String α))

theorem returned_bind {α β : Type} (x : α) (g : α → ExceptT String Option β) :
    returned x >>= g = g x := rfl

variable {rank : Var V → Nat} {f : V → Node V L}

theorem mapRigidRec_returns (hf : ∀ name, (f name).Canonical) (k : Nat) :
    ∀ (n : Node V L) (s : State V L), n.size = k → Ranked s rank →
      n.Canonical → n.All (¬ s.IsSolved ·) →
      ∃ n' s', mapRigidRec peq f n s = returned (n', s') ∧ MapRigidSpec f rank s n n' s' := by
  induction k using Nat.strongRecOn with
  | ind k ih =>
  intro n s hk hs hn hfree
  rw [mapRigidRec.eq_def]
  cases n with
  | leaf c => exact ⟨_, _, rfl, ⟨Forced.refl hs, trivial, trivial, fun _ _ => rfl⟩⟩
  | block v lo hi d u =>
  simp only [Node.size] at hk
  have hback : ∀ {s'}, Forced rank s s' → ∀ {m : Node V L}, m.All (¬ s'.IsSolved ·) →
      m.All (¬ s.IsSolved ·) :=
    fun h _ hm => hm.mono fun w hw hw' => hw ((h.solved_iff w).2 hw')
  -- both sides, one after the other
  have hsides : ∀ s₁, Forced rank s s₁ → ∃ lo' hi' s₂ s₃,
    mapRigidRec peq f lo s₁ = returned (lo', s₂) ∧
      mapRigidRec peq f hi s₂ = returned (hi', s₃) ∧ MapRigidSpec f rank s lo lo' s₂ ∧
      MapRigidSpec f rank s hi hi' s₃ := by
    intro s₁ h₁
    have hfree' : ∀ s', Forced rank s s' → ∀ m : Node V L, m.All (¬ s.IsSolved ·) →
        m.All (¬ s'.IsSolved ·) :=
      fun s' h m hm => hm.mono fun w hw hw' => hw ((h.solved_iff w).1 hw')
    obtain ⟨lo', s₂, hlo, hslo⟩ := ih lo.size (by omega) lo s₁ rfl h₁.ranked hn.2.1
      (hfree' s₁ h₁ lo hfree.2.1)
    have h₂ := h₁.trans hslo.forced
    obtain ⟨hi', s₃, hhi, hshi⟩ := ih hi.size (by omega) hi s₂ rfl h₂.ranked hn.2.2
      (hfree' s₂ h₂ hi hfree.2.2)
    exact ⟨lo', hi', s₂, s₃, hlo, hhi,
      ⟨h₂, hslo.canonical, hback h₁ hslo.free, fun ρ hρ => hslo.den_eq ρ (h₁.sat ρ hρ)⟩,
      ⟨h₂.trans hshi.forced, hshi.canonical, hback h₂ hshi.free,
        fun ρ hρ => hshi.den_eq ρ (h₂.sat ρ hρ)⟩⟩
  dsimp only
  cases hv : s.varState v with
  | solved e => exact absurd ⟨e, hv⟩ hfree.1
  | rigid name =>
    obtain rfl := eq_rigid_of_varState hv
    obtain ⟨r, s₁, hr, hsr⟩ := inlineSolvedVars_returns peq hs (hf name)
    have hval : ∀ ρ, Sat s ρ → substRigid f ρ (.rigid name) = den r ρ :=
      fun ρ hρ => (hsr.den_eq ρ hρ).symm
    have hlift : (liftM (inlineSolvedVars peq (f name) s) : ExceptT String Option _) =
        returned (r, s₁) := by
      rw [hr]
      rfl
    simp only [hlift]
    cases r with
    | leaf c =>
      have hmeet := meet_denotes peq hn.2.2 (b := .leaf c) trivial
      have hself := join_denotes peq hn.2.1 hmeet.canonical
      have hsize := size_join_le peq lo (meet peq hi (.leaf c))
      have hsize' := size_meet_leaf_le peq hi c
      have hfree' : (join peq lo (meet peq hi (.leaf c))).All (¬ s₁.IsSolved ·) :=
        (join_all peq hfree.2.1 (meet_all peq hfree.2.2 (b := .leaf c) trivial)).mono
          fun w hw hw' => hw ((hsr.forced.solved_iff w).1 hw')
      obtain ⟨n', s', heq, hspec⟩ :=
        ih _ (by omega) _ s₁ rfl hsr.forced.ranked hself.canonical hfree'
      refine ⟨n', s', heq, ⟨hsr.forced.trans hspec.forced, hspec.canonical,
        hback hsr.forced hspec.free, fun ρ hρ => ?_⟩⟩
      rw [hspec.den_eq ρ (hsr.forced.sat ρ hρ), hself.den_eq, Pi.sup_apply, hmeet.den_eq,
        Pi.inf_apply]
      simp only [den, decide₂, hval ρ hρ, inf_comm]
    | block rv rlo rhi rd ru =>
      obtain ⟨lo', hi', s₂, s₃, hlo, hhi, hslo, hshi⟩ := hsides s₁ hsr.forced
      simp only [hlo, hhi, returned_bind]
      have hden := denotes_inlined peq hslo.canonical hshi.canonical hsr.canonical
      have hfree' := join_all peq hslo.free (meet_all peq hshi.free hsr.free)
      refine ⟨_, _, rfl, ⟨hshi.forced, hden.canonical, hfree', fun ρ hρ => ?_⟩⟩
      refine (congrFun hden.den_eq ρ).trans ?_
      rw [hslo.den_eq ρ hρ, hshi.den_eq ρ hρ, ← hval ρ hρ]
      rfl
  | unsolved =>
    obtain ⟨lo', hi', s₂, s₃, hlo, hhi, hslo, hshi⟩ := hsides s (Forced.refl hs)
    simp only [hlo, hhi, returned_bind]
    have hvar := nodeOfVar_denotes (L := L) v
    have hden := denotes_inlined peq hslo.canonical hshi.canonical hvar.canonical
    have hsame : ∀ ρ : Var V → L, substRigid f ρ v = ρ v := by
      intro ρ
      cases v with
      | nonRigid id h => rfl
      | rigid name => cases hv
    have hval : ∀ ρ, Sat s ρ → den lo' ρ ⊔ (ρ v ⊓ den hi' ρ) =
        den (.block v lo hi d u) (substRigid f ρ) := by
      intro ρ hρ
      rw [hslo.den_eq ρ hρ, hshi.den_eq ρ hρ]
      simp only [den, decide₂, hsame]
    split
    case isTrue heq =>
      rw [Bool.and_eq_true] at heq
      obtain rfl := peq.eq_sound heq.1
      obtain rfl := peq.eq_sound heq.2
      exact ⟨_, _, rfl, ⟨hshi.forced, hn, hfree, fun ρ hρ => hval ρ hρ⟩⟩
    case isFalse =>
      have hvfree : (nodeOfVar v : Node V L).All (¬ s.IsSolved ·) := nodeOfVar_all hfree.1
      have hfree' := join_all peq hslo.free (meet_all peq hshi.free hvfree)
      refine ⟨_, _, rfl, ⟨hshi.forced, hden.canonical, hfree', fun ρ hρ => ?_⟩⟩
      refine (congrFun hden.den_eq ρ).trans ?_
      rw [hvar.den_eq]
      exact hval ρ hρ

theorem mapRigid_returns (hf : ∀ name, (f name).Canonical)
    {s : State V L} (hs : Ranked s rank) {n : Node V L} (hn : n.Canonical) :
    ∃ n₁ s₁ n' s', inlineSolvedVars peq n s = some (n₁, s₁) ∧
      mapRigid peq f n s = returned (n', s') ∧ MapRigidSpec f rank s n₁ n' s' := by
  obtain ⟨n₁, s₁, heq₁, h₁⟩ := inlineSolvedVars_returns peq hs hn
  obtain ⟨n', s', heq, h'⟩ := mapRigidRec_returns peq hf _ n₁ s₁ rfl h₁.forced.ranked h₁.canonical
    (h₁.free.mono fun w hw hw' => hw ((h₁.forced.solved_iff w).1 hw'))
  have hlift : (liftM (inlineSolvedVars peq n s) : ExceptT String Option _) =
      returned (n₁, s₁) := by
    rw [heq₁]
    rfl
  refine ⟨n₁, s₁, n', s', heq₁, ?_, ⟨h₁.forced.trans h'.forced, h'.canonical,
    h'.free.mono fun w hw hw' => hw ((h₁.forced.solved_iff w).2 hw'),
    fun ρ hρ => h'.den_eq ρ (h₁.forced.sat ρ hρ)⟩⟩
  simp only [mapRigid, hlift]
  exact heq

end MapRigid

/-! ## §3 Subsumption -/

variable {s s' s₀ : State V L}

/-- Inlining a node in two states with the same solutions gives one node. -/
theorem InlineSpec.unique {rank : Var V → Nat} {n n₁ n₂ : Node V L}
    {s₁ s₂ : State V L} (hs : Ranked s rank) (hforced : Forced rank s s')
    (h₁ : InlineSpec rank s n n₁ s₁) (h₂ : InlineSpec rank s' n n₂ s₂) : n₁ = n₂ := by
  refine eq_of_den_eq h₁.canonical h₂.canonical (funext fun ρ => ?_)
  obtain ⟨ρ', hρ', hagree⟩ := exists_sat hs ρ
  have hfree₂ : n₂.All (¬ s.IsSolved ·) :=
    h₂.free.mono fun w hw hw' => hw ((hforced.solved_iff w).2 hw')
  calc den n₁ ρ = den n₁ ρ' := den_congr (h₁.free.mono fun w hw => (hagree w hw).symm)
    _ = den n ρ' := h₁.den_eq ρ' hρ'
    _ = den n₂ ρ' := (h₂.den_eq ρ' (hforced.sat ρ' hρ')).symm
    _ = den n₂ ρ := den_congr (hfree₂.mono fun w hw => hagree w hw)

theorem subSubsets_returns (peq : PhysEq V L) {rank : Var V → Nat}
    (hs : Ranked s rank) {a b : Node V L} (ha : a.Canonical) (hb : b.Canonical) :
    ∃ a' sa b' sb diff s', inlineSolvedVars peq a s = some (a', sa) ∧
      inlineSolvedVars peq b s = some (b', sb) ∧ subSubsets peq a b s = some (diff, s') ∧
      a'.Canonical ∧ b'.Canonical ∧ SubSpec a' diff (den b') := by
  obtain ⟨b', sb, hbeq, hbs⟩ := inlineSolvedVars_returns peq hs hb
  obtain ⟨a', sa, haeq, has⟩ := inlineSolvedVars_returns peq hs ha
  obtain ⟨a'', sa', haeq', has'⟩ := inlineSolvedVars_returns peq hbs.forced.ranked ha
  obtain rfl := has.unique hs hbs.forced has'
  refine ⟨a', sa, b', sb, canonicalize peq a' b', sa', haeq, hbeq, ?_, has.canonical, hbs.canonical,
    canonicalize_spec peq has.canonical hbs.canonical⟩
  simp [subSubsets, hbeq, haeq']

section Subsumption

open AxisLattice (T Axis numAxes LeOn others nonBotAxes axisNumberToAxisPacked)

/-- The axes with the given numbers. -/
def axesOf : List Nat → Except String (List Axis)
  | [] => .ok []
  | i :: is => do
    let axis ← axisNumberToAxisPacked i
    let axes ← axesOf is
    .ok (axis :: axes)

/-- The empty list means that `a ⊑ b` succeeds; otherwise it holds the axes
where it fails. -/
def leqWithReason (peq : PhysEq V T) (a b : Node V T) (s : State V T) :
    Option (Except String (List Axis × State V T)) :=
  match solvePending peq s with
  | some (.ok s) => do
    let (diff, s) ← subSubsets peq a b s
    match axesOf (nonBotAxes (up0 diff)) with
    | .ok axes => some (.ok (axes, s))
    | .error e => some (.error e)
  | some (.error e) => some (.error e)
  | none => none

theorem axesOf_eq (l : List Nat) (hl : ∀ i ∈ l, i < numAxes) :
    ∃ axes, axesOf l = .ok axes ∧ ∀ axis, axis ∈ axes ↔ ∃ i ∈ l, Axis.all[i]? = some axis := by
  induction l with
  | nil => exact ⟨[], rfl, by simp⟩
  | cons i l ih =>
    obtain ⟨axes, heq, hmem⟩ := ih fun j hj => hl j (List.mem_cons_of_mem _ hj)
    have hi : i < Axis.all.length := hl i List.mem_cons_self
    have hget : Axis.all[i]? = some Axis.all[i] := List.getElem?_eq_getElem hi
    refine ⟨Axis.all[i] :: axes, ?_, fun axis => ?_⟩
    · simp only [axesOf, axisNumberToAxisPacked, hget, heq]; rfl
    · rw [List.mem_cons, hmem]
      simp [hget, eq_comm (a := axis)]

/-- An axis is reported when its values differ somewhere. -/
theorem mem_nonBotAxes_up0 {a b diff : Node V T} (h : SubSpec a diff (den b)) (i : Fin numAxes) :
    i.val ∈ nonBotAxes (up0 diff) ↔ ∃ ρ, ¬ LeOn i (den a ρ) (den b ρ) := by
  have hconst : den diff ≤ (fun _ => others i) ↔ up0 diff ≤ others i := by
    rw [up0_eq h.canonical]
    exact ⟨fun hle => hle ⊤, fun hle ρ => ((den_isPoly diff).mono le_top).trans hle⟩
  rw [AxisLattice.mem_nonBotAxes, ← hconst, h.isSub (isPoly_const (others i)), ← not_forall]
  refine not_congr (forall_congr' fun ρ => ?_)
  exact (AxisLattice.leOn_iff_le_sup i).symm

end Subsumption

/-! ## §4 Extremal solutions -/

variable {E E' : List (Var V × Node V L)}

theorem solutions_congr (s₀ : State V L)
    (h : ∀ e, e ∈ E ↔ e ∈ E') (ρ : Var V → L) : Solutions s₀ E ρ = Solutions s₀ E' ρ := by
  ext ρ'
  have hvar : ∀ v, v ∈ E.map fst ↔ v ∈ E'.map fst := by
    intro v
    simp [h]
  simp only [Solutions, h, hvar]

section Elimination

variable {R : L → L → Prop} {b : L} (hdir : Solvable (V := V) R b)
  {solve : Var V → Node V L → State V L → Option (Except String (State V L))}
  (hsolve : StepsFrom b solve) {s₀ : State V L} (hs₀ : Good s₀) {E : List (Var V × Node V L)}
  (hE : Equations s₀ E)
include hdir hsolve hs₀ hE

theorem exists_run : ∃ s, iterSolve solve E s₀ = some (.ok s) ∧ RunSpec R s₀ E.reverse s := by
  obtain ⟨rank, hrank⟩ := hs₀.ranked
  obtain ⟨s, heq, -, hrun⟩ := iterSolve_spec hdir hsolve E (RunSpec.start hdir hrank) hE
  exact ⟨s, heq, List.append_nil E.reverse ▸ hrun⟩

omit hdir hsolve hs₀ in
theorem Equations.of_isInitial {E₁ : List (Var V × Node V L)} (h : E₁ <+: E) : Equations s₀ E₁ :=
  ⟨fun e he => hE.canonical e (h.subset he), fun e he => hE.unsolved e (h.subset he),
    hE.distinct.sublist (h.sublist.map _)⟩

omit hdir hsolve hs₀ in
theorem Equations.perm (h : E'.Perm E) : Equations s₀ E' :=
  ⟨fun e he => hE.canonical e (h.mem_iff.1 he), fun e he => hE.unsolved e (h.mem_iff.1 he),
    (h.map fst).nodup_iff.2 hE.distinct⟩

/-- Extremal solutions are unique, and so are their nodes. -/
theorem inlinedSolutions_unique {peq : PhysEq V L} (hantisymm : ∀ x y, R x y → R y x → x = y)
    (hperm : E'.Perm E)
    (heq : iterSolve solve E s₀ = some (.ok s)) (heq' : iterSolve solve E' s₀ = some (.ok s'))
    {sol sol' : Var V → Node V L} (hsol : InlinedSolutions peq s sol)
    (hsol' : InlinedSolutions peq s' sol') {v : Var V} (hv : s.IsSolved v) : sol v = sol' v := by
  obtain ⟨s₁, heq₁, hrun⟩ := exists_run hdir hsolve hs₀ hE
  rw [heq] at heq₁
  cases heq₁
  obtain ⟨s₁, heq₁, hrun'⟩ := exists_run hdir hsolve hs₀ (hE.perm hperm)
  rw [heq'] at heq₁
  cases heq₁
  have hmem : ∀ e, e ∈ E.reverse ↔ e ∈ E'.reverse := fun e => by
    rw [List.mem_reverse, List.mem_reverse, hperm.mem_iff]
  have hv' : s'.IsSolved v := by
    have hiff : v ∈ E'.reverse.map fst ↔ v ∈ E.reverse.map fst := by
      simp only [List.mem_map, hmem]
    rw [hrun'.isSolved_iff, hiff, ← hrun.isSolved_iff]
    exact hv
  obtain ⟨d, hd⟩ := hv
  obtain ⟨d', hd'⟩ := hv'
  refine eq_of_den_eq ((wf_iff_canonical peq).1 (hsol v d hd).2.1)
    ((wf_iff_canonical peq).1 (hsol' v d' hd').2.1) (funext fun ρ => ?_)
  have h := hrun.withSolutions_mem hsol ρ
  have h' := hrun'.withSolutions_mem hsol' ρ
  have hle := hrun.withSolutions_extremal hdir.refl hsol (solutions_congr s₀ hmem ρ ▸ h') v
  have hle' := hrun'.withSolutions_extremal hdir.refl hsol' (solutions_congr s₀ hmem ρ ▸ h) v
  have hval := hantisymm _ _ hle hle'
  simpa only [withSolutions, hd, hd'] using hval

end Elimination

theorem solvePending_enqueue (peq : PhysEq V L) (h : s₀.gfpPending = [])
    (E : List (Var V × Node V L)) :
    solvePending peq (E.foldl (fun s e => enqueueGfp e.1 e.2 s) s₀) =
      iterSolve (solveGfp peq) E.reverse s₀ := by
  have hfold : ∀ (E : List (Var V × Node V L)) (s : State V L),
      E.foldl (fun s e => enqueueGfp e.1 e.2 s) s =
        { s with gfpPending := E.reverse ++ s.gfpPending } := by
    intro E
    induction E with
    | nil => exact fun s => rfl
    | cons e E ih =>
      intro s
      rw [List.foldl_cons, ih]
      simp [enqueueGfp]
  rw [hfold, solvePending]
  obtain ⟨sol, pending⟩ := s₀
  obtain rfl : pending = [] := h
  simp

/-- What a sequence of `solve_lfp` calls leads to. -/
structure LfpSolved (peq : PhysEq V L) (s₀ : State V L) (E : List (Var V × Node V L)) : Prop where
  inline_returns : ∀ E₁, E₁ <+: E → ∃ s₁, iterSolve (solveLfp peq) E₁ s₀ = some (.ok s₁) ∧
    ∀ n, n.WF peq → ∃ n' s', inlineSolvedVars peq n s₁ = some (n', s')
  least : ∃ s sol, iterSolve (solveLfp peq) E s₀ = some (.ok s) ∧ InlinedSolutions peq s sol ∧
    ∀ ρ, IsLeast (Solutions s₀ E ρ) (withSolutions s sol ρ)
  order_independent : ∀ E' : List (Var V × Node V L), E'.Perm E → ∀ s s' sol sol',
    iterSolve (solveLfp peq) E s₀ = some (.ok s) → iterSolve (solveLfp peq) E' s₀ = some (.ok s') →
    InlinedSolutions peq s sol → InlinedSolutions peq s' sol' → ∀ v, s.IsSolved v → sol v = sol' v

/-- What `solve_pending` leads to after the equations `E` have been enqueued. -/
structure GfpSolved (peq : PhysEq V L) (s₀ : State V L) (E : List (Var V × Node V L)) : Prop where
  greatest : ∃ s sol, solvePending peq (E.foldl (fun s e => enqueueGfp e.1 e.2 s) s₀) =
    some (.ok s) ∧ InlinedSolutions peq s sol ∧
    ∀ ρ, IsGreatest (Solutions s₀ E ρ) (withSolutions s sol ρ)
  order_independent : ∀ E' : List (Var V × Node V L), E'.Perm E → ∀ s s' sol sol',
    solvePending peq (E.foldl (fun s e => enqueueGfp e.1 e.2 s) s₀) = some (.ok s) →
    solvePending peq (E'.foldl (fun s e => enqueueGfp e.1 e.2 s) s₀) = some (.ok s') →
    InlinedSolutions peq s sol → InlinedSolutions peq s' sol' → ∀ v, s.IsSolved v → sol v = sol' v

theorem lfpSolved (peq : PhysEq V L) (hs₀ : Good s₀) (hE : Equations s₀ E) :
    LfpSolved peq s₀ E where
  inline_returns E₁ hpre := by
    obtain ⟨s₁, heq, hrun⟩ :=
      exists_run solvable_lfp (solveLfp_solves peq) hs₀ (hE.of_isInitial hpre)
    obtain ⟨rank, hrank⟩ := hrun.ranked
    refine ⟨s₁, heq, fun n hn => ?_⟩
    obtain ⟨n', s', heq', -⟩ := inlineSolvedVars_returns peq hrank ((wf_iff_canonical peq).1 hn)
    exact ⟨n', s', heq'⟩
  least := by
    obtain ⟨s, heq, hrun⟩ := exists_run solvable_lfp (solveLfp_solves peq) hs₀ hE
    obtain ⟨rank, hrank⟩ := hrun.ranked
    obtain ⟨sol, hsol⟩ := exists_inlinedSolutions peq hrank
    refine ⟨s, sol, heq, hsol, fun ρ => ?_⟩
    rw [← solutions_congr s₀ (fun _ => List.mem_reverse)]
    exact ⟨hrun.withSolutions_mem hsol ρ,
      fun ρ' hρ' v => hrun.withSolutions_extremal (solvable_lfp (V := V)).refl hsol hρ' v⟩
  order_independent E' hperm s s' sol sol' heq heq' hsol hsol' v hv :=
    inlinedSolutions_unique solvable_lfp (solveLfp_solves peq) hs₀ hE (fun _ _ => le_antisymm)
      hperm heq heq' hsol hsol' hv

theorem gfpSolved (peq : PhysEq V L) (hs₀ : Good s₀)
    (hpending : s₀.gfpPending = []) (hE : Equations s₀ E) :
    GfpSolved peq s₀ E where
  greatest := by
    obtain ⟨s, heq, hrun⟩ := exists_run solvable_gfp (solveGfp_solves peq) hs₀
      (hE.perm (List.reverse_perm E))
    obtain ⟨rank, hrank⟩ := hrun.ranked
    obtain ⟨sol, hsol⟩ := exists_inlinedSolutions peq hrank
    rw [List.reverse_reverse] at hrun
    exact ⟨s, sol, (solvePending_enqueue peq hpending E).trans heq, hsol,
      fun ρ => ⟨hrun.withSolutions_mem hsol ρ,
        fun ρ' hρ' v => hrun.withSolutions_extremal (solvable_gfp (V := V)).refl hsol hρ' v⟩⟩
  order_independent E' hperm s s' sol sol' heq heq' hsol hsol' v hv := by
    rw [solvePending_enqueue peq hpending] at heq heq'
    exact inlinedSolutions_unique solvable_gfp (solveGfp_solves peq) hs₀
      (hE.perm (List.reverse_perm E)) (fun _ _ h h' => le_antisymm h' h)
      ((List.reverse_perm E').trans (hperm.trans (List.reverse_perm E).symm)) heq heq' hsol hsol' hv

/-! ## §5 Kinds over the axis lattice -/

section Kinds

open AxisLattice (T Axis LeOn)

/-- Well-formed nodes are canonical, and stay well formed. -/
structure CanonicalForms (peq : PhysEq V T) : Prop where
  join : ∀ a b : Node V T, a.WF peq → b.WF peq → (join peq a b).WF peq
  meet : ∀ a b : Node V T, a.WF peq → b.WF peq → (meet peq a b).WF peq
  canonicalize : ∀ hi lo : Node V T, hi.WF peq → lo.WF peq → (canonicalize peq hi lo).WF peq
  node : ∀ v (lo hi : Node V T), (lo.All fun w => compareVar v w = .lt) →
    (hi.All fun w => compareVar v w = .lt) → lo.WF peq → hi.WF peq → (node peq v lo hi).WF peq
  assignBot : ∀ v (n : Node V T), n.WF peq → (assignBot peq v n).WF peq
  assignTop : ∀ v (n : Node V T), n.WF peq → (assignTop peq v n).WF peq
  inlineSolvedVars : ∀ s, Reachable peq s → ∀ n : Node V T, n.WF peq →
    ∃ n' s', inlineSolvedVars peq n s = some (n', s') ∧ n'.WF peq
  mapRigid : ∀ s, Reachable peq s → ∀ f : V → Node V T, (∀ name, (f name).WF peq) →
    ∀ n : Node V T, n.WF peq → ∃ n' s', mapRigid peq f n s = returned (n', s') ∧ n'.WF peq
  unique : ∀ a b : Node V T, a.WF peq → b.WF peq → (∀ ρ, den a ρ = den b ρ) → a = b

theorem ldd_canonical_forms (peq : PhysEq V T) : CanonicalForms peq where
  join a b ha hb := by
    rw [wf_iff_canonical] at *
    exact (join_denotes peq ha hb).canonical
  meet a b ha hb := by
    rw [wf_iff_canonical] at *
    exact (meet_denotes peq ha hb).canonical
  canonicalize hi lo hhi hlo := by
    rw [wf_iff_canonical] at *
    exact (canonicalize_spec peq hhi hlo).canonical
  node v lo hi hlov hhiv hlo hhi := by
    rw [wf_iff_canonical] at *
    exact (built_node peq hlo hhi (hlov.mono fun _ => compareVar_lt_iff.1)
      (hhiv.mono fun _ => compareVar_lt_iff.1)).canonical
  assignBot v n hn := by
    rw [wf_iff_canonical] at *
    exact (assignBot_denotes peq v hn).canonical
  assignTop v n hn := by
    rw [wf_iff_canonical] at *
    exact (assignTop_denotes peq v hn).canonical
  inlineSolvedVars s hs n hn := by
    obtain ⟨rank, hrank⟩ := hs.good.ranked
    obtain ⟨n', s', heq, hspec⟩ :=
      inlineSolvedVars_returns peq hrank ((wf_iff_canonical peq).1 hn)
    exact ⟨n', s', heq, (wf_iff_canonical peq).2 hspec.canonical⟩
  mapRigid s hs f hf n hn := by
    obtain ⟨rank, hrank⟩ := hs.good.ranked
    obtain ⟨_, _, n', s', -, heq, hspec⟩ := mapRigid_returns peq
      (fun name => (wf_iff_canonical peq).1 (hf name)) hrank ((wf_iff_canonical peq).1 hn)
    exact ⟨n', s', heq, (wf_iff_canonical peq).2 hspec.canonical⟩
  unique a b ha hb h :=
    eq_of_den_eq ((wf_iff_canonical peq).1 ha) ((wf_iff_canonical peq).1 hb) (funext h)

theorem axis_getElem?_idxOf (axis : Axis) : Axis.all[Axis.all.idxOf axis]? = some axis := by
  cases axis <;> rfl

theorem axis_idxOf_eq {axis : Axis} {i : Nat} (h : Axis.all[i]? = some axis) :
    Axis.all.idxOf axis = i := by
  obtain ⟨hi, rfl⟩ := List.getElem?_eq_some_iff.1 h
  exact List.Nodup.idxOf_getElem (by decide) i hi

/-- Subsumption is decided exactly: the list is empty when `a` lies below `b`
everywhere, and otherwise holds the axes on which it does not somewhere. -/
theorem leqWithReason_exact (peq : PhysEq V T) {s s₁ : State V T} (hs : Reachable peq s)
    (hpending : solvePending peq s = some (.ok s₁)) {a b : Node V T} (ha : a.WF peq)
    (hb : b.WF peq) :
    ∃ a' sa b' sb axes s', inlineSolvedVars peq a s₁ = some (a', sa) ∧
      inlineSolvedVars peq b s₁ = some (b', sb) ∧
      leqWithReason peq a b s = some (.ok (axes, s')) ∧
      (axes = [] ↔ ∀ ρ, den a' ρ ≤ den b' ρ) ∧
      ∀ axis, axis ∈ axes ↔ ∃ ρ, ¬ LeOn (Axis.all.idxOf axis) (den a' ρ) (den b' ρ) := by
  obtain ⟨rank, hrank⟩ := (hs.solvePending hpending).good.ranked
  obtain ⟨a', sa, b', sb, diff, s', hea, heb, hsub, hca, hcb, hdiff⟩ := subSubsets_returns peq hrank
    ((wf_iff_canonical peq).1 ha) ((wf_iff_canonical peq).1 hb)
  obtain ⟨axes, haxes, hmem⟩ := axesOf_eq (AxisLattice.nonBotAxes (up0 diff))
    fun _ => AxisLattice.lt_of_mem_nonBotAxes
  have hmem' : ∀ axis, axis ∈ axes ↔ ∃ ρ, ¬ LeOn (Axis.all.idxOf axis) (den a' ρ) (den b' ρ) := by
    intro axis
    have hlt : Axis.all.idxOf axis < AxisLattice.numAxes := by cases axis <;> decide
    rw [← mem_nonBotAxes_up0 hdiff ⟨_, hlt⟩, hmem]
    constructor
    · rintro ⟨i, hi, heq⟩
      obtain rfl := axis_idxOf_eq heq
      exact hi
    · exact fun h => ⟨_, h, axis_getElem?_idxOf axis⟩
  refine ⟨a', sa, b', sb, axes, s', hea, heb, ?_, ?_, hmem'⟩
  · simp [leqWithReason, hpending, hsub, haxes]
  rw [List.eq_nil_iff_forall_not_mem]
  simp only [hmem', not_exists, not_not]
  constructor
  · intro h ρ
    refine AxisLattice.le_iff_leOn.2 fun i hi => ?_
    have hi' : i < Axis.all.length := hi
    have hget := List.getElem?_eq_getElem hi'
    exact axis_idxOf_eq hget ▸ h _ ρ
  · intro h axis ρ; exact AxisLattice.le_iff_leOn.1 (h ρ) _ (by cases axis <;> decide)

/-- Rigid names that are numbers. -/
instance : Ordered Nat where
  stableHash := id

/-- A rigid variable against bottom, in the fresh state. -/
theorem leqWithReason_exact_rigid : ∃ a' sa b' sb axes s',
      inlineSolvedVars .never (nodeOfVar (.rigid 0) : Node Nat T) .fresh = some (a', sa) ∧
      inlineSolvedVars .never (bot : Node Nat T) .fresh = some (b', sb) ∧
      leqWithReason .never (nodeOfVar (.rigid 0) : Node Nat T) bot .fresh = some (.ok (axes, s')) ∧
      (axes = [] ↔ ∀ ρ, den a' ρ ≤ den b' ρ) ∧
      ∀ axis, axis ∈ axes ↔ ∃ ρ, ¬ LeOn (Axis.all.idxOf axis) (den a' ρ) (den b' ρ) :=
  leqWithReason_exact .never .fresh (rfl : solvePending .never .fresh = some (.ok .fresh))
    ((wf_iff_canonical _).2 (nodeOfVar_denotes (.rigid 0)).canonical) trivial

/-- The equations that one pass solves: for distinct unsolved variables. -/
structure EquationsWF (peq : PhysEq V T) (s : State V T) (E : List (Var V × Node V T)) : Prop where
  wf : ∀ e ∈ E, e.2.WF peq
  unsolved : ∀ e ∈ E, s.varState e.1 = .unsolved
  distinct : (E.map fst).Nodup

theorem EquationsWF.equations {peq : PhysEq V T} {s : State V T} {E : List (Var V × Node V T)}
    (h : EquationsWF peq s E) : Equations s E :=
  ⟨fun e he => (wf_iff_canonical peq).1 (h.wf e he), h.unsolved, h.distinct⟩

/-- Solving by elimination gives the least, respectively the greatest,
simultaneous solution, in any order. -/
theorem fixpoints_by_elimination (peq : PhysEq V T) :
    (∀ s₀ E, Reachable peq s₀ → EquationsWF peq s₀ E → LfpSolved peq s₀ E) ∧
      ∀ s₀ E, Reachable peq s₀ → s₀.gfpPending = [] → EquationsWF peq s₀ E → GfpSolved peq s₀ E :=
  ⟨fun _ _ hs hE => lfpSolved peq hs.good hE.equations,
    fun _ _ hs hpending hE => gfpSolved peq hs.good hpending hE.equations⟩

end Kinds

end Oxcaml.Typing.Ldd
