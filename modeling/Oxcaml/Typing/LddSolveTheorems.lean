/-
Oxcaml.Typing.LddSolveTheorems — inlining and solving.

An assignment respects a state (`Sat`) when every solved variable has the
value of its solution. In a ranked state the solution of a variable only
mentions solved variables of smaller rank, so inlining ends (§2) and the
assignments that respect the state are determined by the unsolved variables
(§3). Inlining replaces stored solutions by equal ones, which keeps the
ranks (`Forced`). Solving a variable gives it the smallest rank: the new
solution mentions no solved variable, while older ones may mention the new
variable.

§4 shows that each solving function makes one elimination step, and §5 runs
them over a list of equations.
-/
import Oxcaml.Lib.Elimination
import Oxcaml.Typing.LddTheorems

set_option linter.all false

namespace Oxcaml.Typing.Ldd

open Option (bind_eq_bind bind_some)
open Function (update update_eq_self)

open Oxcaml.Lib

variable {V L : Type} [Ordered V] [CoheytingAlgebra L] [DecidableEq L] [DecidableLE L]

/-! ## §1 States -/

def State.IsSolved (s : State V L) (v : Var V) : Prop := ∃ d, s.varState v = .solved d

/-- Solved variables have the values of their solutions. -/
def Sat (s : State V L) (ρ : Var V → L) : Prop := ∀ v d, s.varState v = .solved d → ρ v = den d ρ

/-- Solutions are canonical, and mention solved variables of smaller rank. -/
structure Ranked (s : State V L) (rank : Var V → Nat) : Prop where
  canonical : ∀ v d, s.varState v = .solved d → d.Canonical
  descends : ∀ v d, s.varState v = .solved d → d.All fun w => s.IsSolved w → rank w < rank v

/-- `s'` is `s` with some solutions replaced by equal ones. -/
structure Forced (rank : Var V → Nat) (s s' : State V L) : Prop where
  ranked : Ranked s' rank
  solved_iff : ∀ v, s'.IsSolved v ↔ s.IsSolved v
  sat : ∀ ρ, Sat s ρ → Sat s' ρ
  pending : s'.gfpPending = s.gfpPending

theorem Forced.refl {rank : Var V → Nat} {s : State V L} (h : Ranked s rank) : Forced rank s s :=
  ⟨h, fun _ => Iff.rfl, fun _ h => h, rfl⟩

variable {rank : Var V → Nat} {s s' s₀ : State V L}

theorem Forced.trans {s'' : State V L} (h : Forced rank s s')
    (h' : Forced rank s' s'') : Forced rank s s'' :=
  ⟨h'.ranked, fun v => (h'.solved_iff v).trans (h.solved_iff v), fun ρ hρ => h'.sat ρ (h.sat ρ hρ),
    h'.pending.trans h.pending⟩

variable {v : Var V}

theorem varState_setSolved_self (s : State V L) (hv : ∀ name, v ≠ .rigid name)
    (d : Node V L) : (s.setSolved v d).varState v = .solved d := by
  cases v with
  | nonRigid id h => simp [State.varState, State.setSolved]
  | rigid name => exact absurd rfl (hv name)

theorem varState_setSolved_of_ne (s : State V L) {v w : Var V} (h : w ≠ v) (d : Node V L) :
    (s.setSolved v d).varState w = s.varState w := by
  cases w with
  | nonRigid id hid => simp [State.varState, State.setSolved, Function.update_of_ne h]
  | rigid name => rfl

variable {s : State V L}

theorem ne_rigid_of_isSolved (h : s.IsSolved v) (name : V) : v ≠ .rigid name := by
  rintro rfl
  obtain ⟨d, hd⟩ := h
  cases hd

theorem ne_rigid_of_unsolved (h : s.varState v = .unsolved) (name : V) : v ≠ .rigid name := by
  rintro rfl
  cases h

variable {name : V}

/-- Below a rigid variable there are rigid variables only. -/
theorem not_isSolved_of_rigid_lt (s : State V L) {w : Var V} (h : .rigid name < w) :
    ¬ s.IsSolved w := by
  cases w with
  | rigid n => rintro ⟨d, hd⟩; cases hd
  | nonRigid id hid =>
    have hlt : (Var.nonRigid id hid : Var V) < .rigid name :=
      Var.lt_of_id_lt (hid.trans (rigidVarStart_lt_rigidId name))
    exact absurd h hlt.not_gt

theorem eq_rigid_of_varState (h : s.varState v = .rigid name) : v = .rigid name := by
  cases v with
  | rigid n => cases h; rfl
  | nonRigid id hid => simp only [State.varState] at h; split at h <;> cases h

theorem unsolved_of_not_isSolved (hv : ∀ name, v ≠ .rigid name)
    (h : ¬ s.IsSolved v) : s.varState v = .unsolved := by
  cases hs : s.varState v with
  | unsolved => rfl
  | solved d => exact absurd ⟨d, hs⟩ h
  | rigid name => exact absurd (eq_rigid_of_varState hs) (hv name)

theorem not_isSolved_of_unsolved (h : s.varState v = .unsolved) : ¬ s.IsSolved v := by
  rintro ⟨d, hd⟩
  rw [h] at hd
  cases hd

theorem Forced.unsolved (h : Forced rank s s')
    (hv : s.varState v = .unsolved) : s'.varState v = .unsolved :=
  unsolved_of_not_isSolved (ne_rigid_of_unsolved hv) fun hs =>
    not_isSolved_of_unsolved hv ((h.solved_iff v).1 hs)

/-- The nodes under a rigid variable are free of the others. -/
theorem free_of_rigid {lo hi : Node V L} {d u : L}
    (h : (Node.block (.rigid name) lo hi d u).Canonical) :
    (Node.block (.rigid name) lo hi d u).All fun w => ¬ s.IsSolved w ∧
      s.varState w ≠ .unsolved := by
  have habove : ∀ w, .rigid name < w → ¬ s.IsSolved w ∧ s.varState w ≠ .unsolved := by
    intro w hw
    refine ⟨not_isSolved_of_rigid_lt s hw, fun hu => ?_⟩
    cases w with
    | rigid n => cases hu
    | nonRigid id hid =>
      have hlt : (Var.nonRigid id hid : Var V) < .rigid name :=
        Var.lt_of_id_lt (hid.trans (rigidVarStart_lt_rigidId name))
      exact absurd hw hlt.not_gt
  refine ⟨⟨fun ⟨d, hd⟩ => (by cases hd), fun hu => (by cases hu)⟩, h.1.lo_above.mono habove,
    h.1.hi_above.mono habove⟩

/-- A solution is replaced by an equal one without solved variables. -/
theorem Forced.setSolved {d d' : Node V L}
    (h : Forced rank s s') (hv : s.varState v = .solved d) (hd : d'.Canonical)
    (hfree : d'.All (¬ s.IsSolved ·)) (heq : ∀ ρ, Sat s ρ → den d' ρ = den d ρ) :
    Forced rank s (s'.setSolved v d') := by
  have hself := varState_setSolved_self s' (ne_rigid_of_isSolved ⟨d, hv⟩) d'
  have hsolved : ∀ w, (s'.setSolved v d').IsSolved w ↔ s.IsSolved w := by
    intro w
    by_cases hw : w = v
    · subst hw; exact ⟨fun _ => ⟨d, hv⟩, fun _ => ⟨d', hself⟩⟩
    · simp only [State.IsSolved, varState_setSolved_of_ne s' hw]; exact h.solved_iff w
  refine ⟨⟨fun w e hw => ?_, fun w e hw => ?_⟩, hsolved, fun ρ hρ w e hw => ?_, h.pending⟩
  · by_cases hwv : w = v
    · subst hwv
      rw [hself] at hw
      cases hw
      exact hd
    · rw [varState_setSolved_of_ne s' hwv] at hw; exact h.ranked.canonical w e hw
  · by_cases hwv : w = v
    · subst hwv
      rw [hself] at hw
      cases hw
      exact hfree.mono fun x hx hx' => absurd ((hsolved x).1 hx') hx
    rw [varState_setSolved_of_ne s' hwv] at hw
    exact (h.ranked.descends w e hw).mono fun x hx hx' =>
      hx ((h.solved_iff x).2 ((hsolved x).1 hx'))
  by_cases hwv : w = v
  · subst hwv
    rw [hself] at hw
    cases hw
    rw [heq ρ hρ]
    exact hρ w d hv
  · rw [varState_setSolved_of_ne s' hwv] at hw; exact h.sat ρ hρ w e hw

/-! ## §2 Inlining -/

section Inlining

variable (peq : PhysEq V L)

/-- What inlining `n` in `s` has to return. -/
structure InlineSpec (rank : Var V → Nat) (s : State V L) (n n' : Node V L) (s' : State V L) :
    Prop where
  forced : Forced rank s s'
  canonical : n'.Canonical
  free : n'.All (¬ s.IsSolved ·)
  den_eq : ∀ ρ, Sat s ρ → den n' ρ = den n ρ

/-- A block whose variable has the value of `sol'`. -/
theorem denotes_inlined {lo' hi' sol' : Node V L} (hlo : lo'.Canonical) (hhi : hi'.Canonical)
    (hsol : sol'.Canonical) :
    Denotes (join peq lo' (meet peq hi' sol')) fun ρ => den lo' ρ ⊔ (den sol' ρ ⊓ den hi' ρ) := by
  have hmeet := meet_denotes peq hhi hsol
  refine (join_denotes peq hlo hmeet.canonical).congr fun ρ => ?_
  rw [Pi.sup_apply, hmeet.den_eq, Pi.inf_apply, inf_comm]

theorem inlineSolvedVars_spec (r : Nat) :
    ∀ (n : Node V L) (s : State V L), Ranked s rank → n.Canonical →
      (n.All fun w => s.IsSolved w → rank w < r) →
      ∃ n' s', inlineSolvedVars peq n s = some (n', s') ∧ InlineSpec rank s n n' s' := by
  induction r using Nat.strongRecOn with
  | ind r ihr =>
  intro n
  induction n with
  | leaf c =>
    intro s hs _ _
    refine ⟨.leaf c, s, ?_, ⟨Forced.refl hs, trivial, trivial, fun _ _ => rfl⟩⟩
    rw [inlineSolvedVars]
  | block v lo hi d u ihlo ihhi =>
    intro s hs hn hrank
    rw [inlineSolvedVars]
    cases hv : s.varState v with
    | rigid name =>
      obtain rfl := eq_rigid_of_varState hv
      exact ⟨_, _, rfl, ⟨Forced.refl hs, hn, (free_of_rigid hn).mono fun _ hw => hw.1,
        fun _ _ => rfl⟩⟩
    | solved sol =>
      obtain ⟨lo', s1, hlo, hslo⟩ := ihlo s hs hn.2.1 hrank.2.1
      obtain ⟨hi', s2, hhi, hshi⟩ := ihhi s1 hslo.forced.ranked hn.2.2
        (hrank.2.2.mono fun w hw hw' => hw ((hslo.forced.solved_iff w).1 hw'))
      have h2 := hslo.forced.trans hshi.forced
      obtain ⟨sol', s3, hsol, hssol⟩ := ihr (rank v) (hrank.1 ⟨sol, hv⟩) sol s2 h2.ranked
        (hs.canonical v sol hv)
        ((hs.descends v sol hv).mono fun w hw hw' => hw ((h2.solved_iff w).1 hw'))
      simp only [hlo, hhi, hsol, bind_eq_bind, bind_some]
      refine ⟨_, _, rfl, ?_⟩
      have hfreehi : hi'.All (¬ s.IsSolved ·) :=
        hshi.free.mono fun w hw hw' => hw ((hslo.forced.solved_iff w).2 hw')
      have hfreesol : sol'.All (¬ s.IsSolved ·) :=
        hssol.free.mono fun w hw hw' => hw ((h2.solved_iff w).2 hw')
      have hden := denotes_inlined peq hslo.canonical hshi.canonical hssol.canonical
      refine ⟨(h2.trans hssol.forced).setSolved hv hssol.canonical hfreesol
        fun ρ hρ => hssol.den_eq ρ (h2.sat ρ hρ), hden.canonical,
        join_all peq hslo.free (meet_all peq hfreehi hfreesol), fun ρ hρ => ?_⟩
      have hρv : ρ v = den sol ρ := hρ v sol hv
      refine (congrFun hden.den_eq ρ).trans ?_
      rw [hslo.den_eq ρ hρ, hshi.den_eq ρ (hslo.forced.sat ρ hρ),
        hssol.den_eq ρ (h2.sat ρ hρ), ← hρv]
      rfl
    | unsolved =>
      obtain ⟨lo', s1, hlo, hslo⟩ := ihlo s hs hn.2.1 hrank.2.1
      obtain ⟨hi', s2, hhi, hshi⟩ := ihhi s1 hslo.forced.ranked hn.2.2
        (hrank.2.2.mono fun w hw hw' => hw ((hslo.forced.solved_iff w).1 hw'))
      have h2 := hslo.forced.trans hshi.forced
      have hfreehi : hi'.All (¬ s.IsSolved ·) :=
        hshi.free.mono fun w hw hw' => hw ((hslo.forced.solved_iff w).2 hw')
      have hfreev := not_isSolved_of_unsolved hv
      simp only [hlo, hhi, bind_eq_bind, bind_some]
      split
      case isTrue heq =>
        rw [Bool.and_eq_true] at heq
        have hloeq := peq.eq_sound heq.1
        have hhieq := peq.eq_sound heq.2
        exact ⟨_, _, rfl, ⟨h2, hn, ⟨hfreev, hloeq ▸ hslo.free, hhieq ▸ hfreehi⟩, fun _ _ => rfl⟩⟩
      case isFalse =>
        have hvar := nodeOfVar_denotes (L := L) v
        have hden := denotes_inlined peq hslo.canonical hshi.canonical hvar.canonical
        refine ⟨_, _, rfl, ⟨h2, hden.canonical,
          join_all peq hslo.free (meet_all peq hfreehi (nodeOfVar_all hfreev)), fun ρ hρ => ?_⟩⟩
        refine (congrFun hden.den_eq ρ).trans ?_
        rw [hslo.den_eq ρ hρ, hshi.den_eq ρ (hslo.forced.sat ρ hρ), hvar.den_eq]
        rfl

theorem exists_rank_bound (rank : Var V → Nat) (n : Node V L) : ∃ r, n.All fun w => rank w < r := by
  induction n with
  | leaf c => exact ⟨0, trivial⟩
  | block v lo hi d u ihlo ihhi =>
    obtain ⟨r0, h0⟩ := ihlo
    obtain ⟨r1, h1⟩ := ihhi
    refine ⟨rank v + 1 + r0 + r1, by omega, h0.mono fun w hw => ?_, h1.mono fun w hw => ?_⟩
    · omega
    · omega

/-- Inlining ends in every ranked state. -/
theorem inlineSolvedVars_returns (hs : Ranked s rank) {n : Node V L} (hn : n.Canonical) :
    ∃ n' s', inlineSolvedVars peq n s = some (n', s') ∧ InlineSpec rank s n n' s' := by
  obtain ⟨r, hr⟩ := exists_rank_bound rank n
  have hle : ∀ w, rank w < r → s.IsSolved w → rank w < r := fun _ hw _ => hw
  exact inlineSolvedVars_spec peq r n s hs hn (hr.mono hle)

end Inlining

/-! ## §3 Assignments that respect a state -/

section Extension

variable {rank : Var V → Nat} {s : State V L} (hs : Ranked s rank)
include hs

theorem Sat.unique {ρ ρ' : Var V → L} (hρ : Sat s ρ) (hρ' : Sat s ρ')
    (h : ∀ w, ¬ s.IsSolved w → ρ w = ρ' w) : ρ = ρ' := by
  suffices hrank : ∀ r v, rank v = r → ρ v = ρ' v from funext fun v => hrank _ v rfl
  intro r
  induction r using Nat.strongRecOn with
  | ind r ih =>
  intro v hv
  by_cases hsolved : s.IsSolved v
  · obtain ⟨d, hd⟩ := hsolved
    rw [hρ v d hd, hρ' v d hd]
    refine den_congr ((hs.descends v d hd).mono fun w hw => ?_)
    by_cases hw' : s.IsSolved w
    · exact ih (rank w) (hv ▸ hw hw') w rfl
    · exact h w hw'
  · exact h v hsolved

omit hs in
/-- The values of variables, following solutions to the depth `n`. -/
def follow (s : State V L) (ρ : Var V → L) : Nat → Var V → L
  | 0, v => ρ v
  | n + 1, v =>
    match s.varState v with
    | .solved d => den d (follow s ρ n)
    | _ => ρ v

attribute [local grind =] follow

omit hs in
theorem follow_of_not_isSolved {ρ : Var V → L} (h : ¬ s.IsSolved v) (n : Nat) :
    follow s ρ n v = ρ v := by
  cases n with
  | zero => rfl
  | succ n =>
    rw [follow]
    split
    · exact absurd ⟨_, ‹_›⟩ h
    · rfl

theorem follow_stable (ρ : Var V → L) : ∀ (n m : Nat) (v : Var V), rank v < n → rank v < m →
    follow s ρ n v = follow s ρ m v := by
  intro n
  induction n with
  | zero => exact fun m v hn => absurd hn (Nat.not_lt_zero _)
  | succ n ih =>
    intro m v hn hm
    cases m with
    | zero => exact absurd hm (Nat.not_lt_zero _)
    | succ m =>
      simp only [follow]
      split
      case h_1 d hd =>
        refine den_congr ((hs.descends v d hd).mono fun w hw => ?_)
        by_cases hw' : s.IsSolved w
        · have := hw hw'; exact ih m w (by omega) (by omega)
        · rw [follow_of_not_isSolved hw', follow_of_not_isSolved hw']
      case h_2 => rfl

theorem exists_sat (ρ : Var V → L) : ∃ ρ', Sat s ρ' ∧ ∀ w, ¬ s.IsSolved w → ρ' w = ρ w := by
  refine ⟨fun v => follow s ρ (rank v + 1) v, fun v d hd => ?_,
    fun w hw => follow_of_not_isSolved hw _⟩
  simp only [follow, hd]
  refine den_congr ((hs.descends v d hd).mono fun w hw => ?_)
  by_cases hw' : s.IsSolved w
  · exact follow_stable hs ρ _ _ w (hw hw') (Nat.lt_succ_self _)
  · exact (follow_of_not_isSolved hw' _).trans (follow_of_not_isSolved hw' (rank w + 1)).symm

/-- Forcing solutions keeps the assignments that respect the state. -/
theorem Forced.sat_iff (h : Forced rank s s') (ρ : Var V → L) : Sat s' ρ ↔ Sat s ρ := by
  refine ⟨fun hρ => ?_, h.sat ρ⟩
  obtain ⟨ρ', hρ', hagree⟩ := exists_sat hs ρ
  have heq : ρ' = ρ := Sat.unique h.ranked (h.sat ρ' hρ') hρ fun w hw =>
    hagree w fun hw' => hw ((h.solved_iff w).2 hw')
  exact heq ▸ hρ'

end Extension

/-! ## §4 One equation -/

/-- What makes solving from `b` work in the order `R`: polynomials are
monotone, and their value at `v := b` is a fixpoint in `v`. -/
structure Solvable (R : L → L → Prop) (b : L) : Prop extends Direction R b where
  mono : ∀ (n : Node V L) {ρ ρ' : Var V → L}, (n.All fun v => R (ρ v) (ρ' v)) →
    R (den n ρ) (den n ρ')
  fixpoint : ∀ (n : Node V L) (ρ : Var V → L) (v : Var V),
    den n (update ρ v (den n (update ρ v b))) = den n (update ρ v b)

theorem den_le_den (n : Node V L) {ρ ρ' : Var V → L} (h : n.All fun v => ρ v ≤ ρ' v) :
    den n ρ ≤ den n ρ' := by
  induction n with
  | leaf c => exact le_rfl
  | block v lo hi d u ihlo ihhi => exact sup_le_sup (ihlo h.2.1) (inf_le_inf h.1 (ihhi h.2.2))

theorem solvable_lfp : Solvable (V := V) (L := L) (· ≤ ·) ⊥ where
  refl := fun _ => le_rfl
  trans := le_trans
  bottom := fun _ => bot_le
  mono := den_le_den
  fixpoint := by
    intro n ρ v
    rw [(den_isPoly n).expand ρ v, sup_inf_self]

theorem solvable_gfp : Solvable (V := V) (L := L) (· ≥ ·) ⊤ where
  refl := fun _ => le_rfl
  trans := ge_trans
  bottom := fun _ => le_top
  mono := fun n _ _ h => den_le_den n h
  fixpoint := by
    intro n ρ v
    rw [(den_isPoly n).expand ρ v, inf_idem]
    exact sup_eq_right.2 ((den_isPoly n).restrict_le v ρ)

/-- Physical equality that never holds of two blocks. -/
def PhysEq.never : PhysEq V L := ⟨fun _ _ => false, fun _ _ h => by cases h⟩

variable {R : L → L → Prop}

theorem monoGraph_sat {b : L} (hdir : Solvable (V := V) R b) (hs : Ranked s rank) :
    MonoGraph R {v | s.IsSolved v} {ρ | Sat s ρ} where
  exists_ext := exists_sat hs
  mono := by
    intro ρ hρ ρ' hρ' h w
    by_cases hw : s.IsSolved w
    · obtain ⟨d, hd⟩ := hw
      obtain ⟨n, s', -, hn⟩ := inlineSolvedVars_returns .never hs (hs.canonical w d hd)
      rw [hρ w d hd, hρ' w d hd, ← hn.den_eq ρ hρ, ← hn.den_eq ρ' hρ']
      exact hdir.mono n (hn.free.mono fun v hv => h v hv)
    · exact h w hw

/-- The state after solving `x = rhs` from `x := b`: `d` is the new solution,
and the others have been forced. -/
structure Solves (b : L) (rank : Var V → Nat) (s : State V L) (x : Var V) (rhs : Node V L)
    (s' : State V L) : Prop where
  exists_solution : ∃ d s₁, s' = s₁.setSolved x d ∧ Forced rank s s₁ ∧ d.Canonical ∧
    (d.All fun w => ¬ s.IsSolved w ∧ w ≠ x) ∧ ∀ ρ, Sat s ρ → ρ x = b → den d ρ = den rhs ρ

section Step

variable {b : L} {rank : Var V → Nat} {s s' : State V L} {x : Var V} {rhs : Node V L}

variable (hx : s.varState x = .unsolved) (h : Solves b rank s x rhs s')
include hx h

theorem Solves.isSolved_iff (w : Var V) : s'.IsSolved w ↔ w = x ∨ s.IsSolved w := by
  obtain ⟨d, s₁, rfl, hforced, -⟩ := h.exists_solution
  by_cases hw : w = x
  · subst hw
    simp only [true_or, iff_true]
    exact ⟨d, varState_setSolved_self s₁ (ne_rigid_of_unsolved hx) d⟩
  simp only [hw, false_or]
  rw [← hforced.solved_iff w, State.IsSolved, varState_setSolved_of_ne s₁ hw]
  rfl

/-- The new variable gets the smallest rank. -/
theorem Solves.ranked : Ranked s' fun w => if w = x then 0 else rank w + 1 := by
  have hsolved := h.isSolved_iff hx
  obtain ⟨d, s₁, rfl, hforced, hd, hfree, -⟩ := h.exists_solution
  have hself := varState_setSolved_self s₁ (ne_rigid_of_unsolved hx) d
  refine ⟨fun v e hv => ?_, fun v e hv => ?_⟩
  · by_cases hvx : v = x
    · subst hvx
      rw [hself] at hv
      cases hv
      exact hd
    · rw [varState_setSolved_of_ne s₁ hvx] at hv; exact hforced.ranked.canonical v e hv
  by_cases hvx : v = x
  · subst hvx
    rw [hself] at hv
    cases hv
    refine hfree.mono fun w hw hw' => ?_
    rcases (hsolved w).1 hw' with rfl | hw'
    · exact absurd rfl hw.2
    · exact absurd hw' hw.1
  rw [varState_setSolved_of_ne s₁ hvx] at hv
  refine (hforced.ranked.descends v e hv).mono fun w hw hw' => ?_
  split
  case isTrue => omega
  case isFalse hwx =>
    rcases (hsolved w).1 hw' with rfl | hw'
    · exact absurd rfl hwx
    · have := hw ((hforced.solved_iff w).2 hw'); omega

theorem Solves.sat (hs : Ranked s rank) {ρ : Var V → L} (hρ : Sat s' ρ) : Sat s ρ := by
  obtain ⟨d, s₁, rfl, hforced, -⟩ := h.exists_solution
  rw [← hforced.sat_iff hs]
  intro v e hv
  have hvx : v ≠ x := by
    rintro rfl
    exact not_isSolved_of_unsolved hx ((hforced.solved_iff v).1 ⟨e, hv⟩)
  exact hρ v e (by rwa [varState_setSolved_of_ne s₁ hvx])

/-- The new solution is the value of the right-hand side at `x := b`. -/
theorem Solves.low {ρ ρb : Var V → L} (hρ : Sat s' ρ) (hρb : Sat s ρb)
    (hb : ρb x = b) (hagree : ∀ w, ¬ s.IsSolved w → w ≠ x → ρb w = ρ w) : ρ x = den rhs ρb := by
  obtain ⟨d, s₁, rfl, -, -, hfree, hden⟩ := h.exists_solution
  rw [hρ x d (varState_setSolved_self s₁ (ne_rigid_of_unsolved hx) d), ← hden ρb hρb hb]
  exact den_congr (hfree.mono fun w hw => (hagree w hw.1 hw.2).symm)

/-- The new solution is a fixpoint. -/
theorem Solves.fix (hdir : Solvable (V := V) R b)
    (hs : Ranked s rank) (hrhs : rhs.Canonical) {ρ : Var V → L} (hρ : Sat s' ρ) :
    ρ x = den rhs ρ := by
  obtain ⟨n, s₁, -, hn⟩ := inlineSolvedVars_returns .never hs hrhs
  obtain ⟨ρb, hρb, hagree⟩ := exists_sat hs (update ρ x b)
  have hxs := not_isSolved_of_unsolved hx
  have hval : ρ x = den n (update ρ x b) := by
    rw [h.low hx hρ hρb ((hagree x hxs).trans (Function.update_self x b ρ))
      fun w hw hwx => (hagree w hw).trans (Function.update_of_ne hwx b ρ), ← hn.den_eq ρb hρb]
    exact den_congr (hn.free.mono fun w hw => hagree w hw)
  have hfix := hdir.fixpoint n ρ x
  rw [← hval, update_eq_self] at hfix
  rw [← hn.den_eq ρ (h.sat hx hs hρ)]
  exact hfix.symm

end Step

section SolveFunctions

variable (peq : PhysEq V L) {rank : Var V → Nat} {x : Var V}

/-- What assigning `x` to bottom in the inlined `n` has to return. -/
structure AssignBotSpec (rank : Var V → Nat) (s : State V L) (x : Var V) (n n' : Node V L)
    (s' : State V L) : Prop where
  forced : Forced rank s s'
  canonical : n'.Canonical
  free : n'.All fun w => ¬ s.IsSolved w ∧ w ≠ x
  den_eq : ∀ ρ, Sat s ρ → ρ x = ⊥ → den n' ρ = den n ρ

theorem free_congr (h : Forced rank s s') {n : Node V L}
    (hn : n.All fun w => ¬ s'.IsSolved w ∧ w ≠ x) : n.All fun w => ¬ s.IsSolved w ∧ w ≠ x :=
  hn.mono fun w hw => ⟨fun hs => hw.1 ((h.solved_iff w).2 hs), hw.2⟩

theorem not_rigid_id (hx : s.varState x = .unsolved) : ¬ x.id > rigidVarStart := by
  cases x with
  | nonRigid id h => simp only [Var.id]; omega
  | rigid name => cases hx

theorem assignBotInline_spec (n : Node V L) : ∀ (s : State V L), Ranked s rank → n.Canonical →
    s.varState x = .unsolved →
    ∃ n' s', assignBotInline peq x n s = some (n', s') ∧ AssignBotSpec rank s x n n' s' := by
  induction n with
  | leaf c =>
    intro s hs _ hx
    refine ⟨.leaf c, s, ?_, ⟨Forced.refl hs, trivial, trivial, fun _ _ _ => rfl⟩⟩
    rw [assignBotInline.eq_def, if_neg (not_rigid_id hx)]
  | block v lo hi d u ihlo ihhi =>
    intro s hs hn hx
    rw [assignBotInline.eq_def, if_neg (not_rigid_id hx)]
    dsimp only
    cases hv : s.varState v with
    | rigid name =>
      obtain rfl := eq_rigid_of_varState hv
      refine ⟨_, _, rfl, ⟨Forced.refl hs, hn, (free_of_rigid hn).mono fun w hw => ⟨hw.1, ?_⟩,
        fun _ _ _ => rfl⟩⟩
      rintro rfl
      exact hw.2 hx
    | solved sol =>
      obtain ⟨lo', s1, hlo, hslo⟩ := ihlo s hs hn.2.1 hx
      obtain ⟨hi', s2, hhi, hshi⟩ := ihhi s1 hslo.forced.ranked hn.2.2 (hslo.forced.unsolved hx)
      have h2 := hslo.forced.trans hshi.forced
      obtain ⟨sol', s3, hsol, hssol⟩ := inlineSolvedVars_returns peq h2.ranked
        (hs.canonical v sol hv)
      simp only [hlo, hhi, hsol, bind_eq_bind, bind_some]
      have hfreesol : sol'.All (¬ s.IsSolved ·) :=
        hssol.free.mono fun w hw hw' => hw ((h2.solved_iff w).2 hw')
      have hassign := assignBot_denotes peq x hssol.canonical
      have hden := denotes_inlined peq hslo.canonical hshi.canonical hassign.canonical
      have hfree := (assignBot_all peq x hfreesol).and (assignBot_ne peq x hssol.canonical)
      refine ⟨_, _, rfl, ⟨(h2.trans hssol.forced).setSolved hv hssol.canonical hfreesol
        fun ρ hρ => hssol.den_eq ρ (h2.sat ρ hρ), hden.canonical,
        join_all peq hslo.free (meet_all peq (free_congr hslo.forced hshi.free) hfree),
        fun ρ hρ hρx => ?_⟩⟩
      have hρv : ρ v = den sol ρ := hρ v sol hv
      have hsame : restrict (den sol') x ⊥ ρ = den sol' ρ := by
        rw [restrict, ← hρx, update_eq_self]
      refine (congrFun hden.den_eq ρ).trans ?_
      rw [hslo.den_eq ρ hρ hρx, hshi.den_eq ρ (hslo.forced.sat ρ hρ) hρx, hassign.den_eq, hsame,
        hssol.den_eq ρ (h2.sat ρ hρ), ← hρv]
      rfl
    | unsolved =>
      obtain ⟨lo', s1, hlo, hslo⟩ := ihlo s hs hn.2.1 hx
      simp only [hlo, bind_eq_bind]
      split
      case isTrue hcmp =>
        obtain rfl := compareVar_eq_iff.1 hcmp
        refine ⟨_, _, rfl, ⟨hslo.forced, hslo.canonical, hslo.free, fun ρ hρ hρx => ?_⟩⟩
        rw [hslo.den_eq ρ hρ hρx]
        simp [den, decide₂, hρx]
      case isFalse hcmp =>
      have hvx : v ≠ x := fun h => hcmp (compareVar_eq_iff.2 h)
      obtain ⟨hi', s2, hhi, hshi⟩ := ihhi s1 hslo.forced.ranked hn.2.2 (hslo.forced.unsolved hx)
      have h2 := hslo.forced.trans hshi.forced
      have hfreev := not_isSolved_of_unsolved hv
      have hfreehi := free_congr hslo.forced hshi.free
      simp only [hhi, bind_some]
      split
      case isTrue heq =>
        rw [Bool.and_eq_true] at heq
        have hloeq := peq.eq_sound heq.1
        have hhieq := peq.eq_sound heq.2
        exact ⟨_, _, rfl, ⟨h2, hn, ⟨⟨hfreev, hvx⟩, hloeq ▸ hslo.free, hhieq ▸ hfreehi⟩,
          fun _ _ _ => rfl⟩⟩
      case isFalse =>
        have hvar := nodeOfVar_denotes (L := L) v
        have hden := denotes_inlined peq hslo.canonical hshi.canonical hvar.canonical
        refine ⟨_, _, rfl, ⟨h2, hden.canonical, join_all peq hslo.free
          (meet_all peq hfreehi (nodeOfVar_all ⟨hfreev, hvx⟩)), fun ρ hρ hρx => ?_⟩⟩
        refine (congrFun hden.den_eq ρ).trans ?_
        rw [hslo.den_eq ρ hρ hρx, hshi.den_eq ρ (hslo.forced.sat ρ hρ) hρx, hvar.den_eq]
        rfl

variable {s : State V L} {rhs : Node V L}

theorem solveLfp_solves (hs : Ranked s rank) (hrhs : rhs.Canonical)
    (hx : s.varState x = .unsolved) :
    ∃ s', solveLfp peq x rhs s = some (.ok s') ∧ s'.gfpPending = s.gfpPending ∧
      Solves ⊥ rank s x rhs s' := by
  obtain ⟨d, s₁, heq, hspec⟩ := assignBotInline_spec peq rhs s hs hrhs hx
  refine ⟨s₁.setSolved x d, ?_, hspec.forced.pending,
    ⟨d, s₁, rfl, hspec.forced, hspec.canonical, hspec.free, hspec.den_eq⟩⟩
  simp [solveLfp, hx, heq]

theorem solveGfp_solves (hs : Ranked s rank) (hrhs : rhs.Canonical)
    (hx : s.varState x = .unsolved) :
    ∃ s', solveGfp peq x rhs s = some (.ok s') ∧ s'.gfpPending = s.gfpPending ∧
      Solves ⊤ rank s x rhs s' := by
  obtain ⟨n, s₁, heq, hspec⟩ := inlineSolvedVars_returns peq hs hrhs
  have hassign := assignTop_denotes peq x hspec.canonical
  refine ⟨s₁.setSolved x (assignTop peq x n), ?_, hspec.forced.pending,
    ⟨_, s₁, rfl, hspec.forced, hassign.canonical,
      (assignTop_all peq x hspec.free).and (assignTop_ne peq x hspec.canonical),
      fun ρ hρ hρx => ?_⟩⟩
  · simp [solveGfp, hx, heq]
  · rw [hassign.den_eq, restrict, ← hρx, update_eq_self, hspec.den_eq ρ hρ]

end SolveFunctions

/-! ## §5 Runs -/

/-- A solving function makes one elimination step from `b`. -/
def StepsFrom (b : L) (solve : Var V → Node V L → State V L → Option (Except String (State V L))) :
    Prop :=
  ∀ {rank s x rhs}, Ranked s rank → rhs.Canonical → s.varState x = .unsolved →
    ∃ s', solve x rhs s = some (.ok s') ∧ s'.gfpPending = s.gfpPending ∧ Solves b rank s x rhs s'

/-- Equations for distinct unsolved variables. -/
structure Equations (s : State V L) (E : List (Var V × Node V L)) : Prop where
  canonical : ∀ e ∈ E, e.2.Canonical
  unsolved : ∀ e ∈ E, s.varState e.1 = .unsolved
  distinct : (E.map Prod.fst).Nodup

/-- The equations as functions. -/
def equationSet (E : List (Var V × Node V L)) : Set (Var V × ((Var V → L) → L)) :=
  {e | ∃ p ∈ E, e = (p.1, den p.2)}

/-- What solving the equations `E` from the state `s₀` has led to. -/
structure RunSpec (R : L → L → Prop) (s₀ : State V L) (E : List (Var V × Node V L))
    (s : State V L) : Prop where
  ranked : ∃ rank, Ranked s rank
  isSolved_iff : ∀ v, s.IsSolved v ↔ s₀.IsSolved v ∨ v ∈ E.map Prod.fst
  extremal : Extremal R {ρ | Sat s₀ ρ} (equationSet E) {v | s.IsSolved v} {ρ | Sat s ρ}

section Runs

variable {R : L → L → Prop} {b : L} (hdir : Solvable (V := V) R b)
  {solve : Var V → Node V L → State V L → Option (Except String (State V L))}
  (hsolve : StepsFrom b solve)
include hdir hsolve

theorem RunSpec.step {s₀ s : State V L} {E : List (Var V × Node V L)} (h : RunSpec R s₀ E s)
    {x : Var V} {rhs : Node V L} (hrhs : rhs.Canonical) (hx : s.varState x = .unsolved) :
    ∃ s', solve x rhs s = some (.ok s') ∧ s'.gfpPending = s.gfpPending ∧
      RunSpec R s₀ ((x, rhs) :: E) s' := by
  obtain ⟨rank, hs⟩ := h.ranked
  obtain ⟨s', heq, hpend, hstep⟩ := hsolve hs hrhs hx
  refine ⟨s', heq, hpend, ⟨_, hstep.ranked hx⟩, fun v => ?_, ?_⟩
  · rw [hstep.isSolved_iff hx, h.isSolved_iff, List.map_cons, List.mem_cons]; tauto
  have hext := h.extremal.step (x := x) (f := den rhs) hdir.toDirection
    (monoGraph_sat hdir hs) (not_isSolved_of_unsolved hx) (fun ρ hρ => hstep.sat hx hs hρ)
    (fun ρ ρ' hle => hdir.mono rhs ((Node.all_true rhs).mono fun v _ => hle v))
    (fun ρ hρ => hstep.fix hx hdir hs hrhs hρ)
    (fun ρ hρ ρb hρb hb hagree => hstep.low hx hρ hρb hb fun w hw hwx => hagree w hw hwx)
  have hset : equationSet ((x, rhs) :: E) = insert (x, den rhs) (equationSet E) := by
    ext e
    simp [equationSet]
  have hsolved : {v | s'.IsSolved v} = insert x {v | s.IsSolved v} := by
    ext v
    exact hstep.isSolved_iff hx v
  rw [hset, hsolved]
  exact hext

omit hdir hsolve in
theorem Equations.tail {s s' : State V L} {x : Var V} {rhs : Node V L}
    {E : List (Var V × Node V L)} (h : Equations s ((x, rhs) :: E))
    (hsolved : ∀ v, s'.IsSolved v → s.IsSolved v ∨ v = x) : Equations s' E := by
  have hnodup := List.nodup_cons.1 h.distinct
  refine ⟨fun e he => h.canonical e (List.mem_cons_of_mem _ he), fun e he => ?_, hnodup.2⟩
  have hun := h.unsolved e (List.mem_cons_of_mem _ he)
  refine unsolved_of_not_isSolved (ne_rigid_of_unsolved hun) fun hs => ?_
  rcases hsolved e.1 hs with hs | hx
  · exact not_isSolved_of_unsolved hun hs
  · exact hnodup.1 (List.mem_map.2 ⟨e, he, hx⟩)

/-- A run solves the equations from the left. -/
theorem iterSolve_spec (E : List (Var V × Node V L)) :
    ∀ {E₀ : List (Var V × Node V L)} {s : State V L}, RunSpec R s₀ E₀ s → Equations s E →
      ∃ s', iterSolve solve E s = some (.ok s') ∧ s'.gfpPending = s.gfpPending ∧
        RunSpec R s₀ (E.reverse ++ E₀) s' := by
  induction E with
  | nil => exact fun h _ => ⟨_, rfl, rfl, h⟩
  | cons e E ih =>
    obtain ⟨x, rhs⟩ := e
    intro E₀ s h hE
    obtain ⟨s₁, heq, hpend, h₁⟩ := h.step hdir hsolve (hE.canonical _ List.mem_cons_self)
      (hE.unsolved _ List.mem_cons_self)
    have hsolved : ∀ v, s₁.IsSolved v → s.IsSolved v ∨ v = x := by
      intro v hv
      rw [h₁.isSolved_iff, List.map_cons, List.mem_cons] at hv
      rw [h.isSolved_iff]
      tauto
    obtain ⟨s', heq', hpend', h'⟩ := ih h₁ (hE.tail hsolved)
    refine ⟨s', ?_, hpend'.trans hpend, ?_⟩
    · simp only [iterSolve, heq]; exact heq'
    · rw [List.reverse_cons, List.append_assoc]; exact h'

omit hsolve in
theorem RunSpec.start (hs : Ranked s rank) : RunSpec R s [] s := by
  refine ⟨⟨rank, hs⟩, fun v => by simp, ?_⟩
  have hset : equationSet ([] : List (Var V × Node V L)) = ∅ := by
    ext e
    simp [equationSet]
  rw [hset]
  exact Extremal.start hdir.toDirection (monoGraph_sat hdir hs)

end Runs

/-- The assignments that respect `s₀`, solve `E`, and are `ρ` elsewhere. -/
def Solutions (s₀ : State V L) (E : List (Var V × Node V L)) (ρ : Var V → L) : Set (Var V → L) :=
  {ρ' | Sat s₀ ρ' ∧ (∀ e ∈ E, ρ' e.1 = den e.2 ρ') ∧
    ∀ v, ¬ s₀.IsSolved v → v ∉ E.map Prod.fst → ρ' v = ρ v}

/-- `sol` gives the inlined solution of every solved variable. -/
def InlinedSolutions (peq : PhysEq V L) (s : State V L) (sol : Var V → Node V L) : Prop :=
  ∀ v d, s.varState v = .solved d → (∃ s', inlineSolvedVars peq d s = some (sol v, s')) ∧
    (sol v).WF peq ∧ (sol v).All (¬ s.IsSolved ·)

/-- The assignment `ρ` of the unsolved variables, with the solutions. -/
def withSolutions (s : State V L) (sol : Var V → Node V L) (ρ : Var V → L) (v : Var V) : L :=
  match s.varState v with
  | .solved _ => den (sol v) ρ
  | _ => ρ v

theorem withSolutions_of_not_isSolved (h : ¬ s.IsSolved v)
    (sol : Var V → Node V L) (ρ : Var V → L) : withSolutions s sol ρ v = ρ v := by
  rw [withSolutions]
  split
  · exact absurd ⟨_, ‹_›⟩ h
  · rfl

theorem exists_inlinedSolutions (peq : PhysEq V L)
    (hs : Ranked s rank) : ∃ sol, InlinedSolutions peq s sol := by
  have hex : ∀ v, ∃ n : Node V L, ∀ d, s.varState v = .solved d →
      (∃ s', inlineSolvedVars peq d s = some (n, s')) ∧ n.WF peq ∧ n.All (¬ s.IsSolved ·) := by
    intro v
    cases hv : s.varState v with
    | solved d =>
      obtain ⟨n, s', heq, hn⟩ := inlineSolvedVars_returns peq hs (hs.canonical v d hv)
      refine ⟨n, fun d' hd' => ?_⟩
      cases hd'
      exact ⟨⟨s', heq⟩, (wf_iff_canonical peq).2 hn.canonical, hn.free⟩
    | unsolved | rigid name => exact ⟨bot, fun d hd => by cases hd⟩
  choose sol hsol using hex
  exact ⟨sol, hsol⟩

variable {peq : PhysEq V L} {sol : Var V → Node V L}

/-- The inlined solutions respect the state. -/
theorem sat_withSolutions (hs : Ranked s rank) (hsol : InlinedSolutions peq s sol)
    (ρ : Var V → L) : Sat s (withSolutions s sol ρ) := by
  obtain ⟨ρ₁, hρ₁, hagree⟩ := exists_sat hs ρ
  have heq : withSolutions s sol ρ = ρ₁ := by
    funext v
    by_cases hv : s.IsSolved v
    · obtain ⟨d, hd⟩ := hv
      obtain ⟨⟨s', hin⟩, -, hfree⟩ := hsol v d hd
      obtain ⟨n, s'', hin', hn⟩ := inlineSolvedVars_returns peq hs (hs.canonical v d hd)
      rw [hin] at hin'
      cases hin'
      simp only [withSolutions, hd]
      rw [hρ₁ v d hd, ← hn.den_eq ρ₁ hρ₁]
      exact den_congr (hfree.mono fun w hw => (hagree w hw).symm)
    · rw [withSolutions_of_not_isSolved hv, hagree v hv]
  exact heq ▸ hρ₁

variable {E : List (Var V × Node V L)}

theorem RunSpec.withSolutions_mem (h : RunSpec R s₀ E s)
    (hsol : InlinedSolutions peq s sol) (ρ : Var V → L) :
    withSolutions s sol ρ ∈ Solutions s₀ E ρ := by
  obtain ⟨rank, hs⟩ := h.ranked
  have hsat := sat_withSolutions hs hsol ρ
  refine ⟨h.extremal.subset hsat, fun e he => ?_, fun v hv hvE => ?_⟩
  · exact h.extremal.solves _ hsat (e.1, den e.2) ⟨e, he, rfl⟩
  · refine withSolutions_of_not_isSolved (fun hs => ?_) sol ρ
    exact ((h.isSolved_iff v).1 hs).elim hv hvE

theorem RunSpec.withSolutions_extremal
    (hrefl : ∀ x, R x x) (h : RunSpec R s₀ E s) (hsol : InlinedSolutions peq s sol)
      {ρ ρ' : Var V → L}
    (hρ' : ρ' ∈ Solutions s₀ E ρ) (v : Var V) : R (withSolutions s sol ρ v) (ρ' v) := by
  obtain ⟨rank, hs⟩ := h.ranked
  refine h.extremal.extremal _ (sat_withSolutions hs hsol ρ) ρ' hρ'.1 (fun w hw => ?_) ?_ v
  · have hw' := fun hw' => hw ((h.isSolved_iff w).2 hw')
    rw [withSolutions_of_not_isSolved hw]
    exact hρ'.2.2 w (fun h => hw' (.inl h)) fun h => hw' (.inr h)
  · rintro e ⟨p, hp, rfl⟩; exact hρ'.2.1 p hp ▸ hrefl _

end Oxcaml.Typing.Ldd
