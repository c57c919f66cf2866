/-
Oxcaml.Backend.CmmAdditions — what both versions of the additions do.

§1 gives, for `add_const`, `add_int` and `sub_int`, one body that both versions
have: they differ in how they go on and in what they return where no rule
applies. §2: `neg_int` always returns, because `add_const` meets only negations
there, on which its two versions agree. §3 computes the additions and shifts of
expressions in which there is nothing to simplify.
-/
import Oxcaml.Backend.CmmTotality

set_option linter.all false

namespace Oxcaml.Backend

open Option (filter filter_some)

open Expression CmmPeepholeEngine

variable {O : Type}

namespace CmmHelpers

variable [DecidableEq O]

open DefaultVariables

/-! ## §1 The rules -/

omit [DecidableEq O] in
theorem tail_setTail (e t : Expression O) : (e.setTail t).tail = t.tail := by
  fun_induction setTail e t with
  | case1 v exp body t ih | case2 v exp body t ih | case3 v body t ih | case4 e1 e2 t ih => exact ih
  | case5 e t => rfl

omit [DecidableEq O] in
theorem debug_cop_left {op : Operation O} (t : Expression O) (k : OcamlInt) :
    (cop op [t, cconstInt k]).containsDebugOnlyConstructs = t.containsDebugOnlyConstructs := by
  simp only [containsDebugOnlyConstructs, anyContainsDebugOnlyConstructs, Bool.or_false]

variable {e : Expression O}

omit [DecidableEq O] in
theorem debug_of_tail (h : e.tail.containsDebugOnlyConstructs = true) :
    e.containsDebugOnlyConstructs = true := by
  fun_induction tail e with
  | case1 v exp body ih => simp only [containsDebugOnlyConstructs, ih h, Bool.or_true]
  | case2 v exp body ih | case3 v body ih => simp only [containsDebugOnlyConstructs]
  | case4 e1 e2 ih => simp only [containsDebugOnlyConstructs, ih h, Bool.or_true]
  | case5 e h1 h2 h3 h4 => exact h

omit [DecidableEq O] in
theorem debug_setTail {e t : Expression O}
    (h : e.tail.containsDebugOnlyConstructs = true → t.containsDebugOnlyConstructs = true)
    (he : e.containsDebugOnlyConstructs = true) :
    (e.setTail t).containsDebugOnlyConstructs = true := by
  fun_induction setTail e t with
  | case1 v exp body t ih =>
    simp only [containsDebugOnlyConstructs, Bool.or_eq_true] at he ⊢
    exact he.imp_right (ih h)
  | case2 v exp body t ih | case3 v body t ih => simp only [containsDebugOnlyConstructs]
  | case4 e1 e2 t ih =>
    simp only [containsDebugOnlyConstructs, Bool.or_eq_true] at he ⊢
    exact he.imp_right (ih h)
  | case5 e t h1 h2 h3 h4 =>
    refine h ?_
    rw [tail]
    all_goals assumption

section

omit [DecidableEq O]

variable {pat : CmmPattern O}

variable {xs is : List Nat} {v v' : PatternVar .int} {p : OcamlInt → OcamlInt → Bool}

theorem linear_guard (h : Linear [] [] pat xs is) (hv : v.id ∈ is) (hv' : v'.id ∈ is) :
    Linear [] [] (.guarded pat fun env => do pure (p (← env.int v) (← env.int v'))) xs is := by
  refine .guarded h fun env henv => ?_
  obtain ⟨x, hx⟩ := henv.int hv
  obtain ⟨x', hx'⟩ := henv.int hv'
  rw [hx, hx']
  exact ⟨_, rfl⟩

theorem linear_guard1 {p : OcamlInt → Bool} (h : Linear [] [] pat xs is) (hv : v.id ∈ is) :
    Linear [] [] (.guarded pat fun env => do pure (p (← env.int v))) xs is := by
  refine .guarded h fun env henv => ?_
  obtain ⟨x, hx⟩ := henv.int hv
  rw [hx]
  exact ⟨_, rfl⟩

variable {guard : Env O → Except (Fatal O) Bool}

/-- A guarded pattern matches where the pattern does and the guard holds. -/
theorem match_guarded (hlinear : Linear [] [] pat xs is) (hcore : core e = e)
    (hshape : Shape pat e) {b : Bool} (hb : ∀ env, Fits env pat e → guard env = .ok b) :
    ∃ env, Fits env pat e ∧ matchOnePattern .empty (.guarded pat guard) e =
      .ok (if b then some env else none) := by
  obtain ⟨env, hmatch⟩ := hlinear.match_of_shape binds_empty hshape
  have hfits := (match_fits hmatch).2
  refine ⟨env, hfits, ?_⟩
  rw [matchOnePattern.eq_def, skip_of_core hcore]
  dsimp only
  rw [hmatch]
  exact congrArg (fun x => x >>= fun b => pure (if b = true then some env else none)) (hb env hfits)

variable {clauses : List (Clause O (Expression O) e)}

/-- A rule with a guard. -/
theorem run_guard
    {rhs : (env : Env O) → Matches (.guarded pat guard) e env → Except (Fatal O) (Expression O)}
      (hlinear : Linear [] [] pat xs is)
    (hbare : Bare pat e) (hshape : Shape pat e) {b : Bool}
    (hb : ∀ env, Fits env pat e → guard env = .ok b) {r : Except (Fatal O) (Expression O)}
    (hr : ∀ env h, Fits env pat e → rhs env h = r) :
    run e (⟨_, rhs⟩ :: clauses) = if b then r else run e clauses := by
  obtain ⟨env, hfits, hguard⟩ := match_guarded hlinear hbare.core_eq hshape hb
  have hbare' : Bare (.guarded pat guard) e := ⟨hbare.core_eq, hbare⟩
  cases b with
  | true =>
    rw [run, matchClausesInOrder_match hguard, hr env hguard hfits]
    cases r with
    | error err => rfl
    | ok r => exact congrArg Except.ok (placePhantomLets_of_bare hbare' hguard r)
  | false => exact matchClausesInOrder_skip hguard

/-- A rule with a guard on two integers. -/
theorem run_guard2
    {rhs : (env : Env O) → Matches (.guarded pat fun env => do
      pure (p (← env.int v) (← env.int v'))) e env → Except (Fatal O) (Expression O)}
        (hlinear : Linear [] [] pat xs is)
    (hbare : Bare pat e) (hshape : Shape pat e)
    {k k' : OcamlInt} (hk : ∀ env, Fits env pat e → env.int v = .ok k)
    (hk' : ∀ env, Fits env pat e → env.int v' = .ok k') {r : Except (Fatal O) (Expression O)}
    (hr : ∀ env h, Fits env pat e → rhs env h = r) :
    run e (⟨_, rhs⟩ :: clauses) = if p k k' then r else run e clauses := by
  refine run_guard hlinear hbare hshape (fun env hfits => ?_) hr
  rw [hk env hfits, hk' env hfits]
  rfl

variable {op : Binop}

theorem nofits_const {env : Env O} {pat1 pat2 : CmmPattern O} {k : OcamlInt}
    (h : Fits env (.binop op pat1 pat2) (cconstInt k)) : False := by
  obtain ⟨_, _, _, heq, -⟩ := h
  cases heq

theorem linear_constConst : Linear (O := O) [] []
    (.binop .add (.constInt xVar) (.constInt n)) [] [n.id, xVar.id] :=
  .binop (.constInt (by decide)) (.constInt (by decide))

theorem linear_constAny : Linear (O := O) [] []
    (.binop .add (.binop op (.constInt xVar) (.any c)) (.constInt n)) [c.id] [n.id, xVar.id] :=
  .binop (.binop (.constInt (by decide)) (.any (by decide))) (.constInt (by decide))

theorem linear_anyConst : Linear (O := O) [] []
    (.binop .add (.binop op (.any c) (.constInt xVar)) (.constInt n)) [c.id] [n.id, xVar.id] :=
  .binop (.binop (.any (by decide)) (.constInt (by decide))) (.constInt (by decide))

/-- A rule whose inner operation is another one. -/
theorem run_skip_guard2
    {rhs : (env : Env O) → Matches (.guarded pat fun env => do
      pure (p (← env.int v) (← env.int v'))) e env → Except (Fatal O) (Expression O)}
        (hlinear : Linear [] [] pat xs is)
    (hv : v.id ∈ is) (hv' : v'.id ∈ is) (h : ∀ env, ¬ Fits env pat e) :
    run e (⟨_, rhs⟩ :: clauses) = run e clauses :=
  run_skip (linear_guard hlinear hv hv') (not_fits_guarded h)

end

omit [DecidableEq O] in
theorem setTail_of_tail_eq {t : Expression O} (h : t.tail = t) (r : Expression O) :
    t.setTail r = r := by
  rw [← h]
  exact setTail_tail t r

variable {k x : OcamlInt}

omit [DecidableEq O] in
theorem bare_addInt {t : Expression O} {op : Binop} {pat1 pat2 : CmmPattern O}
    (h1 : Bare pat1 t) (h2 : Bare pat2 (cconstInt k)) :
    Bare (.binop op pat1 pat2) (cop .caddi [t, cconstInt k]) :=
  ⟨rfl, fun _ _ _ heq => by cases heq; exact ⟨h1, h2⟩⟩

theorem noOverflowAdd_comm (a b : OcamlInt) : noOverflowAdd a b = noOverflowAdd b a := by
  unfold noOverflowAdd
  simp only [slt_zero_eq_msb, BitVec.msb_or, BitVec.msb_xor, BitVec.add_comm b a]
  cases a.msb <;> cases b.msb <;> simp

omit [DecidableEq O] in
theorem map_setTail_tail {ε : Type} (e : Expression O) (r : Except ε (Expression O)) :
    r.map (fun t => e.tail.setTail t) = r := by
  cases r with
  | error err => rfl
  | ok t => exact congrArg Except.ok (setTail_tail e t)

omit [DecidableEq O] in
theorem sshiftRight_minInt_ne_zero (k : Nat) : minInt.sshiftRight k ≠ 0 := by
  intro h
  have hmsb : (minInt.sshiftRight k).msb = minInt.msb := BitVec.msb_sshiftRight
  rw [h] at hmsb
  exact absurd hmsb (by decide)

omit [DecidableEq O] in
/-- What `prefer_add` does. -/
theorem preferAdd_cases (e : Expression O) : preferAdd e = e ∨ ∃ x k, k ≠ minInt ∧
    e = cop .cor [x, cconstInt k] ∧ preferAdd e = cop .caddi [x, cconstInt k] := by
  unfold preferAdd
  split
  · rename_i x k
    split
    · rename_i h
      refine .inr ⟨x, k, ?_, rfl, rfl⟩
      rintro rfl
      unfold canInterchangeAddWithOr at h
      split at h
      · rw [Bool.and_eq_true, beq_iff_eq] at h; exact sshiftRight_minInt_ne_zero _ h.2
      · cases h
    · exact .inl rfl
  · exact .inl rfl

omit [DecidableEq O] in
theorem core_tail (e : Expression O) : core e.tail = e.tail := by
  fun_induction tail e with
  | case1 v exp body ih | case2 v exp body ih | case3 v body ih | case4 e1 e2 ih => exact ih
  | case5 e h1 h2 h3 h4 => rw [core] <;> assumption

section

omit [DecidableEq O]

/-- The integer that an expression is. -/
def constOf : Expression O → Option OcamlInt
  | cconstInt x => some x
  | _ => none

theorem constOf_eq_some : constOf e = some x ↔ e = cconstInt x := by
  cases e <;> simp [constOf]

theorem constOf_ne (h : constOf e = none) (hc : core e = e) {env : Env O}
    {v : PatternVar .int} (hf : Fits env (.constInt v) e) : False := by
  obtain ⟨x, hx, -⟩ := hf
  rw [hc] at hx
  rw [constOf_eq_some.2 hx] at h
  cases h

variable {a b : Expression O} {o : Operation O} {op : Binop} {k : OcamlInt}

variable {r : OcamlInt → Except (Fatal O) (Expression O)}

/-- A rule that looks for an integer on the left of the operation under the sum. -/
theorem run_constLeft {p : OcamlInt → OcamlInt → Bool}
    {rhs : (env : Env O) → Matches (.guarded (.binop .add (.binop op (.constInt xVar) (.any c))
      (.constInt n)) fun env => do pure (p (← env.int n) (← env.int xVar)))
      (cop .caddi [cop o [a, b], cconstInt k]) env → Except (Fatal O) (Expression O)}
    {clauses : List (Clause O (Expression O) (cop .caddi [cop o [a, b], cconstInt k]))}
    (hop : matchesBinop op o = true) (ha : core a = a) (hb : core b = b)
    (hr : ∀ env h x, env.int n = .ok k → env.int xVar = .ok x → env.expr c = .ok b →
      rhs env h = r x) :
    run _ (⟨_, rhs⟩ :: clauses) =
      match (constOf a).filter (p k) with
      | some x => r x
      | none => run _ clauses := by
  cases hx : constOf a with
  | none =>
    exact run_skip_guard2 linear_constAny (by decide) (by decide) fun env hf =>
      constOf_ne hx ha (fits_cop (fits_cop hf).1).1
  | some x =>
    obtain rfl := constOf_eq_some.1 hx
    rw [run_guard2 (e := cop .caddi [cop o [cconstInt x, b], cconstInt k]) linear_constAny
      (bare_addInt ⟨rfl, fun _ _ _ heq => by cases heq; exact ⟨rfl, hb⟩⟩ rfl)
      ⟨_, _, _, rfl, rfl, ⟨_, _, _, rfl, hop, ⟨x, rfl⟩, trivial⟩, k, rfl⟩
      (fun env hf => int_of_fits (fits_cop hf).2)
      (fun env hf => int_of_fits (fits_cop (fits_cop hf).1).1)
      (r := r x) (fun env h hf => hr env h x (int_of_fits (fits_cop hf).2)
        (int_of_fits (fits_cop (fits_cop hf).1).1)
        (by rw [expr_of_fits_any (fits_cop (fits_cop hf).1).2, hb]))]
    cases hp : p k x <;> simp [filter, hp]

/-- A rule that looks for an integer on the right of it. -/
theorem run_constRight {p : OcamlInt → OcamlInt → Bool}
    {rhs : (env : Env O) → Matches (.guarded (.binop .add (.binop op (.any c) (.constInt xVar))
      (.constInt n)) fun env => do pure (p (← env.int n) (← env.int xVar)))
      (cop .caddi [cop o [a, b], cconstInt k]) env → Except (Fatal O) (Expression O)}
    {clauses : List (Clause O (Expression O) (cop .caddi [cop o [a, b], cconstInt k]))}
    (hop : matchesBinop op o = true) (ha : core a = a) (hb : core b = b)
    (hr : ∀ env h x, env.int n = .ok k → env.int xVar = .ok x → env.expr c = .ok a →
      rhs env h = r x) :
    run _ (⟨_, rhs⟩ :: clauses) =
      match (constOf b).filter (p k) with
      | some x => r x
      | none => run _ clauses := by
  cases hx : constOf b with
  | none =>
    exact run_skip_guard2 linear_anyConst (by decide) (by decide) fun env hf =>
      constOf_ne hx hb (fits_cop (fits_cop hf).1).2
  | some x =>
    obtain rfl := constOf_eq_some.1 hx
    rw [run_guard2 (e := cop .caddi [cop o [a, cconstInt x], cconstInt k]) linear_anyConst
      (bare_addInt ⟨rfl, fun _ _ _ heq => by cases heq; exact ⟨ha, rfl⟩⟩ rfl)
      ⟨_, _, _, rfl, rfl, ⟨_, _, _, rfl, hop, trivial, ⟨x, rfl⟩⟩, k, rfl⟩
      (fun env hf => int_of_fits (fits_cop hf).2)
      (fun env hf => int_of_fits (fits_cop (fits_cop hf).1).2)
      (r := r x) (fun env h hf => hr env h x (int_of_fits (fits_cop hf).2)
        (int_of_fits (fits_cop (fits_cop hf).1).2)
        (by rw [expr_of_fits_any (fits_cop (fits_cop hf).1).1, ha]))]
    cases hp : p k x <;> simp [filter, hp]

/-- What `add_const` does with a tail and a constant that is not zero: `again` is how it goes on
and `default` what it returns where nothing merges. -/
def addConstBody (again : Expression O → OcamlInt → Except (Fatal O) (Expression O))
    (default : Expression O) (k : OcamlInt) : Expression O → Except (Fatal O) (Expression O)
  | cconstInt x => if noOverflowAdd k x then pure (cconstInt (x + k)) else pure default
  | cop .caddi [a, b] =>
    match (constOf a).filter (noOverflowAdd k) with
    | some x => pure (addNoOverflow k x b)
    | none =>
      match (constOf b).filter (noOverflowAdd k) with
      | some x => pure (addNoOverflow k x a)
      | none => pure default
  | cop .csubi [a, b] =>
    match (constOf a).filter (noOverflowAdd k) with
    | some x => pure (cop .csubi [cconstInt (k + x), b])
    | none =>
      match (constOf b).filter (noOverflowSub k) with
      | some x => again a (k - x)
      | none => pure default
  | _ => pure default

theorem addConst'_body {t : Expression O} (ht : t.tail = t) (hk : k ≠ 0)
    (hargs : ∀ o a b, preferAdd t = cop o [a, b] → core a = a ∧ core b = b) :
    addConst' t k =
      addConstBody addConst' (cop .caddi [preferAdd t, cconstInt k]) k (preferAdd t) := by
  have hcore : core (preferAdd t) = preferAdd t := by
    rcases preferAdd_cases t with heq | ⟨_, _, -, -, heq⟩
    · rw [heq, ← ht, core_tail]
    · rw [heq]; rfl
  rw [addConst', mapTail1_eq, ht]
  have hmap : ∀ x : Except (Fatal O) (Expression O), x.map (fun r => t.setTail r) = x := by
    rw [← ht]
    exact map_setTail_tail t
  rw [hmap]
  generalize preferAdd t = e at *
  rw [run_skip (.binop (.any (by decide)) .constIntFixed) fun env hfits => hk
      (by cases (fits_cop hfits).2; rfl)]
  have hx : xVar.id ∈ [n.id, xVar.id] := by decide
  have hn : n.id ∈ [n.id, xVar.id] := by decide
  by_cases hcop : ∃ o a b, e = cop o [a, b]
  · obtain ⟨o, a, b, rfl⟩ := hcop
    obtain ⟨ha, hb⟩ := hargs o a b rfl
    rw [run_skip_guard2 linear_constConst hn hx fun env hf => (by
      obtain ⟨_, heq, -⟩ := (fits_cop hf).1; cases heq)]
    by_cases hadd : o = .caddi
    · subst hadd
      rw [run_constLeft rfl ha hb (r := fun x => .ok (addNoOverflow k x b)),
        run_constRight rfl ha hb (r := fun x => .ok (addNoOverflow k x a)),
        run_skip_guard2 linear_constAny hn hx fun env hf => not_fits_binop rfl env (fits_cop hf).1]
      · rfl
      · intro env h x h1 h2 h3; rw [h1, h2, h3]; rfl
      · intro env h x h1 h2 h3; rw [h1, h2, h3]; rfl
    have hadd' : matchesBinop .add o = false := by
      cases o <;> first | rfl | exact absurd rfl hadd
    rw [run_skip_guard2 linear_constAny hn hx fun env hf =>
      not_fits_binop hadd' env (fits_cop hf).1,
      run_skip_guard2 linear_anyConst hn hx fun env hf =>
        not_fits_binop hadd' env (fits_cop hf).1]
    by_cases hsub : o = .csubi
    · subst hsub
      rw [run_constLeft rfl ha hb (r := fun x => .ok (cop .csubi [cconstInt (k + x), b])),
        run_constRight rfl ha hb (r := fun x => addConst' a (k - x))]
      · rfl
      · intro env h x h1 h2 h3; rw [withExpr_eq h3, h1, h2]; rfl
      · intro env h x h1 h2 h3; rw [h1, h2, h3]; rfl
    have hsub' : matchesBinop .sub o = false := by
      cases o <;> first | rfl | exact absurd rfl hsub
    rw [run_skip_guard2 linear_constAny hn hx fun env hf =>
      not_fits_binop hsub' env (fits_cop hf).1]
    cases o <;> first | rfl | exact absurd rfl hadd | exact absurd rfl hsub
  have hnf : ∀ env op pat1 pat2, ¬ Fits env (.binop op pat1 pat2) e := by
    rintro env op pat1 pat2 ⟨o, a, b, heq, -⟩
    exact hcop ⟨o, a, b, hcore.symm.trans heq⟩
  cases hc : constOf e with
  | some x =>
    obtain rfl := constOf_eq_some.1 hc
    rw [run_guard2 (e := cop .caddi [cconstInt x, cconstInt k]) linear_constConst
        (bare_addInt rfl rfl) ⟨_, _, _, rfl, rfl, ⟨x, rfl⟩, ⟨k, rfl⟩⟩
        (fun env hf => int_of_fits (fits_cop hf).2) (fun env hf => int_of_fits (fits_cop hf).1)
        (r := .ok (cconstInt (x + k))) (fun env _ hf => by
          rw [int_of_fits (fits_cop hf).1, int_of_fits (fits_cop hf).2]; rfl),
      run_skip_guard2 linear_constAny hn hx fun env hf => nofits_const (fits_cop hf).1,
      run_skip_guard2 linear_anyConst hn hx fun env hf => nofits_const (fits_cop hf).1,
      run_skip_guard2 linear_constAny hn hx fun env hf => nofits_const (fits_cop hf).1]
    rfl
  | none =>
    rw [run_skip_guard2 linear_constConst hn hx fun env hf =>
        constOf_ne hc hcore (fits_cop hf).1,
      run_skip_guard2 linear_constAny hn hx fun env hf => hnf _ _ _ _ (fits_cop hf).1,
      run_skip_guard2 linear_anyConst hn hx fun env hf => hnf _ _ _ _ (fits_cop hf).1,
      run_skip_guard2 linear_constAny hn hx fun env hf => hnf _ _ _ _ (fits_cop hf).1,
      run_skip_guard2 linear_anyConst hn hx fun env hf => hnf _ _ _ _ (fits_cop hf).1]
    unfold addConstBody
    split
    · cases hc
    · exact absurd ⟨_, _, _, rfl⟩ hcop
    · exact absurd ⟨_, _, _, rfl⟩ hcop
    · rfl

theorem addConstDirect_body {t : Expression O} (ht : t.tail = t) (hk : k ≠ 0) : addConstDirect t k =
      addConstBody addConstDirect (cop .caddi [t, cconstInt k]) k (preferAdd t) := by
  have hmap : ∀ x : Except (Fatal O) (Expression O), x.map (fun r => t.setTail r) = x := by
    rw [← ht]
    exact map_setTail_tail t
  rw [addConstDirect, if_neg hk, mapTail1_eq, ht, hmap]
  split
  case h_1 x heq => rw [heq, noOverflowAdd_comm]; rfl
  case h_2 x b heq =>
    rw [congrArg (addConstBody _ _ _) heq, addConstBody]
    simp only [constOf, filter_some]
    by_cases hx : noOverflowAdd k x = true
    · rw [if_pos hx, if_pos hx]
    rw [if_neg hx, if_neg hx]
    split
    · dsimp only [filter_some]; split <;> rfl
    · rename_i hne
      cases b <;> first | rfl | exact (hne _ heq rfl HEq.rfl).elim
  case h_3 a x hne heq =>
    rw [congrArg (addConstBody _ _ _) heq, addConstBody]
    simp only [constOf, filter]
    split <;> rfl
  case h_4 x b heq =>
    rw [congrArg (addConstBody _ _ _) heq, addConstBody]
    simp only [constOf, filter_some]
    by_cases hx : noOverflowAdd k x = true
    · rw [if_pos hx, if_pos hx]
    rw [if_neg hx, if_neg hx]
    split
    · dsimp only [filter_some]; split <;> rfl
    · rename_i hne
      cases b <;> first | rfl | exact (hne _ heq rfl HEq.rfl).elim
  case h_5 a x hne heq =>
    rw [congrArg (addConstBody _ _ _) heq, addConstBody]
    simp only [constOf, filter]
    split <;> rfl
  case h_6 h1 h2 h3 h4 h5 =>
    unfold addConstBody
    split
    · rename_i x heq
      exact (h1 _ heq).elim
    · rename_i a b heq
      have ha : constOf a = none := by
        cases hc : constOf a with
        | none => rfl
        | some x => exact (h2 x b (by rw [heq, constOf_eq_some.1 hc])).elim
      have hb : constOf b = none := by
        cases hc : constOf b with
        | none => rfl
        | some x => exact (h3 a x (by rw [heq, constOf_eq_some.1 hc])).elim
      rw [ha, hb]
      rfl
    · rename_i a b heq
      have ha : constOf a = none := by
        cases hc : constOf a with
        | none => rfl
        | some x => exact (h4 x b (by rw [heq, constOf_eq_some.1 hc])).elim
      have hb : constOf b = none := by
        cases hc : constOf b with
        | none => rfl
        | some x => exact (h5 a x (by rw [heq, constOf_eq_some.1 hc])).elim
      rw [ha, hb]
      rfl
    · rfl

end

omit [DecidableEq O] in
theorem map_setTail_of_tail_eq {ε : Type} {t : Expression O} (ht : t.tail = t)
    (r : Except ε (Expression O)) : r.map (fun r => t.setTail r) = r := by
  rw [← ht]
  exact map_setTail_tail t r

omit [DecidableEq O] in
theorem addConstDirect_tail (c : Expression O) (k : OcamlInt) :
    addConstDirect c k = (addConstDirect c.tail k).map fun t => c.setTail t := by
  rw [addConstDirect.eq_def c, addConstDirect.eq_def c.tail]
  split
  · exact congrArg Except.ok (setTail_self c).symm
  · rw [mapTail1_eq, mapTail1_eq, tail_tail, map_setTail_tail]

omit [DecidableEq O] in
theorem addConst'_tail (c : Expression O) (k : OcamlInt) :
    addConst' c k = (addConst' c.tail k).map fun t => c.setTail t := by
  rw [addConst'.eq_def c, addConst'.eq_def c.tail, mapTail1_eq, mapTail1_eq, tail_tail,
    map_setTail_tail]

omit [DecidableEq O] in
theorem debug_preferAdd (e : Expression O) :
    (preferAdd e).containsDebugOnlyConstructs = e.containsDebugOnlyConstructs := by
  rcases preferAdd_cases e with heq | ⟨x, k, -, he, heq⟩
  · rw [heq]
  · rw [heq, he, debug_cop_left, debug_cop_left]

omit [DecidableEq O] in
theorem linear_subAdd : Linear (O := O) [] []
    (.binop .sub (.binop .add (.any c1) (.constInt n1)) (.any c2)) [c2.id, c1.id] [n1.id] :=
  .binop (.binop (.any (by decide)) (.constInt (by decide))) (.any (by decide))

/-- The summands of an addition of a constant. -/
def addendOf : Expression O → Option (Expression O × OcamlInt)
  | cop .caddi [a, cconstInt x] => some (a, x)
  | _ => none

omit [DecidableEq O] in
theorem addendOf_eq_some {e a : Expression O} :
    addendOf e = some (a, x) ↔ e = cop .caddi [a, cconstInt x] := by
  unfold addendOf
  split
  · simp
  rename_i h
  simp
  exact h a x

/-- What `add_int` does with two tails. -/
def addIntBody (again : Expression O → Expression O → Except (Fatal O) (Expression O))
    (default e1 e2 : Expression O) : Except (Fatal O) (Expression O) :=
  match constOf e1, constOf e2 with
  | some k, _ => addConst e2 k
  | none, some k => addConst e1 k
  | none, none =>
    match addendOf e1, addendOf e2 with
    | some (x, k), _ => do addConst (← again x e2) k
    | none, some (x, k) => do addConst (← again e1 x) k
    | none, none => pure default

/-- What `sub_int` does with two tails. -/
def subIntBody (again : Expression O → Expression O → Except (Fatal O) (Expression O))
    (c1 c2 e1 e2 : Expression O) : Except (Fatal O) (Expression O) :=
  match (constOf e2).filter (· ≠ minInt) with
  | some k => addConst c1 (-k)
  | none =>
    match (addendOf e2).filter (·.2 ≠ minInt) with
    | some (x, k) => do addConst (← again c1 x) (-k)
    | none =>
      match addendOf e1 with
      | some (x, k) => do addConst (← again x c2) k
      | none => pure (cop .csubi [c1, c2])

omit [DecidableEq O] in
theorem constOf_eq_none (h : ∀ x, e ≠ cconstInt x) : constOf e = none := by
  cases hc : constOf e with
  | none => rfl
  | some x => exact absurd (constOf_eq_some.1 hc) (h x)

omit [DecidableEq O] in
theorem addendOf_eq_none (h : ∀ a x, e ≠ cop .caddi [a, cconstInt x]) : addendOf e = none := by
  cases hc : addendOf e with
  | none => rfl
  | some p => exact absurd (addendOf_eq_some.1 hc) (h p.1 p.2)

theorem addIntDirect_body {t1 t2 : Expression O} (h1 : t1.tail = t1) (h2 : t2.tail = t2) :
    addIntDirect t1 t2 =
      addIntBody addIntDirect (cop .caddi [t1, t2]) (preferAdd t1) (preferAdd t2) := by
  rw [addIntDirect, mapTail2, mapTail1_eq, mapTail1_eq, h1, h2, map_setTail_of_tail_eq h1,
    map_setTail_of_tail_eq h2]
  split
  case h_1 k hc1 => simp only [hc1, addIntBody, constOf]
  case h_2 k hc2 hne => rw [hc2, addIntBody, constOf_eq_none hne]; rfl
  case h_3 a k hc1 hne2 => rw [hc1, addIntBody, constOf_eq_none hne2]; rfl
  case h_4 a k hc2 hne1 hne1' =>
    rw [hc2, addIntBody, constOf_eq_none hne1, addendOf_eq_none hne1']
    rfl
  case h_5 hne1 hne1' hne2 hne2' =>
    simp [addIntBody, constOf_eq_none hne1, constOf_eq_none hne2, addendOf_eq_none hne1', addendOf_eq_none hne2']

theorem subIntDirect_body {t1 t2 : Expression O} (h1 : t1.tail = t1) (h2 : t2.tail = t2) :
    subIntDirect t1 t2 = subIntBody subIntDirect t1 t2 (preferAdd t1) (preferAdd t2) := by
  rw [subIntDirect, mapTail2, mapTail1_eq, mapTail1_eq, h1, h2, map_setTail_of_tail_eq h1,
    map_setTail_of_tail_eq h2]
  split
  case h_1 a k1 k2 hc1 hc2 =>
    rw [hc1, hc2, subIntBody]
    by_cases hk : k2 = minInt
    · simp [constOf, addendOf, hk, filter]
    · simp [constOf, hk, filter]
  case h_2 a1 k1 a2 k2 hc1 hc2 =>
    rw [hc1, hc2, subIntBody]
    by_cases hk : k2 = minInt
    · simp [constOf, addendOf, hk, filter]
    · simp [constOf, addendOf, hk, filter]
  case h_3 k2 hc2 hne1 =>
    rw [hc2, subIntBody]
    by_cases hk : k2 = minInt
    · simp [constOf, addendOf, hk, filter]
    · simp [constOf, hk, filter]
  case h_4 a2 k2 hc2 hne1 =>
    rw [hc2, subIntBody]
    by_cases hk : k2 = minInt
    · simp [constOf, addendOf, hk, filter]
    · simp [constOf, addendOf, hk, filter]
  case h_5 a k hc1 hne2 hne2' =>
    rw [hc1, subIntBody, constOf_eq_none hne2, addendOf_eq_none hne2']
    rfl
  case h_6 hne1 hne2 hne2' _ _ =>
    rw [subIntBody, constOf_eq_none hne2, addendOf_eq_none hne2', addendOf_eq_none hne1]
    rfl

omit [DecidableEq O] in
theorem not_fits_addend {v : PatternVar .expr} {w : PatternVar .int}
    (h : addendOf e = none) (he : e.containsDebugOnlyConstructs = false) (env : Env O) :
    ¬ Fits env (.binop .add (.any v) (.constInt w)) e := by
  intro hf
  obtain ⟨a, b, heq, -, x, hx, -⟩ := fits_binop rfl hf
  rw [core_of_noDebug he] at heq
  subst heq
  rw [core_of_noDebug (noDebug_cop2.1 he).2] at hx
  rw [hx] at h
  cases h

section

variable {e1 e2 : Expression O} (hd1 : e1.containsDebugOnlyConstructs = false)
  (hd2 : e2.containsDebugOnlyConstructs = false)

include hd1 hd2

omit [DecidableEq O] in
/-- The rule for a constant that is subtracted. -/
theorem run_subConst {rhs : (env : Env O) → Matches (.guarded (.binop .sub (.any c1) (.constInt n2))
      fun env => do pure (decide ((← env.int n2) ≠ minInt))) (cop .csubi [e1, e2]) env →
      Except (Fatal O) (Expression O)}
    {clauses : List (Clause O (Expression O) (cop .csubi [e1, e2]))}
    {r : OcamlInt → Except (Fatal O) (Expression O)}
    (hr : ∀ env h k, Fits env (.binop .sub (.any c1) (.constInt n2)) (cop .csubi [e1, e2]) →
      env.int n2 = .ok k → rhs env h = r k) :
    run (cop .csubi [e1, e2]) (⟨_, rhs⟩ :: clauses) =
      match (constOf e2).filter (· ≠ minInt) with
      | some k => r k
      | none => run _ clauses := by
  cases hk : constOf e2 with
  | none =>
    exact run_skip (linear_guard1 (.binop (.any (by decide)) (.constInt (by decide)))
      (by decide)) (not_fits_guarded fun env hf =>
        constOf_ne hk (core_of_noDebug hd2) (fits_cop hf).2)
  | some k =>
    obtain rfl := constOf_eq_some.1 hk
    rw [run_guard (e := cop .csubi [e1, cconstInt k])
      (.binop (.any (by decide)) (.constInt (by decide)))
      (bare_of_noDebug (noDebug_cop2.2 ⟨hd1, hd2⟩) _)
      ⟨_, _, _, rfl, rfl, trivial, k, rfl⟩ (b := decide (k ≠ minInt))
      (fun env hf => by rw [int_of_fits (fits_cop hf).2]; rfl)
      (r := r k) (fun env h hf => hr env h k hf (int_of_fits (fits_cop hf).2))]
    by_cases hm : k = minInt <;> simp [hm, filter]

omit [DecidableEq O] in
/-- The rule for a sum that is subtracted. -/
theorem run_subAddend {rhs : (env : Env O) → Matches (.guarded (.binop .sub (.any c1)
      (.binop .add (.any c2) (.constInt n2)))
      fun env => do pure (decide ((← env.int n2) ≠ minInt))) (cop .csubi [e1, e2]) env →
      Except (Fatal O) (Expression O)}
    {clauses : List (Clause O (Expression O) (cop .csubi [e1, e2]))}
    {r : Expression O → OcamlInt → Except (Fatal O) (Expression O)}
    (hr : ∀ env h x k, env.expr c2 = .ok x →
      Fits env (.binop .sub (.any c1) (.binop .add (.any c2) (.constInt n2)))
        (cop .csubi [e1, e2]) → env.int n2 = .ok k → rhs env h = r x k) :
    run (cop .csubi [e1, e2]) (⟨_, rhs⟩ :: clauses) =
      match (addendOf e2).filter (·.2 ≠ minInt) with
      | some (x, k) => r x k
      | none => run _ clauses := by
  cases hk : addendOf e2 with
  | none =>
    exact run_skip (linear_guard1 (.binop (.any (by decide)) (.binop (.any (by decide))
      (.constInt (by decide)))) (by decide)) (not_fits_guarded fun env hf =>
        not_fits_addend hk hd2 env (fits_cop hf).2)
  | some p =>
    obtain ⟨x, k⟩ := p
    obtain rfl := addendOf_eq_some.1 hk
    have hx := core_of_noDebug (noDebug_cop2.1 hd2).1
    rw [run_guard (e := cop .csubi [e1, cop .caddi [x, cconstInt k]])
      (.binop (.any (by decide)) (.binop (.any (by decide)) (.constInt (by decide))))
      (bare_of_noDebug (noDebug_cop2.2 ⟨hd1, hd2⟩) _)
      ⟨_, _, _, rfl, rfl, trivial, _, _, _, rfl, rfl, trivial, k, rfl⟩ (b := decide (k ≠ minInt))
      (fun env hf => by rw [int_of_fits (fits_cop (fits_cop hf).2).2]; rfl)
      (r := r x k) (fun env h hf => hr env h x k
        (by rw [expr_of_fits_any (fits_cop (fits_cop hf).2).1, hx]) hf
        (int_of_fits (fits_cop (fits_cop hf).2).2))]
    by_cases hm : k = minInt <;> simp [hm, filter]

end

section

variable {t1 t2 : Expression O} (h1 : t1.tail = t1) (h2 : t2.tail = t2)
  (hd1 : t1.containsDebugOnlyConstructs = false) (hd2 : t2.containsDebugOnlyConstructs = false)

include h1 h2 hd1 hd2

theorem addInt'_body : addInt' t1 t2 =
    addIntBody addInt' (cop .caddi [preferAdd t1, preferAdd t2]) (preferAdd t1) (preferAdd t2) := by
  rw [addInt', mapTail2, mapTail1_eq, mapTail1_eq, h1, h2, map_setTail_of_tail_eq h1,
    map_setTail_of_tail_eq h2]
  rw [← debug_preferAdd] at hd1 hd2
  generalize preferAdd t1 = e1 at *
  generalize preferAdd t2 = e2 at *
  have hbare := bare_of_noDebug (e := cop (O := O) .caddi [e1, e2]) (noDebug_cop2.2 ⟨hd1, hd2⟩)
  have hc1 := core_of_noDebug hd1
  have hc2 := core_of_noDebug hd2
  cases hk1 : constOf e1 with
  | some k =>
    obtain rfl := constOf_eq_some.1 hk1
    rw [run_match (.binop (.constInt (by decide)) (.any (by decide))) (hbare _)
      ⟨_, _, _, rfl, rfl, ⟨k, rfl⟩, trivial⟩ (r := addConst e2 k) fun env _ hf => ?_]
    · rfl
    · rw [int_of_fits (fits_cop hf).1, expr_of_fits_any (fits_cop hf).2, hc2]; rfl
  | none =>
    rw [run_skip (.binop (.constInt (by decide)) (.any (by decide))) fun env hf =>
      constOf_ne hk1 hc1 (fits_cop hf).1]
    cases hk2 : constOf e2 with
    | some k =>
      obtain rfl := constOf_eq_some.1 hk2
      rw [run_match (.binop (.any (by decide)) (.constInt (by decide))) (hbare _)
        ⟨_, _, _, rfl, rfl, trivial, k, rfl⟩ (r := addConst e1 k) fun env _ hf => ?_]
      · rw [addIntBody, hk1]; rfl
      · rw [int_of_fits (fits_cop hf).2, expr_of_fits_any (fits_cop hf).1, hc1]; rfl
    | none =>
      rw [run_skip (.binop (.any (by decide)) (.constInt (by decide))) fun env hf =>
        constOf_ne hk2 hc2 (fits_cop hf).2]
      cases ha1 : addendOf e1 with
      | some p =>
        obtain ⟨x, k⟩ := p
        obtain rfl := addendOf_eq_some.1 ha1
        rw [run_match (.binop (.binop (.any (by decide)) (.constInt (by decide)))
          (.any (by decide))) (hbare _) ⟨_, _, _, rfl, rfl, ⟨_, _, _, rfl, rfl, trivial, k, rfl⟩,
          trivial⟩ (r := do addConst (← addInt' x e2) k) fun env _ hf => ?_]
        · rw [addIntBody, hk2]; rfl
        obtain ⟨hf1, hf2⟩ := fits_cop hf
        rw [withExpr_eq (expr_of_fits_any (fits_cop hf1).1), withExpr_eq (expr_of_fits_any hf2),
          int_of_fits (fits_cop hf1).2, hc2, core_of_noDebug (noDebug_cop2.1 hd1).1]
        rfl
      | none =>
        rw [run_skip (.binop (.binop (.any (by decide)) (.constInt (by decide)))
          (.any (by decide))) fun env hf => not_fits_addend ha1 hd1 env (fits_cop hf).1]
        cases ha2 : addendOf e2 with
        | some p =>
          obtain ⟨x, k⟩ := p
          obtain rfl := addendOf_eq_some.1 ha2
          rw [run_match (.binop (.any (by decide)) (.binop (.any (by decide))
            (.constInt (by decide)))) (hbare _) ⟨_, _, _, rfl, rfl, trivial, _, _, _, rfl, rfl,
            trivial, k, rfl⟩ (r := do addConst (← addInt' e1 x) k) fun env _ hf => ?_]
          · rw [addIntBody, hk1, ha1]; rfl
          obtain ⟨hf1, hf2⟩ := fits_cop hf
          rw [withExpr_eq (expr_of_fits_any hf1), withExpr_eq (expr_of_fits_any (fits_cop hf2).1),
            int_of_fits (fits_cop hf2).2, hc1, core_of_noDebug (noDebug_cop2.1 hd2).1]
          rfl
        | none =>
          rw [run_skip (.binop (.any (by decide)) (.binop (.any (by decide))
            (.constInt (by decide)))) fun env hf => not_fits_addend ha2 hd2 env (fits_cop hf).2,
            addIntBody, hk1, hk2, ha1, ha2]
          rfl

theorem subInt'_body : subInt' t1 t2 =
    subIntBody subInt' (preferAdd t1) (preferAdd t2) (preferAdd t1) (preferAdd t2) := by
  rw [subInt', mapTail2, mapTail1_eq, mapTail1_eq, h1, h2, map_setTail_of_tail_eq h1,
    map_setTail_of_tail_eq h2]
  rw [← debug_preferAdd] at hd1 hd2
  generalize preferAdd t1 = e1 at *
  generalize preferAdd t2 = e2 at *
  have hc1 := core_of_noDebug hd1
  have hc2 := core_of_noDebug hd2
  rw [run_subConst hd1 hd2 fun env h k hf hk => by
    rw [expr_of_fits_any (fits_cop hf).1, hk, hc1], subIntBody]
  cases (constOf e2).filter (· ≠ minInt) with
  | some k => rfl
  | none =>
    rw [run_subAddend (r := fun x k => do addConst (← subInt' e1 x) (-k)) hd1 hd2
      fun env h x k hx hf hk => by
        rw [withExpr_eq (expr_of_fits_any (fits_cop hf).1), withExpr_eq hx, hk, hc1]; rfl]
    cases (addendOf e2).filter (·.2 ≠ minInt) with
    | some p => rfl
    | none =>
      cases ha1 : addendOf e1 with
      | some p =>
        obtain ⟨x, k⟩ := p
        obtain rfl := addendOf_eq_some.1 ha1
        rw [run_match linear_subAdd (bare_of_noDebug (noDebug_cop2.2 ⟨hd1, hd2⟩) _)
          ⟨_, _, _, rfl, rfl, ⟨_, _, _, rfl, rfl, trivial, k, rfl⟩, trivial⟩
          (r := do addConst (← subInt' x e2) k) fun env _ hf => ?_]
        obtain ⟨hf1, hf2⟩ := fits_cop hf
        rw [withExpr_eq (expr_of_fits_any (fits_cop hf1).1), withExpr_eq (expr_of_fits_any hf2),
          int_of_fits (fits_cop hf1).2, hc2, core_of_noDebug (noDebug_cop2.1 hd1).1]
        rfl
      | none =>
        rw [run_skip linear_subAdd fun env hf => not_fits_addend ha1 hd1 env (fits_cop hf).1]
        rfl

end

/-! ## §2 Negations -/

/-- What `neg_int` builds at the tail of its argument. -/
inductive Negated : Expression O → Prop
  | const (k : OcamlInt) : Negated (cconstInt k)
  | sub (x : OcamlInt) {y : Expression O} : core y = y → Negated (cop .csubi [cconstInt x, y])
  | add {t : Expression O} (k : OcamlInt) : Negated t → Negated (cop .caddi [t, cconstInt k])

omit [DecidableEq O] in
theorem Negated.merged {t : Expression O} (h : Negated t) (k x : OcamlInt) :
    Negated (addNoOverflow k x t) := by
  unfold addNoOverflow
  dsimp only
  split
  · exact h
  · exact .add _ h

omit [DecidableEq O] in
theorem Negated.tail_eq {t : Expression O} (h : Negated t) : t.tail = t := by
  cases h <;> rfl

omit [DecidableEq O] in
theorem Negated.core_eq {t : Expression O} (h : Negated t) : core t = t := by
  cases h <;> rfl

omit [DecidableEq O] in
theorem debug_addNoOverflow (k x : OcamlInt) (t : Expression O) :
    (addNoOverflow k x t).containsDebugOnlyConstructs = t.containsDebugOnlyConstructs := by
  unfold addNoOverflow
  dsimp only
  split
  · rfl
  · exact debug_cop_left t _

/-- A negation again, with the same debugging constructs. -/
def KeepsNegated (t : Expression O) (result : Except (Fatal O) (Expression O)) : Prop :=
  ∃ r, result = .ok r ∧ Negated r ∧ r.containsDebugOnlyConstructs = t.containsDebugOnlyConstructs

omit [DecidableEq O] in
theorem Negated.keepsNegated_default {t : Expression O} (h : Negated t) (k : OcamlInt) :
    KeepsNegated t (.ok (cop .caddi [t, cconstInt k])) :=
  ⟨_, rfl, .add _ h, debug_cop_left t k⟩

omit [DecidableEq O] in
theorem keepsNegated_const (x k : OcamlInt) :
    KeepsNegated (O := O) (cconstInt x) (addConstDirect (cconstInt x) k) := by
  rw [addConstDirect]
  split
  · exact ⟨_, rfl, .const x, rfl⟩
  rw [mapTail1_eq]
  dsimp only [tail, preferAdd]
  split
  · exact ⟨_, rfl, .const _, rfl⟩
  · exact (Negated.const x).keepsNegated_default k

omit [DecidableEq O] in
theorem Negated.keepsNegated {t : Expression O} (h : Negated t) (k : OcamlInt) :
    KeepsNegated t (addConstDirect t k) := by
  cases h with
  | const x => exact keepsNegated_const x k
  | @sub x y hy =>
    rw [addConstDirect]
    split
    · exact ⟨_, rfl, .sub x hy, rfl⟩
    rw [mapTail1_eq]
    dsimp only [tail, preferAdd]
    split
    · exact ⟨_, rfl, .sub _ hy, rfl⟩
    cases y with
    | cconstInt x' =>
      dsimp only
      split
      · obtain ⟨r, hr, hneg, hdebug⟩ := keepsNegated_const (O := O) x (k - x')
        rw [hr]
        exact ⟨r, rfl, hneg, hdebug⟩
      · exact (Negated.sub x hy).keepsNegated_default k
    | _ => exact (Negated.sub x hy).keepsNegated_default k
  | @add t x ht =>
    have hdefault := (Negated.add x ht).keepsNegated_default k
    have hmerged : KeepsNegated (cop .caddi [t, cconstInt x]) (.ok (addNoOverflow k x t)) :=
      ⟨_, rfl, ht.merged k x, (debug_addNoOverflow k x t).trans (debug_cop_left t x).symm⟩
    rw [addConstDirect]
    split
    · exact ⟨_, rfl, .add x ht, rfl⟩
    rw [mapTail1_eq]
    dsimp only [tail, preferAdd]
    cases ht with
    | const x' =>
      dsimp only
      split
      · exact ⟨_, rfl, (Negated.const x).merged k x', debug_addNoOverflow k x' _⟩
      split
      · exact hmerged
      · exact hdefault
    | _ =>
      dsimp only
      split
      · exact hmerged
      · exact hdefault

omit [DecidableEq O] in
/-- On negations, the engine does the same. -/
theorem Negated.addConst'_eq {t : Expression O} (h : Negated t) (k : OcamlInt) :
    addConst' t k = addConstDirect t k := by
  have hprefer : preferAdd t = t := by cases h <;> rfl
  by_cases hk : k = 0
  · subst hk
    rw [addConst', mapTail1_eq, h.tail_eq, hprefer, addConstDirect, if_pos rfl,
      run_match (.binop (.any (by decide)) .constIntFixed) (r := .ok t)]
    · exact congrArg Except.ok (setTail_of_tail_eq h.tail_eq t)
    · exact bare_addInt h.core_eq rfl
    · exact ⟨_, _, _, rfl, rfl, trivial, rfl⟩
    · intro env _ hfits; rw [expr_of_fits_any (fits_cop hfits).1, h.core_eq]
  rw [addConst'_body h.tail_eq hk, addConstDirect_body h.tail_eq hk, hprefer]
  · cases h with
    | const x | add x ht => rfl
    | @sub x y hy =>
      have hconst : ∀ k', addConst' (cconstInt x : Expression O) k' =
          addConstDirect (cconstInt x) k' := fun k' => (Negated.const x).addConst'_eq k'
      simp only [addConstBody, hconst]
  intro o a b heq
  rw [hprefer] at heq
  cases h with
  | const x => cases heq
  | sub x hy => cases heq; exact ⟨rfl, hy⟩
  | add x ht => cases heq; exact ⟨ht.core_eq, rfl⟩
termination_by t.weight
decreasing_by simp only [weight, weightList]; omega

/-- `add_const` returns when the tail is a negation. -/
theorem Negated.addConst {c : Expression O} (h : Negated c.tail) (k : OcamlInt) :
    ∃ r, addConst c k = .ok (c.setTail r) ∧ Negated r ∧
      r.containsDebugOnlyConstructs = c.tail.containsDebugOnlyConstructs := by
  obtain ⟨r, hr, hneg, hdebug⟩ := h.keepsNegated k
  refine ⟨r, checkEqual1_same ?_ ?_, hneg, hdebug⟩
  · rw [addConstDirect_tail, hr]; rfl
  · rw [addConst'_tail, h.addConst'_eq, hr]; rfl

/-- The results of both versions of `neg_int`. -/
structure Negation (c : Expression O) : Prop where
  direct : ∃ r, subIntDirect (cconstInt 0) c = .ok r ∧ Negated r.tail ∧
    (c.containsDebugOnlyConstructs = true → r.containsDebugOnlyConstructs = true)
  engine : ∃ r, subInt' (cconstInt 0) c = .ok r ∧ Negated r.tail
  same : c.containsDebugOnlyConstructs = false →
    subInt' (cconstInt 0) c = subIntDirect (cconstInt 0) c

theorem subIntDirect_tail (c : Expression O) : subIntDirect (cconstInt 0) c =
      (subIntDirect (cconstInt 0) c.tail).map fun t => c.setTail t := by
  rw [subIntDirect.eq_def _ c, subIntDirect.eq_def _ c.tail, mapTail2, mapTail2, mapTail1_eq c,
    mapTail1_eq c.tail, tail_tail, map_setTail_tail]

theorem subInt'_tail (c : Expression O) :
    subInt' (cconstInt 0) c = (subInt' (cconstInt 0) c.tail).map fun t => c.setTail t := by
  rw [subInt'.eq_def _ c, subInt'.eq_def _ c.tail, mapTail2, mapTail2, mapTail1_eq c,
    mapTail1_eq c.tail, tail_tail, map_setTail_tail]

omit [DecidableEq O] in
theorem tail_placePhantomLets (env : Env O) (e : Expression O) :
    (env.placePhantomLets e).tail = e.tail := by
  rw [Env.placePhantomLets]
  induction env.phantomLetsRev generalizing e with
  | nil => rfl
  | cons p ps ih => rw [List.foldl_cons, ih, tail]

section

variable {t : Expression O} (ht : t.tail = t)
  (ih : ∀ c : Expression O, c.weight < t.weight → Negation c)

include ht ih

theorem negation_direct : ∃ r, subIntDirect (cconstInt 0) t = .ok r ∧ Negated r.tail ∧
    (t.containsDebugOnlyConstructs = true → r.containsDebugOnlyConstructs = true) := by
  have hw := weight_preferAdd t
  have hcore : core t = t := by rw [← ht, core_tail]
  have hmap : ∀ x : Except (Fatal O) (Expression O), x.map (fun r => t.setTail r) = x := by
    rw [← ht]
    exact map_setTail_tail t
  have hdefault : ∃ r, (.ok (cop .csubi [cconstInt 0, t]) : Except (Fatal O) (Expression O)) =
      .ok r ∧ Negated r.tail ∧
      (t.containsDebugOnlyConstructs = true → r.containsDebugOnlyConstructs = true) := by
    refine ⟨_, rfl, .sub 0 hcore, fun hdebug => ?_⟩
    simp [containsDebugOnlyConstructs, anyContainsDebugOnlyConstructs, hdebug]
  rw [subIntDirect, mapTail2, mapTail1_eq t, ht, hmap]
  dsimp only [mapTail1]
  split
  case h_1 heq _ => cases heq
  case h_2 heq _ => cases heq
  case h_3 k hc _ =>
    split
    · obtain ⟨r, hr, hneg, -⟩ := Negated.addConst (O := O) (c := cconstInt 0) (.const 0) (-k)
      rw [hr]
      refine ⟨_, rfl, hneg.tail_eq.symm ▸ hneg, fun hdebug => ?_⟩
      rcases preferAdd_cases t with heq | ⟨_, _, -, -, heq⟩
      · rw [← heq, hc] at hdebug; cases hdebug
      · cases hc.symm.trans heq
    · exact hdefault
  case h_4 x k hc _ =>
    rw [hc] at hw
    simp only [weight, weightList] at hw
    split
    · obtain ⟨r₀, hr₀, hneg₀, hdebug₀⟩ := (ih x (by omega)).direct
      obtain ⟨r, hr, hneg, hdebug⟩ := hneg₀.addConst (-k)
      rw [hr₀]
      dsimp only [Bind.bind, Except.bind]
      rw [hr]
      refine ⟨_, rfl, ?_, fun hdebugt => ?_⟩
      · rw [tail_setTail, hneg.tail_eq]; exact hneg
      · rw [← debug_preferAdd, hc, debug_cop_left] at hdebugt
        exact debug_setTail (fun h => hdebug.trans h) (hdebug₀ hdebugt)
    · exact hdefault
  case h_5 heq _ _ => cases heq
  case h_6 => exact hdefault

theorem negation_engine : ∃ r, subInt' (cconstInt 0) t = .ok r ∧ Negated r.tail := by
  have hw := weight_preferAdd t
  have hmap : ∀ x : Except (Fatal O) (Expression O), x.map (fun r => t.setTail r) = x := by
    rw [← ht]
    exact map_setTail_tail t
  have hcore : core (preferAdd t) = preferAdd t := by
    rcases preferAdd_cases t with heq | ⟨_, _, -, -, heq⟩
    · rw [heq, ← ht, core_tail]
    · rw [heq]; rfl
  rw [subInt', mapTail2, mapTail1_eq t, ht, hmap]
  refine matchClausesInOrder_total (P := fun r : Expression O => Negated r.tail) ?_
    fun clause hmem => ?_
  · exact .sub 0 hcore
  simp only [List.mem_cons, List.not_mem_nil, or_false] at hmem
  rcases hmem with rfl | rfl | rfl
  · refine ⟨_, _, linear_guard1 (.binop (.any (by decide)) (.constInt (by decide))) (by decide),
      fun env hmatch hbinds => ?_⟩
    obtain ⟨k, hk⟩ := hbinds.int (v := n2) (by decide)
    obtain ⟨r, hr, hneg, -⟩ := Negated.addConst (O := O) (c := cconstInt 0) (.const 0) (-k)
    refine ⟨r, ?_, ?_⟩
    · dsimp only
      rw [expr_of_fits_any (fits_cop (match_fits hmatch).2.1).1, hk]
      exact hr
    · rw [tail_placePhantomLets, hneg.tail_eq]; exact hneg
  · refine ⟨_, _, linear_guard1 (.binop (.any (by decide))
      (.binop (.any (by decide)) (.constInt (by decide)))) (by decide), fun env hmatch hbinds => ?_⟩
    obtain ⟨k, hk⟩ := hbinds.int (v := n2) (by decide)
    obtain ⟨x, hx⟩ := hbinds.expr (v := c2) (by decide)
    obtain ⟨hf1, hf2⟩ := fits_cop (match_fits hmatch).2.1
    have hlt := weight_lt_of_fits hf2 hx
    obtain ⟨r₀, hr₀, hneg₀⟩ := (ih x (by omega)).engine
    obtain ⟨r, hr, hneg, -⟩ := hneg₀.addConst (-k)
    refine ⟨r₀.setTail r, ?_, ?_⟩
    · dsimp only
      rw [withExpr_eq (expr_of_fits_any hf1), withExpr_eq hx, hk]
      show (do addConst (← subInt' (cconstInt 0) x) (-k)) = _
      rw [hr₀]
      exact hr
    · rw [tail_placePhantomLets, tail_setTail, hneg.tail_eq]; exact hneg
  refine ⟨_, _, .binop (.binop (.any (by decide)) (.constInt (by decide))) (.any (by decide)),
    fun env hmatch hbinds => ?_⟩
  exact (nofits_const (fits_cop (match_fits hmatch).2).1).elim

theorem negation_same (hdebug : t.containsDebugOnlyConstructs = false) :
    subInt' (cconstInt 0) t = subIntDirect (cconstInt 0) t := by
  have hw := weight_preferAdd t
  have hdebug' : (preferAdd t).containsDebugOnlyConstructs = false :=
    (debug_preferAdd t).trans hdebug
  have hzero : preferAdd (cconstInt 0 : Expression O) = cconstInt 0 := rfl
  have hadd : addendOf (cconstInt 0 : Expression O) = none := rfl
  rw [subInt'_body rfl ht rfl hdebug, subIntDirect_body rfl ht, hzero, subIntBody, subIntBody, hadd]
  cases (constOf (preferAdd t)).filter (· ≠ minInt) with
  | some k => rfl
  | none =>
    cases ha : (addendOf (preferAdd t)).filter (·.2 ≠ minInt) with
    | some p =>
      obtain ⟨x, k⟩ := p
      have heq := addendOf_eq_some.1 (Option.filter_eq_some_iff.1 ha).1
      rw [heq] at hdebug' hw
      simp only [weight, weightList] at hw
      have hx := (ih x (by omega)).same (noDebug_cop2.1 hdebug').1
      simp only [hx]
    | none =>
      -- an addition that `prefer_add` makes is of another constant
      rcases preferAdd_cases t with heq | ⟨x, k, hne, -, heq⟩
      · simp only [heq]
      · rw [heq] at ha; simp [addendOf, hne] at ha

end

/-- Both versions of `neg_int` return and agree. -/
theorem negation (c : Expression O) : Negation c := by
  induction hw : c.weight using Nat.strongRecOn generalizing c with | ind w ih =>
have hle := weight_tail_le c
have ht : Negation c.tail := by
  have ih' : ∀ c' : Expression O, c'.weight < c.tail.weight → Negation c' := fun c' h =>
    ih _ (by omega) c' rfl
  exact ⟨negation_direct (tail_tail c) ih', negation_engine (tail_tail c) ih',
    negation_same (tail_tail c) ih'⟩
obtain ⟨r, hr, hneg, hdebug⟩ := ht.direct
obtain ⟨r', hr', hneg'⟩ := ht.engine
refine ⟨⟨c.setTail r, ?_, ?_, debug_setTail hdebug⟩, ⟨c.setTail r', ?_, ?_⟩, fun hc => ?_⟩
· rw [subIntDirect_tail, hr]; rfl
· rw [tail_setTail]; exact hneg
· rw [subInt'_tail, hr']; rfl
· rw [tail_setTail]; exact hneg'
have hc' : c.tail.containsDebugOnlyConstructs = false := by
  rw [← Bool.not_eq_true] at hc ⊢
  exact mt debug_of_tail hc
rw [subInt'_tail, subIntDirect_tail, ht.same hc']

/-- `neg_int` is never fatal. -/
theorem negInt_total (c : Expression O) : ∃ e, negInt c = .ok e := by
  obtain ⟨⟨r, hr, -, hdebug⟩, ⟨r', hr', -⟩, hsame⟩ := negation c
  have hagree : r = r' ∨ r.containsDebugOnlyConstructs = true := by
    cases hc : c.containsDebugOnlyConstructs with
    | false => exact .inl (Except.ok.inj (hr.symm.trans ((hsame hc).symm.trans hr')))
    | true => exact .inr (hdebug hc)
  obtain ⟨e, he, -⟩ := checkEqual1_total "sub_int" hr hr' hagree
  exact ⟨e, he⟩

/-! ## §3 Nothing to simplify -/

/-- Operands that no rule for sums and differences applies to. -/
inductive Plain : Expression O → Prop
  | cvar (v : BackendVar) : Plain (cvar v)
  | cconstSymbol (sym : Symbol) : Plain (cconstSymbol sym)
  | cop {op : Operation O} {a b : Expression O} : op ≠ .caddi → op ≠ .cor →
    a.containsDebugOnlyConstructs = false → b.containsDebugOnlyConstructs = false →
    Plain (cop op [a, b])
  | caddi {a b : Expression O} : a.containsDebugOnlyConstructs = false → Plain b →
    Plain (cop .caddi [a, b])

namespace Plain

variable {x y : Expression O}

omit [DecidableEq O]

section

variable (h : Plain x)
include h

theorem noDebug : x.containsDebugOnlyConstructs = false := by
  induction h with
  | cvar v | cconstSymbol sym => rfl
  | cop _ _ ha hb => exact noDebug_cop2.2 ⟨ha, hb⟩
  | caddi ha _ ih => exact noDebug_cop2.2 ⟨ha, ih⟩

theorem tail_eq : x.tail = x := by
  cases h <;> rfl

theorem ne_const (k : OcamlInt) : x ≠ cconstInt k := by
  cases h <;> exact fun heq => nomatch heq

theorem getConst_eq : getConst x = none := by
  cases h <;> rfl

theorem ne_add_const (a : Expression O) (k : OcamlInt) :
    x ≠ Expression.cop .caddi [a, cconstInt k] := by
  cases h with
  | cvar v | cconstSymbol sym => exact fun heq => nomatch heq
  | cop hne =>
    rintro heq
    cases heq
    exact hne rfl
  | caddi _ hb =>
    intro heq
    cases heq
    exact hb.ne_const k rfl

theorem preferAdd_eq : preferAdd x = x := by
  cases h with
  | cop _ hne =>
    rcases preferAdd_cases (Expression.cop _ _) with heq | ⟨_, _, -, heq, -⟩
    · exact heq
    · cases heq; exact absurd rfl hne
  | _ => rfl

end

end Plain

section

variable {x y : Expression O} (hx : Plain x) (hy : Plain y)

include hx hy

theorem addInt_plain : addInt x y = .ok (cop .caddi [x, y]) := by
  refine checkEqual1_same ?_ ?_
  · rw [addIntDirect_body hx.tail_eq hy.tail_eq, hx.preferAdd_eq, hy.preferAdd_eq, addIntBody,
      constOf_eq_none hx.ne_const, constOf_eq_none hy.ne_const, addendOf_eq_none hx.ne_add_const,
      addendOf_eq_none hy.ne_add_const]
    rfl
  rw [addInt'_body hx.tail_eq hy.tail_eq hx.noDebug hy.noDebug, hx.preferAdd_eq,
    hy.preferAdd_eq, addIntBody, constOf_eq_none hx.ne_const, constOf_eq_none hy.ne_const,
    addendOf_eq_none hx.ne_add_const, addendOf_eq_none hy.ne_add_const]
  rfl

theorem subInt_plain : subInt x y = .ok (cop .csubi [x, y]) := by
  refine checkEqual1_same ?_ ?_
  · rw [subIntDirect_body hx.tail_eq hy.tail_eq, hx.preferAdd_eq, hy.preferAdd_eq, subIntBody,
      constOf_eq_none hy.ne_const, addendOf_eq_none hy.ne_add_const,
      addendOf_eq_none hx.ne_add_const]
    rfl
  rw [subInt'_body hx.tail_eq hy.tail_eq hx.noDebug hy.noDebug, hx.preferAdd_eq,
    hy.preferAdd_eq, subIntBody, constOf_eq_none hy.ne_const, addendOf_eq_none hy.ne_add_const,
    addendOf_eq_none hx.ne_add_const]
  rfl

end

omit [DecidableEq O] in
theorem map_setTail_const (k : OcamlInt) (r : Except (Fatal O) (Expression O)) :
    r.map (fun t => (cconstInt k).setTail t) = r := map_setTail_tail (cconstInt k) r

/-- Operands that a rule for shifts may apply to. -/
def isShifted : Expression O → Bool
  | cop .clsl _ | cop .clsr _ | cop .casr _ | cop .cor _ | cop .cxor _ | cop .cand _ => true
  | _ => false

section

variable {x : Expression O} (hx : Plain x)

include hx

omit [DecidableEq O] in
theorem map_setTail_plain1 (r : Except (Fatal O) (Expression O)) :
    r.map (fun t => x.setTail t) = r := by
  rw [← hx.tail_eq, map_setTail_tail]

omit [DecidableEq O] in
theorem preferOr_plain : preferOr x = x := by
  unfold preferOr
  split
  · exact absurd rfl (hx.ne_add_const _ _)
  · rfl

theorem ignoreLowBitInt_plain (hshift : ∀ args, x ≠ cop .clsl args) :
    ignoreLowBitInt x = .ok x := by
  rw [ignoreLowBitInt_eq hx.noDebug, ignoreLowBitIntDirect.eq_def]
  split
  · exact absurd rfl (hx.ne_add_const _ _)
  · cases hx; contradiction
  · exact absurd rfl (hshift _)
  · exact absurd rfl (hshift _)
  · rfl

theorem asrConst_plain (hk : isDefinedShift k = true)
    (hshift : isShifted x = false) :
    asrConst x k = .ok (if k = 0 then x else cop .casr [x, cconstInt k]) := by
  have hnotShift : ∀ args, x ≠ cop .clsl args := fun args heq => by
    rw [heq] at hshift
    cases hshift
  rw [asrConst, asrInt, mapTail2, mapTail1_eq (cconstInt k), mapTail1_eq x, hx.tail_eq,
    map_setTail_plain1 hx]
  dsimp only [tail]
  by_cases hk0 : k = 0
  · rw [if_pos hk0, if_pos hk0]; rfl
  rw [if_neg hk0, if_neg hk0, if_pos hk]
  split
  · rename_i hi
    rw [ignoreLowBitInt_plain hx hnotShift] at hi
    cases hi
  rename_i d hi
  rw [ignoreLowBitInt_plain hx hnotShift] at hi
  cases hi
  rw [hx.getConst_eq]
  dsimp only
  split
  case h_7 => rfl
  all_goals
    rename_i heq
    rw [preferOr_plain hx] at heq
    rw [heq] at hshift
    cases hshift

theorem lsrConst_plain (hk : isDefinedShift k = true)
    (hshift : isShifted x = false ∨ ∃ args, x = cop .casr args) :
    lsrConst x k = .ok (if k = 0 then x else cop .clsr [x, cconstInt k]) := by
  have hnot : ∀ op args, x = cop op args → op = .clsl ∨ op = .clsr ∨ op = .cor ∨ op = .cxor ∨
      op = .cand → False := by
    rintro op args heq hop
    rcases hshift with hshift | ⟨args', hasr⟩
    · rw [heq] at hshift; rcases hop with rfl | rfl | rfl | rfl | rfl <;> cases hshift
    · cases hasr.symm.trans heq; rcases hop with hop | hop | hop | hop | hop <;> cases hop
  have hnotShift : ∀ args, x ≠ cop .clsl args := fun args heq => hnot _ _ heq (.inl rfl)
  rw [lsrConst, lsrInt, mapTail2, mapTail1_eq (cconstInt k), mapTail1_eq x, hx.tail_eq,
    map_setTail_plain1 hx]
  dsimp only [tail]
  by_cases hk0 : k = 0
  · rw [if_pos hk0, if_pos hk0]; rfl
  rw [if_neg hk0, if_neg hk0, if_pos hk]
  split
  · rename_i hi
    rw [ignoreLowBitInt_plain hx hnotShift] at hi
    cases hi
  rename_i d hi
  rw [ignoreLowBitInt_plain hx hnotShift] at hi
  cases hi
  rw [hx.getConst_eq]
  dsimp only
  split
  case h_5 => rfl
  all_goals
    rename_i heq
    rw [preferOr_plain hx] at heq
    exact (hnot _ _ heq (by simp)).elim

/-- A product by a constant that is none of the special cases. -/
theorem mulInt_plain {c2 : Expression O} {d : Nativeint} (hc2 : getConst c2 = some d)
    (h0 : d ≠ 0) (h1 : d ≠ 1) (hneg : d ≠ -1) (hpow : ∀ k : OcamlInt, c2 = cconstInt k →
      isPower2 k = false) : mulInt x c2 = .ok (cop .cmuli [x, c2]) := by
  have hleft : ∀ k, isConstInt k x = false := fun k => by
    unfold isConstInt
    split
    · exact absurd rfl (hx.ne_const _)
    · rfl
  have hright : ∀ k, d ≠ ofInt k → isConstInt k c2 = false := fun k hk => by
    unfold isConstInt
    split
    · rw [← Bool.not_eq_true, beq_iff_eq]
      rintro rfl
      exact hk (Option.some.inj hc2).symm
    · rfl
  have hpow1 : constPower2 x = none := by
    unfold constPower2
    split
    · exact absurd rfl (hx.ne_const _)
    · rfl
  have hpow2 : constPower2 c2 = none := by
    unfold constPower2
    split
    · rw [hpow _ rfl]; rfl
    · rfl
  rw [mulInt, hright 0 h0, hleft 0, hright 1 h1, hleft 1, hright (-1) hneg, hleft (-1), hpow1,
    hpow2]
  · rfl
  · rintro c n k rfl; exact absurd rfl (hx.ne_add_const _ _)
  · rintro k c n rfl; exact absurd rfl (hx.ne_const _)

end

end CmmHelpers

end Oxcaml.Backend
