/-
Oxcaml.Backend.CmmTotality — helpers that always return an expression.

The helpers that exist twice are fatal when their two versions disagree, and
the engine is fatal when a pattern binds a variable twice or a rule reads one
that is not bound. §1 rules the latter out for linear patterns, §2 shows that the comparator
accepts equal expressions.

§3: `ignore_low_bit_int` always returns, and with it `lsr_const` and
`and_const`.
-/
import Oxcaml.Backend.CmmHelpersTheorems

set_option linter.all false

namespace Oxcaml.Backend

open Expression CmmPeepholeEngine

variable {O : Type}

/-! ## §1 Linear patterns -/

namespace CmmPeepholeEngine

/-- The variables that an environment binds. -/
structure Env.Binds (env : Env O) (exprs ints : List Nat) : Prop where
  exprs : ∀ i, (env.exprs i).isSome ↔ i ∈ exprs
  ints : ∀ i, (env.ints i).isSome ↔ i ∈ ints

/-- A pattern that binds no variable twice, from the variables bound before it
to those bound after it, and whose guards read bound variables only. -/
inductive Linear : List Nat → List Nat → CmmPattern O → List Nat → List Nat → Prop
  | any {xs is v} : v.id ∉ xs → Linear xs is (.any v) (v.id :: xs) is
  | as {xs is pat xs' is' v} : Linear xs is pat xs' is' → v.id ∉ xs' →
    Linear xs is (.as v pat) (v.id :: xs') is'
  | constIntFixed {xs is n} : Linear xs is (.constIntFixed n) xs is
  | constInt {xs is v} : v.id ∉ is → Linear xs is (.constInt v) xs (v.id :: is)
  | binop {xs is op pat1 xs₁ is₁ pat2 xs' is'} : Linear xs is pat1 xs₁ is₁ →
    Linear xs₁ is₁ pat2 xs' is' → Linear xs is (.binop op pat1 pat2) xs' is'
  | guarded {xs is pat xs' is' guard} : Linear xs is pat xs' is' →
    (∀ env : Env O, env.Binds xs' is' → ∃ b, guard env = .ok b) →
    Linear xs is (.guarded pat guard) xs' is'

theorem binds_empty : (Env.empty : Env O).Binds [] [] :=
  ⟨fun _ => ⟨nofun, nofun⟩, fun _ => ⟨nofun, nofun⟩⟩

theorem Env.Binds.skip {env : Env O} {xs is : List Nat} (h : env.Binds xs is)
    (e : Expression O) : (env.skip e).1.Binds xs is := by
  induction e using core_induction generalizing env with
  | phantom v exp body ih => exact ih ⟨h.exprs, h.ints⟩
  | named v body ih => exact ih h
  | other e h1 h2 => rw [Env.skip] <;> assumption

variable {env : Env O}

variable {xs is : List Nat}

variable {v : PatternVar .expr}

section

variable (h : env.Binds xs is)
include h

theorem Env.Binds.addExpr (hv : v.id ∉ xs) (e : Expression O) :
    ∃ env', env.addExpr v e = .ok env' ∧ env'.Binds (v.id :: xs) is := by
  rw [Env.addExpr, if_neg (mt (h.exprs _).1 hv)]
  refine ⟨_, rfl, fun i => ?_, h.ints⟩
  dsimp only
  split
  · rename_i heq
    simp [heq]
  · rename_i hne
    rw [h.exprs, List.mem_cons, or_iff_right hne]

theorem Env.Binds.addInt
    {v : PatternVar .int} (hv : v.id ∉ is) (n : OcamlInt) :
    ∃ env', env.addInt v n = .ok env' ∧ env'.Binds xs (v.id :: is) := by
  rw [Env.addInt, if_neg (mt (h.ints _).1 hv)]
  refine ⟨_, rfl, h.exprs, fun i => ?_⟩
  dsimp only
  split
  · rename_i heq
    simp [heq]
  · rename_i hne
    rw [h.ints, List.mem_cons, or_iff_right hne]

theorem Env.Binds.expr (hv : v.id ∈ xs) : ∃ e, env.expr v = .ok e := by
  obtain ⟨e, he⟩ := Option.isSome_iff_exists.1 ((h.exprs _).2 hv)
  exact ⟨e, expr_eq.2 he⟩

theorem Env.Binds.int
    {v : PatternVar .int} (hv : v.id ∈ is) : ∃ n, env.int v = .ok n := by
  obtain ⟨n, hn⟩ := Option.isSome_iff_exists.1 ((h.ints _).2 hv)
  exact ⟨n, int_eq.2 hn⟩

end

variable {pat : CmmPattern O} {xs is xs' is' : List Nat}

/-- Matching a linear pattern is not fatal. -/
theorem Linear.match (h : Linear xs is pat xs' is') (henv : env.Binds xs is) (e : Expression O) :
    matchOnePattern env pat e = .ok none ∨
      ∃ env', matchOnePattern env pat e = .ok (some env') ∧ env'.Binds xs' is' := by
  induction h generalizing env e with
  | any hv =>
    have hskip := henv.skip e
    rw [matchOnePattern.eq_def]
    generalize env.skip e = r at hskip
    obtain ⟨env₁, hadd, hbinds⟩ := hskip.addExpr hv r.2
    refine .inr ⟨env₁, ?_, hbinds⟩
    dsimp only
    rw [hadd]
    rfl
  | as _ hv ih =>
    have hskip := henv.skip e
    rw [matchOnePattern.eq_def]
    generalize env.skip e = r at hskip
    obtain ⟨env₀, e₀⟩ := r
    dsimp only
    rcases ih hskip e₀ with hnone | ⟨env₁, hsome, hbinds⟩
    · rw [hnone]; exact .inl rfl
    obtain ⟨env₂, hadd, hbinds'⟩ := hbinds.addExpr hv e₀
    refine .inr ⟨env₂, ?_, hbinds'⟩
    rw [hsome]
    exact congrArg (fun x => x >>= fun env => pure (some env)) hadd
  | constIntFixed =>
    have hskip := henv.skip e
    rw [matchOnePattern.eq_def]
    generalize env.skip e = r at hskip
    obtain ⟨env₀, e₀⟩ := r
    cases e₀ with
    | cconstInt n2 =>
      dsimp only
      split
      · exact .inr ⟨_, rfl, hskip⟩
      · exact .inl rfl
    | _ => exact .inl rfl
  | constInt hv =>
    have hskip := henv.skip e
    rw [matchOnePattern.eq_def]
    generalize env.skip e = r at hskip
    obtain ⟨env₀, e₀⟩ := r
    cases e₀ with
    | cconstInt n =>
      obtain ⟨env₁, hadd, hbinds⟩ := hskip.addInt hv n
      refine .inr ⟨env₁, ?_, hbinds⟩
      dsimp only
      rw [hadd]
      rfl
    | _ => exact .inl rfl
  | binop _ _ ih1 ih2 =>
    have hskip := henv.skip e
    rw [matchOnePattern.eq_def]
    generalize env.skip e = r at hskip
    obtain ⟨env₀, e₀⟩ := r
    cases e₀ with
    | cop o args =>
      rcases args with _ | ⟨e1, _ | ⟨e2, _ | ⟨e3, es⟩⟩⟩ <;> try exact .inl rfl
      dsimp only
      split
      · rcases ih1 hskip e1 with hnone | ⟨env₁, hsome, hbinds⟩
        · rw [hnone]; exact .inl rfl
        · rw [hsome]; exact ih2 hbinds e2
      · exact .inl rfl
    | _ => exact .inl rfl
  | guarded _ hguard ih =>
    have hskip := henv.skip e
    rw [matchOnePattern.eq_def]
    generalize env.skip e = r at hskip
    obtain ⟨env₀, e₀⟩ := r
    dsimp only
    rcases ih hskip e₀ with hnone | ⟨env₁, hsome, hbinds⟩
    · rw [hnone]; exact .inl rfl
    obtain ⟨b, hb⟩ := hguard env₁ hbinds
    rw [hsome]
    cases b with
    | false =>
      refine .inl ?_
      exact congrArg (fun x => x >>= fun b => pure (if b = true then some env₁ else none)) hb
    | true =>
      refine .inr ⟨env₁, ?_, hbinds⟩
      exact congrArg (fun x => x >>= fun b => pure (if b = true then some env₁ else none)) hb

/-- The expressions that a pattern should match. -/
def Shape : CmmPattern O → Expression O → Prop
  | .any _, _ => True
  | .as _ pat, e => Shape pat e
  | .constIntFixed n, e => core e = cconstInt n
  | .constInt _, e => ∃ n, core e = cconstInt n
  | .constNatintFixed n, e => core e = cconstNatint n
  | .constNatint _, e => ∃ n, core e = cconstNatint n
  | .binop op pat1 pat2, e => ∃ o e1 e2, core e = cop o [e1, e2] ∧ matchesBinop op o = true ∧
    Shape pat1 e1 ∧ Shape pat2 e2
  | .guarded pat guard, e => Shape pat e ∧ ∀ env, Fits env pat e → guard env = .ok true

variable {e : Expression O}

theorem shape_core : Shape pat (core e) ↔ Shape pat e := by
  induction pat with
  | any v => exact Iff.rfl
  | as v pat ih => exact ih
  | guarded pat guard ih => simp only [Shape, ih, fits_core]
  | _ => simp only [Shape, core_core]

theorem Linear.match_of_shape (h : Linear xs is pat xs' is') (henv : env.Binds xs is)
    (he : Shape pat e) : ∃ env', matchOnePattern env pat e = .ok (some env') := by
  induction h generalizing env e with
  | any hv =>
    rcases (Linear.any hv).match henv e with hnone | ⟨env', hsome, -⟩
    · have hskip := henv.skip e
      rw [matchOnePattern.eq_def] at hnone
      generalize env.skip e = r at hskip hnone
      obtain ⟨env₁, hadd, -⟩ := hskip.addExpr hv r.2
      dsimp only at hnone
      rw [hadd] at hnone
      cases hnone
    · exact ⟨env', hsome⟩
  | as hpat hv ih =>
    obtain ⟨hskip, hcore⟩ := And.intro (henv.skip e) (skip_snd env e)
    rw [matchOnePattern.eq_def]
    generalize env.skip e = r at hskip hcore
    obtain ⟨env₀, e₀⟩ := r
    dsimp only at hcore ⊢
    subst hcore
    obtain ⟨env₁, hsome⟩ := ih hskip (shape_core.2 he)
    rcases hpat.match hskip (core e) with hnone | ⟨env₁', hsome', hbinds⟩
    · cases hnone.symm.trans hsome
    obtain ⟨env₂, hadd, -⟩ := hbinds.addExpr hv (core e)
    refine ⟨env₂, ?_⟩
    rw [hsome']
    exact congrArg (fun x => x >>= fun env => pure (some env)) hadd
  | constIntFixed =>
    have hcore := skip_snd env e
    rw [matchOnePattern.eq_def]
    generalize env.skip e = r at hcore
    obtain ⟨env₀, e₀⟩ := r
    subst hcore
    rw [he]
    exact ⟨_, congrArg _ (if_pos rfl)⟩
  | constInt hv =>
    obtain ⟨hskip, hcore⟩ := And.intro (henv.skip e) (skip_snd env e)
    rw [matchOnePattern.eq_def]
    generalize env.skip e = r at hskip hcore
    obtain ⟨env₀, e₀⟩ := r
    obtain ⟨n, hn⟩ := he
    rw [hn] at hcore
    subst hcore
    obtain ⟨env₁, hadd, -⟩ := hskip.addInt hv n
    exact ⟨env₁, congrArg (fun x => x >>= fun env => pure (some env)) hadd⟩
  | binop hpat1 _ ih1 ih2 =>
    obtain ⟨hskip, hcore⟩ := And.intro (henv.skip e) (skip_snd env e)
    rw [matchOnePattern.eq_def]
    generalize env.skip e = r at hskip hcore
    obtain ⟨env₀, e₀⟩ := r
    obtain ⟨o, e1, e2, heq, hop, h1, h2⟩ := he
    rw [heq] at hcore
    subst hcore
    obtain ⟨env₁, hsome⟩ := ih1 hskip h1
    rcases hpat1.match hskip e1 with hnone | ⟨env₁', hsome', hbinds⟩
    · cases hnone.symm.trans hsome
    obtain ⟨env₂, hsome₂⟩ := ih2 hbinds h2
    refine ⟨env₂, ?_⟩
    dsimp only
    rw [if_pos hop, hsome']
    exact hsome₂
  | guarded _ _ ih =>
    obtain ⟨hskip, hcore⟩ := And.intro (henv.skip e) (skip_snd env e)
    rw [matchOnePattern.eq_def]
    generalize env.skip e = r at hskip hcore
    obtain ⟨env₀, e₀⟩ := r
    dsimp only at hcore ⊢
    subst hcore
    obtain ⟨env₁, hsome⟩ := ih hskip (shape_core.2 he.1)
    have hguard := he.2 env₁ (fits_core.1 (match_fits hsome).2)
    refine ⟨env₁, ?_⟩
    rw [hsome]
    exact congrArg (fun x => x >>= fun b => pure (if b = true then some env₁ else none)) hguard

/-- A linear pattern that cannot fit is passed over. -/
theorem Linear.not_match (h : Linear [] [] pat xs is) (he : ∀ env, ¬ Fits env pat e) :
    matchOnePattern .empty pat e = .ok none := by
  rcases h.match binds_empty e with hnone | ⟨env, hsome, -⟩
  · exact hnone
  · exact absurd (match_fits hsome).2 (he env)

theorem skip_of_core (h : core e = e) (env : Env O) : env.skip e = (env, e) := by
  have hphantom : ∀ (e : Expression O) v exp body, core e ≠ cphantomLet v exp body := by
    intro e v exp body heq
    induction e using core_induction with
    | phantom _ _ _ ih | named _ _ ih => exact ih heq
    | other e h1 h2 => rw [core] at heq <;> first | exact h1 _ _ _ heq | assumption
  have hname : ∀ (e : Expression O) v body, core e ≠ cnameForDebugger v body := by
    intro e v body heq
    induction e using core_induction with
    | phantom _ _ _ ih | named _ _ ih => exact ih heq
    | other e h1 h2 => rw [core] at heq <;> first | exact h2 _ _ heq | assumption
  cases e with
  | cphantomLet v exp body => exact absurd h (hphantom _ _ _ _)
  | cnameForDebugger v body => exact absurd h (hname _ _ _)
  | _ => rfl

theorem core_of_noDebug (h : e.containsDebugOnlyConstructs = false) : core e = e := by
  cases e <;> first | rfl | cases h

variable {env env' : Env O}

theorem addExpr_phantomLetsRev
    (h : env.addExpr v e = .ok env') : env'.phantomLetsRev = env.phantomLetsRev := by
  rw [Env.addExpr] at h
  split at h <;> cases h
  rfl

theorem addInt_phantomLetsRev {v : PatternVar .int} {n : OcamlInt}
    (h : env.addInt v n = .ok env') : env'.phantomLetsRev = env.phantomLetsRev := by
  rw [Env.addInt] at h
  split at h <;> cases h
  rfl

theorem addNatint_phantomLetsRev {v : PatternVar .natint} {n : Nativeint}
    (h : env.addNatint v n = .ok env') : env'.phantomLetsRev = env.phantomLetsRev := by
  rw [Env.addNatint] at h
  split at h <;> cases h
  rfl

/-- No debugging construct stands where the pattern looks. -/
def Bare : CmmPattern O → Expression O → Prop
  | .as _ pat, e => core e = e ∧ Bare pat e
  | .binop _ pat1 pat2, e => core e = e ∧ ∀ o e1 e2, e = cop o [e1, e2] →
    Bare pat1 e1 ∧ Bare pat2 e2
  | .guarded pat _, e => core e = e ∧ Bare pat e
  | _, e => core e = e

theorem Bare.core_eq (h : Bare pat e) : core e = e := by
  cases pat <;> first | exact h | exact h.1

theorem bare_of_noDebug (h : e.containsDebugOnlyConstructs = false)
    (pat : CmmPattern O) : Bare pat e := by
  have hcore := core_of_noDebug h
  induction pat generalizing e with
  | as v pat ih | guarded pat guard ih => exact ⟨hcore, ih h hcore⟩
  | binop op pat1 pat2 ih1 ih2 =>
    refine ⟨hcore, ?_⟩
    rintro o e1 e2 rfl
    simp only [containsDebugOnlyConstructs, anyContainsDebugOnlyConstructs, Bool.or_false,
      Bool.or_eq_false_iff] at h
    exact ⟨ih1 h.1 (core_of_noDebug h.1), ih2 h.2 (core_of_noDebug h.2)⟩
  | _ => exact hcore

/-- Then no phantom let is registered. -/
theorem match_phantomLetsRev (he : Bare pat e) (h : matchOnePattern env pat e = .ok (some env')) :
    env'.phantomLetsRev = env.phantomLetsRev := by
  induction pat generalizing env env' e with
  | any v =>
    rw [matchOnePattern.eq_def, skip_of_core he.core_eq] at h
    obtain ⟨env₁, hadd, h⟩ := bind_ok h
    cases h
    exact addExpr_phantomLetsRev hadd
  | as v pat ih =>
    rw [matchOnePattern.eq_def, skip_of_core he.core_eq] at h
    obtain ⟨r, hmatch, h⟩ := bind_ok h
    cases r with
    | none => cases h
    | some env₁ =>
      obtain ⟨env₂, hadd, h⟩ := bind_ok h
      cases h
      rw [addExpr_phantomLetsRev hadd, ih he.2 hmatch]
  | constIntFixed n =>
    rw [matchOnePattern.eq_def, skip_of_core he.core_eq] at h
    cases e with
    | cconstInt m =>
      dsimp only at h
      split at h <;> cases h
      rfl
    | _ => cases h
  | constInt v =>
    rw [matchOnePattern.eq_def, skip_of_core he.core_eq] at h
    cases e with
    | cconstInt m =>
      obtain ⟨env₁, hadd, h⟩ := bind_ok h
      cases h
      exact addInt_phantomLetsRev hadd
    | _ => cases h
  | constNatintFixed n =>
    rw [matchOnePattern.eq_def, skip_of_core he.core_eq] at h
    cases e with
    | cconstNatint m =>
      dsimp only at h
      split at h <;> cases h
      rfl
    | _ => cases h
  | constNatint v =>
    rw [matchOnePattern.eq_def, skip_of_core he.core_eq] at h
    cases e with
    | cconstNatint m =>
      obtain ⟨env₁, hadd, h⟩ := bind_ok h
      cases h
      exact addNatint_phantomLetsRev hadd
    | _ => cases h
  | binop op pat1 pat2 ih1 ih2 =>
    rw [matchOnePattern.eq_def, skip_of_core he.core_eq] at h
    cases e with
    | cop o args =>
      rcases args with _ | ⟨e1, _ | ⟨e2, _ | ⟨e3, es⟩⟩⟩ <;> try cases h
      obtain ⟨he1, he2⟩ := he.2 _ _ _ rfl
      dsimp only at h
      split at h
      · obtain ⟨r, hmatch, h⟩ := bind_ok h
        cases r with
        | none => cases h
        | some env₁ => rw [ih2 he2 h, ih1 he1 hmatch]
      · cases h
    | _ => cases h
  | guarded pat guard ih =>
    rw [matchOnePattern.eq_def, skip_of_core he.core_eq] at h
    obtain ⟨r, hmatch, h⟩ := bind_ok h
    cases r with
    | none => cases h
    | some env₁ =>
      obtain ⟨b, -, h⟩ := bind_ok h
      cases b <;> cases h
      exact ih he.2 hmatch

theorem withExpr_eq {α : Type}
    {k : (e : Expression O) → env.expr v = .ok e → Except (Fatal O) α} (h : env.expr v = .ok e) :
    env.withExpr v k = k e h := by
  rw [Env.withExpr]
  split
  · rename_i e' h'
    cases h.symm.trans h'
    rfl
  · rename_i h'
    cases h.symm.trans h'

section

variable {α β : Type} {default : Expression O → β} {place : Env O → α → β} {e : Expression O}
  {pat : CmmPattern O} {rhs : (env : Env O) → Matches pat e env → Except (Fatal O) α}
  {clauses : List (Clause O α e)}

/-- The first rule that matches is applied. -/
theorem matchClausesInOrder_match (h : matchOnePattern .empty pat e = .ok (some env)) :
    matchClausesInOrder default place e (⟨pat, rhs⟩ :: clauses) = (rhs env h).map (place env) := by
  rw [matchClausesInOrder]
  split
  · rename_i env' h'
    cases h.symm.trans h'
    dsimp only
    cases rhs env h <;> rfl
  · rename_i h'
    cases h.symm.trans h'
  · rename_i h'
    cases h.symm.trans h'

/-- A rule that does not match is passed over. -/
theorem matchClausesInOrder_skip (h : matchOnePattern .empty pat e = .ok none) :
    matchClausesInOrder default place e (⟨pat, rhs⟩ :: clauses) =
      matchClausesInOrder default place e clauses := by
  rw [matchClausesInOrder]
  split
  · rename_i h'
    cases h.symm.trans h'
  · rfl
  · rename_i h'
    cases h.symm.trans h'

/-- Linear patterns and right-hand sides that return. -/
theorem matchClausesInOrder_total {P : β → Prop} (hdefault : P (default e))
    (hclauses : ∀ clause ∈ clauses, ∃ xs is, Linear [] [] clause.pat xs is ∧
      ∀ env hmatch, env.Binds xs is → ∃ a, clause.rhs env hmatch = .ok a ∧ P (place env a)) :
    ∃ b, matchClausesInOrder default place e clauses = .ok b ∧ P b := by
  induction clauses with
  | nil => exact ⟨_, rfl, hdefault⟩
  | cons clause clauses ih =>
    obtain ⟨xs, is, hlinear, hrhs⟩ := hclauses clause List.mem_cons_self
    rcases hlinear.match binds_empty e with hnone | ⟨env, hsome, hbinds⟩
    · rw [matchClausesInOrder_skip hnone]
      exact ih fun clause hmem => hclauses clause (List.mem_cons_of_mem _ hmem)
    obtain ⟨a, ha, hP⟩ := hrhs env hsome hbinds
    rw [matchClausesInOrder_match hsome, ha]
    exact ⟨_, rfl, hP⟩

end

end CmmPeepholeEngine

/-! ## §2 The comparator -/

namespace CmmComparator

variable [DecidableEq O]

mutual

theorem equivalent_refl : (e : Expression O) → equivalent e e = true
  | cconstInt _ | cconstNatint _ | cconst _ | cconstSymbol _ | cvar _ => by
    simp [equivalent]
  | cinvalid _ _ => by simp [equivalent]
  | clet _ exp body => by
    simp [equivalent, equivalent_refl exp, equivalent_refl body]
  | cphantomLet _ _ body => by
    simp [equivalent, equivalent_refl body]
  | cnameForDebugger _ body => by
    simp [equivalent, equivalent_refl body]
  | ctuple exprs => by simp only [equivalent, equivalentList_refl exprs]
  | cop _ args => by simp [equivalent, equivalentList_refl args]
  | csequence e1 e2 => by
    simp [equivalent, equivalent_refl e1, equivalent_refl e2]
  | cifthenelse cond ifso ifnot => by
    simp [equivalent, equivalent_refl cond, equivalent_refl ifso, equivalent_refl ifnot]
  | cswitch scrutinee _ actions => by
    simp [equivalent, equivalent_refl scrutinee, equivalentList_refl actions]
  | ccatch _ handlers body => by
    simp [equivalent, equalHandlers_refl handlers, equivalent_refl body]
  | cexit _ args _ => by
    simp [equivalent, equivalentList_refl args]

theorem equivalentList_refl : (es : List (Expression O)) → equivalentList es es = true
  | [] => by simp only [equivalentList]
  | e :: es => by
    simp [equivalentList, equivalent_refl e, equivalentList_refl es]

theorem equalHandlers_refl : (hs : List (StaticHandler (Expression O))) → equalHandlers hs hs = true
  | [] => by simp only [equalHandlers]
  | ⟨_, _, body, _⟩ :: hs => by
    simp [equalHandlers, equivalent_refl body, equalHandlers_refl hs]

end

end CmmComparator

namespace CmmHelpers

variable [DecidableEq O]

variable {e : Expression O} {r rEngine : Except (Fatal O) (Expression O)}

/-- Two versions that agree, but for debugging constructs. -/
theorem checkEqual1_total (name : String)
    {e' : Expression O} (hr : r = .ok e) (hEngine : rEngine = .ok e')
    (h : e = e' ∨ e.containsDebugOnlyConstructs = true) :
    ∃ e'', checkEqual1 name r rEngine = .ok e'' ∧ (e'' = e ∨ e'' = e') := by
  subst hr hEngine
  show ∃ e'', (if CmmComparator.equivalent e e' then .ok e
    else if e.containsDebugOnlyConstructs || e'.containsDebugOnlyConstructs then .ok e'
    else .error (.mismatch name e e') : Except (Fatal O) (Expression O)) = .ok e'' ∧ _
  split
  · exact ⟨_, rfl, .inl rfl⟩
  rename_i hne
  rcases h with rfl | hdebug
  · exact absurd (CmmComparator.equivalent_refl e) hne
  · rw [hdebug, Bool.true_or]; exact ⟨_, rfl, .inr rfl⟩

theorem checkEqual1_same {name : String} (hr : r = .ok e) (hEngine : rEngine = .ok e) :
    checkEqual1 name r rEngine = .ok e := by
  obtain ⟨e', he', rfl | rfl⟩ := checkEqual1_total name hr hEngine (.inl rfl)
  · exact he'
  · exact he'

/-! ## §3 Dropping the low bit -/

open DefaultVariables

omit [DecidableEq O] in
theorem linear_lowBitAdd : Linear (O := O) [] []
    (.guarded (.binop .add (.as c (.binop .lsl (.any c1) (.constInt n))) (.constIntFixed 1))
      fun env => do pure ((0 : OcamlInt).slt (← env.int n) && isDefinedShift (← env.int n)))
    [c.id, c1.id] [n.id] := by
  refine .guarded (.binop (.as (.binop (.any (by decide)) (.constInt (by decide))) (by decide))
    .constIntFixed) fun env henv => ?_
  obtain ⟨k, hk⟩ := henv.int (v := n) (by decide)
  rw [hk]
  exact ⟨_, rfl⟩

omit [DecidableEq O] in
theorem linear_lowBitOr :
    Linear (O := O) [] [] (.binop .or (.any c) (.constIntFixed 1)) [c.id] [] :=
  .binop (.any (by decide)) .constIntFixed

omit [DecidableEq O] in
theorem linear_lowBitShift {op : Binop} : Linear (O := O) [] []
    (.binop .lsl (.binop op (.any c) (.constIntFixed 1)) (.constIntFixed 1)) [c.id] [] :=
  .binop (.binop (.any (by decide)) .constIntFixed) .constIntFixed

omit [DecidableEq O] in
theorem expr_of_fits_any {env : Env O} {v : PatternVar .expr}
    (h : Fits env (.any v) e) : env.expr v = .ok (core e) := expr_eq.2 h

omit [DecidableEq O] in
theorem int_of_fits {env : Env O} {v : PatternVar .int} {n : OcamlInt}
    (h : Fits env (.constInt v) (cconstInt n)) : env.int v = .ok n := by
  obtain ⟨m, heq, hm⟩ := h
  cases heq
  exact int_eq.2 hm

omit [DecidableEq O] in
theorem ignoreLowBitInt'_total (e : Expression O) : ∃ r, ignoreLowBitInt' e = .ok r := by
  induction hw : e.weight using Nat.strongRecOn generalizing e with | ind w ih =>
subst hw
rw [ignoreLowBitInt']
suffices h : ∃ r, run e _ = .ok r ∧ True from ⟨h.choose, h.choose_spec.1⟩
refine matchClausesInOrder_total trivial fun clause hmem => ?_
simp only [List.mem_cons, List.not_mem_nil, or_false] at hmem
rcases hmem with rfl | rfl | rfl | rfl
· refine ⟨_, _, linear_lowBitAdd, fun env hmatch hbinds => ?_⟩
  obtain ⟨t, ht⟩ := hbinds.expr (v := c) (by decide)
  obtain ⟨_, _, _, heq, -, ⟨hv, -⟩, -⟩ := (match_fits hmatch).2.1
  dsimp only
  rw [withExpr_eq ht]
  obtain ⟨r, hr⟩ := ih _ (weight_lt_of_core heq (weight_of_fits_any hv ht)) t rfl
  exact ⟨r, hr, trivial⟩
· refine ⟨_, _, linear_lowBitOr, fun env hmatch hbinds => ?_⟩
  obtain ⟨t, ht⟩ := hbinds.expr (v := c) (by decide)
  dsimp only
  rw [withExpr_eq ht]
  obtain ⟨r, hr⟩ := ih _ (weight_lt_of_fits (match_fits hmatch).2 ht) t rfl
  exact ⟨r, hr, trivial⟩
all_goals
  refine ⟨_, _, linear_lowBitShift, fun env hmatch hbinds => ?_⟩
  obtain ⟨t, ht⟩ := hbinds.expr (v := c) (by decide)
  obtain ⟨_, _, _, heq, -, hf, -⟩ := (match_fits hmatch).2
  dsimp only
  rw [withExpr_eq ht]
  obtain ⟨r, hr⟩ := ih _ (Nat.lt_trans (weight_lt_of_fits hf ht) (weight_lt_of_core heq rfl))
    t rfl
  exact ⟨r, hr, trivial⟩

omit [DecidableEq O] in
theorem noDebug_cop2 {op : Operation O} {a b : Expression O} :
    (cop op [a, b]).containsDebugOnlyConstructs = false ↔
      a.containsDebugOnlyConstructs = false ∧ b.containsDebugOnlyConstructs = false := by
  simp only [containsDebugOnlyConstructs, anyContainsDebugOnlyConstructs, Bool.or_false,
    Bool.or_eq_false_iff]

omit [DecidableEq O] in
/-- The expressions that the rules are about, without debugging constructs. -/
theorem LowBitStep.cases_noDebug {t : Expression O} (h : LowBitStep e t)
    (he : e.containsDebugOnlyConstructs = false) :
    (∃ x n, e = cop .caddi [cop .clsl [x, cconstInt n], cconstInt 1] ∧
      (0 : OcamlInt).slt n = true ∧ isDefinedShift n = true) ∨
    (∃ x, e = cop .cor [x, cconstInt 1]) ∨
    ∃ op x, (op = .clsr ∨ op = .casr) ∧ e = cop .clsl [cop op [x, cconstInt 1], cconstInt 1] := by
  have hcore := core_of_noDebug he
  cases h with
  | add heq hk he₁ hkn hn hdef _ =>
    rw [hcore] at heq
    subst heq
    obtain ⟨hd₁, hdk⟩ := noDebug_cop2.1 he
    rw [core_of_noDebug hd₁] at he₁
    subst he₁
    rw [core_of_noDebug hdk] at hk
    rw [core_of_noDebug (noDebug_cop2.1 hd₁).2] at hkn
    exact .inl ⟨_, _, by rw [hk, hkn], hn, hdef⟩
  | or heq hk _ =>
    rw [hcore] at heq
    subst heq
    rw [core_of_noDebug (noDebug_cop2.1 he).2] at hk
    exact .inr (.inl ⟨_, by rw [hk]⟩)
  | shift hop heq hk he₁ hk' _ =>
    rw [hcore] at heq
    subst heq
    obtain ⟨hd₁, hdk⟩ := noDebug_cop2.1 he
    rw [core_of_noDebug hd₁] at he₁
    subst he₁
    rw [core_of_noDebug hdk] at hk
    rw [core_of_noDebug (noDebug_cop2.1 hd₁).2] at hk'
    exact .inr (.inr ⟨_, _, hop, by rw [hk, hk']⟩)

omit [DecidableEq O] in
theorem ignoreLowBitInt'_default (h : ∀ t, ¬ LowBitStep e t) : ignoreLowBitInt' e = .ok e := by
  obtain ⟨r, hr⟩ := ignoreLowBitInt'_total e
  rcases ignoreLowBitInt'_ok hr with rfl | ⟨_, t, _, hstep, -, -⟩
  · exact hr
  · exact absurd hstep (h t)

omit [DecidableEq O] in
theorem not_fits_binop {op : Binop} {o : Operation O} {args : List (Expression O)}
    {pat1 pat2 : CmmPattern O} (h : matchesBinop op o = false) (env : Env O) :
    ¬ Fits env (.binop op pat1 pat2) (cop o args) := by
  rintro ⟨o', e1, e2, heq, hop, -, -⟩
  cases heq
  rw [h] at hop
  cases hop

variable {pat : CmmPattern O}

omit [DecidableEq O] in
theorem not_fits_guarded {guard : Env O → Except (Fatal O) Bool} (h : ∀ env, ¬ Fits env pat e)
    (env : Env O) :
    ¬ Fits env (.guarded pat guard) e := fun hf => h env hf.1

omit [DecidableEq O] in
theorem placePhantomLets_of_bare {env : Env O}
    (he : Bare pat e) (h : Matches pat e env) (r : Expression O) :
    env.placePhantomLets r = r := by
  rw [Env.placePhantomLets, match_phantomLetsRev he h]
  rfl

omit [DecidableEq O] in
/-- A rule that matches and registers no phantom let. -/
theorem run_match {xs is : List Nat}
    {rhs : (env : Env O) → Matches pat e env → Except (Fatal O) (Expression O)}
    {clauses : List (Clause O (Expression O) e)} (hlinear : Linear [] [] pat xs is)
    (hbare : Bare pat e) (hshape : Shape pat e)
    (hr : ∀ env h, Fits env pat e → rhs env h = r) : run e (⟨pat, rhs⟩ :: clauses) = r := by
  obtain ⟨env, hmatch⟩ := hlinear.match_of_shape binds_empty hshape
  rw [run, matchClausesInOrder_match hmatch, hr env hmatch (match_fits hmatch).2]
  cases r with
  | error err => rfl
  | ok r => exact congrArg Except.ok (placePhantomLets_of_bare hbare hmatch r)

omit [DecidableEq O] in
theorem run_skip {xs is : List Nat}
    {rhs : (env : Env O) → Matches pat e env → Except (Fatal O) (Expression O)}
    {clauses : List (Clause O (Expression O) e)} (hlinear : Linear [] [] pat xs is)
    (he : ∀ env, ¬ Fits env pat e) : run e (⟨pat, rhs⟩ :: clauses) = run e clauses :=
  matchClausesInOrder_skip (hlinear.not_match he)

omit [DecidableEq O] in
/-- Without debugging constructs, both versions return the same. -/
theorem ignoreLowBitInt'_eq (he : e.containsDebugOnlyConstructs = false) :
    ignoreLowBitInt' e = .ok (ignoreLowBitIntDirect e) := by
  have hbare := bare_of_noDebug he
  fun_induction ignoreLowBitIntDirect e with
  | case1 x k one h ih =>
    simp only [Bool.and_eq_true, decide_eq_true_eq] at h
    obtain ⟨⟨rfl, hn⟩, hdef⟩ := h
    have hx := (noDebug_cop2.1 he).1
    rw [← ih hx (bare_of_noDebug hx), ignoreLowBitInt']
    refine run_match linear_lowBitAdd (hbare _)
      ⟨⟨_, _, _, rfl, rfl, ?_, rfl⟩, fun env hfits => ?_⟩ fun env _ hfits => ?_
    · exact ⟨_, _, _, rfl, rfl, trivial, _, rfl⟩
    · have hk := int_of_fits (fits_cop (fits_cop hfits).1.2).2
      dsimp only
      rw [hk]
      exact congrArg Except.ok (Bool.and_eq_true_iff.2 ⟨hn, hdef⟩)
    · rw [withExpr_eq (expr_of_fits_any (fits_cop hfits.1).1.1)]; rfl
  | case3 x ih =>
    have hx := (noDebug_cop2.1 he).1
    rw [← ih hx (bare_of_noDebug hx), ignoreLowBitInt',
      run_skip linear_lowBitAdd (not_fits_guarded (not_fits_binop rfl))]
    refine run_match linear_lowBitOr (hbare _) ⟨_, _, _, rfl, rfl, trivial, rfl⟩
      fun env _ hfits => ?_
    rw [withExpr_eq (expr_of_fits_any (fits_cop hfits).1), core_of_noDebug hx]
  | case5 x one one' h ih =>
    simp only [Bool.and_eq_true, decide_eq_true_eq] at h
    obtain ⟨rfl, rfl⟩ := h
    have hx := (noDebug_cop2.1 (noDebug_cop2.1 he).1).1
    rw [← ih hx (bare_of_noDebug hx), ignoreLowBitInt',
      run_skip linear_lowBitAdd (not_fits_guarded (not_fits_binop rfl)),
      run_skip linear_lowBitOr (not_fits_binop rfl)]
    refine run_match linear_lowBitShift (hbare _)
      ⟨_, _, _, rfl, rfl, ⟨_, _, _, rfl, rfl, trivial, rfl⟩, rfl⟩ fun env _ hfits => ?_
    rw [withExpr_eq (expr_of_fits_any (fits_cop (fits_cop hfits).1).1), core_of_noDebug hx]
  | case7 x one one' h ih =>
    simp only [Bool.and_eq_true, decide_eq_true_eq] at h
    obtain ⟨rfl, rfl⟩ := h
    have hx := (noDebug_cop2.1 (noDebug_cop2.1 he).1).1
    rw [← ih hx (bare_of_noDebug hx), ignoreLowBitInt',
      run_skip linear_lowBitAdd (not_fits_guarded (not_fits_binop rfl)),
      run_skip linear_lowBitOr (not_fits_binop rfl),
      run_skip linear_lowBitShift fun env hfits => not_fits_binop rfl env (fits_cop hfits).1]
    refine run_match linear_lowBitShift (hbare _)
      ⟨_, _, _, rfl, rfl, ⟨_, _, _, rfl, rfl, trivial, rfl⟩, rfl⟩ fun env _ hfits => ?_
    rw [withExpr_eq (expr_of_fits_any (fits_cop (fits_cop hfits).1).1), core_of_noDebug hx]
  | case2 x k one h =>
    refine ignoreLowBitInt'_default fun t hstep => h ?_
    rcases hstep.cases_noDebug he with ⟨_, _, heq, hn, hdef⟩ | ⟨_, heq⟩ | ⟨_, _, -, heq⟩
    · cases heq
      rw [hn, hdef]
      rfl
    · cases heq
    · cases heq
  | case4 x one h =>
    refine ignoreLowBitInt'_default fun t hstep => h ?_
    rcases hstep.cases_noDebug he with ⟨_, _, heq, -, -⟩ | ⟨_, heq⟩ | ⟨_, _, -, heq⟩
    · cases heq
    · cases heq; rfl
    · cases heq
  | case6 x one one' h =>
    refine ignoreLowBitInt'_default fun t hstep => h ?_
    rcases hstep.cases_noDebug he with ⟨_, _, heq, -, -⟩ | ⟨_, heq⟩ | ⟨_, _, -, heq⟩
    · cases heq
    · cases heq
    · cases heq; rfl
  | case8 x one one' h =>
    refine ignoreLowBitInt'_default fun t hstep => h ?_
    rcases hstep.cases_noDebug he with ⟨_, _, heq, -, -⟩ | ⟨_, heq⟩ | ⟨_, _, -, heq⟩
    · cases heq
    · cases heq
    · cases heq; rfl
  | case9 e h1 h2 h3 h4 =>
    refine ignoreLowBitInt'_default fun t hstep => ?_
    rcases hstep.cases_noDebug he with ⟨_, _, heq, -, -⟩ | ⟨_, heq⟩ | ⟨_, _, rfl | rfl, heq⟩
    · exact h1 _ _ _ heq
    · exact h2 _ _ heq
    · exact h3 _ _ _ heq
    · exact h4 _ _ _ heq

omit [DecidableEq O] in
theorem ignoreLowBitIntDirect_debug (he : e.containsDebugOnlyConstructs = true) :
    (ignoreLowBitIntDirect e).containsDebugOnlyConstructs = true := by
  have hleft : ∀ {op : Operation O} {x : Expression O} {k : OcamlInt},
      (cop op [x, cconstInt k]).containsDebugOnlyConstructs = true →
        x.containsDebugOnlyConstructs = true := fun h => by
    simpa only [containsDebugOnlyConstructs, anyContainsDebugOnlyConstructs, Bool.or_false] using h
  fun_induction ignoreLowBitIntDirect e with
  | case1 x k one h ih | case3 x ih => exact ih (hleft he)
  | case5 x one one' h ih | case7 x one one' h ih => exact ih (hleft (hleft he))
  | _ => exact he

/-- `ignore_low_bit_int` is never fatal. -/
theorem ignoreLowBitInt_total (e : Expression O) : ∃ r, ignoreLowBitInt e = .ok r := by
  obtain ⟨r', hr'⟩ := ignoreLowBitInt'_total e
  have hagree : ignoreLowBitIntDirect e = r' ∨
      (ignoreLowBitIntDirect e).containsDebugOnlyConstructs = true := by
    cases he : e.containsDebugOnlyConstructs with
    | false => exact .inl (Except.ok.inj ((ignoreLowBitInt'_eq he).symm.trans hr'))
    | true => exact .inr (ignoreLowBitIntDirect_debug he)
  obtain ⟨r, hr, -⟩ := checkEqual1_total "ignore_low_bit_int" rfl hr' hagree
  exact ⟨r, hr⟩

theorem ignoreLowBitInt_eq (he : e.containsDebugOnlyConstructs = false) :
    ignoreLowBitInt e = .ok (ignoreLowBitIntDirect e) :=
  checkEqual1_same rfl (ignoreLowBitInt'_eq he)

omit [DecidableEq O] in
theorem mapTail1_error {ε : Type} {err : ε}
    {f : (c : Expression O) → c.weight ≤ e.weight → Except ε (Expression O)}
    (h : mapTail1 e f = .error err) : f e.tail (weight_tail_le e) = .error err := by
  rw [mapTail1_eq] at h
  cases ht : f e.tail (weight_tail_le e) with
  | error err' => rw [ht] at h; cases h; rfl
  | ok t => rw [ht] at h; cases h

theorem andConstDefault_ne_error (e : Expression O) (k : Nativeint) (err : Fatal O) :
    andConstDefault e k ≠ .error err := by
  obtain ⟨r, hr⟩ := ignoreLowBitInt_total e
  intro h
  rw [andConstDefault, hr] at h
  split at h <;> cases h

theorem andConst_ne_error (e : Expression O) (k : Nativeint) (err : Fatal O) :
    andConst e k ≠ .error err := by
  induction hw : e.weight using Nat.strongRecOn generalizing e k with | ind w ih =>
intro h
rw [andConst] at h
split at h
· cases h
split at h
· cases h
have ht := mapTail1_error h
have hle := weight_tail_le e
split at ht
· cases ht
split at ht
· rename_i x y _ hc _
  split at ht
  · rw [hc] at hle
    simp only [weight, weightList] at hle
    exact ih _ (by omega) _ _ rfl ht
  · exact andConstDefault_ne_error _ _ _ ht
· split at ht
  · cases ht
  · exact andConstDefault_ne_error _ _ _ ht
· exact andConstDefault_ne_error _ _ _ ht

theorem lsrInt_ne_error (c1 : Expression O) (k : OcamlInt) (err : Fatal O) :
    lsrInt c1 (cconstInt k) ≠ .error err := by
  induction hw : c1.weight using Nat.strongRecOn generalizing c1 k with | ind w ih =>
intro h
rw [lsrInt] at h
have ht := mapTail1_error (mapTail1_error h)
have hle := weight_tail_le c1
dsimp only [tail] at ht
split at ht
· cases ht
split at ht
· split at ht
  · rename_i hi
    obtain ⟨r, hr⟩ := ignoreLowBitInt_total c1.tail
    rw [hr] at hi
    cases hi
  rename_i d hi
  have hled := (ignoresLowBit hi).weight_le
  have hwd := weight_preferOr d
  split at ht
  · cases ht
  split at ht
  · rename_i hc
    rw [hc] at hwd
    simp only [weight, weightList] at hwd
    split at ht
    · split at ht
      · exact ih _ (by omega) _ _ rfl ht
      · cases ht
    · cases ht
  · rename_i hc
    rw [hc] at hwd
    simp only [weight, weightList] at hwd
    split at ht
    · split at ht
      · exact ih _ (by omega) _ _ rfl ht
      · cases ht
    · cases ht
  · rename_i hc
    rw [hc] at hwd
    simp only [weight, weightList] at hwd
    split at ht
    · split at ht
      · exact ih _ (by omega) _ _ rfl ht
      · cases ht
    · cases ht
  · split at ht
    · split at ht <;> cases ht
    · cases ht
  · cases ht
· cases ht

theorem ok_of_ne_error {ε α : Type} {x : Except ε α} (h : ∀ err, x ≠ .error err) :
    ∃ a, x = .ok a := by
  cases x with
  | error err => exact absurd rfl (h err)
  | ok a => exact ⟨a, rfl⟩

end CmmHelpers

end Oxcaml.Backend
