/-
Oxcaml.Backend.CmmPeepholeEngine — `backend/cmm_peephole_engine.ml`.

A rule is a pattern and a right-hand side that reads what the pattern's
variables matched. Matching skips the constructs that only concern the
debugger; `run` places the phantom lets it met around the result.

A right-hand side receives, besides the environment, that its pattern did
match: this is what the recursive rules terminate by. §3 inverts a match, one
lemma per pattern.
-/
import Oxcaml.Backend.Cmm

set_option linter.all false

namespace Oxcaml.Backend

open Expression

/-- The fatal errors of the helpers and of the engine. -/
inductive Fatal (O : Type) where
  | duplicateBinding (name : String)
  | notFound
  | mismatch (name : String) (r rEngine : Expression O)
  | mismatchInt (name : String) (r rEngine : Nat) (arg : Expression O)
  | assertFailure

namespace CmmPeepholeEngine

variable {O : Type}

/-! ## §1 Patterns -/

inductive PatternKind where
  | expr
  | int
  | natint

structure PatternVar (kind : PatternKind) where
  id : Nat
  name : String

/-- The maps of an environment, from the ids of variables. -/
structure Env (O : Type) where
  exprs : Nat → Option (Expression O)
  ints : Nat → Option OcamlInt
  natints : Nat → Option Nativeint
  phantomLetsRev : List (BackendVar × Option PhantomDefiningExpr)

namespace Env

def empty : Env O := ⟨fun _ => none, fun _ => none, fun _ => none, []⟩

def addExpr (env : Env O) (v : PatternVar .expr) (e : Expression O) : Except (Fatal O) (Env O) :=
  if (env.exprs v.id).isSome then throw (.duplicateBinding v.name)
  else pure { env with exprs := fun i => if i = v.id then some e else env.exprs i }

def addInt (env : Env O) (v : PatternVar .int) (n : OcamlInt) : Except (Fatal O) (Env O) :=
  if (env.ints v.id).isSome then throw (.duplicateBinding v.name)
  else pure { env with ints := fun i => if i = v.id then some n else env.ints i }

def addNatint (env : Env O) (v : PatternVar .natint) (n : Nativeint) : Except (Fatal O) (Env O) :=
  if (env.natints v.id).isSome then throw (.duplicateBinding v.name)
  else pure { env with natints := fun i => if i = v.id then some n else env.natints i }

/-- `env#.v` for a variable that stands for an expression. -/
def expr (env : Env O) (v : PatternVar .expr) : Except (Fatal O) (Expression O) :=
  match env.exprs v.id with
  | some e => pure e
  | none => throw .notFound

/-- `env#.v`, for a right-hand side that recurses on it. -/
def withExpr {α : Type} (env : Env O) (v : PatternVar .expr)
    (k : (e : Expression O) → env.expr v = .ok e → Except (Fatal O) α) : Except (Fatal O) α :=
  match h : env.expr v with
  | .ok e => k e h
  | .error err => .error err

/-- `env#.v` for a variable that stands for an integer. -/
def int (env : Env O) (v : PatternVar .int) : Except (Fatal O) OcamlInt :=
  match env.ints v.id with
  | some n => pure n
  | none => throw .notFound

def registerPhantomLet (env : Env O) (v : BackendVar) (exp : Option PhantomDefiningExpr) : Env O :=
  { env with phantomLetsRev := (v, exp) :: env.phantomLetsRev }

def placePhantomLets (env : Env O) (e : Expression O) : Expression O :=
  env.phantomLetsRev.foldl (fun e p => cphantomLet p.1 p.2 e) e

/-- The constructs that matching skips. -/
def skip (env : Env O) : Expression O → Env O × Expression O
  | cphantomLet v exp body => (env.registerPhantomLet v exp).skip body
  | cnameForDebugger _ body => env.skip body
  | e => (env, e)

end Env

inductive Binop where
  | add
  | sub
  | lsl
  | lsr
  | asr
  | or
  | and
  | comparison
  | bitwiseOp

inductive CmmPattern (O : Type) where
  | any (v : PatternVar .expr)
  | as (v : PatternVar .expr) (pat : CmmPattern O)
  | constIntFixed (n : OcamlInt)
  | constInt (v : PatternVar .int)
  | constNatintFixed (n : Nativeint)
  | constNatint (v : PatternVar .natint)
  | binop (op : Binop) (pat1 pat2 : CmmPattern O)
  | guarded (pat : CmmPattern O) (guard : Env O → Except (Fatal O) Bool)

def matchesBinop : Binop → Operation O → Bool
  | .add, .caddi => true
  | .sub, .csubi => true
  | .lsl, .clsl => true
  | .lsr, .clsr => true
  | .asr, .casr => true
  | .or, .cor => true
  | .and, .cand => true
  | .comparison, .ccmpi _ => true
  | .comparison, .ccmpf _ _ => true
  | .bitwiseOp, .cand => true
  | .bitwiseOp, .cor => true
  | .bitwiseOp, .cxor => true
  | _, _ => false

def matchOnePattern (env : Env O) (pat : CmmPattern O) (e : Expression O) :
    Except (Fatal O) (Option (Env O)) :=
  match pat, env.skip e with
  | .any v, (env, e) => do pure (some (← env.addExpr v e))
  | .as v pat, (env, e) => do
    match ← matchOnePattern env pat e with
    | some env => pure (some (← env.addExpr v e))
    | none => pure none
  | .constIntFixed n1, (env, cconstInt n2) => pure (if n1 = n2 then some env else none)
  | .constInt v, (env, cconstInt n) => do pure (some (← env.addInt v n))
  | .constNatintFixed n1, (env, cconstNatint n2) => pure (if n1 = n2 then some env else none)
  | .constNatint v, (env, cconstNatint n) => do pure (some (← env.addNatint v n))
  | .binop op pat1 pat2, (env, cop o [e1, e2]) =>
    if matchesBinop op o then do
      match ← matchOnePattern env pat1 e1 with
      | some env => matchOnePattern env pat2 e2
      | none => pure none
    else pure none
  | .guarded pat guard, (env, e) => do
    match ← matchOnePattern env pat e with
    | some env => pure (if ← guard env then some env else none)
    | none => pure none
  | _, _ => pure none

/-- The operation that a pattern of a single operation stands for. -/
def Binop.operation : Binop → Option (Operation O)
  | .add => some .caddi
  | .sub => some .csubi
  | .lsl => some .clsl
  | .lsr => some .clsr
  | .asr => some .casr
  | .or => some .cor
  | .and => some .cand
  | .comparison => none
  | .bitwiseOp => none

theorem eq_of_matchesBinop {op : Binop} {o o' : Operation O} (h : matchesBinop op o = true)
    (ho : op.operation = some o') : o = o' := by
  cases op <;> cases ho <;> cases o <;> first | rfl | cases h

/-! ## §2 Rules -/

/-- The pattern matches the whole expression. -/
def Matches (pat : CmmPattern O) (e : Expression O) (env : Env O) : Prop :=
  matchOnePattern .empty pat e = .ok (some env)

structure Clause (O α : Type) (e : Expression O) where
  pat : CmmPattern O
  rhs : (env : Env O) → Matches pat e env → Except (Fatal O) α

def matchClausesInOrder {α β : Type} (default : Expression O → β) (place : Env O → α → β)
    (e : Expression O) : List (Clause O α e) → Except (Fatal O) β
  | [] => pure (default e)
  | clause :: clauses =>
    match h : matchOnePattern .empty clause.pat e with
    | .ok (some env) => do pure (place env (← clause.rhs env h))
    | .ok none => matchClausesInOrder default place e clauses
    | .error err => throw err

/-- Tries the rules in order and applies the first that matches. -/
def run (e : Expression O) (clauses : List (Clause O (Expression O) e)) :
    Except (Fatal O) (Expression O) :=
  matchClausesInOrder id Env.placePhantomLets e clauses

def runDefault {α : Type} (default : Expression O → α) (e : Expression O)
    (clauses : List (Clause O α e)) : Except (Fatal O) α :=
  matchClausesInOrder default (fun _ x => x) e clauses

namespace DefaultVariables

def c : PatternVar .expr := ⟨1, "c"⟩

def c1 : PatternVar .expr := ⟨2, "c1"⟩

def c2 : PatternVar .expr := ⟨3, "c2"⟩

def n : PatternVar .int := ⟨4, "n"⟩

def n1 : PatternVar .int := ⟨5, "n1"⟩

def n2 : PatternVar .int := ⟨6, "n2"⟩

end DefaultVariables

/-! ## §3 What a match says -/

/-- The expression under the constructs that matching skips. -/
def core : Expression O → Expression O
  | cphantomLet _ _ body => core body
  | cnameForDebugger _ body => core body
  | e => e

attribute [local grind =] core Env.skip

/-- An induction along the constructs that `core` skips. -/
@[elab_as_elim]
theorem core_induction {motive : Expression O → Prop}
    (phantom : ∀ v exp body, motive body → motive (cphantomLet v exp body))
    (named : ∀ v body, motive body → motive (cnameForDebugger v body))
    (other : ∀ e, (∀ v exp body, e = cphantomLet v exp body → False) →
      (∀ v body, e = cnameForDebugger v body → False) → motive e)
    (e : Expression O) : motive e :=
  core.induct motive phantom named other e

theorem skip_snd (env : Env O) (e : Expression O) : (env.skip e).2 = core e := by
  induction e using core_induction generalizing env with
  | phantom v exp body ih | named v body ih => rw [Env.skip, core, ih]
  | other e h1 h2 => rw [Env.skip, core] <;> assumption

theorem weight_core (e : Expression O) : (core e).weight = e.weight := by
  induction e using core_induction with
  | phantom v exp body ih | named v body ih => rw [core, ih, weight]
  | other e h1 h2 => rw [core] <;> assumption

theorem core_core (e : Expression O) : core (core e) = core e := by
  induction e using core_induction with
  | phantom v exp body ih | named v body ih => rw [core, ih]
  | other e h1 h2 =>
    have he : core e = e := by rw [core] <;> assumption
    rw [he, he]

/-- What `env` binds, `env'` binds too. -/
structure Env.Extends (env env' : Env O) : Prop where
  exprs : ∀ i e, env.exprs i = some e → env'.exprs i = some e
  ints : ∀ i n, env.ints i = some n → env'.ints i = some n

theorem Env.Extends.refl (env : Env O) : env.Extends env := ⟨fun _ _ h => h, fun _ _ h => h⟩

variable {env : Env O}

theorem Env.Extends.trans {env' env'' : Env O} (h : env.Extends env')
    (h' : env'.Extends env'') : env.Extends env'' :=
  ⟨fun i e he => h'.exprs i e (h.exprs i e he), fun i n hn => h'.ints i n (h.ints i n hn)⟩

theorem skip_extends (env : Env O) (e : Expression O) : env.Extends (env.skip e).1 := by
  induction e using core_induction generalizing env with
  | phantom v exp body ih => have h := ih (env.registerPhantomLet v exp); exact ⟨h.exprs, h.ints⟩
  | named v body ih => exact ih env
  | other e h1 h2 => rw [Env.skip] <;> first | exact .refl env | assumption

variable {e : Expression O}

variable {env env' : Env O} {v : PatternVar .expr}

theorem Env.Extends.addExpr
    (h : env.addExpr v e = .ok env') : env.Extends env' ∧ env'.exprs v.id = some e := by
  rw [Env.addExpr] at h
  split at h
  · cases h
  rename_i hnone
  cases h
  refine ⟨⟨fun i e' he' => ?_, fun _ _ h => h⟩, if_pos rfl⟩
  dsimp only
  rw [if_neg]
  · exact he'
  rintro rfl
  rw [he'] at hnone
  exact hnone rfl

theorem Env.Extends.addInt {v : PatternVar .int} {n : OcamlInt}
    (h : env.addInt v n = .ok env') : env.Extends env' ∧ env'.ints v.id = some n := by
  rw [Env.addInt] at h
  split at h
  · cases h
  rename_i hnone
  cases h
  refine ⟨⟨fun _ _ h => h, fun i e' he' => ?_⟩, if_pos rfl⟩
  dsimp only
  rw [if_neg]
  · exact he'
  rintro rfl
  rw [he'] at hnone
  exact hnone rfl

theorem Env.Extends.addNatint {v : PatternVar .natint} {n : Nativeint}
    (h : env.addNatint v n = .ok env') : env.Extends env' := by
  rw [Env.addNatint] at h
  split at h
  · cases h
  · cases h; exact ⟨fun _ _ h => h, fun _ _ h => h⟩

theorem expr_eq : env.expr v = .ok e ↔ env.exprs v.id = some e := by
  rw [Env.expr]
  cases env.exprs v.id with
  | none => exact ⟨fun h => (by cases h), fun h => (by cases h)⟩
  | some e' => exact ⟨fun h => (by cases h; rfl), fun h => (by cases h; rfl)⟩

theorem int_eq {v : PatternVar .int} {n : OcamlInt} :
    env.int v = .ok n ↔ env.ints v.id = some n := by
  rw [Env.int]
  cases env.ints v.id with
  | none => exact ⟨fun h => (by cases h), fun h => (by cases h)⟩
  | some e' => exact ⟨fun h => (by cases h; rfl), fun h => (by cases h; rfl)⟩

/-- `e` is an instance of the pattern, with the variables as `env` has them. -/
def Fits (env : Env O) : CmmPattern O → Expression O → Prop
  | .any v, e => env.exprs v.id = some (core e)
  | .as v pat, e => env.exprs v.id = some (core e) ∧ Fits env pat e
  | .constIntFixed n, e => core e = cconstInt n
  | .constInt v, e => ∃ n, core e = cconstInt n ∧ env.ints v.id = some n
  | .constNatintFixed n, e => core e = cconstNatint n
  | .constNatint _, e => ∃ n, core e = cconstNatint n
  | .binop op pat1 pat2, e => ∃ o e1 e2, core e = cop o [e1, e2] ∧ matchesBinop op o = true ∧
    Fits env pat1 e1 ∧ Fits env pat2 e2
  | .guarded pat guard, e => Fits env pat e ∧ ∃ env', env'.Extends env ∧ guard env' = .ok true

attribute [local grind =] Fits

variable {pat : CmmPattern O}

theorem fits_core : Fits env pat (core e) ↔ Fits env pat e := by
  induction pat with
  | any v => simp only [Fits, core_core]
  | as v pat ih => simp only [Fits, core_core, ih]
  | constIntFixed n | constInt v | constNatintFixed n | constNatint v
  | binop op pat1 pat2 ih1 ih2 => simp only [Fits, core_core]
  | guarded pat guard ih => simp only [Fits, ih]

theorem Fits.mono (h : env.Extends env') (hf : Fits env pat e) : Fits env' pat e := by
  induction pat generalizing e with
  | any v => exact h.exprs _ _ hf
  | as v pat ih => exact ⟨h.exprs _ _ hf.1, ih hf.2⟩
  | constIntFixed n => exact hf
  | constInt v => obtain ⟨n, he, hn⟩ := hf; exact ⟨n, he, h.ints _ _ hn⟩
  | constNatintFixed n | constNatint v => exact hf
  | binop op pat1 pat2 ih1 ih2 =>
    obtain ⟨o, e1, e2, he, ho, h1, h2⟩ := hf
    exact ⟨o, e1, e2, he, ho, ih1 h1, ih2 h2⟩
  | guarded pat guard ih =>
    obtain ⟨hf, env₀, h₀, hguard⟩ := hf
    exact ⟨ih hf, env₀, h₀.trans h, hguard⟩

/-- A pattern of a single operation. -/
theorem fits_binop {op : Binop} {pat1 pat2 : CmmPattern O}
    {o : Operation O} (ho : op.operation = some o) (h : Fits env (.binop op pat1 pat2) e) :
    ∃ e1 e2, core e = cop o [e1, e2] ∧ Fits env pat1 e1 ∧ Fits env pat2 e2 := by
  obtain ⟨o', e1, e2, he, hop, h1, h2⟩ := h
  cases eq_of_matchesBinop hop ho
  exact ⟨e1, e2, he, h1, h2⟩

variable {α β : Type}

/-- A bind that succeeds. -/
theorem bind_ok {ε : Type} {x : Except ε α} {f : α → Except ε β} {b : β}
    (h : x >>= f = .ok b) : ∃ a, x = .ok a ∧ f a = .ok b := by
  cases x with
  | error e => cases h
  | ok a => exact ⟨a, rfl, h⟩

theorem match_fits
    (h : matchOnePattern env pat e = .ok (some env')) : env.Extends env' ∧ Fits env' pat e := by
  induction pat generalizing env env' e with
  | any v =>
    obtain ⟨hext, hcore⟩ := And.intro (skip_extends env e) (skip_snd env e)
    obtain ⟨env₁, hadd, h⟩ := bind_ok h
    cases h
    obtain ⟨hext', hv⟩ := Env.Extends.addExpr hadd
    exact ⟨hext.trans hext', hv.trans (by rw [hcore])⟩
  | as v pat ih =>
    obtain ⟨hext, hcore⟩ := And.intro (skip_extends env e) (skip_snd env e)
    obtain ⟨r', hmatch, h⟩ := bind_ok h
    cases r' with
    | none => cases h
    | some env₁ =>
      obtain ⟨env₂, hadd, h⟩ := bind_ok h
      cases h
      obtain ⟨hext₁, hfits⟩ := ih hmatch
      obtain ⟨hext₂, hv⟩ := Env.Extends.addExpr hadd
      rw [hcore] at hfits hv
      exact ⟨hext.trans (hext₁.trans hext₂), hv, fits_core.1 (hfits.mono hext₂)⟩
  | constIntFixed n1 =>
    obtain ⟨hext, hcore⟩ := And.intro (skip_extends env e) (skip_snd env e)
    rw [matchOnePattern.eq_def] at h
    generalize env.skip e = r at h hext hcore
    obtain ⟨env₀, e₀⟩ := r
    cases e₀ with
    | cconstInt n2 =>
      dsimp only at h
      split at h
      · rename_i heq
        cases h
        exact ⟨hext, by rw [heq]; exact hcore.symm⟩
      · cases h
    | _ => cases h
  | constInt v =>
    obtain ⟨hext, hcore⟩ := And.intro (skip_extends env e) (skip_snd env e)
    rw [matchOnePattern.eq_def] at h
    generalize env.skip e = r at h hext hcore
    obtain ⟨env₀, e₀⟩ := r
    cases e₀ with
    | cconstInt n =>
      obtain ⟨env₁, hadd, h⟩ := bind_ok h
      cases h
      obtain ⟨hext', hv⟩ := Env.Extends.addInt hadd
      exact ⟨hext.trans hext', n, hcore.symm, hv⟩
    | _ => cases h
  | constNatintFixed n1 =>
    obtain ⟨hext, hcore⟩ := And.intro (skip_extends env e) (skip_snd env e)
    rw [matchOnePattern.eq_def] at h
    generalize env.skip e = r at h hext hcore
    obtain ⟨env₀, e₀⟩ := r
    cases e₀ with
    | cconstNatint n2 =>
      dsimp only at h
      split at h
      · rename_i heq
        cases h
        exact ⟨hext, by rw [heq]; exact hcore.symm⟩
      · cases h
    | _ => cases h
  | constNatint v =>
    obtain ⟨hext, hcore⟩ := And.intro (skip_extends env e) (skip_snd env e)
    rw [matchOnePattern.eq_def] at h
    generalize env.skip e = r at h hext hcore
    obtain ⟨env₀, e₀⟩ := r
    cases e₀ with
    | cconstNatint n =>
      obtain ⟨env₁, hadd, h⟩ := bind_ok h
      cases h
      exact ⟨hext.trans (Env.Extends.addNatint hadd), n, hcore.symm⟩
    | _ => cases h
  | binop op pat1 pat2 ih1 ih2 =>
    obtain ⟨hext, hcore⟩ := And.intro (skip_extends env e) (skip_snd env e)
    rw [matchOnePattern.eq_def] at h
    generalize env.skip e = r at h hext hcore
    obtain ⟨env₀, e₀⟩ := r
    cases e₀ with
    | cop o args =>
      rcases args with _ | ⟨e1, _ | ⟨e2, _ | ⟨e3, es⟩⟩⟩ <;> try cases h
      dsimp only at h
      split at h
      · rename_i hop
        obtain ⟨r', hmatch, h⟩ := bind_ok h
        cases r' with
        | none => cases h
        | some env₁ =>
          obtain ⟨hext₁, hfits₁⟩ := ih1 hmatch
          obtain ⟨hext₂, hfits₂⟩ := ih2 h
          exact ⟨hext.trans (hext₁.trans hext₂), o, e1, e2, hcore.symm, hop, hfits₁.mono hext₂,
            hfits₂⟩
      · cases h
    | _ => cases h
  | guarded pat guard ih =>
    obtain ⟨hext, hcore⟩ := And.intro (skip_extends env e) (skip_snd env e)
    obtain ⟨r', hmatch, h⟩ := bind_ok h
    cases r' with
    | none => cases h
    | some env₁ =>
      obtain ⟨b, hguard, h⟩ := bind_ok h
      cases b with
      | false => cases h
      | true =>
        cases h
        obtain ⟨hext₁, hfits⟩ := ih hmatch
        rw [hcore] at hfits
        exact ⟨hext.trans hext₁, fits_core.1 hfits, _, .refl _, hguard⟩

theorem withExpr_ok {k : (e : Expression O) → env.expr v = .ok e → Except (Fatal O) α} {a : α}
    (h : env.withExpr v k = .ok a) : ∃ e he, k e he = .ok a := by
  rw [Env.withExpr] at h
  split at h
  · exact ⟨_, _, h⟩
  · cases h

/-- The result is that of a rule that matches, or the default. -/
theorem matchClausesInOrder_ok {default : Expression O → β} {place : Env O → α → β}
    {clauses : List (Clause O α e)} {r : β}
    (h : matchClausesInOrder default place e clauses = .ok r) :
    r = default e ∨ ∃ clause ∈ clauses, ∃ env hmatch a,
      clause.rhs env hmatch = .ok a ∧ r = place env a := by
  induction clauses with
  | nil => cases h; exact .inl rfl
  | cons clause clauses ih =>
    rw [matchClausesInOrder] at h
    split at h
    case h_1 env hmatch =>
      obtain ⟨a, ha, h⟩ := bind_ok h
      cases h
      exact .inr ⟨clause, List.mem_cons_self, env, hmatch, a, ha, rfl⟩
    case h_2 =>
      rcases ih h with h | ⟨clause', hmem, hrest⟩
      · exact .inl h
      · exact .inr ⟨clause', List.mem_cons_of_mem _ hmem, hrest⟩
    case h_3 => cases h

end CmmPeepholeEngine

/-! ## Comparison -/

namespace CmmComparator

variable {O : Type} [DecidableEq O]

mutual

/-- Checks equivalence of expressions, without alpha-equivalence. -/
def equivalent : Expression O → Expression O → Bool
  | cconstInt n1, cconstInt n2 => n1 == n2
  | cconstNatint n1, cconstNatint n2 => n1 == n2
  | cconst l1, cconst l2 => l1 == l2
  | cconstSymbol s1, cconstSymbol s2 => s1 == s2
  | cvar v1, cvar v2 => v1 == v2
  | clet v1 def1 body1, clet v2 def2 body2 =>
    v1 == v2 && equivalent def1 def2 && equivalent body1 body2
  | cphantomLet v1 def1 body1, cphantomLet v2 def2 body2 =>
    v1 == v2 && def1 == def2 && equivalent body1 body2
  | cnameForDebugger v1 e1, cnameForDebugger v2 e2 => v1 == v2 && equivalent e1 e2
  | ctuple t1, ctuple t2 => equivalentList t1 t2
  | cop op1 args1, cop op2 args2 => op1 == op2 && equivalentList args1 args2
  | csequence before1 after1, csequence before2 after2 =>
    equivalent before1 before2 && equivalent after1 after2
  | cifthenelse cond1 ifso1 ifnot1, cifthenelse cond2 ifso2 ifnot2 =>
    equivalent cond1 cond2 && equivalent ifso1 ifso2 && equivalent ifnot1 ifnot2
  | cswitch scrutinee1 cases1 actions1, cswitch scrutinee2 cases2 actions2 =>
    equivalent scrutinee1 scrutinee2 && cases1 == cases2 && equivalentList actions1 actions2
  | ccatch flag1 handlers1 body1, ccatch flag2 handlers2 body2 =>
    flag1 == flag2 && equalHandlers handlers1 handlers2 && equivalent body1 body2
  | cexit lbl1 args1 traps1, cexit lbl2 args2 traps2 =>
    lbl1 == lbl2 && equivalentList args1 args2 && traps1 == traps2
  | cinvalid m1 s1, cinvalid m2 s2 => m1 == m2 && s1 == s2
  | _, _ => false

def equivalentList : List (Expression O) → List (Expression O) → Bool
  | [], [] => true
  | e1 :: es1, e2 :: es2 => equivalent e1 e2 && equivalentList es1 es2
  | _, _ => false

def equalHandlers : List (StaticHandler (Expression O)) → List (StaticHandler (Expression O)) → Bool
  | [], [] => true
  | ⟨lbl1, params1, body1, isCold1⟩ :: hs1, ⟨lbl2, params2, body2, isCold2⟩ :: hs2 =>
    lbl1 == lbl2 && params1 == params2 && equivalent body1 body2 && isCold1 == isCold2 &&
      equalHandlers hs1 hs2
  | _, _ => false

end

end CmmComparator

end Oxcaml.Backend
