/-
Oxcaml.Lambda.SwitchTests — the test sequences of `switch.ml` pick the right action.

`Meaning` gives the arithmetic meaning of the functor parameter (§2): a value for an
argument, a truth value for a test and an outcome for code, in an environment that
`bind` extends. A `Target` is an input with the outcome that it must have (§3); `Serves`
says that code for some cases has this outcome when the action of its case has it.

Each test separates the cases in two, and the code of a test serves when the code of
its branches does (§4, §5). The argument of a test is the input plus an offset; with
interval tests all numbers are small, without them the offset is zero, so that in both
cases no comparison wraps (§3).
-/
import Oxcaml.Lambda.SwitchSearch

set_option linter.all false

namespace Oxcaml.Lambda.Switch

open List (getElem?_eq_getElem mem_of_getElem? pairwise_cons)

open Lib (Span Returns)
open Lib.Span (Ascending Picks Within Widens picks_append widens_of_merge widens_of_replace)

/-! ## §1 Cutting cases -/

variable {z x : ℤ}

theorem norm_eq (h1 : minInt ≤ z) (h2 : z ≤ maxInt) : norm z = z := by
  unfold minInt at h1
  unfold maxInt at h2
  unfold norm
  omega

variable {l cases cases' : List Case}

/-- The lower end of a glued case goes down to the case before it. -/
theorem glue_low {low0 low' : ℤ}
    (hlow' : low' = match l.getLast? with
      | none => low0
      | some previous => min (norm (previous.high + 1)) low0)
    (hasc : Ascending l) (hbelow : ∀ t ∈ l, t.high < low0)
    (hint : minInt ≤ low0 ∧ low0 ≤ maxInt) (hints : ∀ t ∈ l, minInt ≤ t.low) :
    low' ≤ low0 ∧ (∀ t ∈ l, t.high < low') ∧
      ∀ low, (∀ t ∈ l, low ≤ t.low) → low ≤ low0 → low ≤ low' := by
  rcases List.eq_nil_or_concat' l with rfl | ⟨l, p, rfl⟩
  · simp [hlow']
  obtain ⟨-, -, hlp⟩ := Ascending.append_iff.1 hasc
  have hp := hasc.nonempty p (by simp)
  have hplow := hbelow p (by simp)
  have hpint := hints p (by simp)
  simp only [List.getLast?_concat] at hlow'
  rw [norm_eq (by omega) (by omega)] at hlow'
  refine ⟨by omega, ?_, fun low hall _ => ?_⟩
  · intro t ht
    rcases List.mem_append.1 ht with ht | ht
    · have := hlp t ht p (by simp); omega
    · rw [List.mem_singleton.1 ht]; omega
  · have := hall p (by simp); omega

/-- The upper end of a glued case goes up to the case after it. -/
theorem glue_high {high0 high' : ℤ}
    (hhigh' : high' = match l with
      | [] => high0
      | next :: _ => max high0 (norm (next.low - 1)))
    (hasc : Ascending l) (habove : ∀ t ∈ l, high0 < t.low)
    (hint : minInt ≤ high0 ∧ high0 ≤ maxInt) (hints : ∀ t ∈ l, t.high ≤ maxInt) :
    high0 ≤ high' ∧ (∀ t ∈ l, high' < t.low) ∧
      ∀ high, (∀ t ∈ l, t.high ≤ high) → high0 ≤ high → high' ≤ high := by
  cases l with
  | nil => simp [hhigh']
  | cons n l =>
    have hn := hasc.nonempty n (by simp)
    have hnlow := habove n (by simp)
    have hnint := hints n (by simp)
    have hnl := (pairwise_cons.1 hasc.below).1
    simp only at hhigh'
    rw [norm_eq (by omega) (by omega)] at hhigh'
    refine ⟨by omega, ?_, fun high hall _ => ?_⟩
    · intro t ht
      rcases List.mem_cons.1 ht with rfl | ht
      · omega
      · have := hnl t ht; omega
    · have := hall n (by simp); omega

variable {c first : Case}

/-- Two lists are glued over the cases between them. -/
theorem widens_glue {rest : List Case} {d : Case} (hasc : Ascending (l ++ c :: d :: rest))
    (hints : Within (l ++ c :: d :: rest) minInt maxInt) :
    Widens (l ++ c :: d :: rest) (caseAppend (l ++ [c]) (d :: rest)) := by
  obtain ⟨hl, hcd, hlcd⟩ := Ascending.append_iff.1 hasc
  have hc := hcd.nonempty c (by simp)
  have hd := hcd.nonempty d (by simp)
  have hlt := (pairwise_cons.1 hcd.below).1 d (by simp)
  have hdrest := (pairwise_cons.1 hcd.below).2
  have hrest := (pairwise_cons.1 hdrest).1
  have hcint := hints c (by simp)
  have hdint := hints d (by simp)
  simp only [caseAppend, List.getLast?_concat, List.dropLast_concat]
  split_ifs with hact hwide1 hwide2
  · have hlow := glue_low rfl hl (fun t ht => hlcd t ht c (by simp)) ⟨by omega, by omega⟩
      (fun t ht => (hints t (by simp [ht])).1)
    have hhigh := glue_high rfl ⟨fun t ht => hcd.nonempty t (by simp [ht]),
      (pairwise_cons.1 hdrest).2⟩ hrest ⟨by omega, by omega⟩
      (fun t ht => (hints t (by simp [ht])).2)
    refine widens_of_merge hasc hact rfl hlow.1 hhigh.1 hlow.2.1 hhigh.2.1 fun low high hw => ?_
    exact ⟨hlow.2.2 low (fun t ht => (hw t (by simp [ht])).1) (hw c (by simp)).1,
      hhigh.2.2 high (fun t ht => (hw t (by simp [ht])).2) (hw d (by simp)).2⟩
  · rw [norm_eq (by omega) (by omega)]
    refine widens_of_replace ⟨c.low, d.low - 1, c.act⟩ hasc rfl le_rfl (by simp; omega)
      (fun t ht => hlcd t ht c (by simp)) ?_ fun low high hw => ?_
    · intro t ht
      rcases List.mem_cons.1 ht with rfl | ht
      · simp
      have := hrest t ht
      simp only
      omega
    · have := hw d (by simp); exact ⟨(hw c (by simp)).1, by simp only; omega⟩
  · rw [norm_eq (by omega) (by omega)]
    have h : Ascending ((l ++ [c]) ++ d :: rest) := by simpa using hasc
    have hwiden := widens_of_replace ⟨c.high + 1, d.high, d.act⟩ h rfl (by simp; omega)
      le_rfl ?_ hrest fun low high hw => ?_
    · simpa using hwiden
    · intro t ht
      rcases List.mem_append.1 ht with ht | ht
      · have := hlcd t ht c (by simp)
        simp only
        omega
      · rw [List.mem_singleton.1 ht]; simp
    · have := hw c (by simp); exact ⟨by simp only; omega, (hw d (by simp)).2⟩
  · simpa using Widens.refl hasc

theorem widens_caseAppend {c1 c2 : List Case} (hasc : Ascending (c1 ++ c2))
    (hints : Within (c1 ++ c2) minInt maxInt) : Widens (c1 ++ c2) (caseAppend c1 c2) := by
  rcases List.eq_nil_or_concat' c1 with rfl | ⟨l, c, rfl⟩
  · simpa [caseAppend] using Widens.refl hasc
  cases c2 with
  | nil => simpa [caseAppend] using Widens.refl hasc
  | cons d rest =>
    have heq : (l ++ [c]) ++ d :: rest = l ++ c :: d :: rest := by simp
    rw [heq] at hasc hints ⊢
    exact widens_glue hasc hints

variable {i a j : ℕ}

/-- A cut separates what is picked at its lower end. -/
theorem picks_coupe (hasc : Ascending cases) (hc : cases[i]? = some c) (hx : Picks cases x a) :
    (Picks (cases.take i) x a ∧ x < c.low) ∨ (Picks (cases.drop i) x a ∧ c.low ≤ x) := by
  obtain ⟨hi, rfl⟩ := List.getElem?_eq_some_iff.1 hc
  have hdrop : cases.drop i = cases[i] :: cases.drop (i + 1) := List.drop_eq_getElem_cons hi
  have hsplit : cases.take i ++ cases.drop i = cases := List.take_append_drop i cases
  rw [← hsplit] at hx
  rw [← hsplit, hdrop] at hasc
  rcases picks_append.1 hx with hx | hx
  · exact .inl ⟨hx, hasc.lt_of_picks hx⟩
  · rw [hdrop] at hx ⊢; exact .inr ⟨hx, (Ascending.append_iff.1 hasc).2.1.le_of_picks hx⟩

/-- An interval test separates what is picked at the ends of the interval. -/
theorem picks_coupeInter {ci cj : Case} (hasc : Ascending cases)
    (hci : cases[i]? = some ci) (hcj : cases[j]? = some cj) (hij : i ≤ j)
    (hx : Picks cases x a) :
    (Picks ((cases.drop i).take (j + 1 - i)) x a ∧ ci.low ≤ x ∧ x ≤ cj.high) ∨
      (Picks (cases.take i ++ cases.drop (j + 1)) x a ∧ ¬(ci.low ≤ x ∧ x ≤ cj.high)) := by
  obtain ⟨hj, rfl⟩ := List.getElem?_eq_some_iff.1 hcj
  rcases picks_coupe hasc hci hx with ⟨hx, hlt⟩ | ⟨hx, hle⟩
  · exact .inr ⟨picks_append.2 (.inl hx), by omega⟩
  -- the second cut is after the case `j`
  have hupto : cases.take (j + 1) = cases.take j ++ [cases[j]] := by simp
  have hwhole : (cases.take j ++ [cases[j]]) ++ cases.drop (j + 1) = cases := by
    rw [← hupto, List.take_append_drop]
  have hdrop : (cases.drop i).take (j + 1 - i) ++ cases.drop (j + 1) = cases.drop i := by
    have h := List.take_append_drop (j + 1 - i) (cases.drop i)
    rwa [List.drop_drop, show i + (j + 1 - i) = j + 1 by omega] at h
  rw [← hdrop] at hx
  rcases picks_append.1 hx with hx | hx
  · refine .inl ⟨hx, hle, ?_⟩
    have hpre : Picks (cases.take j ++ [cases[j]]) x a := by
      rw [← hupto]
      obtain ⟨s, hs, hsx⟩ := hx
      refine ⟨s, ?_, hsx⟩
      rw [← List.drop_take] at hs
      exact List.mem_of_mem_drop hs
    have hasc' : Ascending (cases.take j ++ [cases[j]]) := by
      rw [← hwhole] at hasc
      exact (Ascending.append_iff.1 hasc).1
    exact hasc'.le_high_of_picks hpre
  refine .inr ⟨picks_append.2 (.inr hx), ?_⟩
  rw [← hwhole] at hasc
  have := hasc.high_lt_of_picks hx
  omega

/-! ## §2 The meaning of the code -/

def Primitive.Holds : Primitive → ℤ → ℤ → Prop
  | .eqint, a, b => a = b
  | .neint, a, b => a ≠ b
  | .leint, a, b => a ≤ b
  | .ltint, a, b => a < b
  | .geint, a, b => b ≤ a
  | .gtint, a, b => b < a

/-- An integer as an unsigned one. -/
def unsigned (z : ℤ) : ℤ := z % 2 ^ 63

/-- The arithmetic meaning of the functor parameter. -/
structure Meaning {arg test act : Type} (A : Arg arg test act) (Env O : Type) where
  value : Env → arg → ℤ
  holds : Env → test → Prop
  run : Env → act → O
  /-- The environment of the body of `bind`. -/
  bound : Env → arg → Env
  exited : ℕ → O
  value_newarg : ∀ ρ a, value (bound ρ a) (A.newarg a) = value ρ a
  run_bindIn : ∀ ρ a body, run ρ (A.bindIn a body) = run (bound ρ a) body
  value_makeConst : ∀ ρ i, minInt ≤ i → i ≤ maxInt → value ρ (A.makeConst i) = i
  value_makeOffset : ∀ ρ a n, value ρ (A.makeOffset a n) = norm (value ρ a + n)
  holds_makePrim : ∀ ρ p a b, holds ρ (A.makePrim p a b) ↔ p.Holds (value ρ a) (value ρ b)
  holds_makeIsout : ∀ ρ h a, holds ρ (A.makeIsout h a) ↔ unsigned (value ρ h) < unsigned (value ρ a)
  holds_makeIsin : ∀ ρ h a, holds ρ (A.makeIsin h a) ↔ unsigned (value ρ a) ≤ unsigned (value ρ h)
  holds_makeIsNonzero : ∀ ρ a, holds ρ (A.makeIsNonzero a) ↔ value ρ a ≠ 0
  /-- An argument that is a boolean is used as a test. -/
  holds_argAsTest : ∀ ρ a, value ρ a = 0 ∨ value ρ a = 1 → (holds ρ (A.argAsTest a) ↔ value ρ a = 1)
  run_makeIf_of : ∀ ρ t ifso ifno, holds ρ t → run ρ (A.makeIf t ifso ifno) = run ρ ifso
  run_makeIf_of_not : ∀ ρ t ifso ifno, ¬holds ρ t → run ρ (A.makeIf t ifso ifno) = run ρ ifno
  run_makeSwitch : ∀ ρ a tbl acts (n k : ℕ) code, value ρ a = n → tbl[n]? = some k →
    acts[k]? = some code → run ρ (A.makeSwitch a tbl acts) = run ρ code
  run_makeExit : ∀ ρ l, run ρ (A.makeExit l) = exited l
  run_makeCatch_of : ∀ ρ l handler body, run ρ body = exited l →
    run ρ (A.makeCatch l handler body) = run ρ handler
  run_makeCatch_of_ne : ∀ ρ l handler body, run ρ body ≠ exited l →
    run ρ (A.makeCatch l handler body) = run ρ body
  exited_inj : ∀ l l', exited l = exited l' → l = l'

/-! ## §3 Targets -/

variable {arg test act Env O : Type} {A : Arg arg test act} {S : Meaning A Env O}

/-- An input between bounds, and the outcome that it must have. -/
structure Target (S : Meaning A Env O) where
  okInter : Bool
  low : ℤ
  high : ℤ
  x : ℤ
  outcome : Env → O
  /-- The outcome does not depend on the variables of `bind`. -/
  stable : ∀ ρ a, outcome (S.bound ρ a) = outcome ρ
  minInt_le : minInt ≤ low
  le_maxInt : high ≤ maxInt

namespace Target

variable (T : Target S)

/-- The argument is the input with its offset, and no test on it wraps. -/
structure Tracks (ρ : Env) (ctx : Ctx arg) : Prop where
  value : S.value ρ ctx.arg = T.x + ctx.off
  low_le : T.low ≤ T.x
  le_high : T.x ≤ T.high
  off : ctx.off = 0 ∨
    (-interLimit ≤ T.low ∧ T.high ≤ interLimit) ∧ -interLimit ≤ ctx.off ∧ ctx.off ≤ interLimit
  small : T.okInter = true → T.low < T.high → -interLimit ≤ T.low ∧ T.high ≤ interLimit

/-- The action has the outcome. -/
def Right (f : Ctx arg → Except Exn act) : Prop :=
  ∀ ctx code, f ctx = .ok code → ∀ ρ, T.Tracks ρ ctx → S.run ρ code = T.outcome ρ

/-- The code has the outcome, when the action of the input's case has it. -/
def Serves (actions : Actions arg act) (ctx : Ctx arg) (cases : List Case) (code : act) : Prop :=
  ∀ a f, Picks cases T.x a → actions[a]? = some f → T.Right f →
    ∀ ρ, T.Tracks ρ ctx → S.run ρ code = T.outcome ρ

variable {T} {actions : Actions arg act} {ctx : Ctx arg} {cases : List Case} {ρ : Env}

/-- A number between the bounds can be shifted without wrapping. -/
theorem Tracks.norm_add (h : T.Tracks ρ ctx) (h1 : T.low ≤ z) (h2 : z ≤ T.high) :
    norm (z + ctx.off) = z + ctx.off := by
  have hmin := T.minInt_le
  have hmax := T.le_maxInt
  rcases h.off with hoff | ⟨⟨hs1, hs2⟩, hoff⟩
  · exact norm_eq (by omega) (by omega)
  · unfold interLimit at *; exact norm_eq (by unfold minInt; omega) (by unfold maxInt; omega)

theorem Tracks.const (h : T.Tracks ρ ctx) (h1 : T.low ≤ z) (h2 : z ≤ T.high) :
    S.value ρ (A.makeConst (z + ctx.off)) = z + ctx.off := by
  have heq := h.norm_add h1 h2
  unfold norm at heq
  exact S.value_makeConst ρ _ (by unfold minInt; omega) (by unfold maxInt; omega)

/-- A test that separates the cases for the code of its branches. -/
theorem serves_makeIf {t : test} {ifso ifno : act} {yes no : List Case}
    (hyes : T.Serves actions ctx yes ifso) (hno : T.Serves actions ctx no ifno)
    (hsplit : ∀ a ρ, Picks cases T.x a → T.Tracks ρ ctx →
      (Picks yes T.x a ∧ S.holds ρ t) ∨ (Picks no T.x a ∧ ¬S.holds ρ t)) :
    T.Serves actions ctx cases (A.makeIf t ifso ifno) := by
  intro a f ha hf hright ρ hρ
  rcases hsplit a ρ ha hρ with ⟨hpick, ht⟩ | ⟨hpick, ht⟩
  · rw [S.run_makeIf_of ρ t ifso ifno ht]; exact hyes a f hpick hf hright ρ hρ
  · rw [S.run_makeIf_of_not ρ t ifso ifno ht]; exact hno a f hpick hf hright ρ hρ

theorem serves_bindIn {a : arg} {body : act} {ctx' : Ctx arg} (h : T.Serves actions ctx' cases body)
    (hctx : ∀ ρ, T.Tracks ρ ctx → T.Tracks (S.bound ρ a) ctx') :
    T.Serves actions ctx cases (A.bindIn a body) := by
  intro b f hb hf hright ρ hρ
  rw [S.run_bindIn, ← T.stable ρ a]
  exact h b f hb hf hright _ (hctx ρ hρ)

/-! ## §4 Comparisons -/

section Comparisons

variable {yes no : List Case} {ifso ifno : act} {z : ℤ}

/-- The comparisons of the argument with a number are those of the input. -/
theorem Tracks.holds_makePrim (h : T.Tracks ρ ctx) (p : Primitive) (hz1 : T.low ≤ z)
    (hz2 : z ≤ T.high) :
    S.holds ρ (A.makePrim p ctx.arg (A.makeConst (norm (z + ctx.off)))) ↔ p.Holds T.x z := by
  rw [S.holds_makePrim, h.norm_add hz1 hz2, h.const hz1 hz2, h.value]
  cases p <;> simp [Primitive.Holds]

/-- The comparison with 1 that is made as one with 0. -/
theorem Tracks.holds_makePrim_zero (h : T.Tracks ρ ctx) (p : Primitive)
    (hz : norm (z + ctx.off) = 1) (hz1 : T.low ≤ z) (hz2 : z ≤ T.high) :
    S.holds ρ (A.makePrim p ctx.arg (A.makeConst 0)) ↔ p.Holds T.x (z - 1) := by
  have hoff : z + ctx.off = 1 := by rw [← h.norm_add hz1 hz2, hz]
  have hconst : S.value ρ (A.makeConst 0) = 0 :=
    S.value_makeConst ρ 0 (by unfold minInt; omega) (by unfold maxInt; omega)
  rw [S.holds_makePrim, h.value]
  cases p <;> simp only [Primitive.Holds] <;> lia

theorem serves_makeIfTest (p : Primitive) (hyes : T.Serves actions ctx yes ifso)
    (hno : T.Serves actions ctx no ifno) (hz1 : T.low ≤ z) (hz2 : z ≤ T.high)
    (hsplit : ∀ a, Picks cases T.x a →
      (Picks yes T.x a ∧ p.Holds T.x z) ∨ (Picks no T.x a ∧ ¬p.Holds T.x z)) :
    T.Serves actions ctx cases (makeIfTest A p ctx.arg (norm (z + ctx.off)) ifso ifno) := by
  refine serves_makeIf hyes hno fun a ρ ha hρ => ?_
  rw [hρ.holds_makePrim p hz1 hz2]
  exact hsplit a ha

theorem serves_makeIfLt (hyes : T.Serves actions ctx yes ifso) (hno : T.Serves actions ctx no ifno)
    (hz1 : T.low ≤ z) (hz2 : z ≤ T.high)
    (hsplit : ∀ a, Picks cases T.x a → (Picks yes T.x a ∧ T.x < z) ∨ (Picks no T.x a ∧ z ≤ T.x)) :
    T.Serves actions ctx cases (makeIfLt A ctx.arg (norm (z + ctx.off)) ifso ifno) := by
  unfold makeIfLt
  split_ifs with hone
  · refine serves_makeIf hyes hno fun a ρ ha hρ => ?_
    rw [hρ.holds_makePrim_zero .leint hone hz1 hz2]
    rcases hsplit a ha with ⟨hp, hx⟩ | ⟨hp, hx⟩
    · exact .inl ⟨hp, by simp only [Primitive.Holds]; omega⟩
    · exact .inr ⟨hp, by simp only [Primitive.Holds]; omega⟩
  refine serves_makeIfTest .ltint hyes hno hz1 hz2 fun a ha => ?_
  rcases hsplit a ha with ⟨hp, hx⟩ | ⟨hp, hx⟩
  · exact .inl ⟨hp, hx⟩
  · exact .inr ⟨hp, not_lt.2 hx⟩

theorem serves_makeIfGe (hyes : T.Serves actions ctx yes ifso) (hno : T.Serves actions ctx no ifno)
    (hz1 : T.low ≤ z) (hz2 : z ≤ T.high)
    (hsplit : ∀ a, Picks cases T.x a → (Picks no T.x a ∧ T.x < z) ∨ (Picks yes T.x a ∧ z ≤ T.x)) :
    T.Serves actions ctx cases (makeIfGe A ctx.arg (norm (z + ctx.off)) ifso ifno) := by
  unfold makeIfGe
  split_ifs with hone
  · refine serves_makeIf hyes hno fun a ρ ha hρ => ?_
    rw [hρ.holds_makePrim_zero .gtint hone hz1 hz2]
    rcases hsplit a ha with ⟨hp, hx⟩ | ⟨hp, hx⟩
    · exact .inr ⟨hp, by simp only [Primitive.Holds]; omega⟩
    · exact .inl ⟨hp, by simp only [Primitive.Holds]; omega⟩
  refine serves_makeIfTest .geint hyes hno hz1 hz2 fun a ha => ?_
  rcases hsplit a ha with ⟨hp, hx⟩ | ⟨hp, hx⟩
  · exact .inr ⟨hp, not_le.2 hx⟩
  · exact .inl ⟨hp, hx⟩

end Comparisons

/-! ## §5 Interval tests -/

section Intervals

variable {low high : ℤ}

theorem norm_norm_add (a b : ℤ) : norm (norm a + b) = norm (a + b) := by
  unfold norm
  omega

/-- The offset after the subtraction of the lower end. -/
theorem rebase_off (low off : ℤ) : norm (norm (-norm (low + off)) + off) = norm (-low) := by
  unfold norm
  omega

/-- The argument after the subtraction of the lower end. -/
theorem Tracks.rebase (h : T.Tracks ρ ctx) (hok : T.okInter = true)
    (hlt : T.low < T.high) (h1 : T.low ≤ low) (h2 : low ≤ T.high) :
    T.Tracks (S.bound ρ (A.makeOffset ctx.arg (norm (-norm (low + ctx.off)))))
      ⟨norm (norm (-norm (low + ctx.off)) + ctx.off),
        A.newarg (A.makeOffset ctx.arg (norm (-norm (low + ctx.off))))⟩ := by
  have hlow := h.low_le
  have hhigh := h.le_high
  obtain ⟨hs1, hs2⟩ := h.small hok hlt
  have hoff := rebase_off low ctx.off
  unfold interLimit at hs1 hs2
  have hneg : norm (-low) = -low := norm_eq (by unfold minInt; omega) (by unfold maxInt; omega)
  refine ⟨?_, hlow, hhigh, .inr ⟨h.small hok hlt, ?_⟩, h.small⟩
  · rw [S.value_newarg, S.value_makeOffset, h.value, hoff, hneg]
    simp only [norm]
    omega
  unfold interLimit
  simp only [hoff]
  omega

/-- The unsigned comparison of the shifted argument. -/
theorem Tracks.unsigned_le (h : T.Tracks ρ ctx) (hok : T.okInter = true) (hlt : T.low < T.high)
    (hoff : ctx.off = -low) (hlow : T.low ≤ low) (hle : low ≤ high) (hhigh : high ≤ T.high) :
    unsigned (S.value ρ ctx.arg) ≤ unsigned (S.value ρ (A.makeConst (norm (high - low)))) ↔
      low ≤ T.x ∧ T.x ≤ high := by
  have h1 := h.low_le
  have h2 := h.le_high
  obtain ⟨hs1, hs2⟩ := h.small hok hlt
  unfold interLimit at hs1 hs2
  have hd : norm (high - low) = high - low :=
    norm_eq (by unfold minInt; lia) (by unfold maxInt; lia)
  rw [S.value_makeConst ρ _ (by unfold minInt; lia) (by unfold maxInt; lia), h.value]
  unfold unsigned
  lia

variable {yes no : List Case} {mkIfso mkIfno : Ctx arg → M act} {makeTest : arg → arg → test}

/-- `make_if_in` and `make_if_out`, when the test separates the cases. -/
theorem makeIfRange_returns (hok : T.okInter = true) (hlt : T.low < T.high) (hlow : T.low ≤ low)
    (hlow' : low ≤ T.high)
    (hyes : ∀ ctx, Returns (Inv T.okInter) (mkIfso ctx) (T.Serves actions ctx yes))
    (hno : ∀ ctx, Returns (Inv T.okInter) (mkIfno ctx) (T.Serves actions ctx no)) {d : ℤ}
    (hsplit : ∀ a ρ ctx', Picks cases T.x a → T.Tracks ρ ctx' → ctx'.off = -low →
      (Picks yes T.x a ∧ S.holds ρ (makeTest (A.makeConst d) ctx'.arg)) ∨
        (Picks no T.x a ∧ ¬S.holds ρ (makeTest (A.makeConst d) ctx'.arg))) :
    Returns (Inv T.okInter) (makeIfRange A makeTest ctx (norm (low + ctx.off)) d mkIfso mkIfno)
      (T.Serves actions ctx cases) := by
  unfold makeIfRange
  split_ifs with hzero
  · refine .bind (hno ctx) fun ifno hifno => .bind (hyes ctx) fun ifso hifso => .pure ?_
    refine serves_makeIf hifso hifno fun a ρ ha hρ => hsplit a ρ ctx ha hρ ?_
    rw [hρ.norm_add hlow hlow'] at hzero
    omega
  refine .bind (hno _) fun ifno hifno => .bind (hyes _) fun ifso hifso => .pure ?_
  refine serves_bindIn (serves_makeIf hifso hifno fun a ρ ha hρ => hsplit a ρ _ ha hρ ?_)
    fun ρ hρ => hρ.rebase hok hlt hlow hlow'
  obtain ⟨hs1, hs2⟩ := hρ.small hok hlt
  unfold interLimit at hs1 hs2
  rw [rebase_off]
  exact norm_eq (by unfold minInt; omega) (by unfold maxInt; omega)

end Intervals

/-! ## §6 Test sequences -/

/-- The cases have actions, which always give code. -/
def Total (actions : Actions arg act) (cases : List Case) : Prop :=
  ∀ c ∈ cases, ∃ f, actions[c.act]? = some f ∧ ∀ ctx, ∃ code, f ctx = .ok code

theorem Total.of_acts (h : Total actions cases)
    (hacts : ∀ c' ∈ cases', ∃ c ∈ cases, c'.act = c.act) : Total actions cases' := by
  intro c' hc'
  obtain ⟨c, hc, heq⟩ := hacts c' hc'
  rw [heq]
  exact h c hc

theorem firstAction_returns (htotal : Total actions cases) (hne : cases ≠ [])
    (hsame : ∀ c ∈ cases, ∀ d ∈ cases, c.act = d.act) :
    Returns (Inv T.okInter) (liftM (firstAction actions cases ctx) : M act)
      (T.Serves actions ctx cases) := by
  obtain ⟨c, rest, rfl⟩ := List.exists_cons_of_ne_nil hne
  obtain ⟨f, hf, hcode⟩ := htotal c List.mem_cons_self
  obtain ⟨code, hcode⟩ := hcode ctx
  have hfirst : firstAction actions (c :: rest) ctx = .ok code := by
    have hget : get (c :: rest) 0 = .ok c := get_eq (n := 0) rfl
    simp only [firstAction, hget, get_eq hf, bind, Except.bind]
    exact hcode
  refine .lift hfirst ?_
  rintro a g ⟨d, hd, -, rfl⟩ hg hright ρ hρ
  rw [hsame d hd c List.mem_cons_self, hf] at hg
  injection hg with hg
  subst hg
  exact hright ctx code hcode ρ hρ

/-- Code for a cut, from the code for its two sides. -/
structure Cut (T : Target S) (actions : Actions arg act) (ctx : Ctx arg) (cases : List Case)
    (i : ℕ) (c : Case) (left right : act) : Prop where
  ascending : Ascending cases
  within : Within cases T.low T.high
  cut : cases[i]? = some c
  left : T.Serves actions ctx (cases.take i) left
  right : T.Serves actions ctx (cases.drop i) right

namespace Cut

variable {i : ℕ} {c : Case} {left right : act}

section

variable (h : Cut T actions ctx cases i c left right)
include h

theorem bounds : T.low ≤ c.low ∧ c.low ≤ T.high := by
  have hmem := mem_of_getElem? h.cut
  have hw := h.within c hmem
  have hne := h.ascending.nonempty c hmem
  omega

theorem serves_lt :
    T.Serves actions ctx cases (makeIfLt A ctx.arg (norm (c.low + ctx.off)) left right) :=
  serves_makeIfLt h.left h.right h.bounds.1 h.bounds.2 fun _ ha =>
    picks_coupe h.ascending h.cut ha

theorem serves_ge :
    T.Serves actions ctx cases (makeIfGe A ctx.arg (norm (c.low + ctx.off)) right left) :=
  serves_makeIfGe h.right h.left h.bounds.1 h.bounds.2 fun _ ha =>
    picks_coupe h.ascending h.cut ha

/-- When the first case is zero alone, the argument is zero to the left of the cut. -/
theorem value_of_left
    (hfirst : cases[0]? = some first) (hlim : norm (c.low + ctx.off) = 1)
    (hzero : norm (first.low + ctx.off) = 0) (hρ : T.Tracks ρ ctx)
    (ha : Picks cases T.x a) :
    (Picks (cases.take i) T.x a ∧ S.value ρ ctx.arg = 0) ∨
      (Picks (cases.drop i) T.x a ∧ 1 ≤ S.value ρ ctx.arg) := by
  have hmem := mem_of_getElem? hfirst
  have hw := h.within first hmem
  have hne := h.ascending.nonempty first hmem
  rw [hρ.norm_add h.bounds.1 h.bounds.2] at hlim
  rw [hρ.norm_add hw.1 (by omega)] at hzero
  have hle : first.low ≤ T.x := by
    rcases picks_coupe h.ascending hfirst ha with ⟨⟨s, hs, -⟩, -⟩ | ⟨-, hle⟩
    · simp at hs
    · exact hle
  rw [hρ.value]
  rcases picks_coupe h.ascending h.cut ha with ⟨hp, hx⟩ | ⟨hp, hx⟩
  · exact .inl ⟨hp, by omega⟩
  · exact .inr ⟨hp, by omega⟩

theorem serves_nonzero
    (hfirst : cases[0]? = some first) (hlim : norm (c.low + ctx.off) = 1)
    (hzero : norm (first.low + ctx.off) = 0) :
    T.Serves actions ctx cases (makeIfNonzero A ctx.arg right left) := by
  refine serves_makeIf h.right h.left fun a ρ ha hρ => ?_
  rw [S.holds_makeIsNonzero]
  rcases h.value_of_left hfirst hlim hzero hρ ha with ⟨hp, hv⟩ | ⟨hp, hv⟩
  · exact .inr ⟨hp, by omega⟩
  · exact .inl ⟨hp, by omega⟩

theorem serves_bool {second : Case}
    (hfirst : cases[0]? = some first) (hlim : norm (c.low + ctx.off) = 1)
    (hzero : norm (first.low + ctx.off) = 0) (hlen : cases.length = 2)
    (hsecond : cases[1]? = some second) (hone : norm (second.high + ctx.off) = 1) :
    T.Serves actions ctx cases (makeIfBool A ctx.arg right left) := by
  obtain ⟨s, t, rfl⟩ := List.length_eq_two.1 hlen
  injection hsecond with hsecond
  subst hsecond
  refine serves_makeIf h.right h.left fun a ρ ha hρ => ?_
  have hw := h.within t (by simp)
  have hne := h.ascending.nonempty t (by simp)
  have hle : T.x ≤ t.high := Ascending.le_high_of_picks (l := [s]) h.ascending ha
  rw [hρ.norm_add (by omega) hw.2] at hone
  have hval := hρ.value
  rcases h.value_of_left hfirst hlim hzero hρ ha with ⟨hp, hv⟩ | ⟨hp, hv⟩
  · rw [S.holds_argAsTest ρ _ (.inl hv)]; exact .inr ⟨hp, by omega⟩
  have hv1 : S.value ρ ctx.arg = 1 := by omega
  rw [S.holds_argAsTest ρ _ (.inr hv1)]
  exact .inl ⟨hp, hv1⟩

end

end Cut

/-- Cases that a test sequence can be made for. -/
structure Fits (T : Target S) (actions : Actions arg act) (cases : List Case) : Prop where
  ne_nil : cases ≠ []
  size : cases.length ≤ 2 ^ 54
  ascending : Ascending cases
  within : Within cases T.low T.high
  total : Total actions cases

namespace Fits

theorem sublist (h : Fits T actions cases) (hsub : cases'.Sublist cases)
    (hne : cases' ≠ []) : Fits T actions cases' where
  ne_nil := hne
  size := hsub.length_le.trans h.size
  ascending := h.ascending.sublist hsub
  within := h.within.sublist hsub
  total := h.total.of_acts fun c hc => ⟨c, hsub.subset hc, rfl⟩

theorem outside_sublist (cases : List Case) (hij : i ≤ j) :
    (cases.take i ++ cases.drop (j + 1)).Sublist cases := by
  have h : (cases.drop (j + 1)).Sublist (cases.drop i) := by
    have hdrop : cases.drop (j + 1) = (cases.drop i).drop (j + 1 - i) := by
      rw [List.drop_drop]
      congr 1
      omega
    rw [hdrop]
    exact List.drop_sublist _ _
  simpa using (List.Sublist.refl (cases.take i)).append h

theorem widens_outside (h : Fits T actions cases) (hij : i ≤ j) :
    Widens (cases.take i ++ cases.drop (j + 1))
      (caseAppend (cases.take i) (cases.drop (j + 1))) := by
  refine widens_caseAppend (h.ascending.sublist (outside_sublist cases hij)) fun c hc => ?_
  have hw := h.within c ((outside_sublist cases hij).subset hc)
  have hmin := T.minInt_le
  have hmax := T.le_maxInt
  omega

theorem outside (h : Fits T actions cases) (h1 : 1 ≤ i) (hij : i ≤ j) :
    Fits T actions (caseAppend (cases.take i) (cases.drop (j + 1))) := by
  have hsub := outside_sublist cases hij
  have hwiden := h.widens_outside hij
  have hne : cases.take i ≠ [] := by
    have hpos := List.length_pos_iff.2 h.ne_nil
    exact List.ne_nil_of_length_pos (by simp; omega)
  refine ⟨caseAppend_ne_nil hne _, ?_, hwiden.ascending, hwiden.within _ _ (h.within.sublist hsub),
    h.total.of_acts fun c' hc' => ?_⟩
  · have hlen := length_caseAppend (cases.take i) (cases.drop (j + 1))
    rw [← List.length_append] at hlen
    exact hlen.trans (hsub.length_le.trans h.size)
  · obtain ⟨c, hc, heq⟩ := hwiden.acts c' hc'; exact ⟨c, hsub.subset hc, heq⟩

end Fits

/-- Code for the recursive calls of a test sequence. -/
def Tests (T : Target S) (actions : Actions arg act) (rec : Ctx arg → List Case → M act)
    (cases : List Case) : Prop :=
  ∀ ctx l, Fits T actions l → l.length < cases.length →
    Returns (Inv T.okInter) (rec ctx l) (T.Serves actions ctx l)

variable {rec : Ctx arg → List Case → M act}

section

variable (hfits : Fits T actions cases)
include hfits

theorem cTestSep_returns (hrec : Tests T actions rec cases)
    (h1 : 1 ≤ i) (hi : i < cases.length) :
    Returns (Inv T.okInter) (cTestSep A rec ctx cases (i : ℤ)) (T.Serves actions ctx cases) := by
  have hc : cases[i]? = some cases[i] := getElem?_eq_getElem hi
  have hfirst : cases[0]? = some cases[0] := getElem?_eq_getElem (by omega)
  have hsecond : cases[1]? = some cases[1] := getElem?_eq_getElem (by omega)
  have hllen : (cases.take i).length = i := by simp; omega
  have hrlen : (cases.drop i).length = cases.length - i := by simp
  have hl := hfits.sublist (List.take_sublist i cases) (List.ne_nil_of_length_pos (by omega))
  have hr := hfits.sublist (List.drop_sublist i cases) (List.ne_nil_of_length_pos (by omega))
  have hcut : ∀ left right, T.Serves actions ctx (cases.take i) left →
      T.Serves actions ctx (cases.drop i) right →
      Cut T actions ctx cases i cases[i] left right :=
    fun left right hl hr => ⟨hfits.ascending, hfits.within, hc, hl, hr⟩
  have hleft := hrec ctx _ hl (by omega)
  have hright := hrec ctx _ hr (by omega)
  refine .bind (.lift (coupe_eq hc) (Q := (· = _)) rfl) ?_
  rintro _ rfl
  refine .bind (optCountOf_returns hl.ne_nil hl.size) fun r1 _ => ?_
  refine .bind (optCountOf_returns hr.ne_nil hr.size) fun r2 _ => ?_
  refine .bind (.lift (get_eq hfirst) (Q := (· = _)) rfl) ?_
  rintro _ rfl
  split
  · rename_i hzero
    refine .bind (.lift (get_eq hsecond) (Q := (· = _)) rfl) ?_
    rintro _ rfl
    refine .bind hleft fun ifnot hifnot => .bind hright fun ifso hifso => ?_
    have hcut := hcut _ _ hifnot hifso
    split
    · rename_i hbool
      exact .pure (hcut.serves_bool hfirst hzero.2.1 hzero.2.2 hbool.1 hsecond hbool.2)
    · exact .pure (hcut.serves_nonzero hfirst hzero.2.1 hzero.2.2)
  split
  · refine .bind hright fun ifnot hifnot => .bind hleft fun ifso hifso => .pure ?_
    exact (hcut _ _ hifso hifnot).serves_lt
  · refine .bind hleft fun ifnot hifnot => .bind hright fun ifso hifso => .pure ?_
    exact (hcut _ _ hifnot hifso).serves_ge

theorem cTestInter_returns (hrec : Tests T actions rec cases) (h1 : 1 ≤ i) (hij : i ≤ j)
    (hj : j + 1 < cases.length)
    (hok : T.okInter = true ∨ i = j ∧ ∃ c, cases[i]? = some c ∧ c.low = c.high) :
    Returns (Inv T.okInter) (cTestInter A rec ctx cases (i : ℤ) (j : ℤ))
      (T.Serves actions ctx cases) := by
  have hci : cases[i]? = some cases[i] := getElem?_eq_getElem (by lia)
  have hcj : cases[j]? = some cases[j] := getElem?_eq_getElem (by lia)
  have hin : ((cases.drop i).take (j + 1 - i)).length = j + 1 - i := by simp; lia
  have hout := length_caseAppend (cases.take i) (cases.drop (j + 1))
  simp only [List.length_take, List.length_drop] at hout
  have hfin : Fits T actions ((cases.drop i).take (j + 1 - i)) :=
    hfits.sublist ((List.take_sublist _ _).trans (List.drop_sublist _ _))
      (List.ne_nil_of_length_pos (by lia))
  have hfout := hfits.outside h1 hij
  have hinside := fun ctx => hrec ctx _ hfin (by lia)
  have houtside := fun ctx => hrec ctx _ hfout (by lia)
  have hsplit : ∀ a, Picks cases T.x a →
      (Picks ((cases.drop i).take (j + 1 - i)) T.x a ∧ cases[i].low ≤ T.x ∧ T.x ≤ cases[j].high) ∨
      (Picks (caseAppend (cases.take i) (cases.drop (j + 1))) T.x a ∧
        ¬(cases[i].low ≤ T.x ∧ T.x ≤ cases[j].high)) := by
    intro a ha
    rcases picks_coupeInter hfits.ascending hci hcj hij ha with hx | ⟨hx, hnot⟩
    · exact .inl hx
    · exact .inr ⟨(hfits.widens_outside hij).picks _ _ hx, hnot⟩
  have hlow := (hfits.within _ (mem_of_getElem? hci)).1
  have hhigh := (hfits.within _ (mem_of_getElem? hcj)).2
  have hle : cases[i].low ≤ cases[j].high := by
    have hnei := hfits.ascending.nonempty _ (mem_of_getElem? hci)
    rcases Nat.lt_or_ge i j with hlt | hge
    · have hlt := List.pairwise_iff_getElem.1 hfits.ascending.below i j (by lia) (by lia) hlt
      have hnej := hfits.ascending.nonempty _ (mem_of_getElem? hcj)
      lia
    · obtain rfl : i = j := by lia
      exact hnei
  have hlt : T.low < T.high := by
    have hfirst : cases[0]? = some cases[0] := getElem?_eq_getElem (by lia)
    have hw := (hfits.within _ (mem_of_getElem? hfirst)).1
    have hne := hfits.ascending.nonempty _ (mem_of_getElem? hfirst)
    have hsep := List.pairwise_iff_getElem.1 hfits.ascending.below 0 i (by lia) (by lia) h1
    lia
  refine .bind (.lift (coupeInter_eq hci hcj hij) (Q := (· = _)) rfl) ?_
  rintro _ rfl
  refine .bind (optCountOf_returns hfin.ne_nil hfin.size) fun ⟨_, _, _⟩ _ => ?_
  refine .bind (optCountOf_returns hfout.ne_nil hfout.size) fun ⟨_, _, _⟩ _ => ?_
  dsimp only
  split
  · split
    · refine .bind (houtside ctx) fun ifnot hifnot => .bind (hinside ctx) fun ifso hifso => .pure ?_
      refine serves_makeIfTest .eqint hifso hifnot hlow (by lia) fun a ha => ?_
      simp only [Primitive.Holds]
      rcases hsplit a ha with ⟨hp, hx⟩ | ⟨hp, hx⟩
      · exact .inl ⟨hp, by lia⟩
      · exact .inr ⟨hp, by lia⟩
    refine .bind (hinside ctx) fun ifnot hifnot => .bind (houtside ctx) fun ifso hifso => .pure ?_
    refine serves_makeIfTest .neint hifso hifnot hlow (by lia) fun a ha => ?_
    simp only [Primitive.Holds]
    rcases hsplit a ha with ⟨hp, hx⟩ | ⟨hp, hx⟩
    · exact .inr ⟨hp, by lia⟩
    · exact .inl ⟨hp, by lia⟩
  rename_i hne
  have hok : T.okInter = true := by
    rcases hok with hok | ⟨rfl, c, hc, heq⟩
    · exact hok
    rw [hci] at hc
    injection hc with hc
    rw [hc] at hne
    exact absurd heq hne
  split
  · refine makeIfRange_returns hok hlt hlow (by lia) hinside houtside
      fun a ρ ctx' ha hρ hoff => ?_
    rw [S.holds_makeIsin, hρ.unsigned_le hok hlt hoff hlow hle hhigh]
    exact hsplit a ha
  refine makeIfRange_returns hok hlt hlow (by lia) houtside hinside
    fun a ρ ctx' ha hρ hoff => ?_
  rw [S.holds_makeIsout, ← not_le, hρ.unsigned_le hok hlt hoff hlow hle hhigh, not_not]
  exact (hsplit a ha).symm

/-- The test sequence is made, and it picks the action of the input's case. -/
theorem cTest_returns {fuel : ℕ} (hfuel : cases.length ≤ fuel) :
    Returns (Inv T.okInter) (cTest A actions fuel ctx cases) (T.Serves actions ctx cases) := by
  induction fuel generalizing ctx cases with
  | zero => have hpos := List.length_pos_iff.2 hfits.ne_nil; omega
  | succ fuel ih =>
    have hrec : Tests T actions (cTest A actions fuel) cases :=
      fun ctx l hl hlen => ih hl (by omega)
    have hpos := List.length_pos_iff.2 hfits.ne_nil
    unfold cTest
    rw [if_neg (by omega)]
    split
    · rename_i hone
      obtain ⟨c, rfl⟩ := List.length_eq_one_iff.1 hone
      refine firstAction_returns hfits.total hfits.ne_nil fun c hc d hd => ?_
      rw [List.mem_singleton.1 hc, List.mem_singleton.1 hd]
    refine .bind (optCountOf_returns hfits.ne_nil hfits.size) fun ⟨w, costs⟩ hw => ?_
    cases w with
    | no => exact firstAction_returns hfits.total hfits.ne_nil hw.test
    | sep i => obtain ⟨n, rfl, h1, hn⟩ := hw.test; exact cTestSep_returns hfits hrec h1 hn
    | inter i j =>
      obtain ⟨m, n, rfl, rfl, h1, hmn, hn, hok⟩ := hw.test
      exact cTestInter_returns hfits hrec h1 hmn hn hok

end

end Target

end Oxcaml.Lambda.Switch
