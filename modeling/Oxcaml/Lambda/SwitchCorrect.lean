/-
Oxcaml.Lambda.SwitchCorrect — the entry points of `switch.ml`, over runs of calls.

A `Call` is a call of `zyva` or of `test_sequence`. After any calls every call returns
code (§3), and the code has, for every input in a case, the outcome of the action of
this case (`compiled_correct`), except when the test of the bounds in `do_zyva` is wrong:
`abs min_int` is `min_int`, so that a lower bound `min_int` passes for a small one and
interval tests, whose subtraction then wraps, are allowed.
-/
import Oxcaml.Lambda.SwitchClusters

set_option linter.all false

namespace Oxcaml.Lambda.Switch

open Lib (Span Returns)
open Lib.Span (Ascending Picks Within)

variable {arg test act Env O : Type} {A : Arg arg test act} {S : Meaning A Env O}

/-! ## §1 Shared actions -/

def Shared.code : Shared act → act
  | .shared a => a
  | .single a => a

/-- The actions do not use the variables of `bind`, and do not exit to fresh labels. -/
structure Closed (S : Meaning A Env O) (label : ℕ) (actions : List (Shared act)) : Prop where
  stable : ∀ sh ∈ actions, ∀ ρ a, S.run (S.bound ρ a) sh.code = S.run ρ sh.code
  fresh : ∀ sh ∈ actions, ∀ ρ l, label ≤ l → S.run ρ sh.code ≠ S.exited l

theorem Closed.tail {label : ℕ} {sh : Shared act} {actions : List (Shared act)}
    (h : Closed S label (sh :: actions)) : Closed S label actions :=
  ⟨fun sh' hsh' => h.stable sh' (List.mem_cons_of_mem _ hsh'),
    fun sh' hsh' => h.fresh sh' (List.mem_cons_of_mem _ hsh')⟩

variable {actions : List (Shared act)}

theorem Closed.mono {label label' : ℕ} (h : Closed S label actions)
    (hl : label ≤ label') : Closed S label' actions :=
  ⟨h.stable, fun sh hsh ρ l hll => h.fresh sh hsh ρ l (hl.trans hll)⟩

/-- Code without exits to fresh labels is not changed by the handlers. -/
theorem run_handlers (label : ℕ) (actions : List (Shared act)) {ρ : Env} {body : act}
    (hbody : ∀ l, label ≤ l → S.run ρ body ≠ S.exited l) :
    S.run ρ ((abstractShared A label actions).1 body) = S.run ρ body := by
  induction actions generalizing label body with
  | nil => rfl
  | cons sh actions ih =>
    cases sh with
    | single a => exact ih label hbody
    | shared a =>
      have hcatch : S.run ρ (A.makeCatch label a body) = S.run ρ body :=
        S.run_makeCatch_of_ne ρ label a body (hbody label le_rfl)
      refine (ih (label + 1) fun l hl => ?_).trans hcatch
      rw [hcatch]
      exact hbody l (by omega)

/-- What stands for an action under the handlers. -/
structure StandsFor (S : Meaning A Env O) (label : ℕ) (hs : act → act) (sh : Shared act)
    (code : act) : Prop where
  stable : ∀ ρ a, S.run (S.bound ρ a) code = S.run ρ code
  fresh : ∀ ρ l, l < label → S.run ρ sh.code ≠ S.exited l → S.run ρ code ≠ S.exited l
  run : ∀ ρ body, S.run ρ body = S.run ρ code → S.run ρ (hs body) = S.run ρ sh.code

theorem abstractShared_spec {label : ℕ}
    (h : Closed S label actions) {i : ℕ} {sh : Shared act} (hsh : actions[i]? = some sh) :
    ∃ code, (abstractShared A label actions).2[i]? = some code ∧
      StandsFor S label (abstractShared A label actions).1 sh code := by
  induction actions generalizing label i with
  | nil => simp at hsh
  | cons sh' actions ih =>
    cases sh' with
    | single a =>
      cases i with
      | zero =>
        injection hsh with hsh
        subst hsh
        refine ⟨a, rfl, h.stable _ List.mem_cons_self, fun ρ l _ hl => hl, fun ρ body hbody => ?_⟩
        refine (run_handlers label actions fun l hl => ?_).trans hbody
        rw [hbody]
        exact h.fresh _ List.mem_cons_self ρ l hl
      | succ i => exact ih h.tail hsh
    | shared a =>
      cases i with
      | zero =>
        injection hsh with hsh
        subst hsh
        refine ⟨A.makeExit label, rfl, fun ρ b => ?_, fun ρ l hl _ => ?_, fun ρ body hbody => ?_⟩
        · rw [S.run_makeExit, S.run_makeExit]
        · rw [S.run_makeExit]
          intro heq
          have := S.exited_inj _ _ heq
          omega
        rw [S.run_makeExit] at hbody
        have hcatch := S.run_makeCatch_of ρ label a body hbody
        refine (run_handlers (label + 1) actions fun l hl => ?_).trans hcatch
        rw [hcatch]
        exact h.fresh _ List.mem_cons_self ρ l (by omega)
      | succ i =>
        obtain ⟨code, hcode, hstands⟩ := ih (h.tail.mono (Nat.le_succ label)) hsh
        have hmem : sh ∈ actions := List.mem_of_getElem? hsh
        have hne : ∀ ρ, S.run ρ code ≠ S.exited label := fun ρ =>
          hstands.fresh ρ label (by omega) (h.tail.fresh sh hmem ρ label le_rfl)
        refine ⟨code, hcode, hstands.stable, fun ρ l hl => hstands.fresh ρ l (by omega),
          fun ρ body hbody => ?_⟩
        have hcatch := S.run_makeCatch_of_ne ρ label a body (hbody ▸ hne ρ)
        exact hstands.run ρ _ (hcatch.trans hbody)

/-! ## §2 Calls -/

/-- The function that is called, with the bounds of `zyva`. -/
inductive Entry
  | zyva (low high : ℤ)
  | testSequence
  deriving DecidableEq

structure Call (arg act : Type) where
  entry : Entry
  /-- The next fresh label. -/
  label : ℕ
  input : arg
  cases : List Case
  actions : List (Shared act)

namespace Call

variable (A) in
/-- The call. -/
def compile (F : FloatTest) (c : Call arg act) : M act :=
  match c.entry with
  | .zyva low high => zyva A F c.label low high c.input c.cases c.actions
  | .testSequence => testSequence A c.label c.input c.cases c.actions

/-- The bounds cover the cases. -/
def Covered (c : Call arg act) : Prop :=
  match c.entry with
  | .zyva low high => Within c.cases low high ∧ minInt ≤ low ∧ high ≤ maxInt
  | .testSequence => True

/-- Cases in increasing order, with actions and with bounds. -/
structure WellFormed (c : Call arg act) : Prop where
  cases : Switch.WellFormed c.cases
  actions : ∀ d ∈ c.cases, ∃ sh, c.actions[d.act]? = some sh
  covered : c.Covered

/-- The call does not take `min_int` for a small lower bound. -/
def BoundsTested (c : Call arg act) : Prop :=
  match c.entry with
  | .zyva low high => ¬(low = minInt ∧ -interLimit ≤ high ∧ high ≤ interLimit)
  | .testSequence => True

/-- For every input in a case, the code does what the action of this case does. -/
def Correct (S : Meaning A Env O) (c : Call arg act) (code : act) : Prop :=
  ∀ ρ x a sh, S.value ρ c.input = x → Picks c.cases x a → c.actions[a]? = some sh →
    S.run ρ code = S.run ρ sh.code

end Call

/-- The states that calls leave. -/
inductive Reached (A : Arg arg test act) (F : FloatTest) : Memo → Prop
  | start : Reached A F ⟨[], false⟩
  | call {memo memo' : Memo} {c : Call arg act} {code : act} : Reached A F memo → c.WellFormed →
      c.compile A F memo = .ok (code, memo') → Reached A F memo'

/-! ## §3 The calls return -/

variable {F : FloatTest} {cases : List Case} {actions : List act} {memo : Memo}

theorem inv_setOkInter (h : memo.Valid) (okInter : Bool) :
    ∃ memo', setOkInter okInter memo = .ok ((), memo') ∧ Inv okInter memo' := by
  refine ⟨_, rfl, ?_⟩
  dsimp only
  split_ifs with heq
  · exact ⟨h, heq⟩
  · exact ⟨fun p hp => by simp at hp, rfl⟩

/-- For every input in a case between the bounds, the code does what its action does. -/
def Selects (S : Meaning A Env O) (cases : List Case) (actions : List act) (a : arg) (code : act) :
    Prop :=
  ∀ x i c, Picks cases x i → actions[i]? = some c → (∀ ρ b, S.run (S.bound ρ b) c = S.run ρ c) →
    ∀ ρ, S.value ρ a = x → S.run ρ code = S.run ρ c

/-- The target of an input and an action that does not use the variables of `bind`. -/
def targetOf (S : Meaning A Env O) (okInter : Bool) (x : ℤ) (c : act)
    (hstable : ∀ ρ b, S.run (S.bound ρ b) c = S.run ρ c) {low high : ℤ} (hlow : minInt ≤ low)
    (hhigh : high ≤ maxInt) : Target S :=
  ⟨okInter, low, high, x, fun ρ => S.run ρ c, hstable, hlow, hhigh⟩

variable {low high : ℤ}

theorem tracks_start {okInter : Bool} {x : ℤ} {c : act} {a : arg} {ρ : Env}
    {hstable : ∀ ρ b, S.run (S.bound ρ b) c = S.run ρ c} {hlow : minInt ≤ low}
    {hhigh : high ≤ maxInt} (hx : S.value ρ a = x) (hx1 : low ≤ x) (hx2 : x ≤ high)
    (hsmall : okInter = true → low < high → -interLimit ≤ low ∧ high ≤ interLimit) :
    (targetOf S okInter x c hstable hlow hhigh).Tracks ρ ⟨0, a⟩ :=
  ⟨by simp [targetOf, hx], hx1, hx2, .inl rfl, hsmall⟩

/-- The flag of the bounds is right, except for a lower bound `min_int`. -/
theorem small_of_flag (hlow : minInt ≤ low)
    (hhigh : high ≤ maxInt) (hcond : ¬(low = minInt ∧ -interLimit ≤ high ∧ high ≤ interLimit))
    (hflag : (abs low ≤ interLimit && abs high ≤ interLimit) = true) (hlt : low < high) :
    -interLimit ≤ low ∧ high ≤ interLimit := by
  simp only [Bool.and_eq_true, decide_eq_true_eq] at hflag
  unfold abs norm interLimit minInt maxInt at *
  split_ifs at hflag <;> lia

section

variable (S : Meaning A Env O)

theorem stable_makeExit (ρ : Env) (b : arg) :
    S.run (S.bound ρ b) (A.makeExit 0) = S.run ρ (A.makeExit 0) := by
  rw [S.run_makeExit, S.run_makeExit]

/-- The clusters of `do_zyva` and their test sequence, once the flag is set. -/
def testClusters (A : Arg arg test act) (F : FloatTest) (a : arg) (cases : List Case)
    (actions : List act) : M act := do
  let (nClusters, k) ← compClusters F cases
  let (clusters, acts) ← makeClusters A cases actions nClusters k
  cTest A acts clusters.length ⟨0, a⟩ clusters

theorem doZyva_spec (hmemo : memo.Valid) (h : WellFormed cases)
    (hdef : Defined actions cases) (hcover : Within cases low high)
    (hlow : minInt ≤ low) (hhigh : high ≤ maxInt) (a : arg) :
    ∃ code memo', doZyva A F low high a cases actions memo = .ok (code, memo') ∧ memo'.Valid ∧
      (¬(low = minInt ∧ -interLimit ≤ high ∧ high ≤ interLimit) →
        Selects S cases actions a code) := by
  obtain ⟨memo1, hset, hinv⟩ := inv_setOkInter hmemo (abs low ≤ interLimit && abs high ≤ interLimit)
  generalize hok : (abs low ≤ interLimit && abs high ≤ interLimit : Bool) = okInter at hset hinv
  have htarget : ∀ p : {p : ℤ × act // ∀ ρ b, S.run (S.bound ρ b) p.2 = S.run ρ p.2},
      Returns (Inv okInter) (testClusters A F a cases actions)
      fun code => (¬(low = minInt ∧ -interLimit ≤ high ∧ high ≤ interLimit) →
        ∀ i, Picks cases p.1.1 i → actions[i]? = some p.1.2 →
          ∀ ρ, S.value ρ a = p.1.1 → S.run ρ code = S.run ρ p.1.2) := by
    rintro ⟨⟨x, c⟩, hstable⟩
    refine .bind (compClusters_returns h) ?_
    rintro ⟨nClusters, k⟩ ⟨minClusters, hrows, hn⟩
    obtain ⟨r, acts, hmake, hspec⟩ := makeClusters_spec (A := A) (S := S) h hdef hrows hn
    obtain ⟨hfits, hpick⟩ := hspec (targetOf S okInter x c hstable hlow hhigh) hcover
    refine .bind (.lift hmake (Q := (· = _)) rfl) ?_
    rintro _ rfl
    refine (Target.cTest_returns hfits le_rfl).mono fun code hcode hcond i hi hci ρ hρ => ?_
    obtain ⟨index, f, hindex, hf, hright⟩ := hpick i c hi hci fun _ => rfl
    obtain ⟨hx1, hx2⟩ := hi.within hcover
    refine hcode index f hindex hf hright ρ (tracks_start hρ hx1 hx2 fun hflag hlt => ?_)
    exact small_of_flag hlow hhigh hcond (hok.trans hflag) hlt
  have hexit := htarget ⟨(0, A.makeExit 0), stable_makeExit S⟩
  have hreturns := Returns.all (hexit.mono fun _ _ => trivial) htarget
  obtain ⟨code, memo', hrun, ⟨hvalid, -⟩, hcode⟩ := hreturns memo1 hinv
  refine ⟨code, memo', ?_, hvalid, fun hcond x i c hi hc hstable ρ hρ => ?_⟩
  · unfold doZyva
    rw [hok]
    show (setOkInter okInter memo >>= fun p => _) = _
    rw [hset]
    exact hrun
  · exact hcode ⟨(x, c), hstable⟩ hcond i hi hc ρ hρ

/-- The test sequence alone, with the actions as they are. -/
theorem sequence_spec (hmemo : memo.Valid)
    (h : WellFormed cases) (hdef : Defined actions cases) (a : arg) :
    ∃ code memo', (do
        setOkInter false
        cTest A (actions.map fun action _ => pure action) cases.length ⟨0, a⟩ cases : M act) memo =
        .ok (code, memo') ∧ memo'.Valid ∧ Selects S cases actions a code := by
  obtain ⟨memo1, hset, hinv⟩ := inv_setOkInter hmemo false
  have hget : ∀ (i : ℕ) c, actions[i]? = some c →
      (actions.map fun action (_ : Ctx arg) => (pure action : Except Exn act))[i]? =
        some fun _ => pure c := by
    intro i c hc
    rw [List.getElem?_map, hc]
    rfl
  have htarget : ∀ p : {p : ℤ × act // ∀ ρ b, S.run (S.bound ρ b) p.2 = S.run ρ p.2},
      Returns (Inv false)
        (cTest A (actions.map fun action _ => pure action) cases.length ⟨0, a⟩ cases)
        fun code => ∀ i, Picks cases p.1.1 i → actions[i]? = some p.1.2 →
          ∀ ρ, S.value ρ a = p.1.1 → S.run ρ code = S.run ρ p.1.2 := by
    rintro ⟨⟨x, c⟩, hstable⟩
    have hfits : (targetOf S false x c hstable le_rfl le_rfl).Fits
        (actions.map fun action _ => pure action) cases := by
      refine ⟨h.ne_nil, h.size.le, h.ascending, h.ints, fun d hd => ?_⟩
      obtain ⟨code, hcode⟩ := hdef d hd
      exact ⟨_, hget _ _ hcode, fun _ => ⟨code, rfl⟩⟩
    refine (Target.cTest_returns hfits le_rfl).mono fun code hcode i hi hci ρ hρ => ?_
    obtain ⟨hx1, hx2⟩ := hi.within h.ints
    refine hcode i _ hi (hget i c hci) ?_ ρ (tracks_start hρ hx1 hx2 fun hflag => nomatch hflag)
    intro ctx made hmade ρ' _
    injection hmade with hmade
    rw [← hmade]
    rfl
  have hexit := htarget ⟨(0, A.makeExit 0), stable_makeExit S⟩
  have hreturns := Returns.all (hexit.mono fun _ _ => trivial) htarget
  obtain ⟨code, memo', hrun, ⟨hvalid, -⟩, hcode⟩ := hreturns memo1 hinv
  refine ⟨code, memo', ?_, hvalid, fun x i c hi hc hstable ρ hρ => ?_⟩
  · show (setOkInter false memo >>= fun p => _) = _
    rw [hset]
    exact hrun
  · exact hcode ⟨(x, c), hstable⟩ i hi hc ρ hρ

end

theorem abstractShared_length (label : ℕ) (actions : List (Shared act)) :
    (abstractShared A label actions).2.length = actions.length := by
  induction actions generalizing label with
  | nil => rfl
  | cons sh actions ih => cases sh <;> simp [abstractShared, ih]

variable {c : Call arg act}

theorem Call.WellFormed.defined (h : c.WellFormed) :
    Defined (abstractShared A c.label c.actions).2 c.cases := by
  intro d hd
  obtain ⟨sh, hsh⟩ := h.actions d hd
  obtain ⟨hlt, -⟩ := List.getElem?_eq_some_iff.1 hsh
  rw [← abstractShared_length (A := A) c.label] at hlt
  exact ⟨_, List.getElem?_eq_getElem hlt⟩

/-- The handlers around code that selects the actions they stand for. -/
theorem correct_of_selects (hclosed : Closed S c.label c.actions) {code : act}
    (h : Selects S c.cases (abstractShared A c.label c.actions).2 c.input code) :
    c.Correct S ((abstractShared A c.label c.actions).1 code) := by
  intro ρ x i sh hx hi hsh
  obtain ⟨code', hcode', hstands⟩ := abstractShared_spec (A := A) hclosed hsh
  exact hstands.run ρ code (h x i code' hi hcode' hstands.stable ρ hx)

/-- A call of a state that is left by calls returns, and leaves such a state. -/
theorem compile_spec (S : Meaning A Env O) (hmemo : memo.Valid) (h : c.WellFormed) :
    ∃ code memo', c.compile A F memo = .ok (code, memo') ∧ memo'.Valid ∧
      (Closed S c.label c.actions → c.BoundsTested → c.Correct S code) := by
  have hne : ¬c.cases.length = 0 := by
    have hpos := List.length_pos_iff.2 h.cases.ne_nil
    omega
  have hcovered := h.covered
  unfold Call.compile Call.BoundsTested
  unfold Call.Covered at hcovered
  cases hentry : c.entry with
  | zyva low high =>
    rw [hentry] at hcovered
    obtain ⟨hwithin, hlow, hhigh⟩ := hcovered
    obtain ⟨code, memo', hrun, hvalid, hcode⟩ :=
      doZyva_spec (F := F) S hmemo h.cases (h.defined (A := A)) hwithin hlow hhigh c.input
    refine ⟨(abstractShared A c.label c.actions).1 code, memo', ?_, hvalid,
      fun hclosed hcond => correct_of_selects hclosed (hcode hcond)⟩
    show zyva A F c.label low high c.input c.cases c.actions memo = _
    unfold zyva
    rw [if_neg hne]
    show (doZyva A F low high c.input c.cases (abstractShared A c.label c.actions).2 memo >>=
      fun p => _) = _
    rw [hrun]
    rfl
  | testSequence =>
    obtain ⟨code, memo', hrun, hvalid, hcode⟩ :=
      sequence_spec S hmemo h.cases (h.defined (A := A)) c.input
    refine ⟨(abstractShared A c.label c.actions).1 code, memo', ?_, hvalid,
      fun hclosed _ => correct_of_selects hclosed hcode⟩
    show testSequence A c.label c.input c.cases c.actions memo = _
    unfold testSequence
    rw [if_neg hne]
    have hassoc := congrArg (fun r => r >>= fun p : act × Memo =>
      (Except.ok ((abstractShared A c.label c.actions).1 p.1, p.2) : Except Exn (act × Memo))) hrun
    exact hassoc

theorem Reached.valid (S : Meaning A Env O) (h : Reached A F memo) : memo.Valid := by
  induction h with
  | start => exact fun p hp => by simp at hp
  | call _ hwf hrun ih =>
    obtain ⟨code, memo', hrun', hvalid, -⟩ := compile_spec (F := F) S ih hwf
    rw [hrun'] at hrun
    injection hrun with hrun
    injection hrun with _ hmemo
    rwa [← hmemo]

/-- After any calls a call returns code, and the code runs the action of the input's case. -/
theorem compiled_correct (S : Meaning A Env O) {memo : Memo} (hmemo : Reached A F memo)
    {c : Call arg act} (hwf : c.WellFormed) (hclosed : Closed S c.label c.actions) :
    ∃ code memo', c.compile A F memo = .ok (code, memo') ∧ (c.BoundsTested → c.Correct S code) := by
  obtain ⟨code, memo', hrun, -, hcode⟩ := compile_spec (F := F) S (hmemo.valid S) hwf
  exact ⟨code, memo', hrun, hcode hclosed⟩

/-! ## §4 An evaluator -/

/-- What code does: the action that it runs, or a jump to a label. -/
inductive Ran
  | action (n : ℕ)
  | exited (label : ℕ)
  | stuck
  deriving DecidableEq

def Primitive.eval : Primitive → ℤ → ℤ → Bool
  | .eqint, a, b => a = b
  | .neint, a, b => a ≠ b
  | .leint, a, b => a ≤ b
  | .ltint, a, b => a < b
  | .geint, a, b => b ≤ a
  | .gtint, a, b => b < a

/-- The functor parameter that evaluates: an argument is its value, code is what it does. -/
def evalArg : Arg ℤ Bool Ran where
  newarg a := a
  bindIn _ body := body
  makeConst i := i
  makeOffset a n := norm (a + n)
  makePrim p a b := p.eval a b
  makeIsout h a := unsigned h < unsigned a
  makeIsin h a := unsigned a ≤ unsigned h
  makeIsNonzero a := a ≠ 0
  argAsTest a := a = 1
  makeIf t ifso ifno := if t then ifso else ifno
  makeSwitch a tbl acts := ((tbl[a.toNat]?.bind fun k => acts[k]?).getD .stuck)
  makeCatch label handler body := if body = .exited label then handler else body
  makeExit label := .exited label

def evalMeaning : Meaning evalArg Unit Ran where
  value _ a := a
  holds _ t := t = true
  run _ code := code
  bound _ _ := ()
  exited := .exited
  value_newarg _ _ := rfl
  run_bindIn _ _ _ := rfl
  value_makeConst _ _ _ _ := rfl
  value_makeOffset _ _ _ := rfl
  holds_makePrim _ p a b := by cases p <;> simp [evalArg, Primitive.eval, Primitive.Holds]
  holds_makeIsout _ h a := by simp [evalArg]
  holds_makeIsin _ h a := by simp [evalArg]
  holds_makeIsNonzero _ a := by simp [evalArg]
  holds_argAsTest _ a _ := by simp [evalArg]
  run_makeIf_of _ t ifso ifno h := if_pos h
  run_makeIf_of_not _ t ifso ifno h := if_neg h
  run_makeSwitch _ a tbl acts n k code ha hk hcode := by
    subst ha
    simp [evalArg, hk, hcode]
  run_makeExit _ _ := rfl
  run_makeCatch_of _ label handler body h := if_pos h
  run_makeCatch_of_ne _ label handler body h := if_neg h
  exited_inj l l' h := by
    injection h

/-- The test of `dense`, with exact numbers. -/
def exactTest : FloatTest where
  dense ntests l h := 33333 * (h - l + 1) ≤ 100000 * (ntests + 1)
  sparse ntests l h hn hw := by
    simp only [decide_eq_false_iff_not]
    omega

theorem closed_eval (label : ℕ) {actions : List (Shared Ran)}
    (h : ∀ sh ∈ actions, ∃ n, sh.code = .action n) : Closed evalMeaning label actions := by
  refine ⟨fun sh hsh ρ a => rfl, fun sh hsh ρ l hl heq => ?_⟩
  obtain ⟨n, hn⟩ := h sh hsh
  have hrun : sh.code = .exited l := heq
  rw [hn] at hrun
  cases hrun

/-- Five cases from `low` to 400, with an input. -/
def fiveCases (low x : ℤ) : Call ℤ Ran where
  entry := .zyva low 400
  label := 0
  input := x
  cases := [⟨low, 0, 0⟩, ⟨1, 100, 1⟩, ⟨101, 200, 2⟩, ⟨201, 300, 0⟩, ⟨301, 400, 3⟩]
  actions := [.shared (.action 0), .single (.action 1), .single (.action 2), .single (.action 3)]

theorem fiveCases_wellFormed (h1 : minInt ≤ low) (h2 : low ≤ 0) (x : ℤ) :
    (fiveCases low x).WellFormed := by
  unfold minInt at h1
  refine ⟨⟨by simp [fiveCases], by simp [fiveCases], ⟨?_, ?_⟩, ?_⟩, ?_, ?_, ?_, ?_⟩
  · simpa [fiveCases] using h2
  · simp [fiveCases]
  · simp only [fiveCases, Within, minInt, maxInt]
    simp
    omega
  · simp [fiveCases]
  · simp only [fiveCases, Within]
    simp
    omega
  · exact h1
  · simp [maxInt]

theorem fiveCases_closed (low x : ℤ) :
    Closed evalMeaning (fiveCases low x).label (fiveCases low x).actions :=
  closed_eval _ (by simp [fiveCases, Shared.code])

/-- The interval test that is allowed wraps: the input `min_int` runs the action 3. -/
theorem fiveCases_wraps : ∃ memo', (fiveCases minInt minInt).compile evalArg exactTest ⟨[], false⟩ =
    .ok (.action 3, memo') := ⟨_, rfl⟩

theorem compiled_not_always_correct :
    ¬∀ (c : Call ℤ Ran) (code : Ran) (memo' : Memo), c.WellFormed →
      Closed evalMeaning c.label c.actions →
      c.compile evalArg exactTest ⟨[], false⟩ = .ok (code, memo') → c.Correct evalMeaning code := by
  intro h
  obtain ⟨memo', hrun⟩ := fiveCases_wraps
  have hcorrect := h _ _ _ (fiveCases_wellFormed le_rfl (by unfold minInt; omega) minInt)
    (fiveCases_closed minInt minInt) hrun
  have hpick : Picks (fiveCases minInt minInt).cases minInt 0 :=
    ⟨_, List.mem_cons_self, ⟨le_rfl, by decide⟩, rfl⟩
  have hrun0 := hcorrect () minInt 0 (.shared (.action 0)) rfl hpick rfl
  exact absurd hrun0 (by simp [evalMeaning, Shared.code])

/-- After the call that goes wrong, the same cases from -5 on run the right action. -/
theorem compiled_correct_fiveCases : ∃ memo, Reached evalArg exactTest memo ∧ memo.t ≠ [] ∧
    ∃ code memo', (fiveCases (-5) 250).compile evalArg exactTest memo = .ok (code, memo') ∧
      code = .action 0 := by
  obtain ⟨memo, hrun, ht⟩ : ∃ memo', (fiveCases minInt minInt).compile evalArg exactTest
      ⟨[], false⟩ = .ok (.action 3, memo') ∧ memo'.t ≠ [] := ⟨_, rfl, by simp⟩
  have hmemo : Reached evalArg exactTest memo :=
    .call .start (fiveCases_wellFormed le_rfl (by unfold minInt; omega) minInt) hrun
  obtain ⟨code, memo', hcode, hcorrect⟩ := compiled_correct (F := exactTest) evalMeaning hmemo
    (fiveCases_wellFormed (by unfold minInt; omega) (by omega) 250)
    (fiveCases_closed (-5) 250)
  refine ⟨memo, hmemo, ht, code, memo', hcode, ?_⟩
  have hbounds : (fiveCases (-5) 250).BoundsTested := by
    intro hbad
    have hmin := hbad.1
    unfold minInt at hmin
    omega
  have hpick : Picks (fiveCases (-5) 250).cases 250 0 :=
    ⟨⟨201, 300, 0⟩, by simp [fiveCases], ⟨by decide, by decide⟩, rfl⟩
  exact hcorrect hbounds () 250 0 (.shared (.action 0)) rfl hpick rfl

end Oxcaml.Lambda.Switch