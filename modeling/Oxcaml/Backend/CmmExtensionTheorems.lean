/-
Oxcaml.Backend.CmmExtensionTheorems — narrowing is right, and never fails.

`asr_int` asks `max_signed_bit_length` whether a left shift lost bits, and then
shifts to the left itself; that would add constants, and `add_const` may be
fatal. But an expression that is known to be short is not a sum (§1). So only
`max_signed_bit_length` may fail, on comparisons that do not have two operands
(§2), and the helpers of `CmmExtension` return when there are none (§3).
-/
import Oxcaml.Backend.CmmAgreement
import Oxcaml.Backend.CmmExtensionSound

set_option linter.all false

namespace Oxcaml.Backend

open Expression CmmPeepholeEngine

variable {O : Type}

namespace CmmHelpers

/-! ## §1 Short expressions -/

/-- A left shift of `e` by a constant does not come to a sum. -/
inductive NoSum : Expression O → Prop
  | intro {e} : (∀ x k, e.tail = cop .clsl [x, k] → NoSum x) → (∀ args, e.tail ≠ cop .caddi args) →
    (∀ op x y, op = .cor ∨ op = .cxor → e.tail = cop op [x, y] → getConst y = none) → NoSum e

variable {e : Expression O}

theorem NoSum.of_core (h : NoSum (core e)) : NoSum e := by
  cases h with
  | intro hclsl hcaddi hbitwise =>
    rw [tail_core] at hclsl hcaddi hbitwise
    exact .intro hclsl hcaddi hbitwise

variable {op : Operation O}

/-- An operation other than those that a left shift goes into. -/
theorem noSum_cop {args : List (Expression O)}
    (h : core e = cop op args) (hclsl : op ≠ .clsl) (hcaddi : op ≠ .caddi)
    (hbitwise : ¬ (op = .cor ∨ op = .cxor)) : NoSum e := by
  have ht := tail_eq_of_core h
  refine .intro (fun x k hx => ?_) (fun args' hx => ?_) (fun op' x y hop hx => ?_)
  · rw [ht] at hx
    cases hx
    exact absurd rfl hclsl
  · rw [ht] at hx
    cases hx
    exact absurd rfl hcaddi
  rw [ht] at hx
  cases hx
  exact absurd hop hbitwise

variable {m bits : Nat}

theorem maxSignedBitLength_engine
    (h : maxSignedBitLength e = .ok m) : maxSignedBitLength' e = .ok m := by
  obtain ⟨m', hm', h⟩ := bind_ok h
  split at h
  · rename_i heq
    cases h
    rw [hm', heq]
  split at h
  · cases h; exact hm'
  · cases h

theorem maxSignedBitLength'_const (h : (getConst (core e)).isSome)
    (hm : maxSignedBitLength' e = .ok m) : m = archBits := by
  rw [maxSignedBitLength'] at hm
  rcases matchClausesInOrder_ok hm with rfl | ⟨clause, hmem, env, hmatch, a, ha, rfl⟩
  · rfl
  have hfits := (match_fits hmatch).2
  have hno : ∀ {op : Binop} {pat1 pat2}, ¬ Fits env (.binop op pat1 pat2) (preferOr e) := by
    rintro op pat1 pat2 ⟨o, x, y, heq, -⟩
    have hp : preferOr e = e := by
      unfold preferOr
      split
      · cases h
      · rfl
    rw [hp] at heq
    rw [heq] at h
    cases h
  simp only [List.mem_cons, List.not_mem_nil, or_false] at hmem
  rcases hmem with rfl | rfl | rfl | rfl | rfl | rfl
  · exact absurd hfits hno
  · exact absurd (guard_of_fits hfits).1 hno
  · exact absurd (guard_of_fits hfits).1 hno
  · exact absurd (guard_of_fits hfits).1 hno
  · exact absurd (guard_of_fits hfits).1 hno
  · exact absurd hfits hno

/-- What the engine sees is the expression itself, or an or that stands for a sum. -/
theorem core_preferOr {x y : Expression O} (h : core (preferOr e) = cop op [x, y]) :
    core e = cop op [x, y] ∨ (op = .cor ∧ (getConst y).isSome) := by
  unfold preferOr at h
  split at h
  · split at h
    · cases h; exact .inr ⟨rfl, rfl⟩
    · exact .inl h
  · exact .inl h

theorem noSum_of_short (h : maxSignedBitLength' e = .ok m) (hm : m < archBits) : NoSum e := by
  induction hw : e.weight using Nat.strongRecOn generalizing e m with | ind w ih =>
rw [maxSignedBitLength'] at h
have hwt := weight_preferOr e
rcases matchClausesInOrder_ok h with rfl | ⟨clause, hmem, env, hmatch, a, ha, rfl⟩
· exact absurd hm (Nat.lt_irrefl _)
have hfits := (match_fits hmatch).2
simp only [List.mem_cons, List.not_mem_nil, or_false] at hmem
rcases hmem with rfl | rfl | rfl | rfl | rfl | rfl
· obtain ⟨op, x, y, hd, hop, -, -⟩ := hfits
  rcases core_preferOr hd with hd | ⟨rfl, -⟩
  · refine noSum_cop hd ?_ ?_ ?_
    · rintro rfl; cases hop
    · rintro rfl; cases hop
    · rintro (rfl | rfl) <;> cases hop
  · cases hop
· obtain ⟨x, k, hd, -, hk⟩ := fits_binop rfl (guard_of_fits hfits).1
  rcases core_preferOr hd with hd | ⟨hop, -⟩
  · exact noSum_cop hd (by simp) (by simp) (by simp)
  · cases hop
· obtain ⟨c, hc, ha⟩ := withExpr_ok ha
  obtain ⟨m', hm', ha⟩ := bind_ok ha
  obtain ⟨n, hn, ha⟩ := bind_ok ha
  cases ha
  have hlt := weight_lt_of_fits (guard_of_fits hfits).1 hc
  obtain ⟨x, k, hd, hx, hk⟩ := fits_binop rfl (guard_of_fits hfits).1
  rcases core_preferOr hd with hd | ⟨hop, -⟩
  · have hns := ih _ (by omega) hm' (by omega) rfl
    rw [eq_core_of_fits hx hc] at hns
    have ht := tail_eq_of_core hd
    refine .intro (fun x' k' hx' => ?_) (fun args hx' => ?_) (fun op x' y' hop hx' => ?_)
    · rw [ht] at hx'
      cases hx'
      exact hns.of_core
    · rw [ht] at hx'; cases hx'
    rw [ht] at hx'
    cases hx'
    rcases hop with hop | hop <;> cases hop
  · cases hop
· obtain ⟨x, k, hd, -, hk⟩ := fits_binop rfl (guard_of_fits hfits).1
  rcases core_preferOr hd with hd | ⟨hop, -⟩
  · exact noSum_cop hd (by simp) (by simp) (by simp)
  · cases hop
· obtain ⟨x, k, hd, -, hk⟩ := fits_binop rfl (guard_of_fits hfits).1
  rcases core_preferOr hd with hd | ⟨hop, -⟩
  · exact noSum_cop hd (by simp) (by simp) (by simp)
  · cases hop
obtain ⟨c1, hc1, ha⟩ := withExpr_ok ha
obtain ⟨c2, hc2, ha⟩ := withExpr_ok ha
obtain ⟨m1, hm1, ha⟩ := bind_ok ha
obtain ⟨m2, hm2, ha⟩ := bind_ok ha
cases ha
obtain ⟨op, x, y, hd, hop, hx, hy⟩ := hfits
-- A constant operand would have made the length 64.
have hy' : (getConst (core y)).isSome = false := by
  rw [Bool.eq_false_iff]
  intro hconst
  rw [eq_core_of_fits hy hc2] at hm2
  have := maxSignedBitLength'_const (by rwa [core_core]) hm2
  omega
have hy : getConst y = none := by
  cases hg : getConst y with
  | none => rfl
  | some k => rw [getConst_core hg] at hy'; cases hy'
rcases core_preferOr hd with hd | ⟨-, hk⟩
· have ht := tail_eq_of_core hd
  refine .intro (fun x' k' hx' => ?_) (fun args hx' => ?_) (fun op' x' y' hop' hx' => ?_)
  · rw [ht] at hx'
    cases hx'
    cases hop
  · rw [ht] at hx'
    cases hx'
    cases hop
  rw [ht] at hx'
  cases hx'
  exact hy
· rw [hy] at hk; cases hk

variable [DecidableEq O]

theorem lslInt_ne_error {c1 : Expression O} (h : NoSum c1) (n : OcamlInt) (err : Fatal O) :
    lslInt c1 (cconstInt n) ≠ .error err := by
  induction h generalizing n with
  | @intro c1 hclsl hcaddi hbitwise ih =>
    intro herr
    rw [lslInt] at herr
    have ht := mapTail1_error (mapTail1_error herr)
    dsimp only [tail] at ht
    split at ht
    · cases ht
    split at ht
    · split at ht
      · cases ht
      split at ht
      · rename_i hc _
        split at ht
        · split at ht
          · exact ih _ _ hc _ ht
          · cases ht
        · cases ht
      · exact hcaddi _ ‹_›
      · rename_i hc _
        split at ht
        · rename_i hk
          rw [hbitwise _ _ _ (.inl rfl) hc] at hk
          cases hk
        · cases ht
      · rename_i hc _
        split at ht
        · rename_i hk
          rw [hbitwise _ _ _ (.inr rfl) hc] at hk
          cases hk
        · cases ht
      · split at ht
        · split at ht <;> cases ht
        · cases ht
      · cases ht
    · cases ht

/-! ## §2 Comparisons -/

omit [DecidableEq O] in
theorem maxSignedBitLength'_total (e : Expression O) : ∃ m, maxSignedBitLength' e = .ok m := by
  induction hw : e.weight using Nat.strongRecOn generalizing e with | ind w ih =>
subst hw
rw [maxSignedBitLength']
have hwt := weight_preferOr e
suffices h : ∃ r, runDefault (fun _ => archBits) (preferOr e) _ = .ok r ∧ True from
  ⟨h.choose, h.choose_spec.1⟩
-- The clauses on a shift by a constant go on with the operand.
have hagain : ∀ {op : Binop} {guard : Env O → Except (Fatal O) Bool} {env : Env O},
    Matches (.guarded (.binop op (.any DefaultVariables.c) (.constInt DefaultVariables.n))
      guard)
      (preferOr e) env →
    env.Binds [DefaultVariables.c.id] [DefaultVariables.n.id] →
    ∃ e' m n, env.expr DefaultVariables.c = .ok e' ∧ maxSignedBitLength' e' = .ok m ∧
      env.int DefaultVariables.n = .ok n := by
  intro op guard env hmatch hbinds
  obtain ⟨e', he'⟩ := hbinds.expr (v := DefaultVariables.c) (by decide)
  obtain ⟨n, hn⟩ := hbinds.int (v := DefaultVariables.n) (by decide)
  have hlt := weight_lt_of_fits (match_fits hmatch).2.1 he'
  obtain ⟨m, hm⟩ := ih _ (by omega) e' rfl
  exact ⟨e', m, n, he', hm, hn⟩
refine matchClausesInOrder_total trivial fun clause hmem => ?_
simp only [List.mem_cons, List.not_mem_nil, or_false] at hmem
rcases hmem with rfl | rfl | rfl | rfl | rfl | rfl
· exact ⟨_, _, linear_anyAny, fun env hmatch hbinds => ⟨_, rfl, trivial⟩⟩
· refine ⟨_, _, linear_guard1 linear_anyInt (by decide), fun env hmatch hbinds => ?_⟩
  obtain ⟨e', m, n, he', hm, hn⟩ := hagain hmatch hbinds
  refine ⟨1 + log2 n.toInt, ?_, trivial⟩
  dsimp only
  rw [hn]
  rfl
· refine ⟨_, _, linear_guard1 linear_anyInt (by decide), fun env hmatch hbinds => ?_⟩
  obtain ⟨e', m, n, he', hm, hn⟩ := hagain hmatch hbinds
  refine ⟨min archBits (m + n.toNat), ?_, trivial⟩
  dsimp only
  rw [withExpr_eq he', hm, hn]
  rfl
· refine ⟨_, _, linear_guard1 linear_anyInt (by decide), fun env hmatch hbinds => ?_⟩
  obtain ⟨e', m, n, he', hm, hn⟩ := hagain hmatch hbinds
  refine ⟨m - n.toNat, ?_, trivial⟩
  dsimp only
  rw [withExpr_eq he', hm, hn]
  rfl
· refine ⟨_, _, linear_guard1 linear_anyInt (by decide), fun env hmatch hbinds => ?_⟩
  obtain ⟨e', m, n, he', hm, hn⟩ := hagain hmatch hbinds
  refine ⟨if n = 0 then m else archBits - n.toNat, ?_, trivial⟩
  dsimp only
  rw [withExpr_eq he', hm, hn]
  dsimp only [Bind.bind, Except.bind]
  split <;> rfl
refine ⟨_, _, linear_anyAny, fun env hmatch hbinds => ?_⟩
obtain ⟨e1, he1⟩ := hbinds.expr (v := DefaultVariables.c1) (by decide)
obtain ⟨e2, he2⟩ := hbinds.expr (v := DefaultVariables.c2) (by decide)
have hlt1 := weight_lt_of_fits (match_fits hmatch).2 he1
have hlt2 := weight_lt_of_fits_right (match_fits hmatch).2 he2
obtain ⟨m1, hm1⟩ := ih _ (by omega) e1 rfl
obtain ⟨m2, hm2⟩ := ih _ (by omega) e2 rfl
refine ⟨max m1 m2, ?_, trivial⟩
dsimp only
rw [withExpr_eq he1, withExpr_eq he2, hm1, hm2]
rfl

/-- Comparisons have two operands. -/
def ComparisonsBinary : Expression O → Prop :=
  Throughout (fun _ => true) fun op args => matchesBinop .comparison op = true → args.length = 2

omit [DecidableEq O] in
theorem structural_comparisonsBinary : Structural (ComparisonsBinary : Expression O → Prop) where
  toHereditaryTails := hereditaryTails_throughout (fun _ _ => rfl) (fun _ _ _ _ _ _ => rfl)
    (fun _ _ _ _ _ _ => rfl) (fun _ _ _ _ _ _ h => nomatch h) fun _ _ _ _ => rfl
  cop2 := by
    intro op a b _ h
    obtain ⟨-, ha, hb⟩ := (throughout_cop2 rfl).1 h
    exact ⟨ha, hb, fun ha' hb' => (throughout_cop2 rfl).2 ⟨fun _ => rfl, ha', hb'⟩⟩

omit [DecidableEq O] in
theorem ComparisonsBinary.comparisonsBinary (h : ComparisonsBinary e) :
    comparisonsBinary e = true := by
  induction hw : e.weight using Nat.strongRecOn generalizing e with | ind w ih =>
subst hw
unfold CmmHelpers.comparisonsBinary
split
· exact beq_iff_eq.2 (h.1 rfl)
· exact beq_iff_eq.2 (h.1 rfl)
· obtain ⟨-, ha, hb⟩ := (throughout_cop2 rfl).1 h
  simp only [weight, weightList] at ih
  rw [ih _ (by omega) ha rfl, ih _ (by omega) hb rfl]
  rfl
· rfl

omit [DecidableEq O] in
theorem maxSignedBitLength_total (h : ComparisonsBinary e) : ∃ m, maxSignedBitLength e = .ok m := by
  obtain ⟨m, hm⟩ := maxSignedBitLength'_total e
  rw [maxSignedBitLength, checkEqualInt1, hm]
  dsimp only [Bind.bind, Except.bind]
  split
  · exact ⟨_, rfl⟩
  rename_i hne
  cases hdebug : e.containsDebugOnlyConstructs with
  | true => exact ⟨_, rfl⟩
  | false =>
    rw [maxSignedBitLength'_eq e hdebug h.comparisonsBinary] at hm
    exact absurd (Except.ok.inj hm) hne

/-! ## §3 No helper fails -/

theorem asrInt_ne_error (c1 : Expression O) (h : ComparisonsBinary c1) (n : OcamlInt)
    (err : Fatal O) : asrInt c1 (cconstInt n) ≠ .error err := by
  induction hw : c1.weight using Nat.strongRecOn generalizing c1 n with | ind w ih =>
intro herr
rw [asrInt] at herr
have ht := mapTail1_error (mapTail1_error herr)
have hle := weight_tail_le c1
have htail := (structural_comparisonsBinary.tail h).1
dsimp only [tail] at ht
split at ht
· cases ht
split at ht
· split at ht
  · rename_i hi
    obtain ⟨r, hr⟩ := ignoreLowBitInt_total c1.tail
    rw [hr] at hi
    cases hi
  rename_i d hi
  have hled := (ignoresLowBit hi).weight_le
  have hwd := weight_preferOr d
  have hd := (becomes_preferOr d).hereditary structural_comparisonsBinary.toHereditary
    ((ignoresLowBit hi).becomes.hereditary structural_comparisonsBinary.toHereditary htail)
  have hoperands : ∀ {op : Operation O} {x y : Expression O}, preferOr d = cop op [x, y] →
      ComparisonsBinary x ∧ x.weight < w := by
    intro op x y hc
    rw [hc] at hd hwd
    simp only [weight, weightList] at hwd
    exact ⟨((throughout_cop2 rfl).1 hd).2.1, by lia⟩
  split at ht
  · cases ht
  split at ht
  · rename_i hc
    obtain ⟨hx, hlt⟩ := hoperands hc
    split at ht
    · exact ih _ hlt _ hx _ rfl ht
    · cases ht
  · split at ht
    · exact lsrInt_ne_error _ _ _ ht
    · cases ht
  · rename_i hc
    obtain ⟨hx, hlt⟩ := hoperands hc
    split at ht
    · obtain ⟨m, hm⟩ := maxSignedBitLength_total hx
      rw [hm] at ht
      dsimp only [Bind.bind, Except.bind] at ht
      split at ht
      · split at ht
        · exact lslInt_ne_error (noSum_of_short (maxSignedBitLength_engine hm) (by lia)) _ _
            ht
        · exact ih _ hlt _ hx _ rfl ht
      · cases ht
    · cases ht
  · rename_i hc
    obtain ⟨hx, hlt⟩ := hoperands hc
    split at ht
    · split at ht
      · exact ih _ hlt _ hx _ rfl ht
      · split at ht <;> cases ht
    · cases ht
  · rename_i hc
    obtain ⟨hx, hlt⟩ := hoperands hc
    split at ht
    · split at ht
      · exact ih _ hlt _ hx _ rfl ht
      · cases ht
    · cases ht
  · rename_i hc
    obtain ⟨hx, hlt⟩ := hoperands hc
    split at ht
    · split at ht
      · exact ih _ hlt _ hx _ rfl ht
      · split at ht <;> cases ht
    · cases ht
  · cases ht
· cases ht

omit [DecidableEq O] in
theorem xorConst_ne_error (e : Expression O) (k : Nativeint) (err : Fatal O) :
    xorConst e k ≠ .error err := by
  induction hw : e.weight using Nat.strongRecOn generalizing e k with | ind w ih =>
intro h
rw [xorConst] at h
split at h
· cases h
have ht := mapTail1_error h
have hle := weight_tail_le e
split at ht
· cases ht
split at ht
· rename_i hc _
  split at ht
  · cases ht
  rw [hc] at hle
  simp only [weight, weightList] at hle
  exact ih _ (by omega) _ _ rfl ht
· cases ht

theorem orConst_ne_error (e : Expression O) (k : Nativeint) (err : Fatal O) :
    orConst e k ≠ .error err := by
  have hdefault : ∀ (e : Expression O) k, orConstDefault e k ≠ .error err := by
    intro e k h
    obtain ⟨r, hr⟩ := ignoreLowBitInt_total e
    rw [orConstDefault, hr] at h
    split at h <;> cases h
  induction hw : e.weight using Nat.strongRecOn generalizing e k with | ind w ih =>
intro h
rw [orConst] at h
split at h
· cases h
split at h
· cases h
have ht := mapTail1_error h
have hle := weight_tail_le e
split at ht
· cases ht
split at ht
· rename_i hc _
  split at ht
  · exact hdefault _ _ ht
  rw [hc] at hle
  simp only [weight, weightList] at hle
  exact ih _ (by omega) _ _ rfl ht
· exact hdefault _ _ ht

omit [DecidableEq O] in
theorem bitwiseInt_ne_error {f : Nativeint → Nativeint → Nativeint}
    {const : Expression O → Nativeint → Except (Fatal O) (Expression O)}
    (hconst : ∀ e k err, const e k ≠ .error err) (c1 c2 : Expression O) (err : Fatal O) :
    bitwiseInt op f const c1 c2 ≠ .error err := by
  intro h
  rw [bitwiseInt, mapTail2] at h
  have ht := mapTail1_error (mapTail1_error h)
  split at ht
  · cases ht
  · exact hconst _ _ _ ht
  · exact hconst _ _ _ ht
  · cases ht

omit [DecidableEq O] in
theorem bind2_ne_error {ε α β : Type} {x y : Except ε α} {f : α → α → Except ε β}
    (hx : ∀ err, x ≠ .error err) (hy : ∀ err, y ≠ .error err) (hf : ∀ a b err, f a b ≠ .error err)
    (err : ε) : (do let a ← x; let b ← y; f a b) ≠ .error err := by
  obtain ⟨a, rfl⟩ := ok_of_ne_error hx
  obtain ⟨b, rfl⟩ := ok_of_ne_error hy
  exact hf a b err

theorem lowBits_ne_error (h0 : 0 < bits) (x : Expression O)
    (h : ComparisonsBinary x) (err : Fatal O) : lowBits bits x ≠ .error err := by
  induction hw : x.weight using Nat.strongRecOn generalizing x err with | ind w ih =>
rw [lowBits]
split
· exact fun hok => (by cases hok)
rename_i hb
refine mapTail_ne_error structural_comparisonsBinary.toHereditaryTails x ?_ h err
intro c hle err hc
have hoperands : ∀ {op : Operation O} {x1 x2 : Expression O}, c = cop op [x1, x2] →
    (∀ err, lowBits bits x1 ≠ .error err) ∧ ∀ err, lowBits bits x2 ≠ .error err := by
  rintro op x1 x2 rfl
  obtain ⟨-, h1, h2⟩ := (throughout_cop2 rfl).1 hc
  simp only [weight, weightList] at hle
  exact ⟨fun err => ih _ (by omega) _ h1 err rfl, fun err => ih _ (by omega) _ h2 err rfl⟩
split
· rename_i y left right hs
  have hy := shiftedBack_weight hs
  have hcy : ComparisonsBinary y := by
    obtain ⟨op, rfl, -⟩ := shiftedBack_eq_some hs
    exact ((throughout_cop2 rfl).1 ((throughout_cop2 rfl).1 hc).2.1).2.1
  split
  · refine ih _ ?_ _ ?_ err rfl
    · simp only [lslConst0, weight, weightList]; omega
    · exact (throughout_cop2 rfl).2 ⟨fun _ => rfl, hcy, trivial⟩
  rename_i hlt
  split
  · rename_i hr
    exact absurd hr (asrInt_ne_error _ hcy _ _)
  rename_i z hr
  have hz := weight_asrConst_le hr
  exact ih _ (by omega) _ ((shiftedBack_right h0 (Nat.lt_of_not_le hb) hs
    (Bool.eq_false_iff.2 hlt) hr).hereditary structural_comparisonsBinary.toHereditary hc)
    err rfl
split
· rename_i y mask hm
  obtain ⟨hm, -⟩ := Option.filter_eq_some_iff.1 hm
  have hy := getConstBitmask_weight hm
  exact ih _ (by omega) _ ((getConstBitmask_becomes hm).hereditary
    structural_comparisonsBinary.toHereditary hc) err rfl
split
· obtain ⟨h1, h2⟩ := hoperands rfl
  exact bind2_ne_error h1 h2 (bitwiseInt_ne_error andConst_ne_error) err
· obtain ⟨h1, h2⟩ := hoperands rfl
  exact bind2_ne_error h1 h2 (bitwiseInt_ne_error orConst_ne_error) err
· obtain ⟨h1, h2⟩ := hoperands rfl
  exact bind2_ne_error h1 h2 (bitwiseInt_ne_error xorConst_ne_error) err
· exact fun hok => (by cases hok)

theorem zeroExtend_ne_error (h0 : 0 < bits) (e : Expression O)
    (h : ComparisonsBinary e) (err : Fatal O) : zeroExtend bits e ≠ .error err := by
  rw [zeroExtend]
  dsimp only
  split
  · exact fun hok => (by cases hok)
  obtain ⟨e', he'⟩ := ok_of_ne_error (lowBits_ne_error h0 e h)
  rw [he']
  refine mapTail_ne_error structural_comparisonsBinary.toHereditaryTails e' ?_
    ((lowBits_narrows h0 he').structural structural_comparisonsBinary h) err
  intro c hle err hc
  split
  · split <;> exact fun hok => (by cases hok)
  · exact fun hok => (by cases hok)

theorem signExtend_ne_error (h0 : 0 < bits) (hle : bits ≤ 64) (e : Expression O)
    (h : ComparisonsBinary e) (err : Fatal O) : signExtend bits e ≠ .error err := by
  induction hw : e.weight using Nat.strongRecOn generalizing e err with | ind w ih =>
rw [signExtend]
dsimp only
split
· exact fun hok => (by cases hok)
split
· rename_i hl
  exact absurd hl (lowBits_ne_error h0 e h _)
rename_i e' hl
have hwl := weight_lowBits_le hl
refine mapTail_ne_error structural_comparisonsBinary.toHereditaryTails e' ?_
  ((lowBits_narrows h0 hl).structural structural_comparisonsBinary h) err
intro c hc err hcmp
have hwp := weight_preferOr c
have hd := (becomes_preferOr c).hereditary structural_comparisonsBinary.toHereditary hcmp
have hoperands : ∀ {op : Operation O} {x y : Expression O}, preferOr c = cop op [x, y] →
    (∀ err, signExtend bits y ≠ .error err) ∧ ∀ err, signExtend bits x ≠ .error err := by
  intro op x y hp
  rw [hp] at hwp hd
  obtain ⟨-, hx, hy⟩ := (throughout_cop2 rfl).1 hd
  simp only [weight, weightList] at hwp
  exact ⟨fun err => ih _ (by lia) _ hy err rfl, fun err => ih _ (by lia) _ hx err rfl⟩
have hshift : ∀ {d : Expression O} {l r : OcamlInt} {err : Fatal O}, ComparisonsBinary d →
    asrConst (lslConst0 d l) r ≠ .error err := fun {d l r err} hd =>
  asrInt_ne_error _ (show ComparisonsBinary (cop .clsl [d, cconstInt l]) from
    (throughout_cop2 rfl).2 ⟨fun _ => rfl, hd, trivial⟩) _ _
split
· rename_i hp
  obtain ⟨hy, hx⟩ := hoperands hp
  split
  · exact bind2_ne_error hy hx (fun y x => bitwiseInt_ne_error andConst_ne_error x y) err
  · exact hshift (hp ▸ hd)
· rename_i hp
  obtain ⟨hy, hx⟩ := hoperands hp
  split
  · exact bind2_ne_error hy hx (fun y x => bitwiseInt_ne_error orConst_ne_error x y) err
  · exact hshift (hp ▸ hd)
· rename_i hp
  obtain ⟨hy, hx⟩ := hoperands hp
  split
  · exact bind2_ne_error hy hx (fun y x => bitwiseInt_ne_error xorConst_ne_error x y) err
  · exact hshift (hp ▸ hd)
· rename_i inner n hp
  rw [hp] at hd
  have hinner := ((throughout_cop2 rfl).1 hd).2.1
  split
  · split
    · exact fun hok => (by cases hok)
    split
    · exact fun hok => (by cases hok)
    · exact hshift hinner
  · exact hshift hd
· rename_i inner n hp
  rw [hp] at hd
  have hinner := ((throughout_cop2 rfl).1 hd).2.1
  split
  · split
    · exact asrInt_ne_error _ hinner _ _
    split
    · exact fun hok => (by cases hok)
    · exact hshift hinner
  · exact hshift hd
· rename_i hp
  rw [hp] at hd
  split
  all_goals first
    | exact hshift hd
    | exact fun hok => (by cases hok)
· exact hshift hd

/-! ## §4 The extensions are exact -/

/-- The low bits of `e`, with zeros or with copies of the highest of them above. -/
theorem extensions_exact {bits : Nat} (h0 : 0 < bits) (hle : bits ≤ 64) (e : Expression O)
    (hcmp : ComparisonsBinary e) : ∃ zero sign low, zeroExtend bits e = .ok zero ∧
      signExtend bits e = .ok sign ∧ lowBits bits e = .ok low ∧
      ∀ {X σ : Type} (M : Machine O X σ), M.OperandsIndependent e →
        ∀ env s s', (∀ w, M.Evaluates e env s (.value (.word w)) s' →
          M.Evaluates zero env s (.value (.word ((w.setWidth bits).setWidth 64))) s' ∧
          M.Evaluates sign env s (.value (.word ((w.setWidth bits).signExtend 64))) s' ∧
          ∃ w', M.Evaluates low env s (.value (.word w')) s' ∧ w'.setWidth bits = w.setWidth bits) ∧
          ∀ l args, M.Evaluates e env s (.exit l args) s' →
            M.Evaluates zero env s (.exit l args) s' ∧ M.Evaluates sign env s (.exit l args) s' ∧
              M.Evaluates low env s (.exit l args) s' := by
  obtain ⟨zero, hzero⟩ := ok_of_ne_error (zeroExtend_ne_error h0 e hcmp)
  obtain ⟨sign, hsign⟩ := ok_of_ne_error (signExtend_ne_error h0 hle e hcmp)
  obtain ⟨low, hlow⟩ := ok_of_ne_error (lowBits_ne_error h0 e hcmp)
  refine ⟨zero, sign, low, hzero, hsign, hlow, fun M hop env s s' => ⟨fun w hw => ?_,
    fun l args hexit => ?_⟩⟩
  · obtain ⟨_, hz, rfl⟩ := ((zeroExtend_simplifies h0 hle hzero).relates M hop).value hw
    obtain ⟨_, hs, rfl⟩ := ((signExtend_simplifies h0 hle hsign).relates M hop).value hw
    obtain ⟨_, hl, hagree⟩ := ((lowBits_narrows h0 hlow).relates M hop).value hw
    exact ⟨hz, hs, _, hl, hagree.symm⟩
  exact ⟨((zeroExtend_simplifies h0 hle hzero).relates M hop).exit hexit,
    ((signExtend_simplifies h0 hle hsign).relates M hop).exit hexit,
    ((lowBits_narrows h0 hlow).relates M hop).exit hexit⟩

/-- A machine with one cell, which its only operation clears and its loads read. -/
def cellMachine : Machine Unit Unit Bool where
  literal _ := .wide ()
  symbol _ := .wide ()
  tuple _ := .wide ()
  readBits k _ _ _ s := some (if s then 1#k else 0#k)
  read _ _ _ _ s := some (.word (if s then 1 else 0))
  floatCompare _ _ _ := none
  undefinedShift _ _ _ := 0
  operation _ _ _ := some (.value (.word 0), false)
  traps _ s := s
  effects _ := true
  coeffects _ := true
  no_effects h := nomatch h
  no_coeffects h := nomatch h

/-- On two variables, and a word whose eighth bit is set. -/
theorem extensions_exact_vars : ∃ zero sign,
    zeroExtend 8 (cop .cand [cvar 0, cvar 1] : Expression Unit) = .ok zero ∧
      signExtend 8 (cop .cand [cvar 0, cvar 1] : Expression Unit) = .ok sign ∧
      cellMachine.Evaluates zero (fun _ => some (.word 0x180)) true (.value (.word 0x80)) true ∧
      cellMachine.Evaluates sign (fun _ => some (.word 0x180)) true
        (.value (.word (-0x80))) true := by
  have hcmp : ComparisonsBinary (cop .cand [cvar 0, cvar 1] : Expression Unit) :=
    (throughout_cop2 rfl).2 ⟨nofun, trivial, trivial⟩
  have hop : cellMachine.OperandsIndependent (cop .cand [cvar 0, cvar 1]) :=
    (Machine.operandsIndependent_cop rfl).2
      ⟨.inr (.inr ⟨⟨nofun, nofun, .inr (.inl rfl)⟩, rfl, rfl⟩), trivial, trivial⟩
  obtain ⟨zero, sign, low, hzero, hsign, -, h⟩ :=
    extensions_exact (by decide : 0 < 8) (by decide) _ hcmp
  obtain ⟨hz, hs, -⟩ := (h cellMachine hop (fun _ => some (.word 0x180)) true true).1 0x180 ⟨3, rfl⟩
  exact ⟨zero, sign, hzero, hsign, hz, hs⟩

/-- A load and, after it, a store: the mask brings the store before the load. -/
theorem zeroExtend_store_load : ∃ e r : Expression Unit,
    e = cop .cand [csequence (cop (.other ()) []) (cvar 0),
      cop (.cload .byteUnsigned false false) [cconstInt 0]] ∧ zeroExtend 8 e = .ok r ∧
      cellMachine.Evaluates e (fun _ => some (.word 1)) true (.value (.word 1)) false ∧
      ¬ cellMachine.Evaluates r (fun _ => some (.word 1)) true
        (.value (.word (((1 : Nativeint).setWidth 8).setWidth 64))) false := by
  have hleft : lowBits 8 (csequence (cop (.other ()) []) (cvar 0) : Expression Unit) =
      .ok (csequence (cop (.other ()) []) (cvar 0)) := by
    rw [lowBits]
    rfl
  have hright : lowBits 8 (cop (.cload .byteUnsigned false false) [cconstInt 0] : Expression Unit) =
      .ok (cop (.cload .byteUnsigned false false) [cconstInt 0]) := by
    rw [lowBits]
    rfl
  have hlow : lowBits 8 (cop .cand [csequence (cop (.other ()) []) (cvar 0),
      cop (.cload .byteUnsigned false false) [cconstInt 0]] : Expression Unit) =
      .ok (csequence (cop (.other ()) []) (cop .cand [cvar 0,
        cop (.cload .byteUnsigned false false) [cconstInt 0]])) := by
    rw [lowBits]
    refine Eq.trans (b := do
      let x1 ← lowBits 8 (csequence (cop (.other ()) []) (cvar 0) : Expression Unit)
      let x2 ← lowBits 8 (cop (.cload .byteUnsigned false false) [cconstInt 0])
      andInt x1 x2) rfl ?_
    rw [hleft, hright]
    rfl
  refine ⟨_, csequence (cop (.other ()) []) (cop .cand [cop .cand [cvar 0,
    cop (.cload .byteUnsigned false false) [cconstInt 0]], cconstInt 255]), rfl, ?_, ⟨4, rfl⟩, ?_⟩
  · rw [zeroExtend, hlow]; rfl
  intro h
  have h0 : cellMachine.Evaluates (csequence (cop (.other ()) []) (cop .cand [cop .cand [cvar 0,
      cop (.cload .byteUnsigned false false) [cconstInt 0]], cconstInt 255]))
      (fun _ => some (.word 1)) true (.value (.word 0)) false := ⟨6, rfl⟩
  exact absurd (Value.word.inj (Outcome.value.inj (h.unique h0).1)) (by decide)

end CmmHelpers

end Oxcaml.Backend
