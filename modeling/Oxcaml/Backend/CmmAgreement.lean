/-
Oxcaml.Backend.CmmAgreement — when the hand-written additions and those of the
engine agree.

`add_const` returns an or with a constant as it stands when zero is added, and
adds to it as it stands when the sum of the constants overflows, where the
engine first makes it the addition that it stands for. §1 follows additions and
subtractions of constants down to such an or: `LinearEnd` is what matters of an
expression. §2 proves that the two versions of `add_const` agree exactly when
this is not met, §3 does so for `add_int` and `sub_int`, and §4 has the helpers
whose versions always agree and the result.
-/
import Oxcaml.Backend.CmmAdditions

set_option linter.all false

namespace Oxcaml.Backend

open Option (filter_some)

open Expression CmmPeepholeEngine

variable {O : Type}

namespace CmmHelpers

/-! ## §1 Where the additions of constants lead -/

/-- Where additions of constants to an expression lead: `or x` is an or with `x` that stands for
an addition, `sum` and `diff` have a constant added to or subtracted from what leads there, and
`firm` is everything else. -/
inductive LinearEnd where
  | firm
  | or (x : OcamlInt)
  | sum (e : LinearEnd) (x : OcamlInt)
  | diff (e : LinearEnd) (x : OcamlInt)
  deriving DecidableEq

namespace LinearEnd

def mkSum : LinearEnd → OcamlInt → LinearEnd
  | firm, _ => firm
  | e, x => sum e x

def mkDiff : LinearEnd → OcamlInt → LinearEnd
  | firm, _ => firm
  | e, x => diff e x

/-- Adding a constant, `none` where it meets an or with zero or with a sum that overflows. -/
def add : LinearEnd → OcamlInt → Option LinearEnd
  | firm, _ => some firm
  | or x, k => if k ≠ 0 ∧ noOverflowAdd k x then some firm else none
  | sum e x, k =>
    if k = 0 then some (sum e x)
    else if noOverflowAdd k x then if k + x = 0 then some e else some (sum e (k + x))
    else some (sum (sum e x) k)
  | diff e x, k =>
    if k = 0 then some (diff e x)
    else if noOverflowSub k x then e.add (k - x)
    else some (sum (diff e x) k)

@[simp] theorem mkSum_firm (x : OcamlInt) : firm.mkSum x = firm := rfl

@[simp] theorem add_firm (k : OcamlInt) : firm.add k = some firm := rfl

/-- Adding a constant that is not zero to a sum. -/
theorem add_mkSum (e : LinearEnd) (x : OcamlInt) {k : OcamlInt} (hk : k ≠ 0) : (e.mkSum x).add k =
      if noOverflowAdd k x then some (if k + x = 0 then e else e.mkSum (k + x))
      else some ((e.mkSum x).mkSum k) := by
  cases e with
  | firm => simp
  | _ =>
    simp only [mkSum, add, hk, if_false]
    split
    · split <;> rfl
    · rfl

theorem add_mkDiff (e : LinearEnd) (x : OcamlInt) {k : OcamlInt} (hk : k ≠ 0) : (e.mkDiff x).add k =
      if noOverflowSub k x then e.add (k - x) else some ((e.mkDiff x).mkSum k) := by
  cases e with
  | firm => split <;> rfl
  | _ => simp only [mkDiff, mkSum, add, hk, if_false]

/-- Only an or is met with zero. -/
theorem add_zero {e : LinearEnd} (h : ∀ x, e ≠ or x) : e.add 0 = some e := by
  cases e with
  | or x => exact absurd rfl (h x)
  | _ => rfl

end LinearEnd

theorem weight_lt_of_tail {c : Expression O} {o : Operation O} {a b : Expression O}
    (h : c.tail = cop o [a, b]) : a.weight < c.weight ∧ b.weight < c.weight := by
  have hle := weight_tail_le c
  rw [h, weight, weightList, weightList] at hle
  omega

/-- Where the additions of constants to an expression lead. -/
def linearEnd (c : Expression O) : LinearEnd :=
  match _h : c.tail with
  | cop .cor [b, cconstInt x] => if canInterchangeAddWithOr b x then .or x else .firm
  | cop .caddi [a, b] =>
    match constOf a, constOf b with
    | some x, none => (linearEnd b).mkSum x
    | none, some x => (linearEnd a).mkSum x
    | _, _ => .firm
  | cop .csubi [a, b] =>
    match constOf a, constOf b with
    | none, some x => (linearEnd a).mkDiff x
    | _, _ => .firm
  | _ => .firm
termination_by c.weight
decreasing_by
  · exact (weight_lt_of_tail _h).2
  · exact (weight_lt_of_tail _h).1
  · exact (weight_lt_of_tail _h).1

theorem linearEnd_of_tail_eq {c c' : Expression O} (h : c.tail = c'.tail) :
    linearEnd c = linearEnd c' := by
  rw [linearEnd, linearEnd, h]

theorem linearEnd_tail (c : Expression O) : linearEnd c.tail = linearEnd c :=
  linearEnd_of_tail_eq (tail_tail c)

theorem linearEnd_setTail (c t : Expression O) : linearEnd (c.setTail t) = linearEnd t :=
  linearEnd_of_tail_eq (tail_setTail c t)

theorem linearEnd_const (x : OcamlInt) : linearEnd (cconstInt x : Expression O) = .firm := by
  rw [linearEnd]
  rfl

theorem linearEnd_caddi (a b : Expression O) : linearEnd (cop .caddi [a, b]) =
    match constOf a, constOf b with
    | some x, none => (linearEnd b).mkSum x
    | none, some x => (linearEnd a).mkSum x
    | _, _ => .firm := by
  rw [linearEnd]
  rfl

theorem linearEnd_csubi (a b : Expression O) : linearEnd (cop .csubi [a, b]) =
    match constOf a, constOf b with
    | none, some x => (linearEnd a).mkDiff x
    | _, _ => .firm := by
  rw [linearEnd]
  rfl

/-- Whether or not the expression is itself a constant. -/
theorem linearEnd_addition (t : Expression O) (k : OcamlInt) :
    linearEnd (cop .caddi [t, cconstInt k]) = (linearEnd t).mkSum k := by
  rw [linearEnd_caddi]
  cases h : constOf t with
  | none => rfl
  | some x => rw [constOf_eq_some.1 h, linearEnd_const x]; rfl

theorem linearEnd_addNoOverflow (k x : OcamlInt) (t : Expression O) :
    linearEnd (addNoOverflow k x t) =
      if k + x = 0 then linearEnd t else (linearEnd t).mkSum (k + x) := by
  unfold addNoOverflow
  dsimp only
  split
  · rfl
  · exact linearEnd_addition t _

variable {x k : OcamlInt}

theorem clsl_of_canInterchange {b : Expression O}
    (h : canInterchangeAddWithOr b x = true) : ∃ y z, b = cop .clsl [y, cconstInt z] := by
  unfold canInterchangeAddWithOr at h
  split at h
  · exact ⟨_, _, rfl⟩
  · cases h

variable {t : Expression O}

/-- The tails that `prefer_add` changes are those where an or is met. -/
theorem linearEnd_preferAdd (ht : t.tail = t) :
    (preferAdd t = t ∧ ∀ x, linearEnd t ≠ .or x) ∨ ∃ y z x,
      t = cop .cor [cop .clsl [y, cconstInt z],
      cconstInt x] ∧ preferAdd t = cop .caddi [cop .clsl [y, cconstInt z], cconstInt x] ∧
      linearEnd t = .or x := by
  by_cases h : ∃ b x, t = cop .cor [b, cconstInt x] ∧ canInterchangeAddWithOr b x = true
  · obtain ⟨b, x, rfl, hb⟩ := h
    obtain ⟨y, z, rfl⟩ := clsl_of_canInterchange hb
    refine .inr ⟨y, z, x, rfl, ?_, ?_⟩
    · rw [preferAdd, if_pos hb]
    · rw [linearEnd]; exact if_pos hb
  refine .inl ⟨?_, fun x => ?_⟩
  · unfold preferAdd
    split
    · rw [if_neg fun hb => h ⟨_, _, rfl, hb⟩]
    · rfl
  rw [linearEnd]
  split
  · rename_i heq
    rw [if_neg fun hb => h ⟨_, _, ht.symm.trans heq, hb⟩]
    exact nofun
  · split
    · cases linearEnd _ <;> exact nofun
    · cases linearEnd _ <;> exact nofun
    · exact nofun
  · split
    · cases linearEnd _ <;> exact nofun
    · exact nofun
  · exact nofun

/-! ## §2 Adding a constant -/

theorem debug_setTail_eq (c t : Expression O) (hc : c.containsDebugOnlyConstructs = false) :
    (c.setTail t).containsDebugOnlyConstructs = t.containsDebugOnlyConstructs := by
  fun_induction setTail c t with
  | case1 v exp body t ih =>
    simp only [containsDebugOnlyConstructs, Bool.or_eq_false_iff] at hc ⊢
    rw [hc.1, ih hc.2, Bool.false_or]
  | case2 v exp body t ih | case3 v body t ih => cases hc
  | case4 e1 e2 t ih =>
    simp only [containsDebugOnlyConstructs, Bool.or_eq_false_iff] at hc ⊢
    rw [hc.1, ih hc.2, Bool.false_or]
  | case5 e t => rfl

theorem noDebug_tail {c : Expression O} (hc : c.containsDebugOnlyConstructs = false) :
    c.tail.containsDebugOnlyConstructs = false := by
  rw [← Bool.not_eq_true] at hc ⊢
  exact mt debug_of_tail hc

variable [DecidableEq O]

theorem equivalent_setTail (c t t' : Expression O) :
    CmmComparator.equivalent (c.setTail t) (c.setTail t') = CmmComparator.equivalent t t' := by
  fun_induction tail c with
  | case1 v exp body ih =>
    simp [setTail, CmmComparator.equivalent, CmmComparator.equivalent_refl, ih]
  | case2 v exp body ih =>
    simp [setTail, CmmComparator.equivalent, ih]
  | case3 v body ih =>
    simp [setTail, CmmComparator.equivalent, ih]
  | case4 e1 e2 ih =>
    simp [setTail, CmmComparator.equivalent, CmmComparator.equivalent_refl, ih]
  | case5 e h1 h2 h3 h4 => rw [setTail, setTail] <;> assumption

/-- Two versions return the same expression, which leads to `e`. -/
def Agreed (r rEngine : Except (Fatal O) (Expression O)) (e : LinearEnd) : Prop :=
  ∃ t, r = .ok t ∧ rEngine = .ok t ∧ linearEnd t = e ∧ t.containsDebugOnlyConstructs = false

/-- Two versions return expressions that are not equivalent. -/
def Differed (r rEngine : Except (Fatal O) (Expression O)) : Prop :=
  ∃ t t', r = .ok t ∧ rEngine = .ok t' ∧ CmmComparator.equivalent t t' = false ∧
    t.containsDebugOnlyConstructs = false ∧ t'.containsDebugOnlyConstructs = false

/-- The versions of `add_const`, when the additions lead as told. -/
def AddConstOutcome (c : Expression O) (k : OcamlInt) : Option LinearEnd → Prop
  | some e => Agreed (addConstDirect c k) (addConst' c k) e
  | none => Differed (addConstDirect c k) (addConst' c k)

variable {k : OcamlInt}

variable {o : Option LinearEnd}

theorem AddConstOutcome.of_tail {c : Expression O} (hc : c.containsDebugOnlyConstructs = false)
    (h : AddConstOutcome c.tail k o) :
    AddConstOutcome c k o := by
  cases o with
  | some e =>
    obtain ⟨t, hd, he, hend, hdebug⟩ := h
    refine ⟨c.setTail t, ?_, ?_, ?_, ?_⟩
    · rw [addConstDirect_tail, hd]; rfl
    · rw [addConst'_tail, he]; rfl
    · rw [linearEnd_setTail, hend]
    · rw [debug_setTail_eq c t hc, hdebug]
  | none =>
    obtain ⟨t, t', hd, he, hequiv, hdebug, hdebug'⟩ := h
    refine ⟨c.setTail t, c.setTail t', ?_, ?_, ?_, ?_, ?_⟩
    · rw [addConstDirect_tail, hd]; rfl
    · rw [addConst'_tail, he]; rfl
    · rw [equivalent_setTail, hequiv]
    · rw [debug_setTail_eq c t hc, hdebug]
    · rw [debug_setTail_eq c t' hc, hdebug']

omit [DecidableEq O] in
/-- Adding zero, the engine returns the addition that an or stands for. -/
theorem addConst'_zero (ht : t.tail = t)
    (hdebug : t.containsDebugOnlyConstructs = false) : addConst' t 0 = .ok (preferAdd t) := by
  have hcore := core_of_noDebug ((debug_preferAdd t).trans hdebug)
  rw [addConst', mapTail1_eq, ht, map_setTail_of_tail_eq ht,
    run_match (.binop (.any (by decide)) .constIntFixed) (bare_addInt hcore rfl)
      ⟨_, _, _, rfl, rfl, trivial, rfl⟩ fun env _ hfits => ?_]
  rw [expr_of_fits_any (fits_cop hfits).1, hcore]

section

variable {t : Expression O} {k : OcamlInt} (ht : t.tail = t)
  (hdebug : t.containsDebugOnlyConstructs = false)
  (ih : ∀ a : Expression O, a.weight < t.weight → a.containsDebugOnlyConstructs = false →
    ∀ k, AddConstOutcome a k ((linearEnd a).add k))

include ht hdebug

omit [DecidableEq O] in
theorem addConst_bodies (hk : k ≠ 0) (hprefer : preferAdd t = t) :
    addConstDirect t k = addConstBody addConstDirect (cop .caddi [t, cconstInt k]) k t ∧
      addConst' t k = addConstBody addConst' (cop .caddi [t, cconstInt k]) k t := by
  rw [addConstDirect_body ht hk, addConst'_body ht hk, hprefer]
  · exact ⟨rfl, rfl⟩
  rintro o a b heq
  rw [hprefer] at heq
  subst heq
  obtain ⟨ha, hb⟩ := noDebug_cop2.1 hdebug
  exact ⟨core_of_noDebug ha, core_of_noDebug hb⟩

/-- Where `prefer_add` changes nothing, both versions have the same body. -/
theorem addConst_agreed {e : LinearEnd} {r : Expression O} (hk : k ≠ 0) (hprefer : preferAdd t = t)
    (hbody : ∀ again, addConstBody again (cop .caddi [t, cconstInt k]) k t = .ok r)
    (hend : linearEnd r = e) (hr : r.containsDebugOnlyConstructs = false) :
    AddConstOutcome t k (some e) := by
  obtain ⟨hd, he⟩ := addConst_bodies ht hdebug hk hprefer
  exact ⟨r, hd.trans (hbody _), he.trans (hbody _), hend, hr⟩

/-- They return the sum as it stands. -/
theorem addConst_default (hk : k ≠ 0) (hprefer : preferAdd t = t)
    (hbody : ∀ again, addConstBody again (cop .caddi [t, cconstInt k]) k t =
      .ok (cop .caddi [t, cconstInt k])) :
    AddConstOutcome t k (some ((linearEnd t).mkSum k)) :=
  addConst_agreed ht hdebug hk hprefer hbody (linearEnd_addition t k)
    ((debug_cop_left t k).trans hdebug)

/-- They merge the constant with another one. -/
theorem addConst_merged {a : Expression O} (hk : k ≠ 0) (hprefer : preferAdd t = t)
    (hbody : ∀ again, addConstBody again (cop .caddi [t, cconstInt k]) k t =
      .ok (addNoOverflow k x a)) (ha : a.containsDebugOnlyConstructs = false) :
    AddConstOutcome t k (some (if k + x = 0 then linearEnd a else (linearEnd a).mkSum (k + x))) :=
  addConst_agreed ht hdebug hk hprefer hbody (linearEnd_addNoOverflow k x a)
    ((debug_addNoOverflow k x a).trans ha)

end

section

variable {a b : Expression O} {k : OcamlInt} (hk : k ≠ 0)

include hk

theorem addConst_caddi (hdebug : (cop .caddi [a, b]).containsDebugOnlyConstructs = false) :
    AddConstOutcome (cop .caddi [a, b]) k ((linearEnd (cop .caddi [a, b])).add k) := by
  obtain ⟨hda, hdb⟩ := noDebug_cop2.1 hdebug
  have hdefault := addConst_default rfl hdebug hk rfl
  have hmerged := fun {x c} => addConst_merged (a := c) (x := x) rfl hdebug hk rfl
  rw [linearEnd_caddi] at hdefault ⊢
  simp only [addConstBody] at hdefault hmerged
  cases ha : constOf a with
  | none =>
    cases hb : constOf b with
    | none => rw [ha, hb] at hdefault; exact hdefault fun _ => rfl
    | some y =>
      simp only [ha, hb] at hdefault hmerged ⊢
      rw [LinearEnd.add_mkSum _ _ hk]
      cases hy : noOverflowAdd k y with
      | true =>
        simp only [hy, filter_some, Option.filter_none] at hmerged ⊢
        exact hmerged (fun _ => rfl) hda
      | false =>
        simp only [hy, filter_some, if_false] at hdefault ⊢
        exact hdefault fun _ => rfl
  | some x =>
    have hfirm {e : Expression O} {z : OcamlInt} (h : constOf e = some z) (m : OcamlInt) :
        (if k + m = 0 then linearEnd e else (linearEnd e).mkSum (k + m)) = .firm := by
      rw [constOf_eq_some.1 h, linearEnd_const, LinearEnd.mkSum_firm, ite_self]
    cases hb : constOf b with
    | none =>
      simp only [ha, hb] at hdefault hmerged ⊢
      rw [LinearEnd.add_mkSum _ _ hk]
      cases hx : noOverflowAdd k x with
      | true => simp only [hx, filter_some] at hmerged ⊢; exact hmerged (fun _ => rfl) hdb
      | false =>
        simp only [hx, filter_some, if_false] at hdefault ⊢
        exact hdefault fun _ => rfl
    | some y =>
      simp only [ha, hb, LinearEnd.mkSum_firm] at hdefault hmerged ⊢
      cases hx : noOverflowAdd k x with
      | true =>
        simp only [hx, filter_some] at hmerged
        have := hmerged (fun _ => rfl) hdb
        rwa [hfirm hb] at this
      | false =>
        cases hy : noOverflowAdd k y with
        | true =>
          simp only [hx, hy, filter_some,  if_true, if_false] at hmerged
          have := hmerged (fun _ => rfl) hda
          rwa [hfirm ha] at this
        | false =>
          simp only [hx, hy, filter_some, if_false] at hdefault
          exact hdefault fun _ => rfl

theorem addConst_csubi (hdebug : (cop .csubi [a, b]).containsDebugOnlyConstructs = false)
    (ih : ∀ k, AddConstOutcome a k ((linearEnd a).add k)) :
    AddConstOutcome (cop .csubi [a, b]) k ((linearEnd (cop .csubi [a, b])).add k) := by
  obtain ⟨hda, hdb⟩ := noDebug_cop2.1 hdebug
  have hdefault := addConst_default rfl hdebug hk rfl
  obtain ⟨hdirect, hengine⟩ := addConst_bodies rfl hdebug hk rfl
  -- both versions go on with the first operand
  have hagain : ∀ x, (constOf a).filter (noOverflowAdd k) = none →
      (constOf b).filter (noOverflowSub k) = some x →
      AddConstOutcome (cop .csubi [a, b]) k ((linearEnd a).add (k - x)) := by
    intro x hx hy
    simp only [addConstBody, hx, hy] at hdirect hengine
    have := ih (k - x)
    unfold AddConstOutcome at this ⊢
    rwa [hdirect, hengine]
  rw [linearEnd_csubi] at hdefault ⊢
  cases hx : (constOf a).filter (noOverflowAdd k) with
  | some x =>
    have ha := (Option.filter_eq_some_iff.1 hx).1
    simp only [ha]
    refine addConst_agreed rfl hdebug hk rfl (r := cop .csubi [cconstInt (k + x), b])
      (fun _ => ?_) ?_ ?_
    · simp only [addConstBody, hx]; rfl
    · rw [linearEnd_csubi]; rfl
    · rw [noDebug_cop2]; exact ⟨rfl, hdb⟩
  | none =>
    have hfirm {x : OcamlInt} (h : constOf a = some x) : linearEnd a = .firm := by
      rw [constOf_eq_some.1 h, linearEnd_const]
    cases hy : (constOf b).filter (noOverflowSub k) with
    | some y =>
      obtain ⟨hb, hover⟩ := Option.filter_eq_some_iff.1 hy
      have := hagain y hx hy
      cases ha : constOf a with
      | none => simp only [hb]; rwa [LinearEnd.add_mkDiff _ _ hk, if_pos hover]
      | some x => rwa [hfirm ha] at this
    | none =>
      simp only [addConstBody, hx, hy] at hdefault
      have := hdefault fun _ => rfl
      cases ha : constOf a with
      | some x => simpa only [ha, LinearEnd.mkSum_firm, LinearEnd.add_firm] using this
      | none =>
        cases hb : constOf b with
        | none => simpa only [ha, hb, LinearEnd.mkSum_firm, LinearEnd.add_firm] using this
        | some y =>
          have hover : ¬ noOverflowSub k y = true := by
            intro h
            rw [hb, filter_some, if_pos h] at hy
            cases hy
          simp only [ha, hb] at this ⊢
          rwa [LinearEnd.add_mkDiff _ _ hk, if_neg hover]

end

theorem addConst_const (hk : k ≠ 0) :
    AddConstOutcome (cconstInt x : Expression O) k (some .firm) := by
  obtain ⟨hdirect, hengine⟩ := addConst_bodies (O := O) (t := cconstInt x) rfl rfl hk rfl
  unfold addConstBody at hdirect hengine
  cases hx : noOverflowAdd k x with
  | true =>
    simp only [hx] at hdirect hengine
    exact ⟨_, hdirect, hengine, linearEnd_const _, rfl⟩
  | false =>
    simp only [hx, if_false] at hdirect hengine
    refine ⟨_, hdirect, hengine, ?_, rfl⟩
    rw [linearEnd_addition, linearEnd_const, LinearEnd.mkSum_firm]

/-- An or that stands for an addition. -/
theorem addConst_or {y : Expression O} {z : OcamlInt} (hk : k ≠ 0)
    (hprefer : preferAdd (cop .cor [cop .clsl [y, cconstInt z], cconstInt x]) =
      cop .caddi [cop .clsl [y, cconstInt z], cconstInt x])
    (hdebug : (cop .cor [cop .clsl [y, cconstInt z], cconstInt x]).containsDebugOnlyConstructs =
      false) :
    AddConstOutcome (cop .cor [cop .clsl [y, cconstInt z], cconstInt x]) k
      (LinearEnd.add (.or x) k) := by
  have hd := (noDebug_cop2.1 hdebug).1
  have hfirm : linearEnd (cop .clsl [y, cconstInt z]) = .firm := by
    rw [linearEnd]
    rfl
  have hdirect := addConstDirect_body (t := cop .cor [cop .clsl [y, cconstInt z], cconstInt x]) rfl
    hk
  have hengine := addConst'_body (t := cop .cor [cop .clsl [y, cconstInt z], cconstInt x]) rfl hk
    (by
      rw [hprefer]
      rintro o a b ⟨⟩
      exact ⟨rfl, rfl⟩)
  rw [hprefer, addConstBody] at hdirect hengine
  rw [LinearEnd.add]
  cases hx : noOverflowAdd k x with
  | true =>
    simp only [constOf, filter_some, hx] at hdirect hengine
    rw [if_pos ⟨hk, rfl⟩]
    refine ⟨_, hdirect, hengine, ?_, (debug_addNoOverflow k x _).trans hd⟩
    rw [linearEnd_addNoOverflow, hfirm, LinearEnd.mkSum_firm, ite_self]
  | false =>
    simp only [constOf, filter_some, some, hx, if_false] at hdirect hengine
    rw [if_neg (by simp)]
    refine ⟨_, _, hdirect, hengine, ?_, (debug_cop_left _ k).trans hdebug, ?_⟩
    · simp [CmmComparator.equivalent, CmmComparator.equivalentList]
    · rw [debug_cop_left, debug_cop_left]; exact hd

theorem addConst_other (ht : t.tail = t)
    (hdebug : t.containsDebugOnlyConstructs = false) (hk : k ≠ 0) (hprefer : preferAdd t = t)
    (hconst : ∀ x, t ≠ cconstInt x) (hadd : ∀ a b, t ≠ cop .caddi [a, b])
    (hsub : ∀ a b, t ≠ cop .csubi [a, b]) :
    linearEnd t = .firm ∧ AddConstOutcome t k (some .firm) := by
  have hfirm : linearEnd t = .firm := by
    rw [linearEnd]
    split
    · rename_i b x heq
      rw [ht] at heq
      split
      · rename_i hb
        rw [heq, preferAdd, if_pos hb] at hprefer
        cases hprefer
      · rfl
    · rename_i a b heq
      exact absurd (ht.symm.trans heq) (hadd a b)
    · rename_i a b heq
      exact absurd (ht.symm.trans heq) (hsub a b)
    · rfl
  refine ⟨hfirm, ?_⟩
  have := addConst_default ht hdebug hk hprefer fun again => ?_
  · rwa [hfirm] at this
  unfold addConstBody
  split
  · exact absurd rfl (hconst _)
  · exact absurd rfl (hadd _ _)
  · exact absurd rfl (hsub _ _)
  · rfl

/-- The two versions of `add_const` agree unless the additions meet an or, with zero or with a sum
that overflows. -/
theorem addConst_outcome (c : Expression O) (hc : c.containsDebugOnlyConstructs = false)
    (k : OcamlInt) : AddConstOutcome c k ((linearEnd c).add k) := by
  induction hw : c.weight using Nat.strongRecOn generalizing c k with | ind w ih =>
subst hw
have hle := weight_tail_le c
apply AddConstOutcome.of_tail hc
rw [← linearEnd_tail c]
have hdebug := noDebug_tail hc
have ht := tail_tail c
generalize c.tail = t at *
by_cases hk : k = 0
· subst hk
  have hdirect : addConstDirect t 0 = .ok t := by
    rw [addConstDirect]
    rfl
  have hengine := addConst'_zero ht hdebug
  rcases linearEnd_preferAdd ht with ⟨hprefer, hne⟩ | ⟨y, z, x, rfl, hprefer, hor⟩
  · rw [LinearEnd.add_zero hne]
    exact ⟨t, hdirect, hengine.trans (congrArg _ hprefer), rfl, hdebug⟩
  rw [hor]
  refine ⟨_, _, hdirect, hengine, ?_, hdebug, (debug_preferAdd _).trans hdebug⟩
  rw [hprefer]
  simp [CmmComparator.equivalent]
rcases linearEnd_preferAdd ht with ⟨hprefer, -⟩ | ⟨y, z, x, rfl, hprefer, hor⟩
· by_cases hconst : ∃ x, t = cconstInt x
  · obtain ⟨x, rfl⟩ := hconst
    rw [linearEnd_const]
    exact addConst_const hk
  by_cases hadd : ∃ a b, t = cop .caddi [a, b]
  · obtain ⟨a, b, rfl⟩ := hadd; exact addConst_caddi hk hdebug
  by_cases hsub : ∃ a b, t = cop .csubi [a, b]
  · obtain ⟨a, b, rfl⟩ := hsub
    refine addConst_csubi hk hdebug fun k' =>
      ih a.weight ?_ a (noDebug_cop2.1 hdebug).1 k' rfl
    exact Nat.lt_of_lt_of_le (weight_lt_of_tail rfl).1 hle
  obtain ⟨hfirm, h⟩ := addConst_other ht hdebug hk hprefer (fun x h => hconst ⟨x, h⟩)
    (fun a b h => hadd ⟨a, b, h⟩) (fun a b h => hsub ⟨a, b, h⟩)
  rwa [hfirm]
· rw [hor]; exact addConst_or hk hprefer hdebug

variable {e : LinearEnd}

/-- What `add_const` leads to, after its check. -/
theorem addConst_of_end {c : Expression O} (hc : c.containsDebugOnlyConstructs = false)
    (h : (linearEnd c).add k = some e) :
    ∃ r, addConst c k = .ok r ∧ linearEnd r = e ∧ r.containsDebugOnlyConstructs = false := by
  have := addConst_outcome c hc k
  rw [h] at this
  obtain ⟨r, hd, he, hend, hdebug⟩ := this
  exact ⟨r, checkEqual1_same hd he, hend, hdebug⟩

theorem addConst_mismatch {c : Expression O} (hc : c.containsDebugOnlyConstructs = false)
    (h : (linearEnd c).add k = none) : ∃ err, addConst c k = .error err := by
  have := addConst_outcome c hc k
  rw [h] at this
  obtain ⟨r, r', hd, he, hequiv, hdebug, hdebug'⟩ := this
  refine ⟨.mismatch "add_const" r r', ?_⟩
  show checkEqual1 "add_const" (addConstDirect c k) (addConst' c k) = _
  rw [hd, he]
  show (if CmmComparator.equivalent r r' then .ok r
    else if r.containsDebugOnlyConstructs || r'.containsDebugOnlyConstructs then .ok r'
    else .error (.mismatch "add_const" r r') : Except (Fatal O) (Expression O)) = _
  rw [hequiv, hdebug, hdebug']
  rfl

/-! ## §3 Sums and differences -/

omit [DecidableEq O] in
theorem weight_lt_of_addendOf {c x : Expression O}
    (h : addendOf (preferAdd c.tail) = some (x, k)) : x.weight < c.weight := by
  have hle := weight_tail_le c
  have heq := weight_preferAdd c.tail
  rw [addendOf_eq_some.1 h, weight, weightList, weightList, weightList] at heq
  omega

omit [DecidableEq O] in
theorem weight_preferAdd_tail_le (c : Expression O) : (preferAdd c.tail).weight ≤ c.weight := by
  rw [weight_preferAdd]
  exact weight_tail_le c

/-- Where the additions of constants to a sum lead, `none` where `add_const` fails on the way. -/
def sumEnd (c1 c2 : Expression O) : Option LinearEnd :=
  match constOf (preferAdd c1.tail), constOf (preferAdd c2.tail) with
  | some k, _ => (linearEnd (preferAdd c2.tail)).add k
  | none, some k => (linearEnd (preferAdd c1.tail)).add k
  | none, none =>
    match _h1 : addendOf (preferAdd c1.tail), _h2 : addendOf (preferAdd c2.tail) with
    | some (x, k), _ => (sumEnd x (preferAdd c2.tail)).bind (·.add k)
    | none, some (x, k) => (sumEnd (preferAdd c1.tail) x).bind (·.add k)
    | none, none => some .firm
termination_by c1.weight + c2.weight
decreasing_by
  · have := weight_lt_of_addendOf _h1
    have := weight_preferAdd_tail_le c2
    omega
  have := weight_lt_of_addendOf _h2
  have := weight_preferAdd_tail_le c1
  omega

omit [DecidableEq O] in
theorem sumEnd_eq (c1 c2 : Expression O) : sumEnd c1 c2 =
    match constOf (preferAdd c1.tail), constOf (preferAdd c2.tail) with
    | some k, _ => (linearEnd (preferAdd c2.tail)).add k
    | none, some k => (linearEnd (preferAdd c1.tail)).add k
    | none, none =>
      match addendOf (preferAdd c1.tail), addendOf (preferAdd c2.tail) with
      | some (x, k), _ => (sumEnd x (preferAdd c2.tail)).bind (·.add k)
      | none, some (x, k) => (sumEnd (preferAdd c1.tail) x).bind (·.add k)
      | none, none => some .firm := by
  rw [sumEnd]
  cases constOf (preferAdd c1.tail) with
  | some k => rfl
  | none =>
    cases constOf (preferAdd c2.tail) with
    | some k => rfl
    | none =>
      dsimp only
      split
      · rename_i h1
        rw [h1]
      · rename_i h2 h1
        rw [h1, h2]
      · rename_i h2 h1
        rw [h1, h2]

/-- As `sumEnd`, for a difference. -/
def diffEnd (c1 c2 : Expression O) : Option LinearEnd :=
  match (constOf (preferAdd c2.tail)).filter (· ≠ minInt) with
  | some k => (linearEnd c1.tail).add (-k)
  | none =>
    match _h2 : (addendOf (preferAdd c2.tail)).filter (·.2 ≠ minInt) with
    | some (x, k) => (diffEnd c1.tail x).bind (·.add (-k))
    | none =>
      match _h1 : addendOf (preferAdd c1.tail) with
      | some (x, k) => (diffEnd x c2.tail).bind (·.add k)
      | none => some (linearEnd (cop .csubi [c1.tail, c2.tail]))
termination_by c1.weight + c2.weight
decreasing_by
  · have := weight_lt_of_addendOf (Option.filter_eq_some_iff.1 _h2).1
    have := weight_tail_le c1
    omega
  have := weight_lt_of_addendOf _h1
  have := weight_tail_le c2
  omega

omit [DecidableEq O] in
theorem diffEnd_eq (c1 c2 : Expression O) : diffEnd c1 c2 =
    match (constOf (preferAdd c2.tail)).filter (· ≠ minInt) with
    | some k => (linearEnd c1.tail).add (-k)
    | none =>
      match (addendOf (preferAdd c2.tail)).filter (·.2 ≠ minInt) with
      | some (x, k) => (diffEnd c1.tail x).bind (·.add (-k))
      | none =>
        match addendOf (preferAdd c1.tail) with
        | some (x, k) => (diffEnd x c2.tail).bind (·.add k)
        | none => some (linearEnd (cop .csubi [c1.tail, c2.tail])) := by
  rw [diffEnd]
  cases (constOf (preferAdd c2.tail)).filter (· ≠ minInt) with
  | some k => rfl
  | none =>
    dsimp only
    split
    · rename_i h2
      rw [h2]
    rename_i h2
    rw [h2]
    dsimp only
    split
    · rename_i h1
      rw [h1]
    · rename_i h1
      rw [h1]

/-- The versions of a helper of two operands: one error is enough to stop it. -/
def EndsAs (r rEngine : Except (Fatal O) (Expression O)) : Option LinearEnd → Prop
  | some e => Agreed r rEngine e
  | none => ∃ err, r = .error err

variable {r rEngine : Except (Fatal O) (Expression O)}

omit [DecidableEq O] in
theorem EndsAs.of_tails {c1 c2 : Expression O} (h1 : c1.containsDebugOnlyConstructs = false)
    (h2 : c2.containsDebugOnlyConstructs = false) (h : EndsAs r rEngine o) :
    EndsAs (r.map fun t => c2.setTail (c1.setTail t))
      (rEngine.map fun t => c2.setTail (c1.setTail t)) o := by
  cases o with
  | none => obtain ⟨err, rfl⟩ := h; exact ⟨err, rfl⟩
  | some e =>
    obtain ⟨t, rfl, rfl, hend, hdebug⟩ := h
    refine ⟨_, rfl, rfl, ?_, ?_⟩
    · rw [linearEnd_setTail, linearEnd_setTail, hend]
    · rw [debug_setTail_eq c2 _ h2, debug_setTail_eq c1 _ h1, hdebug]

/-- Both go on with a checked `add_const`. -/
theorem EndsAs.bind_addConst (h : EndsAs r rEngine o) (k : OcamlInt) :
    EndsAs (do addConst (← r) k) (do addConst (← rEngine) k) (o.bind (·.add k)) := by
  cases o with
  | none => obtain ⟨err, rfl⟩ := h; exact ⟨err, rfl⟩
  | some e =>
    obtain ⟨t, rfl, rfl, rfl, hdebug⟩ := h
    show EndsAs (addConst t k) (addConst t k) ((linearEnd t).add k)
    cases hadd : (linearEnd t).add k with
    | none => exact addConst_mismatch hdebug hadd
    | some e =>
      obtain ⟨r, hr, hend, hr'⟩ := addConst_of_end hdebug hadd
      exact ⟨r, hr, hr, hend, hr'⟩

theorem outcome_addConst {c : Expression O} (hc : c.containsDebugOnlyConstructs = false)
    (k : OcamlInt) : EndsAs (addConst c k) (addConst c k) ((linearEnd c).add k) := by
  have hself : EndsAs (.ok c) (.ok c) (some (linearEnd c)) := ⟨c, rfl, rfl, rfl, hc⟩
  exact hself.bind_addConst k

section

variable (c1 c2 : Expression O)

theorem addIntDirect_tails : addIntDirect c1 c2 =
    (addIntDirect c1.tail c2.tail).map fun t => c2.setTail (c1.setTail t) := by
  rw [addIntDirect, addIntDirect.eq_def c1.tail]
  exact mapTail2_tails fun _ _ _ _ _ _ => rfl

theorem addInt'_tails : addInt' c1 c2 =
    (addInt' c1.tail c2.tail).map fun t => c2.setTail (c1.setTail t) := by
  rw [addInt', addInt'.eq_def c1.tail]
  exact mapTail2_tails fun _ _ _ _ _ _ => rfl

theorem subIntDirect_tails : subIntDirect c1 c2 =
    (subIntDirect c1.tail c2.tail).map fun t => c2.setTail (c1.setTail t) := by
  rw [subIntDirect, subIntDirect.eq_def c1.tail]
  exact mapTail2_tails fun _ _ _ _ _ _ => rfl

theorem subInt'_tails : subInt' c1 c2 =
    (subInt' c1.tail c2.tail).map fun t => c2.setTail (c1.setTail t) := by
  rw [subInt', subInt'.eq_def c1.tail]
  exact mapTail2_tails fun _ _ _ _ _ _ => rfl

end

omit [DecidableEq O] in
theorem preferAdd_eq_of_addendOf
    (h : (addendOf (preferAdd t)).filter (·.2 ≠ minInt) = none) : preferAdd t = t := by
  rcases preferAdd_cases t with heq | ⟨x, k, hne, -, heq⟩
  · exact heq
  · rw [heq] at h; simp [addendOf, hne, Option.filter] at h

/-- The versions of `add_int`. -/
theorem addInt_outcome (c1 c2 : Expression O) (h1 : c1.containsDebugOnlyConstructs = false)
    (h2 : c2.containsDebugOnlyConstructs = false) :
    EndsAs (addIntDirect c1 c2) (addInt' c1 c2) (sumEnd c1 c2) := by
  induction hw : c1.weight + c2.weight using Nat.strongRecOn generalizing c1 c2 with | ind w ih =>
rw [addIntDirect_tails, addInt'_tails]
apply EndsAs.of_tails h1 h2
have hd1 := noDebug_tail h1
have hd2 := noDebug_tail h2
have he1 := (debug_preferAdd c1.tail).trans hd1
have he2 := (debug_preferAdd c2.tail).trans hd2
rw [addIntDirect_body (tail_tail c1) (tail_tail c2),
  addInt'_body (tail_tail c1) (tail_tail c2) hd1 hd2, addIntBody, addIntBody, sumEnd_eq]
cases hk1 : constOf (preferAdd c1.tail) with
| some k => exact outcome_addConst he2 k
| none =>
  cases hk2 : constOf (preferAdd c2.tail) with
  | some k => exact outcome_addConst he1 k
  | none =>
    cases ha1 : addendOf (preferAdd c1.tail) with
    | some p =>
      obtain ⟨x, k⟩ := p
      have hle := weight_lt_of_addendOf ha1
      have hle2 := weight_preferAdd_tail_le c2
      rw [addendOf_eq_some.1 ha1] at he1
      exact (ih _ (by omega) x _ (noDebug_cop2.1 he1).1 he2 rfl).bind_addConst k
    | none =>
      cases ha2 : addendOf (preferAdd c2.tail) with
      | some p =>
        obtain ⟨x, k⟩ := p
        have hle := weight_lt_of_addendOf ha2
        have hle1 := weight_preferAdd_tail_le c1
        rw [addendOf_eq_some.1 ha2] at he2
        exact (ih _ (by omega) _ x he1 (noDebug_cop2.1 he2).1 rfl).bind_addConst k
      | none =>
        have hp1 := preferAdd_eq_of_addendOf (t := c1.tail) (by rw [ha1]; rfl)
        have hp2 := preferAdd_eq_of_addendOf (t := c2.tail) (by rw [ha2]; rfl)
        rw [hp1] at hk1
        rw [hp2] at hk2
        refine ⟨_, rfl, ?_, ?_, noDebug_cop2.2 ⟨hd1, hd2⟩⟩
        · rw [hp1, hp2]; rfl
        · rw [linearEnd_caddi, hk1, hk2]

omit [DecidableEq O] in
theorem preferAdd_preferAdd (t : Expression O) : preferAdd (preferAdd t) = preferAdd t := by
  rcases preferAdd_cases t with heq | ⟨x, k, -, -, heq⟩
  · rw [heq, heq]
  · rw [heq]; rfl

omit [DecidableEq O] in
theorem tail_preferAdd (ht : t.tail = t) : (preferAdd t).tail = preferAdd t := by
  rcases preferAdd_cases t with heq | ⟨x, k, -, -, heq⟩
  · rw [heq, ht]
  · rw [heq]; rfl

section

variable {t x : Expression O} (ht : t.tail = t) (hd : t.containsDebugOnlyConstructs = false)
  (hx : x.containsDebugOnlyConstructs = false)

include ht hd hx

/-- The engine begins with `prefer_add`. -/
theorem subInt'_preferAdd_left : subInt' (preferAdd t) x = subInt' t x := by
  have hp := tail_preferAdd ht
  have hdx := noDebug_tail hx
  rw [subInt'_tails (preferAdd t) x, subInt'_tails t x, hp, ht,
    subInt'_body hp (tail_tail x) ((debug_preferAdd t).trans hd) hdx,
    subInt'_body ht (tail_tail x) hd hdx, preferAdd_preferAdd]
  simp only [setTail_of_tail_eq ht, setTail_of_tail_eq hp]

theorem subInt'_preferAdd_right : subInt' x (preferAdd t) = subInt' x t := by
  have hp := tail_preferAdd ht
  have hdx := noDebug_tail hx
  rw [subInt'_tails x (preferAdd t), subInt'_tails x t, hp, ht,
    subInt'_body (tail_tail x) hp hdx ((debug_preferAdd t).trans hd),
    subInt'_body (tail_tail x) ht hdx hd, preferAdd_preferAdd]
  simp only [setTail_of_tail_eq ht, setTail_of_tail_eq hp]

omit hx in
/-- Where the versions agree, `prefer_add` makes no difference. -/
theorem addConst_preferAdd (k : OcamlInt) :
    EndsAs (addConst t k) (addConst (preferAdd t) k) ((linearEnd t).add k) := by
  have hout := outcome_addConst hd k
  rcases linearEnd_preferAdd ht with ⟨hprefer, -⟩ | ⟨y, z, x, rfl, hprefer, hor⟩
  · rwa [hprefer]
  rw [hor] at hout ⊢
  rw [hprefer]
  by_cases h : k ≠ 0 ∧ noOverflowAdd k x = true
  · have hd' := (debug_preferAdd _).trans hd
    rw [hprefer] at hd'
    have hfirm : linearEnd (cop .caddi [cop .clsl [y, cconstInt z], cconstInt x]) = .firm := by
      rw [linearEnd_addition, linearEnd]
      rfl
    have hmerged : addConstDirect (cop .caddi [cop .clsl [y, cconstInt z], cconstInt x]) k =
        addConstDirect (cop .cor [cop .clsl [y, cconstInt z], cconstInt x]) k := by
      rw [addConstDirect_body rfl h.1, addConstDirect_body rfl h.1, hprefer]
      simp only [preferAdd, addConstBody, constOf, Option.filter_none, filter_some, h.2,
        if_true]
    have h1 := addConst_outcome _ hd k
    have h2 := addConst_outcome _ hd' k
    rw [hor, LinearEnd.add, if_pos h] at h1
    rw [hfirm, LinearEnd.add_firm] at h2
    obtain ⟨r, hr, hr', hend, hdebug⟩ := h1
    obtain ⟨s, hs, hs', -, -⟩ := h2
    obtain rfl : s = r := Except.ok.inj (hs.symm.trans (hmerged.trans hr))
    rw [LinearEnd.add, if_pos h]
    exact ⟨s, checkEqual1_same hr hr', checkEqual1_same hs hs', hend, hdebug⟩
  · rw [LinearEnd.add, if_neg h] at hout ⊢; exact hout

end

/-- The versions of `sub_int`. -/
theorem subInt_outcome (c1 c2 : Expression O) (h1 : c1.containsDebugOnlyConstructs = false)
    (h2 : c2.containsDebugOnlyConstructs = false) :
    EndsAs (subIntDirect c1 c2) (subInt' c1 c2) (diffEnd c1 c2) := by
  induction hw : c1.weight + c2.weight using Nat.strongRecOn generalizing c1 c2 with | ind w ih =>
rw [subIntDirect_tails, subInt'_tails]
apply EndsAs.of_tails h1 h2
have hd1 := noDebug_tail h1
have hd2 := noDebug_tail h2
have he1 := (debug_preferAdd c1.tail).trans hd1
have he2 := (debug_preferAdd c2.tail).trans hd2
rw [subIntDirect_body (tail_tail c1) (tail_tail c2),
  subInt'_body (tail_tail c1) (tail_tail c2) hd1 hd2, subIntBody, subIntBody, diffEnd_eq]
cases (constOf (preferAdd c2.tail)).filter (· ≠ minInt) with
| some k => exact addConst_preferAdd (tail_tail c1) hd1 (-k)
| none =>
  cases ha2 : (addendOf (preferAdd c2.tail)).filter (·.2 ≠ minInt) with
  | some p =>
    obtain ⟨x, k⟩ := p
    have ha := (Option.filter_eq_some_iff.1 ha2).1
    have hle := weight_lt_of_addendOf ha
    have hle1 := weight_tail_le c1
    rw [addendOf_eq_some.1 ha] at he2
    have hx := (noDebug_cop2.1 he2).1
    dsimp only
    rw [subInt'_preferAdd_left (tail_tail c1) hd1 hx]
    exact (ih _ (by omega) _ x hd1 hx rfl).bind_addConst (-k)
  | none =>
    have hp2 := preferAdd_eq_of_addendOf ha2
    cases ha1 : addendOf (preferAdd c1.tail) with
    | some p =>
      obtain ⟨x, k⟩ := p
      have hle := weight_lt_of_addendOf ha1
      have hle2 := weight_tail_le c2
      rw [addendOf_eq_some.1 ha1] at he1
      have hx := (noDebug_cop2.1 he1).1
      dsimp only
      rw [subInt'_preferAdd_right (tail_tail c2) hd2 hx]
      exact (ih _ (by omega) x _ hx hd2 rfl).bind_addConst k
    | none =>
      have hp1 := preferAdd_eq_of_addendOf (t := c1.tail) (by rw [ha1]; rfl)
      refine ⟨_, rfl, ?_, rfl, noDebug_cop2.2 ⟨hd1, hd2⟩⟩
      rw [hp1, hp2]
      rfl

/-! ## §4 The helpers that always agree -/

open DefaultVariables

/-- The comparisons that `max_signed_bit_length` can come to have two operands,
  as comparisons do. -/
def comparisonsBinary : Expression O → Bool
  | cop (.ccmpi _) args => args.length == 2
  | cop (.ccmpf _ _) args => args.length == 2
  | cop _ [a, b] => comparisonsBinary a && comparisonsBinary b
  | _ => true
termination_by e => e.weight
decreasing_by all_goals simp only [weight, weightList]; omega

omit [DecidableEq O] in
theorem comparisonsBinary_preferOr {e : Expression O} (h : comparisonsBinary e = true) :
    comparisonsBinary (preferOr e) = true := by
  unfold preferOr
  split
  · split
    · rw [comparisonsBinary] at h ⊢
      · exact h
      all_goals exact nofun
    · exact h
  · exact h

section

omit [DecidableEq O]

variable {α : Type} {e : Expression O} {default : Expression O → α} {pat : CmmPattern O}
  {xs is : List Nat} {clauses : List (Clause O α e)}

variable {rhs : (env : Env O) → Matches pat e env → Except (Fatal O) α}

theorem runDefault_match
    (hlinear : Linear [] [] pat xs is) (hshape : Shape pat e) {r : Except (Fatal O) α}
    (hr : ∀ env h, Fits env pat e → rhs env h = r) :
    runDefault default e (⟨pat, rhs⟩ :: clauses) = r := by
  obtain ⟨env, hmatch⟩ := hlinear.match_of_shape binds_empty hshape
  rw [runDefault, matchClausesInOrder_match hmatch, hr env hmatch (match_fits hmatch).2]
  cases r <;> rfl

theorem runDefault_skip (hlinear : Linear [] [] pat xs is) (he : ∀ env, ¬ Fits env pat e) :
    runDefault default e (⟨pat, rhs⟩ :: clauses) = runDefault default e clauses :=
  matchClausesInOrder_skip (hlinear.not_match he)

end

variable {op : Binop}

omit [DecidableEq O] in
theorem linear_anyInt : Linear (O := O) [] [] (.binop op (.any c) (.constInt n)) [c.id] [n.id] :=
  .binop (.any (by decide)) (.constInt (by decide))

omit [DecidableEq O] in
theorem linear_anyAny : Linear (O := O) [] [] (.binop op (.any c1) (.any c2)) [c2.id, c1.id] [] :=
  .binop (.any (by decide)) (.any (by decide))

variable {p : OcamlInt → Bool}

omit [DecidableEq O] in
/-- A rule for an operation with a constant that is guarded. -/
theorem runDefault_const {α : Type} {o : Operation O} {a b : Expression O}
    (hop : matchesBinop op o = true) (hb : core b = b) {default : Expression O → α}
      {rhs : (env : Env O) → Matches (.guarded (.binop op (.any c) (.constInt n))
      fun env => do pure (p (← env.int n))) (cop o [a, b]) env → Except (Fatal O) α}
    {clauses : List (Clause O α (cop o [a, b]))} {r : OcamlInt → Except (Fatal O) α}
    (hr : ∀ env h k, env.expr c = .ok (core a) → env.int n = .ok k → rhs env h = r k) :
    runDefault default (cop o [a, b]) (⟨_, rhs⟩ :: clauses) =
      match (constOf b).filter p with
      | some k => r k
      | none => runDefault default _ clauses := by
  cases hk : constOf b with
  | none =>
    exact runDefault_skip (linear_guard1 linear_anyInt (by decide))
      (not_fits_guarded fun env hf => constOf_ne hk hb (fits_cop hf).2)
  | some k =>
    obtain rfl := constOf_eq_some.1 hk
    have hp : ∀ env : Env O, Fits env (.binop op (.any c) (.constInt n)) (cop o [a, cconstInt k]) →
        (do pure (p (← env.int n)) : Except (Fatal O) Bool) = .ok (p k) :=
      fun env hf => by rw [int_of_fits (fits_cop hf).2]; rfl
    obtain ⟨env, hfits, hguard⟩ := match_guarded linear_anyInt rfl
      ⟨o, a, cconstInt k, rfl, hop, trivial, k, rfl⟩ hp
    clear hp
    cases hp : p k with
    | true =>
      rw [hp, if_pos rfl] at hguard
      rw [runDefault, matchClausesInOrder_match hguard,
        hr env hguard k (expr_of_fits_any (fits_cop hfits).1) (int_of_fits (fits_cop hfits).2),
        filter_some, if_pos hp]
      dsimp only
      cases r k <;> rfl
    | false =>
      rw [hp, if_neg Bool.false_ne_true] at hguard
      rw [filter_some, if_neg (by rw [hp]; exact Bool.false_ne_true)]
      exact matchClausesInOrder_skip hguard

omit [DecidableEq O] in
/-- A rule for another operation. -/
theorem runDefault_skip_const {α : Type} {e : Expression O} {default : Expression O → α}
    {rhs : (env : Env O) → Matches (.guarded (.binop op (.any c) (.constInt n))
      fun env => do pure (p (← env.int n))) e env → Except (Fatal O) α}
    {clauses : List (Clause O α e)} (hop : ∀ env pat1 pat2, ¬ Fits env (.binop op pat1 pat2) e) :
    runDefault default e (⟨_, rhs⟩ :: clauses) = runDefault default e clauses :=
  runDefault_skip (linear_guard1 linear_anyInt (by decide))
    (not_fits_guarded fun env => hop env _ _)

/-- What `max_signed_bit_length` does, where `again` is how it goes on. -/
def bitsBody (again : Expression O → Nat) : Expression O → Nat
  | cop (.ccmpi _) _ => 1
  | cop (.ccmpf _ _) _ => 1
  | cop .cand [a, b] =>
    match (constOf b).filter ((0 : OcamlInt).slt ·) with
    | some k => 1 + log2 k.toInt
    | none => max (again a) (again b)
  | cop .clsl [a, b] =>
    match (constOf b).filter isDefinedShift with
    | some k => min archBits (again a + k.toNat)
    | none => archBits
  | cop .casr [a, b] =>
    match (constOf b).filter isDefinedShift with
    | some k => again a - k.toNat
    | none => archBits
  | cop .clsr [a, b] =>
    match (constOf b).filter isDefinedShift with
    | some k => if k = 0 then again a else archBits - k.toNat
    | none => archBits
  | cop .cor [a, b] => max (again a) (again b)
  | cop .cxor [a, b] => max (again a) (again b)
  | _ => archBits

omit [DecidableEq O] in
theorem maxSignedBitLengthDirect_body (e : Expression O) :
    maxSignedBitLengthDirect e = bitsBody maxSignedBitLengthDirect (preferOr e) := by
  rw [maxSignedBitLengthDirect]
  split
  case h_1 heq => rw [heq]; rfl
  case h_2 heq => rw [heq]; rfl
  case h_3 x k heq =>
    rw [heq]
    simp only [bitsBody, constOf, filter_some]
    split <;> rfl
  case h_4 x k heq =>
    rw [heq]
    simp only [bitsBody, constOf, filter_some]
    split <;> rfl
  case h_5 x k heq =>
    rw [heq]
    simp only [bitsBody, constOf, filter_some]
    split <;> rfl
  case h_6 x k heq =>
    rw [heq]
    simp only [bitsBody, constOf, filter_some]
    split <;> rfl
  case h_7 x y hne heq => rw [heq, bitsBody, constOf_eq_none hne]; rfl
  case h_8 x y heq => rw [heq]; rfl
  case h_9 x y heq => rw [heq]; rfl
  case h_10 h1 h2 h3 h4 h5 h6 h7 h8 h9 =>
    unfold bitsBody
    split
    · exact (h1 _ _ ‹_›).elim
    · exact (h2 _ _ _ ‹_›).elim
    · exact (h7 _ _ ‹_›).elim
    · rename_i a b heq
      rw [constOf_eq_none fun k hk => h4 a k (hk ▸ heq)]
      rfl
    · rename_i a b heq
      rw [constOf_eq_none fun k hk => h5 a k (hk ▸ heq)]
      rfl
    · rename_i a b heq
      rw [constOf_eq_none fun k hk => h6 a k (hk ▸ heq)]
      rfl
    · exact (h8 _ _ ‹_›).elim
    · exact (h9 _ _ ‹_›).elim
    · rfl

omit [DecidableEq O] in
/-- The two versions of `max_signed_bit_length` return the same. -/
theorem maxSignedBitLength'_eq (e : Expression O) (he : e.containsDebugOnlyConstructs = false)
    (hbin : comparisonsBinary e = true) :
    maxSignedBitLength' e = .ok (maxSignedBitLengthDirect e) := by
  induction hw : e.weight using Nat.strongRecOn generalizing e with | ind w ih =>
subst hw
have hweight := weight_preferOr e
have hbin' := comparisonsBinary_preferOr hbin
have hdebug : (preferOr e).containsDebugOnlyConstructs = false := by
  unfold preferOr
  split
  · split
    · rwa [debug_cop_left] at he ⊢
    · exact he
  · exact he
rw [maxSignedBitLength', maxSignedBitLengthDirect_body]
generalize preferOr e = t at *
by_cases hcop : ∃ o a b, t = cop o [a, b]
· obtain ⟨o, a, b, rfl⟩ := hcop
  simp only [weight, weightList] at hweight
  obtain ⟨hda, hdb⟩ := noDebug_cop2.1 hdebug
  have hca := core_of_noDebug hda
  have hcb := core_of_noDebug hdb
  have hsub : matchesBinop .comparison o = false →
      maxSignedBitLength' a = .ok (maxSignedBitLengthDirect a) ∧
        maxSignedBitLength' b = .ok (maxSignedBitLengthDirect b) := by
    intro ho
    have h : comparisonsBinary a = true ∧ comparisonsBinary b = true := by
      cases o with
      | ccmpi cmp | ccmpf width cmp => exact Bool.noConfusion ho
      | _ =>
        rw [comparisonsBinary, Bool.and_eq_true] at hbin'
        · exact hbin'
        all_goals simp
    exact ⟨ih _ (by omega) a hda h.1 rfl, ih _ (by omega) b hdb h.2 rfl⟩
  have hbitwise : matchesBinop .comparison o = false → matchesBinop .bitwiseOp o = true →
      ∀ default rhs, (∀ env h, env.expr c1 = .ok a → env.expr c2 = .ok b →
        rhs env h = do pure (max (← maxSignedBitLength' a) (← maxSignedBitLength' b))) →
      runDefault default (cop o [a, b]) [⟨.binop .bitwiseOp (.any c1) (.any c2), rhs⟩] =
        .ok (max (maxSignedBitLengthDirect a) (maxSignedBitLengthDirect b)) := by
    intro hcmp ho default rhs hrhs
    refine runDefault_match linear_anyAny ⟨_, _, _, rfl, ho, trivial, trivial⟩
      fun env h hf => ?_
    rw [hrhs env h ((expr_of_fits_any (fits_cop hf).1).trans (congrArg _ hca))
      ((expr_of_fits_any (fits_cop hf).2).trans (congrArg _ hcb)), (hsub hcmp).1,
      (hsub hcmp).2]
    rfl
  have hskip : ∀ op, matchesBinop op o = false → ∀ env pat1 pat2,
      ¬ Fits env (.binop op pat1 pat2) (cop o [a, b]) :=
    fun op ho env pat1 pat2 => not_fits_binop ho env
  cases o with
  | ccmpi cmp =>
    exact runDefault_match linear_anyAny ⟨_, _, _, rfl, rfl, trivial, trivial⟩ fun _ _ _ => rfl
  | ccmpf width cmp =>
    exact runDefault_match linear_anyAny ⟨_, _, _, rfl, rfl, trivial, trivial⟩ fun _ _ _ => rfl
  | cand =>
    rw [runDefault_skip linear_anyAny fun env => hskip _ rfl env _ _,
      runDefault_const rfl hcb (r := fun k => .ok (1 + log2 k.toInt)) fun env h k _ hk => by
        rw [hk]; rfl,
      runDefault_skip_const (hskip _ rfl), runDefault_skip_const (hskip _ rfl),
      runDefault_skip_const (hskip _ rfl), hbitwise rfl rfl, bitsBody]
    · cases (constOf b).filter ((0 : OcamlInt).slt ·) <;> rfl
    · intro env h h1 h2; rw [withExpr_eq h1, withExpr_eq h2]
  | clsl =>
    rw [runDefault_skip linear_anyAny fun env => hskip _ rfl env _ _,
      runDefault_skip_const (hskip _ rfl),
      runDefault_const rfl hcb
        (r := fun k => .ok (min archBits (maxSignedBitLengthDirect a + k.toNat)))
        fun env h k ha hk => by
          rw [withExpr_eq (ha.trans (congrArg _ hca)), hk, (hsub rfl).1]; rfl,
      runDefault_skip_const (hskip _ rfl), runDefault_skip_const (hskip _ rfl),
      runDefault_skip linear_anyAny fun env => hskip _ rfl env _ _, bitsBody]
    cases (constOf b).filter isDefinedShift <;> rfl
  | casr =>
    rw [runDefault_skip linear_anyAny fun env => hskip _ rfl env _ _,
      runDefault_skip_const (hskip _ rfl), runDefault_skip_const (hskip _ rfl),
      runDefault_const rfl hcb (r := fun k => .ok (maxSignedBitLengthDirect a - k.toNat))
        fun env h k ha hk => by
          rw [withExpr_eq (ha.trans (congrArg _ hca)), hk, (hsub rfl).1]; rfl,
      runDefault_skip_const (hskip _ rfl),
      runDefault_skip linear_anyAny fun env => hskip _ rfl env _ _, bitsBody]
    cases (constOf b).filter isDefinedShift <;> rfl
  | clsr =>
    rw [runDefault_skip linear_anyAny fun env => hskip _ rfl env _ _,
      runDefault_skip_const (hskip _ rfl), runDefault_skip_const (hskip _ rfl),
      runDefault_skip_const (hskip _ rfl),
      runDefault_const rfl hcb
        (r := fun k => .ok (if k = 0 then maxSignedBitLengthDirect a else archBits - k.toNat))
        fun env h k ha hk => by
          rw [withExpr_eq (ha.trans (congrArg _ hca)), hk, (hsub rfl).1]
          dsimp only [Bind.bind, Except.bind]
          split <;> rfl,
      runDefault_skip linear_anyAny fun env => hskip _ rfl env _ _, bitsBody]
    cases (constOf b).filter isDefinedShift <;> rfl
  | _ =>
    rw [runDefault_skip linear_anyAny fun env => hskip _ rfl env _ _,
      runDefault_skip_const (hskip _ rfl), runDefault_skip_const (hskip _ rfl),
      runDefault_skip_const (hskip _ rfl), runDefault_skip_const (hskip _ rfl)]
    first
      | exact hbitwise rfl rfl _ _ fun env h h1 h2 => by rw [withExpr_eq h1, withExpr_eq h2]
      | exact runDefault_skip linear_anyAny fun env => hskip _ rfl env _ _
have hnf : ∀ env op pat1 pat2, ¬ Fits env (.binop op pat1 pat2) t := by
  rintro env op pat1 pat2 ⟨o, a, b, heq, -⟩
  exact hcop ⟨o, a, b, (core_of_noDebug hdebug).symm.trans heq⟩
have hargs : ∀ (o : Operation O) args, (args.length == 2) = true → t ≠ cop o args := by
  rintro o args hlen rfl
  obtain ⟨a, b, rfl⟩ := List.length_eq_two.1 (beq_iff_eq.1 hlen)
  exact hcop ⟨o, a, b, rfl⟩
rw [runDefault_skip linear_anyAny fun env => hnf env _ _ _,
  runDefault_skip_const fun env => hnf env _, runDefault_skip_const fun env => hnf env _,
  runDefault_skip_const fun env => hnf env _, runDefault_skip_const fun env => hnf env _,
  runDefault_skip linear_anyAny fun env => hnf env _ _ _]
unfold bitsBody
split
· rw [comparisonsBinary] at hbin'; exact absurd rfl (hargs _ _ hbin')
· rw [comparisonsBinary] at hbin'; exact absurd rfl (hargs _ _ hbin')
all_goals first | rfl | exact absurd ⟨_, _, _, rfl⟩ hcop

/-! ## §5 When all of them agree -/

/-- Two versions return equivalent expressions, and the helper that checks them returns. -/
def VersionsAgree (r rEngine checked : Except (Fatal O) (Expression O)) : Prop :=
  (∃ t t', r = .ok t ∧ rEngine = .ok t' ∧ CmmComparator.equivalent t t' = true) ∧
    ∃ t, checked = .ok t

theorem Agreed.versionsAgree {name : String} (h : Agreed r rEngine e) :
    VersionsAgree r rEngine (checkEqual1 name r rEngine) := by
  obtain ⟨t, hr, hr', -, -⟩ := h
  exact ⟨⟨t, t, hr, hr', CmmComparator.equivalent_refl t⟩, t, checkEqual1_same hr hr'⟩

theorem Differed.not_versionsAgree {r rEngine checked : Except (Fatal O) (Expression O)}
    (h : Differed r rEngine) : ¬ VersionsAgree r rEngine checked := by
  rintro ⟨⟨s, s', hs, hs', hequiv⟩, -⟩
  obtain ⟨t, t', hr, hr', hdiff, -, -⟩ := h
  cases hs.symm.trans hr
  cases hs'.symm.trans hr'
  rw [hequiv] at hdiff
  cases hdiff

theorem AddConstOutcome.versionsAgree_iff {c : Expression O} (h : AddConstOutcome c k o) :
    VersionsAgree (addConstDirect c k) (addConst' c k) (addConst c k) ↔ o.isSome = true := by
  cases o with
  | some e => exact iff_of_true (Agreed.versionsAgree h) rfl
  | none => exact iff_of_false (Differed.not_versionsAgree h) Bool.false_ne_true

theorem EndsAs.versionsAgree_iff {name : String} (h : EndsAs r rEngine o) :
    VersionsAgree r rEngine (checkEqual3 name r rEngine) ↔ o.isSome = true := by
  cases o with
  | some e => exact iff_of_true (Agreed.versionsAgree h) rfl
  | none =>
    obtain ⟨err, rfl⟩ := h
    refine iff_of_false ?_ Bool.false_ne_true
    rintro ⟨⟨t, t', ht, -⟩, -⟩
    cases ht

/-- The versions of all the helpers agree, but for an or that additions of constants lead to with
zero or with a sum that overflows. -/
theorem versions_agree_iff (c c1 c2 e : Expression O) (k : OcamlInt)
    (hc : c.containsDebugOnlyConstructs = false) (h1 : c1.containsDebugOnlyConstructs = false)
    (h2 : c2.containsDebugOnlyConstructs = false) (he : e.containsDebugOnlyConstructs = false) :
    (VersionsAgree (addConstDirect c k) (addConst' c k) (addConst c k) ↔
        ((linearEnd c).add k).isSome = true) ∧
      (VersionsAgree (addIntDirect c1 c2) (addInt' c1 c2) (addInt c1 c2) ↔
        (sumEnd c1 c2).isSome = true) ∧
      (VersionsAgree (subIntDirect c1 c2) (subInt' c1 c2) (subInt c1 c2) ↔
        (diffEnd c1 c2).isSome = true) ∧
      VersionsAgree (.ok (ignoreLowBitIntDirect e)) (ignoreLowBitInt' e) (ignoreLowBitInt e) ∧
      (comparisonsBinary e = true → maxSignedBitLength' e = .ok (maxSignedBitLengthDirect e) ∧
        maxSignedBitLength e = .ok (maxSignedBitLengthDirect e)) := by
  refine ⟨(addConst_outcome c hc k).versionsAgree_iff,
    (addInt_outcome c1 c2 h1 h2).versionsAgree_iff,
    (subInt_outcome c1 c2 h1 h2).versionsAgree_iff, ⟨⟨_, _, rfl, ignoreLowBitInt'_eq he,
      CmmComparator.equivalent_refl _⟩, ignoreLowBitInt_total e⟩, fun hbin => ?_⟩
  have hengine := maxSignedBitLength'_eq e he hbin
  refine ⟨hengine, ?_⟩
  rw [maxSignedBitLength, hengine]
  exact if_pos rfl

/-- On variables, with a constant. -/
theorem versions_agree_iff_vars :
    VersionsAgree (O := Unit) (addIntDirect (cvar 0) (cvar 1)) (addInt' (cvar 0) (cvar 1))
      (addInt (cvar 0) (cvar 1)) ∧ maxSignedBitLength (cvar 0 : Expression Unit) = .ok 64 :=
  have h := versions_agree_iff (O := Unit) (cvar 0) (cvar 0) (cvar 1) (cvar 0) 0 rfl rfl rfl rfl
  ⟨h.2.1.2 (by rw [sumEnd]; rfl), (h.2.2.2.2 (by rw [comparisonsBinary] <;> exact nofun)).2.trans
    (by rw [maxSignedBitLengthDirect]; rfl)⟩

/-- `(v lsl 8) or 3`, with zero: the engine makes it `(v lsl 8) + 3`. -/
theorem addConst_zero_or : ∃ c c' : Expression Unit,
    c = cop .cor [cop .clsl [cvar 0, cconstInt 8], cconstInt 3] ∧
      c.containsDebugOnlyConstructs = false ∧ addConst c 0 = .error (.mismatch "add_const" c c') ∧
      ¬ VersionsAgree (addConstDirect c 0) (addConst' c 0) (addConst c 0) := by
  refine ⟨_, cop .caddi [cop .clsl [cvar 0, cconstInt 8], cconstInt 3], rfl, rfl, ?_, ?_⟩
  · show checkEqual1 _ (addConstDirect _ 0) (addConst' _ 0) = _
    rw [addConst'_zero rfl rfl, addConstDirect]
    rfl
  have h := addConst_outcome (O := Unit) (cop .cor [cop .clsl [cvar 0, cconstInt 8], cconstInt 3])
    rfl 0
  rw [h.versionsAgree_iff, linearEnd]
  decide

end CmmHelpers

end Oxcaml.Backend
