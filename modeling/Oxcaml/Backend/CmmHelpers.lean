/-
Oxcaml.Backend.CmmHelpers — integer arithmetic of `backend/cmm_helpers.ml`.

The smart constructors for additions, bitwise operations, shifts and products,
and for tagging. They look through `let`s and sequences (`map_tail1`,
`map_tail2`), merge constants and shifts, and drop what cannot matter.

The additive helpers exist twice, by hand and as rules of the peephole engine;
`check_equal_*` runs both and is fatal when they disagree. Fatal errors are
values of `Fatal`, so every helper returns an `Except`.
-/
import Oxcaml.Backend.CmmPeepholeEngine

set_option linter.all false

namespace Oxcaml.Backend.CmmHelpers

open Expression CmmPeepholeEngine

variable {O : Type}

/-! ## §1 Integers -/

def archBits : Nat := 64

def maxInt : OcamlInt := BitVec.intMax 63

def minInt : OcamlInt := BitVec.intMin 63

/-- `Misc.no_overflow_add`. -/
def noOverflowAdd (a b : OcamlInt) : Bool := ((a ^^^ b) ||| (a ^^^ ~~~(a + b))).slt 0

/-- `Misc.no_overflow_sub`. -/
def noOverflowSub (a b : OcamlInt) : Bool := ((a ^^^ ~~~b) ||| (b ^^^ (a - b))).slt 0

/-- `Misc.no_overflow_mul`. -/
def noOverflowMul (a b : OcamlInt) : Bool :=
  !((a == minInt && b.slt 0) || (b != 0 && (a * b).sdiv b != a))

/-- `Misc.no_overflow_lsl`, where `Sys.word_size` is 64. -/
def noOverflowLsl (a k : OcamlInt) : Bool :=
  (0 : OcamlInt).sle k && k.slt 63 && (minInt.sshiftRight k.toNat).sle a &&
    a.sle (maxInt.sshiftRight k.toNat)

/-- `Nativeint.of_int`. -/
def ofInt (n : OcamlInt) : Nativeint := n.signExtend 64

/-- `Nativeint.to_int`. -/
def toInt (n : Nativeint) : OcamlInt := n.setWidth 63

/-- `Misc.log2` and `Misc.log2_nativeint`, on the value of the integer. -/
def log2 (n : Int) : Nat :=
  if n ≤ 1 then 0 else 1 + log2 (n / 2)
termination_by n.toNat
decreasing_by omega

def maxReprInt : OcamlInt := maxInt.sshiftRight 1

def minReprInt : OcamlInt := minInt.sshiftRight 1

def intConst (n : OcamlInt) : Expression O :=
  if n.sle maxReprInt && minReprInt.sle n then cconstInt ((n <<< 1) + 1)
  else cconstNatint ((ofInt n <<< 1) + 1)

def natintConstUntagged (n : Nativeint) : Expression O :=
  if (ofInt maxInt).slt n || n.slt (ofInt minInt) then cconstNatint n else cconstInt (toInt n)

def addNoOverflow (n x : OcamlInt) (c : Expression O) : Expression O :=
  let d := n + x
  if d = 0 then c else cop .caddi [c, cconstInt d]

def isDefinedShift (n : OcamlInt) : Bool := (0 : OcamlInt).sle n && n.slt 64

/-- Returns true only if `e + n` is definitely the same as `e | n`. -/
def canInterchangeAddWithOr : Expression O → OcamlInt → Bool
  | cop .clsl [_, cconstInt x], n => isDefinedShift x && n.sshiftRight x.toNat == 0
  | _, _ => false

def preferAdd : Expression O → Expression O
  | cop .cor [e, cconstInt n] =>
    if canInterchangeAddWithOr e n then cop .caddi [e, cconstInt n] else cop .cor [e, cconstInt n]
  | e => e

def preferOr : Expression O → Expression O
  | cop .caddi [e, cconstInt n] =>
    if canInterchangeAddWithOr e n then cop .cor [e, cconstInt n] else cop .caddi [e, cconstInt n]
  | e => e

theorem weight_preferAdd (e : Expression O) : (preferAdd e).weight = e.weight := by
  unfold preferAdd
  split
  · split <;> simp only [weight]
  · rfl

theorem weight_preferOr (e : Expression O) : (preferOr e).weight = e.weight := by
  unfold preferOr
  split
  · split <;> simp only [weight]
  · rfl

variable {ε : Type}

theorem le_weight_clet (v : BackendVar) (exp body c : Expression O) (h : c.weight ≤ body.weight) :
    c.weight ≤ (clet v exp body).weight := by
  simp only [weight]; omega

theorem le_weight_cphantomLet (v : BackendVar) (exp : Option PhantomDefiningExpr)
    (body c : Expression O) (h : c.weight ≤ body.weight) :
    c.weight ≤ (cphantomLet v exp body).weight := by
  simp only [weight]; omega

theorem le_weight_cnameForDebugger (v : BackendVar) (body c : Expression O)
    (h : c.weight ≤ body.weight) : c.weight ≤ (cnameForDebugger v body).weight := by
  simp only [weight]; omega

theorem le_weight_csequence (e1 e2 c : Expression O) (h : c.weight ≤ e2.weight) :
    c.weight ≤ (csequence e1 e2).weight := by
  simp only [weight]; omega

/-- The function may use that the tail is no heavier than the whole. -/
def mapTail1 (e : Expression O)
    (f : (c : Expression O) → c.weight ≤ e.weight → Except ε (Expression O)) :
    Except ε (Expression O) :=
  match e with
  | clet v exp body => do
    let body ← mapTail1 body fun c h => f c (le_weight_clet v exp body c h)
    pure (clet v exp body)
  | cphantomLet v exp body => do
    let body ← mapTail1 body fun c h => f c (le_weight_cphantomLet v exp body c h)
    pure (cphantomLet v exp body)
  | cnameForDebugger v body => do
    let body ← mapTail1 body fun c h => f c (le_weight_cnameForDebugger v body c h)
    pure (cnameForDebugger v body)
  | csequence e1 e2 => do
    let e2 ← mapTail1 e2 fun c h => f c (le_weight_csequence e1 e2 c h)
    pure (csequence e1 e2)
  | e => f e (Nat.le_refl _)

attribute [local grind =] mapTail1

def mapTail2 (x y : Expression O)
    (f : (x' : Expression O) → x'.weight ≤ x.weight → (y' : Expression O) →
      y'.weight ≤ y.weight → Except ε (Expression O)) : Except ε (Expression O) :=
  mapTail1 y fun y' hy => mapTail1 x fun x' hx => f x' hx y' hy

/-! ## §2 Additions -/

variable [DecidableEq O]

def checkEqual1 (name : String) (r rEngine : Except (Fatal O) (Expression O)) :
    Except (Fatal O) (Expression O) := do
  let r ← r
  let rEngine ← rEngine
  if CmmComparator.equivalent r rEngine then pure r
  else if r.containsDebugOnlyConstructs || rEngine.containsDebugOnlyConstructs then pure rEngine
  else throw (.mismatch name r rEngine)

/-- As `check_equal_1`, for helpers of three arguments. -/
def checkEqual3 (name : String) (r rEngine : Except (Fatal O) (Expression O)) :
    Except (Fatal O) (Expression O) := checkEqual1 name r rEngine

def checkEqualInt1 (name : String) (r : Nat) (rEngine : Except (Fatal O) Nat)
    (arg : Expression O) : Except (Fatal O) Nat := do
  let rEngine ← rEngine
  if r = rEngine then pure r
  else if arg.containsDebugOnlyConstructs then pure rEngine
  else throw (.mismatchInt name r rEngine arg)

/-- The hand-written `add_const`. -/
def addConstDirect (c : Expression O) (n : OcamlInt) : Except (Fatal O) (Expression O) :=
  if n = 0 then pure c
  else
    mapTail1 c fun c h =>
      match hc : preferAdd c with
      | cconstInt x =>
        if noOverflowAdd x n then pure (cconstInt (x + n)) else pure (cop .caddi [c, cconstInt n])
      | cop .caddi [cconstInt x, c'] =>
        if noOverflowAdd n x then pure (addNoOverflow n x c')
        else
          match c' with
          | cconstInt x' =>
            if noOverflowAdd n x' then pure (addNoOverflow n x' (cconstInt x))
            else pure (cop .caddi [c, cconstInt n])
          | _ => pure (cop .caddi [c, cconstInt n])
      | cop .caddi [c', cconstInt x] =>
        if noOverflowAdd n x then pure (addNoOverflow n x c')
        else pure (cop .caddi [c, cconstInt n])
      | cop .csubi [cconstInt x, c'] =>
        if noOverflowAdd n x then pure (cop .csubi [cconstInt (n + x), c'])
        else
          match c' with
          | cconstInt x' =>
            if noOverflowSub n x' then addConstDirect (cconstInt x) (n - x')
            else pure (cop .caddi [c, cconstInt n])
          | _ => pure (cop .caddi [c, cconstInt n])
      | cop .csubi [c', cconstInt x] =>
        if noOverflowSub n x then addConstDirect c' (n - x)
        else pure (cop .caddi [c, cconstInt n])
      | _ => pure (cop .caddi [c, cconstInt n])
termination_by c.weight
decreasing_by
  all_goals
    have := weight_preferAdd c
    simp only [hc, weight, weightList] at this ⊢
    omega

/-- The variable that `add_const` creates for itself. -/
def xVar : PatternVar .int := ⟨7, "x"⟩

variable {arg e e1 e2 t : Expression O} {v : PatternVar .expr} {env : Env O}

omit [DecidableEq O] in
/-- What a variable matches is as heavy as the expression it stands for. -/
theorem weight_of_fits_any
    (h : Fits env (.any v) arg) (he : env.expr v = .ok e) : e.weight = arg.weight := by
  rw [Fits, expr_eq.1 he, Option.some.injEq] at h
  rw [h, weight_core]

variable {op : Binop} {pat : CmmPattern O}

omit [DecidableEq O] in
/-- What a variable matches on the left of an operation is lighter than the whole. -/
theorem weight_lt_of_fits (h : Fits env (.binop op (.any v) pat) arg)
    (he : env.expr v = .ok e) : e.weight < arg.weight := by
  obtain ⟨_, _, _, heq, -, hv, -⟩ := h
  have hw := weight_core arg
  rw [heq, weight, weightList, weightList] at hw
  rw [weight_of_fits_any hv he]
  omega

omit [DecidableEq O] in
theorem weight_lt_of_fits_right (h : Fits env (.binop op pat (.any v)) arg)
    (he : env.expr v = .ok e) : e.weight < arg.weight := by
  obtain ⟨_, _, _, heq, -, -, hv⟩ := h
  have hw := weight_core arg
  rw [heq, weight, weightList, weightList, weightList] at hw
  rw [weight_of_fits_any hv he]
  omega

variable {o : Operation O}

omit [DecidableEq O] in
/-- The first operand of the operation under the skipped constructs. -/
theorem weight_lt_of_core
    (h : core arg = cop o [e1, e2]) (he : e.weight = e1.weight) : e.weight < arg.weight := by
  have hw := weight_core arg
  rw [h, weight, weightList, weightList] at hw
  omega

omit [DecidableEq O] in
theorem fits_cop {pat1 pat2 : CmmPattern O} (h : Fits env (.binop op pat1 pat2) (cop o [e1, e2])) :
    Fits env pat1 e1 ∧ Fits env pat2 e2 := by
  obtain ⟨_, _, _, heq, -, h1, h2⟩ := h
  cases heq
  exact ⟨h1, h2⟩

open DefaultVariables

/-- `add_const` by the engine. -/
def addConst' (arg : Expression O) (const : OcamlInt) : Except (Fatal O) (Expression O) :=
  mapTail1 arg fun arg harg =>
    run (cop .caddi [preferAdd arg, cconstInt const])
      [⟨.binop .add (.any c) (.constIntFixed 0), fun env _ => env.expr c⟩,
       ⟨.guarded (.binop .add (.constInt xVar) (.constInt n))
          fun env => do pure (noOverflowAdd (← env.int n) (← env.int xVar)),
        fun env _ => do pure (cconstInt ((← env.int xVar) + (← env.int n)))⟩,
       ⟨.guarded (.binop .add (.binop .add (.constInt xVar) (.any c)) (.constInt n))
          fun env => do pure (noOverflowAdd (← env.int n) (← env.int xVar)),
        fun env _ => do pure (addNoOverflow (← env.int n) (← env.int xVar) (← env.expr c))⟩,
       ⟨.guarded (.binop .add (.binop .add (.any c) (.constInt xVar)) (.constInt n))
          fun env => do pure (noOverflowAdd (← env.int n) (← env.int xVar)),
        fun env _ => do pure (addNoOverflow (← env.int n) (← env.int xVar) (← env.expr c))⟩,
       ⟨.guarded (.binop .add (.binop .sub (.constInt xVar) (.any c)) (.constInt n))
          fun env => do pure (noOverflowAdd (← env.int n) (← env.int xVar)),
        fun env _ => do
          pure (cop .csubi [cconstInt ((← env.int n) + (← env.int xVar)), ← env.expr c])⟩,
       ⟨.guarded (.binop .add (.binop .sub (.any c) (.constInt xVar)) (.constInt n))
          fun env => do pure (noOverflowSub (← env.int n) (← env.int xVar)),
        fun env hmatch =>
          env.withExpr c fun e hc => do addConst' e ((← env.int n) - (← env.int xVar))⟩]
termination_by arg.weight
decreasing_by
  have hlt := weight_lt_of_fits (fits_cop (match_fits hmatch).2.1).1 hc
  rw [weight_preferAdd] at hlt
  omega

def addConst (c : Expression O) (n : OcamlInt) : Except (Fatal O) (Expression O) :=
  checkEqual3 "add_const" (addConstDirect c n) (addConst' c n)

def incrInt (c : Expression O) : Except (Fatal O) (Expression O) := addConst c 1

/-- The hand-written `add_int`. -/
def addIntDirect (c1 c2 : Expression O) : Except (Fatal O) (Expression O) :=
  mapTail2 c1 c2 fun c1 h1 c2 h2 =>
    match hc1 : preferAdd c1, hc2 : preferAdd c2 with
    | cconstInt n, c => addConst c n
    | c, cconstInt n => addConst c n
    | cop .caddi [c1', cconstInt n1], c2' => do addConst (← addIntDirect c1' c2') n1
    | c1', cop .caddi [c2', cconstInt n2] => do addConst (← addIntDirect c1' c2') n2
    | _, _ => pure (cop .caddi [c1, c2])
termination_by c1.weight + c2.weight
decreasing_by
  all_goals
    have hw1 := weight_preferAdd c1
    have hw2 := weight_preferAdd c2
    simp only [hc1, hc2, weight, weightList] at hw1 hw2
    omega

/-- `add_int` by the engine. -/
def addInt' (arg1 arg2 : Expression O) : Except (Fatal O) (Expression O) :=
  mapTail2 arg1 arg2 fun arg1 h1 arg2 h2 =>
    run (cop .caddi [preferAdd arg1, preferAdd arg2])
      [⟨.binop .add (.constInt n) (.any c), fun env _ => do
          addConst (← env.expr c) (← env.int n)⟩,
       ⟨.binop .add (.any c) (.constInt n), fun env _ => do
          addConst (← env.expr c) (← env.int n)⟩,
       ⟨.binop .add (.binop .add (.any c1) (.constInt n1)) (.any c2), fun env hmatch =>
          env.withExpr c1 fun e1 hc1 => env.withExpr c2 fun e2 hc2 =>
            do addConst (← addInt' e1 e2) (← env.int n1)⟩,
       ⟨.binop .add (.any c1) (.binop .add (.any c2) (.constInt n2)), fun env hmatch =>
          env.withExpr c1 fun e1 hc1 => env.withExpr c2 fun e2 hc2 =>
            do addConst (← addInt' e1 e2) (← env.int n2)⟩]
termination_by arg1.weight + arg2.weight
decreasing_by
  · obtain ⟨hf1, hf2⟩ := fits_cop (match_fits hmatch).2
    have hlt := weight_lt_of_fits hf1 hc1
    have heq := weight_of_fits_any hf2 hc2
    rw [weight_preferAdd] at hlt heq
    omega
  obtain ⟨hf1, hf2⟩ := fits_cop (match_fits hmatch).2
  have heq := weight_of_fits_any hf1 hc1
  have hlt := weight_lt_of_fits hf2 hc2
  rw [weight_preferAdd] at hlt heq
  omega

def addInt (c1 c2 : Expression O) : Except (Fatal O) (Expression O) :=
  checkEqual3 "add_int" (addIntDirect c1 c2) (addInt' c1 c2)

/-- The hand-written `sub_int`. -/
def subIntDirect (c1 c2 : Expression O) : Except (Fatal O) (Expression O) :=
  mapTail2 c1 c2 fun c1 h1 c2 h2 =>
    match hc1 : preferAdd c1, hc2 : preferAdd c2 with
    | cop .caddi [c1', cconstInt n1], cconstInt n2 =>
      if n2 ≠ minInt then addConst c1 (-n2) else do addConst (← subIntDirect c1' c2) n1
    | cop .caddi [c1', cconstInt n1], cop .caddi [c2', cconstInt n2] =>
      if n2 ≠ minInt then do addConst (← subIntDirect c1 c2') (-n2)
      else do addConst (← subIntDirect c1' c2) n1
    | _, cconstInt n2 =>
      if n2 ≠ minInt then addConst c1 (-n2) else pure (cop .csubi [c1, c2])
    | _, cop .caddi [c2', cconstInt n2] =>
      if n2 ≠ minInt then do addConst (← subIntDirect c1 c2') (-n2)
      else pure (cop .csubi [c1, c2])
    | cop .caddi [c1', cconstInt n1], _ => do addConst (← subIntDirect c1' c2) n1
    | _, _ => pure (cop .csubi [c1, c2])
termination_by c1.weight + c2.weight
decreasing_by
  all_goals
    have hw1 := weight_preferAdd c1
    have hw2 := weight_preferAdd c2
    simp only [hc1, hc2, weight, weightList] at hw1 hw2
    omega

/-- `sub_int` by the engine. -/
def subInt' (arg1 arg2 : Expression O) : Except (Fatal O) (Expression O) :=
  mapTail2 arg1 arg2 fun arg1 h1 arg2 h2 =>
    run (cop .csubi [preferAdd arg1, preferAdd arg2])
      [⟨.guarded (.binop .sub (.any c1) (.constInt n2))
          fun env => do pure (decide ((← env.int n2) ≠ minInt)),
        fun env _ => do addConst (← env.expr c1) (-(← env.int n2))⟩,
       ⟨.guarded (.binop .sub (.any c1) (.binop .add (.any c2) (.constInt n2)))
          fun env => do pure (decide ((← env.int n2) ≠ minInt)),
        fun env hmatch =>
          env.withExpr c1 fun e1 hc1 => env.withExpr c2 fun e2 hc2 =>
            do addConst (← subInt' e1 e2) (-(← env.int n2))⟩,
       ⟨.binop .sub (.binop .add (.any c1) (.constInt n1)) (.any c2), fun env hmatch =>
          env.withExpr c1 fun e1 hc1 => env.withExpr c2 fun e2 hc2 =>
            do addConst (← subInt' e1 e2) (← env.int n1)⟩]
termination_by arg1.weight + arg2.weight
decreasing_by
  · obtain ⟨hf1, hf2⟩ := fits_cop (match_fits hmatch).2.1
    have heq := weight_of_fits_any hf1 hc1
    have hlt := weight_lt_of_fits hf2 hc2
    rw [weight_preferAdd] at hlt heq
    omega
  obtain ⟨hf1, hf2⟩ := fits_cop (match_fits hmatch).2
  have hlt := weight_lt_of_fits hf1 hc1
  have heq := weight_of_fits_any hf2 hc2
  rw [weight_preferAdd] at hlt heq
  omega

def subInt (c1 c2 : Expression O) : Except (Fatal O) (Expression O) :=
  checkEqual3 "sub_int" (subIntDirect c1 c2) (subInt' c1 c2)

def negInt (c : Expression O) : Except (Fatal O) (Expression O) := subInt (cconstInt 0) c

/-! ## §3 Bits that matter -/

/-- The hand-written `max_signed_bit_length`: conservatively approximates the
number of significant bits in its signed argument. -/
def maxSignedBitLengthDirect (e : Expression O) : Nat :=
  match he : preferOr e with
  | cop (.ccmpi _) _ => 1
  | cop (.ccmpf _ _) _ => 1
  | cop .cand [x, cconstInt n] =>
    if (0 : OcamlInt).slt n then 1 + log2 n.toInt
    else max (maxSignedBitLengthDirect x) (maxSignedBitLengthDirect (cconstInt n))
  | cop .clsl [c, cconstInt n] =>
    if isDefinedShift n then min archBits (maxSignedBitLengthDirect c + n.toNat) else archBits
  | cop .casr [c, cconstInt n] =>
    if isDefinedShift n then maxSignedBitLengthDirect c - n.toNat else archBits
  | cop .clsr [c, cconstInt n] =>
    if isDefinedShift n then
      if n = 0 then maxSignedBitLengthDirect c else archBits - n.toNat
    else archBits
  | cop .cand [x, y] => max (maxSignedBitLengthDirect x) (maxSignedBitLengthDirect y)
  | cop .cor [x, y] => max (maxSignedBitLengthDirect x) (maxSignedBitLengthDirect y)
  | cop .cxor [x, y] => max (maxSignedBitLengthDirect x) (maxSignedBitLengthDirect y)
  | _ => archBits
termination_by e.weight
decreasing_by
  all_goals
    have hw := weight_preferOr e
    simp only [he, weight, weightList] at hw ⊢
    omega

/-- `max_signed_bit_length` by the engine. -/
def maxSignedBitLength' (e : Expression O) : Except (Fatal O) Nat :=
  runDefault (fun _ => archBits) (preferOr e)
    [⟨.binop .comparison (.any c1) (.any c2), fun _ _ => pure 1⟩,
     ⟨.guarded (.binop .and (.any c) (.constInt n))
        fun env => do pure ((0 : OcamlInt).slt (← env.int n)),
      fun env _ => do pure (1 + log2 (← env.int n).toInt)⟩,
     ⟨.guarded (.binop .lsl (.any c) (.constInt n))
        fun env => do pure (isDefinedShift (← env.int n)),
      fun env hmatch =>
        env.withExpr c fun e' hc =>
          do pure (min archBits ((← maxSignedBitLength' e') + (← env.int n).toNat))⟩,
     ⟨.guarded (.binop .asr (.any c) (.constInt n))
        fun env => do pure (isDefinedShift (← env.int n)),
      fun env hmatch =>
        env.withExpr c fun e' hc => do pure ((← maxSignedBitLength' e') - (← env.int n).toNat)⟩,
     ⟨.guarded (.binop .lsr (.any c) (.constInt n))
        fun env => do pure (isDefinedShift (← env.int n)),
      fun env hmatch =>
        env.withExpr c fun e' hc => do
          if (← env.int n) = 0 then maxSignedBitLength' e'
          else pure (archBits - (← env.int n).toNat)⟩,
     ⟨.binop .bitwiseOp (.any c1) (.any c2), fun env hmatch =>
        env.withExpr c1 fun e1 hc1 => env.withExpr c2 fun e2 hc2 => do
          pure (max (← maxSignedBitLength' e1) (← maxSignedBitLength' e2))⟩]
termination_by e.weight
decreasing_by
  · have hlt := weight_lt_of_fits (match_fits hmatch).2.1 hc; rwa [weight_preferOr] at hlt
  · have hlt := weight_lt_of_fits (match_fits hmatch).2.1 hc; rwa [weight_preferOr] at hlt
  · have hlt := weight_lt_of_fits (match_fits hmatch).2.1 hc; rwa [weight_preferOr] at hlt
  · have hlt := weight_lt_of_fits (match_fits hmatch).2 hc1; rwa [weight_preferOr] at hlt
  · have hlt := weight_lt_of_fits_right (match_fits hmatch).2 hc2; rwa [weight_preferOr] at hlt

def maxSignedBitLength (e : Expression O) : Except (Fatal O) Nat :=
  checkEqualInt1 "max_signed_bit_length" (maxSignedBitLengthDirect e) (maxSignedBitLength' e) e

/-- The hand-written `ignore_low_bit_int`. -/
def ignoreLowBitIntDirect : Expression O → Expression O
  | cop .caddi [cop .clsl [x, cconstInt n], cconstInt one] =>
    if one = 1 && (0 : OcamlInt).slt n && isDefinedShift n then
      ignoreLowBitIntDirect (cop .clsl [x, cconstInt n])
    else cop .caddi [cop .clsl [x, cconstInt n], cconstInt one]
  | cop .cor [c, cconstInt one] =>
    if one = 1 then ignoreLowBitIntDirect c else cop .cor [c, cconstInt one]
  | cop .clsl [cop .clsr [c, cconstInt one], cconstInt one'] =>
    if one = 1 && one' = 1 then ignoreLowBitIntDirect c
    else cop .clsl [cop .clsr [c, cconstInt one], cconstInt one']
  | cop .clsl [cop .casr [c, cconstInt one], cconstInt one'] =>
    if one = 1 && one' = 1 then ignoreLowBitIntDirect c
    else cop .clsl [cop .casr [c, cconstInt one], cconstInt one']
  | c => c
termination_by e => e.weight
decreasing_by all_goals simp only [weight, weightList]; omega

/-- `ignore_low_bit_int` by the engine. -/
def ignoreLowBitInt' (arg : Expression O) : Except (Fatal O) (Expression O) :=
  run arg [⟨.guarded (.binop .add (.as c (.binop .lsl (.any c1) (.constInt n))) (.constIntFixed 1))
        fun env => do pure ((0 : OcamlInt).slt (← env.int n) && isDefinedShift (← env.int n)),
      fun env hmatch =>
        env.withExpr c fun e hc => ignoreLowBitInt' e⟩,
     ⟨.binop .or (.any c) (.constIntFixed 1), fun env hmatch =>
        env.withExpr c fun e hc => ignoreLowBitInt' e⟩,
     ⟨.binop .lsl (.binop .lsr (.any c) (.constIntFixed 1)) (.constIntFixed 1), fun env hmatch =>
        env.withExpr c fun e hc => ignoreLowBitInt' e⟩,
     ⟨.binop .lsl (.binop .asr (.any c) (.constIntFixed 1)) (.constIntFixed 1), fun env hmatch =>
        env.withExpr c fun e hc => ignoreLowBitInt' e⟩]
termination_by arg.weight
decreasing_by
  · obtain ⟨_, _, _, heq, -, ⟨hv, -⟩, -⟩ := (match_fits hmatch).2.1
    exact weight_lt_of_core heq (weight_of_fits_any hv hc)
  · exact weight_lt_of_fits (match_fits hmatch).2 hc
  · obtain ⟨_, _, _, heq, -, hf, -⟩ := (match_fits hmatch).2
    exact Nat.lt_trans (weight_lt_of_fits hf hc) (weight_lt_of_core heq rfl)
  · obtain ⟨_, _, _, heq, -, hf, -⟩ := (match_fits hmatch).2
    exact Nat.lt_trans (weight_lt_of_fits hf hc) (weight_lt_of_core heq rfl)

def ignoreLowBitInt (e : Expression O) : Except (Fatal O) (Expression O) :=
  checkEqual1 "ignore_low_bit_int" (pure (ignoreLowBitIntDirect e)) (ignoreLowBitInt' e)

theorem checkEqual1_ok {name : String} {r rEngine : Except (Fatal O) (Expression O)}
    (h : checkEqual1 name r rEngine = .ok e) : r = .ok e ∨ rEngine = .ok e := by
  obtain ⟨r, hr, h⟩ := bind_ok h
  obtain ⟨rEngine, hEngine, h⟩ := bind_ok h
  split at h
  · cases h; exact .inl hr
  split at h
  · cases h; exact .inr hEngine
  · cases h

/-- What one rule of `ignore_low_bit_int` strips, up to debugging constructs. -/
inductive LowBitStep (e : Expression O) : Expression O → Prop
  | add {e₁ x k kn n t} : core e = cop .caddi [e₁, k] → core k = cconstInt 1 →
    core e₁ = cop .clsl [x, kn] → core kn = cconstInt n → (0 : OcamlInt).slt n = true →
    isDefinedShift n = true → core t = core e₁ → LowBitStep e t
  | or {e₁ k t} : core e = cop .cor [e₁, k] → core k = cconstInt 1 → core t = core e₁ →
    LowBitStep e t
  | shift {op e₁ e₂ k k' t} : op = .clsr ∨ op = .casr → core e = cop .clsl [e₁, k] →
    core k = cconstInt 1 → core e₁ = cop op [e₂, k'] → core k' = cconstInt 1 →
    core t = core e₂ → LowBitStep e t

/-- What both versions of `ignore_low_bit_int` do. -/
inductive IgnoresLowBit : Expression O → Expression O → Prop
  | done e : IgnoresLowBit e e
  | step {e t r} : LowBitStep e t → IgnoresLowBit t r → IgnoresLowBit e r
  | phantom {e r} v exp : IgnoresLowBit e r → IgnoresLowBit e (cphantomLet v exp r)

omit [DecidableEq O] in
theorem eq_core_of_fits {e' : Expression O}
    (h : Fits env (.any v) e) (he : env.expr v = .ok e') : e' = core e := by
  rw [Fits, expr_eq.1 he, Option.some.injEq] at h
  exact h

omit [DecidableEq O] in
theorem eq_of_core_weight (h : core t = core e) : t.weight = e.weight := by
  rw [← weight_core t, h, weight_core]

omit [DecidableEq O] in
theorem LowBitStep.weight_lt (h : LowBitStep e t) : t.weight < e.weight := by
  cases h with
  | add he _ _ _ _ _ ht | or he _ ht => exact weight_lt_of_core he (eq_of_core_weight ht)
  | shift _ he _ he₁ _ ht =>
    exact Nat.lt_trans (weight_lt_of_core he₁ (eq_of_core_weight ht)) (weight_lt_of_core he rfl)

variable {e r : Expression O}

omit [DecidableEq O] in
theorem IgnoresLowBit.weight_le (h : IgnoresLowBit e r) : r.weight ≤ e.weight := by
  induction h with
  | done e => exact Nat.le_refl _
  | step hstep _ ih => exact Nat.le_trans ih (Nat.le_of_lt hstep.weight_lt)
  | phantom v exp _ ih => rw [weight]; exact ih

omit [DecidableEq O] in
theorem IgnoresLowBit.placePhantomLets (h : IgnoresLowBit e r)
    (env : Env O) : IgnoresLowBit e (env.placePhantomLets r) := by
  rw [Env.placePhantomLets]
  induction env.phantomLetsRev generalizing r with
  | nil => exact h
  | cons p ps ih => exact ih (h.phantom p.1 p.2)

omit [DecidableEq O] in
theorem ignoresLowBit_direct (e : Expression O) : IgnoresLowBit e (ignoreLowBitIntDirect e) := by
  fun_induction ignoreLowBitIntDirect e with
  | case1 x n one h ih =>
    simp only [Bool.and_eq_true, decide_eq_true_eq] at h
    obtain ⟨⟨rfl, hn⟩, hdef⟩ := h
    exact .step (.add rfl rfl rfl rfl hn hdef rfl) ih
  | case3 c ih => exact .step (.or rfl rfl rfl) ih
  | case5 c one one' h ih =>
    simp only [Bool.and_eq_true, decide_eq_true_eq] at h
    obtain ⟨rfl, rfl⟩ := h
    exact .step (.shift (.inl rfl) rfl rfl rfl rfl rfl) ih
  | case7 c one one' h ih =>
    simp only [Bool.and_eq_true, decide_eq_true_eq] at h
    obtain ⟨rfl, rfl⟩ := h
    exact .step (.shift (.inr rfl) rfl rfl rfl rfl rfl) ih
  | _ => exact .done _

omit [DecidableEq O] in
theorem ignoreLowBitInt'_ok (h : ignoreLowBitInt' e = .ok r) :
    r = e ∨ ∃ (env : Env O) (e₁ r₁ : Expression O), LowBitStep e e₁ ∧
      ignoreLowBitInt' e₁ = .ok r₁ ∧ r = env.placePhantomLets r₁ := by
  rw [ignoreLowBitInt'] at h
  rcases matchClausesInOrder_ok h with rfl | ⟨clause, hmem, env, hmatch, a, ha, rfl⟩
  · exact .inl rfl
  refine .inr ⟨env, ?_⟩
  simp only [List.mem_cons, List.not_mem_nil, or_false] at hmem
  rcases hmem with rfl | rfl | rfl | rfl
  all_goals
    obtain ⟨e₁, he₁, ha⟩ := withExpr_ok ha
    refine ⟨e₁, a, ?_, ha, rfl⟩
  · obtain ⟨hfits, env', hext, hguard⟩ := (match_fits hmatch).2
    obtain ⟨e2, k, he, ⟨hv, hfits⟩, hk⟩ := fits_binop rfl hfits
    obtain ⟨x, kn, he2, -, n', hkn, hn'⟩ := fits_binop rfl hfits
    obtain ⟨n'', hn'', hguard⟩ := bind_ok hguard
    obtain rfl : n'' = n' := by
      have h := hext.ints _ _ (int_eq.1 hn'')
      rw [hn'] at h
      exact (Option.some.inj h).symm
    obtain ⟨n₃, hn₃, hguard⟩ := bind_ok hguard
    cases hn''.symm.trans hn₃
    rw [eq_core_of_fits hv he₁]
    have hguard : ((0 : OcamlInt).slt n'' && isDefinedShift n'') = true := Except.ok.inj hguard
    rw [Bool.and_eq_true] at hguard
    exact .add he hk he2 hkn hguard.1 hguard.2 (core_core _)
  · obtain ⟨e2, k, he, hv, hk⟩ := fits_binop rfl (match_fits hmatch).2
    rw [eq_core_of_fits hv he₁]
    exact .or he hk (core_core _)
  · obtain ⟨e2, k, he, hfits, hk⟩ := fits_binop rfl (match_fits hmatch).2
    obtain ⟨e3, k', he2, hv, hk'⟩ := fits_binop rfl hfits
    rw [eq_core_of_fits hv he₁]
    exact .shift (.inl rfl) he hk he2 hk' (core_core _)
  obtain ⟨e2, k, he, hfits, hk⟩ := fits_binop rfl (match_fits hmatch).2
  obtain ⟨e3, k', he2, hv, hk'⟩ := fits_binop rfl hfits
  rw [eq_core_of_fits hv he₁]
  exact .shift (.inr rfl) he hk he2 hk' (core_core _)

omit [DecidableEq O] in
theorem ignoresLowBit_engine (h : ignoreLowBitInt' e = .ok r) : IgnoresLowBit e r := by
  induction hw : e.weight using Nat.strongRecOn generalizing e r with | ind w ih =>
subst hw
rcases ignoreLowBitInt'_ok h with rfl | ⟨env, t, r₁, hstep, h₁, rfl⟩
· exact .done _
· exact (IgnoresLowBit.step hstep (ih _ hstep.weight_lt h₁ rfl)).placePhantomLets env

theorem ignoresLowBit (h : ignoreLowBitInt e = .ok r) : IgnoresLowBit e r := by
  rcases checkEqual1_ok h with h | h
  · cases h; exact ignoresLowBit_direct e
  · exact ignoresLowBit_engine h

/-! ## §4 Bitwise operations -/

def getConst : Expression O → Option Nativeint
  | cconstInt i => some (ofInt i)
  | cconstNatint i => some i
  | _ => none

/-- Evaluates `x` for its effects only. -/
def replace (x with_ : Expression O) : Expression O :=
  match x with
  | cconstInt _ => with_
  | cconstNatint _ => with_
  | cconstSymbol _ => with_
  | cvar _ => with_
  | ctuple [] => with_
  | inner => csequence inner with_

def xorConst (e : Expression O) (n : Nativeint) : Except (Fatal O) (Expression O) :=
  if n = 0 then pure e
  else
    mapTail1 e fun e he =>
      match getConst e with
      | some k => pure (natintConstUntagged (k ^^^ n))
      | none =>
        match hc : e with
        | cop .cxor [x, y] =>
          match getConst y with
          | none => pure (cop .cxor [e, natintConstUntagged n])
          | some y => xorConst x (y ^^^ n)
        | _ => pure (cop .cxor [e, natintConstUntagged n])
termination_by e.weight
decreasing_by simp only [weight, weightList] at he; omega

/-- The default of `or_const`. -/
def orConstDefault (e : Expression O) (n : Nativeint) : Except (Fatal O) (Expression O) := do
  let e ← if n &&& 1 = 1 then ignoreLowBitInt e else pure e
  pure (cop .cor [e, natintConstUntagged n])

def orConst (e : Expression O) (n : Nativeint) : Except (Fatal O) (Expression O) :=
  if n = 0 then pure e
  else if n = -1 then pure (replace e (cconstInt (-1)))
  else
    mapTail1 e fun e he =>
      match getConst e with
      | some k => pure (natintConstUntagged (k ||| n))
      | none =>
        match hc : e with
        | cop .cor [x, y] =>
          match getConst y with
          | none => orConstDefault e n
          | some y => orConst x (y ||| n)
        | _ => orConstDefault e n
termination_by e.weight
decreasing_by simp only [weight, weightList] at he; omega

/-- The default of `and_const`. -/
def andConstDefault (e : Expression O) (n : Nativeint) : Except (Fatal O) (Expression O) := do
  let e ← if n &&& 1 = 0 then ignoreLowBitInt e else pure e
  pure (cop .cand [e, natintConstUntagged n])

/-- The load that a mask makes unsigned. -/
def unsignedChunk (memoryChunk : MemoryChunk) (n : Nativeint) : Option MemoryChunk :=
  match memoryChunk with
  | .byteSigned | .byteUnsigned => if n = 0xff then some .byteUnsigned else none
  | .sixteenSigned | .sixteenUnsigned => if n = 0xffff then some .sixteenUnsigned else none
  | .thirtytwoSigned | .thirtytwoUnsigned =>
    if n = 0xffffffff then some .thirtytwoUnsigned else none
  | _ => none

def andConst (e : Expression O) (n : Nativeint) : Except (Fatal O) (Expression O) :=
  if n = 0 then pure (replace e (cconstInt 0))
  else if n = -1 then pure e
  else
    mapTail1 e fun e he =>
      match getConst e with
      | some k => pure (natintConstUntagged (k &&& n))
      | none =>
        match hc : e with
        | cop .cand [x, y] =>
          match getConst y with
          | some y => andConst x (y &&& n)
          | none => andConstDefault e n
        | cop (.cload memoryChunk mutability isAtomic) args =>
          match unsignedChunk memoryChunk n with
          | some chunk => pure (cop (.cload chunk mutability isAtomic) args)
          | none => andConstDefault e n
        | _ => andConstDefault e n
termination_by e.weight
decreasing_by simp only [weight, weightList] at he; omega

/-- The pattern that `xor_int`, `or_int` and `and_int` share. -/
def bitwiseInt (op : Operation O) (f : Nativeint → Nativeint → Nativeint)
    (const : Expression O → Nativeint → Except (Fatal O) (Expression O))
    (c1 c2 : Expression O) : Except (Fatal O) (Expression O) :=
  mapTail2 c1 c2 fun c1 _ c2 _ =>
    match getConst c1, getConst c2 with
    | some k1, some k2 => pure (natintConstUntagged (f k1 k2))
    | none, some k2 => const c1 k2
    | some k1, none => const c2 k1
    | none, none => pure (cop op [c1, c2])

def xorInt (c1 c2 : Expression O) : Except (Fatal O) (Expression O) :=
  bitwiseInt .cxor (· ^^^ ·) xorConst c1 c2

def orInt (c1 c2 : Expression O) : Except (Fatal O) (Expression O) :=
  bitwiseInt .cor (· ||| ·) orConst c1 c2

def andInt (c1 c2 : Expression O) : Except (Fatal O) (Expression O) :=
  bitwiseInt .cand (· &&& ·) andConst c1 c2

/-! ## §5 Shifts -/

/-- Prefers putting the constant shift on the outside, to help enable further
peephole optimizations. -/
def shiftOutside (op : Operation O) (c1 c2 : Expression O) : Expression O :=
  match c1 with
  | cop op' [x, cconstInt n'] =>
    if op' = op && isDefinedShift n' then cop op [cop op [x, c2], cconstInt n']
    else cop op [c1, c2]
  | _ => cop op [c1, c2]

def lsrInt (c1 c2 : Expression O) : Except (Fatal O) (Expression O) :=
  mapTail2 c1 c2 fun c1 h1 c2 _ =>
    match c2 with
    | cconstInt n =>
      if n = 0 then pure c1
      else if isDefinedShift n then
        match hi : ignoreLowBitInt c1 with
        | .error err => .error err
        | .ok c1 =>
        match getConst c1 with
        | some x => pure (natintConstUntagged (x >>> n.toNat))
        | none =>
          match hc : preferOr c1 with
          | cop .clsr [inner, cconstInt n'] =>
            if isDefinedShift n' then
              if isDefinedShift (n + n') then lsrInt inner (cconstInt (n + n'))
              else pure (replace inner (cconstInt 0))
            else pure (cop .clsr [c1, c2])
          | cop .cor [x, y] =>
            match getConst y with
            | some k =>
              if k >>> n.toNat = 0 then lsrInt x c2 else pure (cop .clsr [c1, c2])
            | none => pure (cop .clsr [c1, c2])
          | cop .cxor [x, y] =>
            match getConst y with
            | some k =>
              if k >>> n.toNat = 0 then lsrInt x c2 else pure (cop .clsr [c1, c2])
            | none => pure (cop .clsr [c1, c2])
          | cop .cand [x, y] =>
            match getConst y with
            | some k =>
              if k.sshiftRight n.toNat = 0 then pure (replace x (cconstInt 0))
              else pure (cop .clsr [c1, c2])
            | none => pure (cop .clsr [c1, c2])
          | _ => pure (cop .clsr [c1, c2])
      else pure (shiftOutside .clsr c1 c2)
    | _ => pure (shiftOutside .clsr c1 c2)
termination_by c1.weight
decreasing_by
  all_goals
    have hw := weight_preferOr c1
    have hle := (ignoresLowBit hi).weight_le
    simp only [hc, weight, weightList] at hw ⊢
    omega

def lsrConst (c : Expression O) (n : OcamlInt) : Except (Fatal O) (Expression O) :=
  lsrInt c (cconstInt n)

def lslInt (c1 c2 : Expression O) : Except (Fatal O) (Expression O) :=
  mapTail2 c1 c2 fun c1 h1 c2 _ =>
    match c2 with
    | cconstInt n =>
      if n = 0 then pure c1
      else if isDefinedShift n then
        match getConst c1 with
        | some x => pure (natintConstUntagged (x <<< n.toNat))
        | none =>
          match hc : c1 with
          | cop .clsl [inner, cconstInt n'] =>
            if isDefinedShift n' then
              if isDefinedShift (n + n') then lslInt inner (cconstInt (n + n'))
              else pure (replace inner (cconstInt 0))
            else pure (cop .clsl [c1, c2])
          | cop .caddi [c, cconstInt offset] =>
            if noOverflowLsl offset n then do
              addConst (← lslInt c c2) (offset <<< n.toNat)
            else pure (cop .clsl [c1, c2])
          | cop .cor [x, y] =>
            match getConst y with
            | some k =>
              if k <<< n.toNat = 0 then lslInt x c2 else pure (cop .clsl [c1, c2])
            | none => pure (cop .clsl [c1, c2])
          | cop .cxor [x, y] =>
            match getConst y with
            | some k =>
              if k <<< n.toNat = 0 then lslInt x c2 else pure (cop .clsl [c1, c2])
            | none => pure (cop .clsl [c1, c2])
          | cop .cand [x, y] =>
            match getConst y with
            | some k =>
              if k <<< n.toNat = 0 then pure (replace x (cconstInt 0))
              else pure (cop .clsl [c1, c2])
            | none => pure (cop .clsl [c1, c2])
          | _ => pure (cop .clsl [c1, c2])
      else pure (shiftOutside .clsl c1 c2)
    | _ => pure (shiftOutside .clsl c1 c2)
termination_by c1.weight
decreasing_by all_goals simp only [weight, weightList] at h1; omega

def lslConst (c : Expression O) (n : OcamlInt) : Except (Fatal O) (Expression O) :=
  lslInt c (cconstInt n)

def asrInt (c1 c2 : Expression O) : Except (Fatal O) (Expression O) :=
  mapTail2 c1 c2 fun c1 h1 c2 _ =>
    match c2 with
    | cconstInt n =>
      if n = 0 then pure c1
      else if isDefinedShift n then
        match hi : ignoreLowBitInt c1 with
        | .error err => .error err
        | .ok c1 =>
        match getConst c1 with
        | some x => pure (natintConstUntagged (x.sshiftRight n.toNat))
        | none =>
          match hc : preferOr c1 with
          | cop .casr [inner, cconstInt n'] =>
            -- saturating add, since the sign bit extends to the left
            if isDefinedShift n' then
              asrInt inner (cconstInt (if (n + n').sle 63 then n + n' else 63))
            else pure (cop .casr [c1, c2])
          | cop .clsr [inner, cconstInt n'] =>
            -- the sign bit is 0, so a logical shift does
            if (0 : OcamlInt).slt n' && isDefinedShift n' then lsrConst c1 n
            else pure (cop .casr [c1, c2])
          | cop .clsl [c, cconstInt x] =>
            if isDefinedShift x then do
              if (← maxSignedBitLength c) + x.toNat < archBits then
                if n.slt x then lslConst c (x - n) else asrInt c (cconstInt (n - x))
              else pure (cop .casr [c1, c2])
            else pure (cop .casr [c1, c2])
          | cop .cor [x, y] =>
            match getConst y with
            | some k =>
              if k.sshiftRight n.toNat = 0 then asrInt x c2
              else if k.sshiftRight n.toNat = -1 then pure (replace x (cconstInt (-1)))
              else pure (cop .casr [c1, c2])
            | none => pure (cop .casr [c1, c2])
          | cop .cxor [x, y] =>
            match getConst y with
            | some k =>
              if k.sshiftRight n.toNat = 0 then asrInt x c2 else pure (cop .casr [c1, c2])
            | none => pure (cop .casr [c1, c2])
          | cop .cand [x, y] =>
            match getConst y with
            | some k =>
              if k.sshiftRight n.toNat = -1 then asrInt x c2
              else if k.sshiftRight n.toNat = 0 then pure (replace x (cconstInt 0))
              else pure (cop .casr [c1, c2])
            | none => pure (cop .casr [c1, c2])
          | _ => pure (cop .casr [c1, c2])
      else pure (shiftOutside .casr c1 c2)
    | _ => pure (shiftOutside .casr c1 c2)
termination_by c1.weight
decreasing_by
  all_goals
    have hw := weight_preferOr c1
    have hle := (ignoresLowBit hi).weight_le
    simp only [hc, weight, weightList] at hw ⊢
    omega

def asrConst (c : Expression O) (n : OcamlInt) : Except (Fatal O) (Expression O) :=
  asrInt c (cconstInt n)

def lslConst0 (c : Expression O) (n : OcamlInt) : Expression O := cop .clsl [c, cconstInt n]

/-! ## §6 Products -/

def isPower2 (n : OcamlInt) : Bool := n == (1 : OcamlInt) <<< log2 n.toInt

def multPower2 (c : Expression O) (n : OcamlInt) : Except (Fatal O) (Expression O) :=
  lslInt c (cconstInt (BitVec.ofNat 63 (log2 n.toInt)))

/-- The pattern `Cconst_int (n, _)` for a given `n`. -/
def isConstInt (n : OcamlInt) : Expression O → Bool
  | cconstInt m => m == n
  | _ => false

/-- The pattern `Cconst_int (n, _) when is_power2 n`. -/
def constPower2 : Expression O → Option OcamlInt
  | cconstInt n => if isPower2 n then some n else none
  | _ => none

def mulInt (c1 c2 : Expression O) : Except (Fatal O) (Expression O) :=
  if isConstInt 0 c2 then pure (csequence c1 (cconstInt 0))
  else if isConstInt 0 c1 then pure (csequence c2 (cconstInt 0))
  else if isConstInt 1 c2 then pure c1
  else if isConstInt 1 c1 then pure c2
  else if isConstInt (-1) c2 then subInt (cconstInt 0) c1
  else if isConstInt (-1) c1 then subInt (cconstInt 0) c2
  else
    match constPower2 c2, constPower2 c1 with
    | some n, _ => multPower2 c1 n
    | none, some n => multPower2 c2 n
    | none, none =>
      match c1, c2 with
      | cop .caddi [c, cconstInt n], cconstInt k =>
        if noOverflowMul n k then do addConst (← mulInt c (cconstInt k)) (n * k)
        else pure (cop .cmuli [c1, c2])
      | cconstInt k, cop .caddi [c, cconstInt n] =>
        if noOverflowMul n k then do addConst (← mulInt c (cconstInt k)) (n * k)
        else pure (cop .cmuli [c1, c2])
      | c1, c2 => pure (cop .cmuli [c1, c2])
termination_by c1.weight + c2.weight
decreasing_by all_goals simp only [weight, weightList]; omega

end Oxcaml.Backend.CmmHelpers
