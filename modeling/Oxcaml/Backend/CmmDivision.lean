/-
Oxcaml.Backend.CmmDivision — integer division of `backend/cmm_helpers.ml`.

Division by a constant becomes a multiplication by a rounded reciprocal and a
shift. `divimm_parameters` and `udivimm_parameters` search for the reciprocal
with 64-bit arithmetic; their loops have fuel here, and `none` is an assertion
that fails or fuel that runs out.

`bind` names a dividend that is not an atom. The identifiers it creates are
arguments of the helpers (`fresh` and `fresh + 1`), and raising is one of the
machine operations.
-/
import Oxcaml.Backend.CmmHelpers

set_option linter.all false

namespace Oxcaml.Backend.CmmHelpers

open BitVec (intMin ofNat)

open Expression

/-! ## §1 Reciprocals -/

def udivmod (n d : Nativeint) : Nativeint × Nativeint :=
  let q := n.udiv d
  (q, n - q * d)

/-- `Nativeint.abs`. -/
def abs (d : Nativeint) : Nativeint := if (0 : Nativeint).sle d then d else -d

/-- The local `step` of `divimm_parameters`. -/
def divimmStep (qr : Nativeint × Nativeint) (x : Nativeint) : Nativeint × Nativeint :=
  let q := qr.1 <<< 1
  let r := qr.2 <<< 1
  if x.ule r then (q + 1, r - x) else (q, r)

/-- The local `loop` of `divimm_parameters`. -/
def divimmLoop (d ad anc : Nativeint) :
    Nat → Nat → Nativeint × Nativeint → Nativeint × Nativeint → Option (Nativeint × Nat)
  | 0, _, _, _ => none
  | fuel + 1, p, qr1, qr2 =>
    let p := p + 1
    let qr1 := divimmStep qr1 anc
    let qr2 := divimmStep qr2 ad
    let delta := ad - qr2.2
    if qr1.1.ult delta || (qr1.1 == delta && qr1.2 == 0) then divimmLoop d ad anc fuel p qr1 qr2
    else
      let m := qr2.1 + 1
      let m := if d.slt 0 then -m else m
      some (m, p - 64)

def divimmParameters (d : Nativeint) : Option (Nativeint × Nat) :=
  let ad := abs d
  if (1 : Nativeint).slt ad then
    let t := intMin 64 + d >>> 63
    let anc := (t - 1) - t.umod ad
    divimmLoop d ad anc 128 63 (udivmod (intMin 64) anc) (udivmod (intMin 64) ad)
  else none

/-- The local `loop` of `udivimm_parameters`. -/
def udivimmLoop (d nc : Nativeint) :
    Nat → Nat → Bool → Nativeint × Nativeint → Nativeint × Nativeint →
      Option (Nativeint × Bool × Nat)
  | 0, _, _, _, _ => none
  | fuel + 1, p, a, (q1, r1), (q2, r2) =>
    let p := p + 1
    let qr1 :=
      if (nc - r1).ule r1 then ((q1 <<< 1) + 1, (r1 <<< 1) - nc) else (q1 <<< 1, r1 <<< 1)
    let aqr2 :=
      if (d - r2).ule (r2 + 1) then
        (if (BitVec.intMax 64).ule q2 then true else a, (q2 <<< 1) + 1, ((r2 <<< 1) + 1) - d)
      else (if (intMin 64).ule q2 then true else a, q2 <<< 1, (r2 <<< 1) + 1)
    let delta := (d - 1) - aqr2.2.2
    if p < 128 && (qr1.1.ult delta || (qr1.1 == delta && qr1.2 == 0)) then
      udivimmLoop d nc fuel p aqr2.1 qr1 aqr2.2
    else some (aqr2.2.1 + 1, aqr2.1, p - 64)

def udivimmParameters (d : Nativeint) : Option (Nativeint × Bool × Nat) :=
  let nc := -1 - (-d).umod d
  udivimmLoop d nc 128 63 false (udivmod (intMin 64) nc) (udivmod (BitVec.intMax 64) d)

/-! ## §2 Operators -/

variable {O : Type} [DecidableEq O]

/-- Local binding of complex expressions. -/
def bind (id : BackendVar) (arg : Expression O)
    (fn : Expression O → Except (Fatal O) (Expression O)) : Except (Fatal O) (Expression O) :=
  match arg with
  | cvar v => fn (cvar v)
  | cconstInt n => fn (cconstInt n)
  | cconstNatint n => fn (cconstNatint n)
  | cconstSymbol sym => fn (cconstSymbol sym)
  | arg => do
    let body ← fn (cvar id)
    pure (clet id arg body)

/-- What the target and the type of operations provide. -/
structure Target (O : Type) where
  /-- `Arch.division_crashes_on_overflow`. -/
  divisionCrashesOnOverflow : Bool
  /-- `Craise Raise_regular`. -/
  craiseRegular : O

def globalSymbol (symName : String) : Symbol := ⟨symName, true⟩

def raiseSymbol (target : Target O) (symb : String) : Expression O :=
  cop (.other target.craiseRegular) [cconstSymbol (globalSymbol symb)]

/-- Division or modulo on registers. The overflow case `min_int / -1` can occur,
in which case we force `x / -1 = -x` and `x mod -1 = 0`. -/
def makeSafeDivmod (target : Target O) (fresh : BackendVar) (operator : Operation O)
    (ifDivisorIsNegativeOne : Expression O → Except (Fatal O) (Expression O))
    (dividendCannotBeMinInt : Bool) (c1 c2 : Expression O) :
    Except (Fatal O) (Expression O) :=
  if dividendCannotBeMinInt || !target.divisionCrashesOnOverflow then pure (cop operator [c1, c2])
  else
    bind fresh c2 fun c2 =>
      bind (fresh + 1) c1 fun c1 => do
        pure (cifthenelse (cop (.ccmpi .cne) [c2, cconstInt (-1)]) (cop operator [c1, c2])
          (← ifDivisorIsNegativeOne c1))

def isPowerOf2OrZero (n : Nativeint) : Bool := n &&& (n - 1) == 0

/-- `Misc.log2_nativeint`, as an OCaml integer. -/
def log2Nativeint (n : Nativeint) : OcamlInt := ofNat 63 (log2 n.toInt)

def divideByZero (target : Target O) (fresh : BackendVar) (dividend : Expression O) :
    Except (Fatal O) (Expression O) :=
  bind fresh dividend fun _ => pure (raiseSymbol target "caml_exn_Division_by_zero")

/-- The dividend is `n`, an atom, and the divisor none of the special cases. -/
def divByReciprocal (divisor : Nativeint) (n : Expression O) : Except (Fatal O) (Expression O) :=
  match divimmParameters divisor with
  | none => .error .assertFailure
  | some (m, s) => do
    let q := cop (.cmulhi true) [n, natintConstUntagged m]
    let q ← if m.slt 0 && (0 : Nativeint).sle divisor then addInt q n
      else if (0 : Nativeint).sle m && divisor.slt 0 then subInt q n
      else pure q
    let q ← asrConst q (ofNat 63 s)
    let signBit ← lsrConst (if (0 : Nativeint).sle divisor then n else q) 63
    addInt q signBit

/-- `t = c1 + shift-right(shift-right-signed(c1, l - 1), W - l)`. -/
def addRounding (l : OcamlInt) (c1 : Expression O) : Except (Fatal O) (Expression O) :=
  if (1 : OcamlInt).sle l then do
    let t ← asrConst c1 (l - 1)
    let t ← lsrConst t (64 - l)
    addInt c1 t
  else .error .assertFailure

def divInt (target : Target O) (fresh : BackendVar) (dividendCannotBeMinInt : Bool)
    (c1 c2 : Expression O) : Except (Fatal O) (Expression O) :=
  match getConst c1, getConst c2 with
  | n1, some divisor =>
    if divisor = 0 then divideByZero target fresh c1
    else if divisor = 1 then pure c1
    else
      match n1 with
      | some n1 => pure (natintConstUntagged (n1.sdiv divisor))
      | none =>
        if divisor = -1 then negInt c1
        else if divisor = intMin 64 then
          pure (cifthenelse (cop (.ccmpi .ceq) [c1, cconstNatint divisor]) (cconstInt 1)
            (cconstInt 0))
        else if isPowerOf2OrZero divisor then do
          let l := log2Nativeint divisor
          asrConst (← bind fresh c1 (addRounding l)) l
        else bind fresh c1 (divByReciprocal divisor)
  | _, none =>
    makeSafeDivmod target fresh (.cdivi true) negInt dividendCannotBeMinInt c1 c2

/-- The code for a reciprocal `m`, with `a` for the bit of it that does not fit. -/
def mulByReciprocal (n : Expression O) :
    Option (Nativeint × Bool × Nat) → Except (Fatal O) (Expression O)
  | none => .error .assertFailure
  | some (m, a, s) => do
    let q := cop (.cmulhi false) [n, natintConstUntagged m]
    if a then
      let t ← subInt n q
      let t ← lsrConst t 1
      let t ← addInt t q
      lsrConst t (ofNat 63 (s - 1))
    else lsrConst q (ofNat 63 s)

/-- The dividend is `n`, an atom, and the divisor none of the special cases. -/
def unsignedDivByReciprocal (divisor : Nativeint) (n : Expression O) :
    Except (Fatal O) (Expression O) :=
  mulByReciprocal n (udivimmParameters divisor)

def unsignedDivInt (target : Target O) (fresh : BackendVar) (c1 c2 : Expression O) :
    Except (Fatal O) (Expression O) :=
  match getConst c1, getConst c2 with
  | n1, some divisor =>
    if divisor = 0 then divideByZero target fresh c1
    else if divisor = 1 then pure c1
    else
      match n1 with
      | some n1 => pure (natintConstUntagged (n1.udiv divisor))
      | none =>
        if divisor = -1 then
          pure (cifthenelse (cop (.ccmpi .ceq) [c1, cconstNatint (-1)]) (cconstInt 1) (cconstInt 0))
        else if isPowerOf2OrZero divisor then
          if divisor = intMin 64 then lsrConst c1 63
          else lsrConst c1 (log2Nativeint divisor)
        else bind fresh c1 (unsignedDivByReciprocal divisor)
  | _, none => pure (cop (.cdivi false) [c1, c2])

def modInt (target : Target O) (fresh : BackendVar) (dividendCannotBeMinInt : Bool)
    (c1 c2 : Expression O) : Except (Fatal O) (Expression O) :=
  let ifDivisorIsPositiveOrNegativeOne (id : BackendVar) (dividend : Expression O) :=
    bind id dividend fun _ => pure (cconstInt 0)
  match getConst c1, getConst c2 with
  | n1, some n =>
    if n = 0 then divideByZero target fresh c1
    else if n = 1 || n = -1 then ifDivisorIsPositiveOrNegativeOne fresh c1
    else
      match n1 with
      | some n1 => pure (natintConstUntagged (n1.srem n))
      | none =>
        if n = intMin 64 then
          bind fresh c1 fun c1 =>
            pure (cifthenelse (cop (.ccmpi .ceq) [c1, cconstNatint (intMin 64)])
              (cconstInt 0) c1)
        else if isPowerOf2OrZero n then
          bind fresh c1 fun c1 => do
            let t ← addRounding (log2Nativeint n) c1
            let t := cop .cand [t, cconstNatint (-n)]
            subInt c1 t
        else
          bind fresh c1 fun c1 => do
            subInt c1 (← mulInt (← divInt target (fresh + 1) false c1 c2) c2)
  | _, none =>
    makeSafeDivmod target fresh (.cmodi true) (ifDivisorIsPositiveOrNegativeOne (fresh + 2))
      dividendCannotBeMinInt c1 c2

def unsignedModInt (target : Target O) (fresh : BackendVar) (c1 c2 : Expression O) :
    Except (Fatal O) (Expression O) :=
  match getConst c1, getConst c2 with
  | n1, some divisor =>
    if divisor = 0 then divideByZero target fresh c1
    else if divisor = 1 then bind fresh c1 fun _ => pure (cconstInt 0)
    else
      match n1 with
      | some n1 => pure (natintConstUntagged (n1.umod divisor))
      | none =>
        if divisor = -1 then
          bind fresh c1 fun c1 =>
            pure (cifthenelse (cop (.ccmpi .ceq) [c1, cconstNatint (-1)]) (cconstInt 0) c1)
        else if isPowerOf2OrZero divisor then andConst c1 (divisor - 1)
        else
          bind fresh c1 fun c1 => do
            subInt c1 (← mulInt (← unsignedDivInt target (fresh + 1) c1 c2) c2)
  | _, none => pure (cop (.cmodi false) [c1, c2])

end Oxcaml.Backend.CmmHelpers
