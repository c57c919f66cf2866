/-
Oxcaml.Backend.ZeroAllocUnit — the summaries of a compilation unit, in
`backend/zero_alloc_checker.ml`: `Unit_info`, `Unresolved_dependencies` and, of
`Analysis`, `find_callee`, `fixpoint`, `propagate`, `check_fun` and `record_unit`.

The summary of a function is symbolic: it can mention functions that are not
resolved yet. `Symbolic` is what these functions use of symbolic values (module `V`
of the source), so that they can be read with any implementation of them.
`String.Set`s are `Finset`s, gone through in increasing order, and the tables are
`Std.ExtTreeMap`s. The body of a function is a function of `find_callee`. Debug
information and reports are left out. `fixpoint` and `propagate` have fuel.
-/
import Oxcaml.Backend.ZeroAllocDomainTheorems
import Mathlib.Data.Finset.Sort

set_option linter.all false

namespace Oxcaml.Backend.ZeroAlloc

/-! ## §1 Values -/

inductive Tag
  | n
  | e
  | d
  deriving DecidableEq

/-- A variable is a component of the summary of a function. -/
abbrev Var (ν : Type) := ν × Tag

/-- The values without variables, with the witnesses of `Top`. -/
inductive Resolved (ω : Type)
  | bot
  | safe
  | top (w : Witnesses ω)
  deriving DecidableEq

namespace Resolved

variable {ω : Type} [DecidableEq ω]

def join : Resolved ω → Resolved ω → Resolved ω
  | top w1, top w2 => top (w1 ∪ w2)
  | top w, _ => top w
  | _, top w => top w
  | safe, _ => safe
  | _, safe => safe
  | bot, bot => bot

attribute [local grind =] join

def lessequal : Resolved ω → Resolved ω → Bool
  | top w1, top w2 => decide (w1 ⊆ w2)
  | top _, _ => false
  | safe, bot => false
  | _, _ => true

def level : Resolved ω → Level
  | bot => .bot
  | safe => .safe
  | top _ => .top

end Resolved

/-- The operations on symbolic values. -/
class Symbolic (V : Type) (ν ω : outParam Type) where
  ofResolved : Resolved ω → V
  /-- `match_with`. -/
  toResolved : V → Option (Resolved ω)
  unresolved : Witnesses ω → Var ν → V
  join : V → V → V
  lessequal : V → V → Bool
  replaceWitnesses : Witnesses ω → V → V
  getUnresolvedNames : V → Finset ν
  apply : V → (Var ν → Option V) → V

inductive ExnUnit
  | notFound
  | assertFailure
  | duplicateSymbol
  | missingCallee
  | missingCaller
  | unresolvedValue
  | outOfFuel
  deriving DecidableEq

def assertUnit (b : Bool) : Except ExnUnit Unit :=
  if b then pure () else throw .assertFailure

variable {V ν ω : Type} [LinearOrder ν] [DecidableEq ω] [Symbolic V ν ω]

/-- A value for the normal return, the exceptional return and for divergence. -/
structure Value (V : Type) where
  nor : V
  exn : V
  div : V

namespace Value

open Symbolic

def bot : Value V := ⟨ofResolved .bot, ofResolved .bot, ofResolved .bot⟩

def safe : Value V := ⟨ofResolved .safe, ofResolved .safe, ofResolved .safe⟩

def top (w : Witnesses ω) : Value V :=
    ⟨ofResolved (.top w), ofResolved (.top w), ofResolved (.top w)⟩

def relaxed (w : Witnesses ω) : Value V :=
  ⟨ofResolved .safe, ofResolved (.top w), ofResolved (.top w)⟩

def diverges : Value V := { (bot : Value V) with div := ofResolved .safe }

/-- `of_annotation`. -/
def ofAnnot (strict neverReturnsNormally neverRaises : Bool) : Value V :=
  let res : Value V := if strict then safe else relaxed ∅
  let res := if neverRaises then { res with exn := ofResolved .bot } else res
  if neverReturnsNormally then { res with nor := ofResolved .bot } else res

def lessequal (v1 v2 : Value V) : Bool :=
  Symbolic.lessequal v1.nor v2.nor && Symbolic.lessequal v1.exn v2.exn &&
    Symbolic.lessequal v1.div v2.div

def join (v1 v2 : Value V) : Value V :=
  ⟨Symbolic.join v1.nor v2.nor, Symbolic.join v1.exn v2.exn, Symbolic.join v1.div v2.div⟩

def unresolved (name : ν) (w : Witnesses ω) : Value V :=
  ⟨Symbolic.unresolved w (name, .n), Symbolic.unresolved w (name, .e),
    Symbolic.unresolved w (name, .d)⟩

def isResolved (t : Value V) : Bool :=
  (toResolved t.nor).isSome && (toResolved t.exn).isSome && (toResolved t.div).isSome

def getUnresolvedNames (t : Value V) : Finset ν :=
  Symbolic.getUnresolvedNames t.nor ∪
    (Symbolic.getUnresolvedNames t.exn ∪ Symbolic.getUnresolvedNames t.div)

def getComponent (t : Value V) : Tag → V
  | .n => t.nor
  | .e => t.exn
  | .d => t.div

def apply (t : Value V) (env : Var ν → Option V) : Value V :=
  ⟨Symbolic.apply t.nor env, Symbolic.apply t.exn env, Symbolic.apply t.div env⟩

def replaceWitnesses (w : Witnesses ω) (t : Value V) : Value V :=
  ⟨Symbolic.replaceWitnesses w t.nor, Symbolic.replaceWitnesses w t.exn,
    Symbolic.replaceWitnesses w t.div⟩

end Value

/-- `Annotation.t`. -/
structure Annot where
  strict : Bool
  assume : Bool
  neverReturnsNormally : Bool
  neverRaises : Bool

namespace Annot

def expectedValue (a : Annot) : Value V :=
  Value.ofAnnot a.strict a.neverReturnsNormally a.neverRaises

def valid (a : Annot) (v : Value V) : Bool :=
  (v.replaceWitnesses ∅).lessequal a.expectedValue

end Annot

/-! ## §2 Tables -/

structure FuncInfo (V ν : Type) where
  name : ν
  value : Value V
  annot : Option Annot

/-- `Unit_info.t`. -/
abbrev UnitInfo (V ν : Type) [LinearOrder ν] := Std.ExtTreeMap ν (FuncInfo V ν)

namespace UnitInfo

def findExn (t : UnitInfo V ν) (name : ν) : Except ExnUnit (FuncInfo V ν) :=
  match t[name]? with
  | some info => pure info
  | none => throw .notFound

def record (t : UnitInfo V ν) (name : ν) (value : Value V) (annot : Option Annot) :
    Except ExnUnit (UnitInfo V ν) :=
  match t[name]? with
  | some _ => throw .duplicateSymbol
  | none => pure (t.insert name ⟨name, value, annot⟩)

/-- `Func_info.update`, of an entry of the table. -/
def update (t : UnitInfo V ν) (info : FuncInfo V ν) (value : Value V) : UnitInfo V ν :=
  t.insert info.name { info with value := value }

end UnitInfo

/-- `Unresolved_dependencies.t`: the callers of a callee. -/
abbrev UnresolvedDependencies (ν : Type) [LinearOrder ν] := Std.ExtTreeMap ν (Finset ν)

namespace UnresolvedDependencies

def contains (callee : ν) (t : UnresolvedDependencies ν) : Bool := Std.ExtTreeMap.contains t callee

def getCallers (callee : ν) (t : UnresolvedDependencies ν) : Except ExnUnit (Finset ν) :=
  match t[callee]? with
  | some callers => pure callers
  | none => throw .notFound

def remove (callee : ν) (t : UnresolvedDependencies ν) :
    Except ExnUnit (UnresolvedDependencies ν) := do
  assertUnit (contains callee t)
  t.toList.forM fun p => assertUnit (!decide (callee ∈ p.2))
  pure (t.erase callee)

def addOne (caller : ν) (t : UnresolvedDependencies ν) (callee : ν) :
    Except ExnUnit (UnresolvedDependencies ν) := do
  let callers ← match t[callee]? with
    | none => pure {caller}
    | some callers => do
      assertUnit (!decide (caller ∈ callers))
      pure (insert caller callers)
  pure (t.insert callee callers)

def add (t : UnresolvedDependencies ν) (caller : ν) (callees : Finset ν) :
    Except ExnUnit (UnresolvedDependencies ν) :=
  (callees.sort (· ≤ ·)).foldlM (addOne caller) t

/-- The check of `update` that a callee is present. -/
def checkCallee (t : UnresolvedDependencies ν) (caller callee : ν) : Except ExnUnit Unit :=
  match t[callee]? with
  | none => throw .missingCallee
  | some callers => if caller ∈ callers then pure () else throw .missingCaller

/-- The local `remove` of `update`. -/
def removeCaller (caller : ν) (callees : Finset ν) (callee : ν) (callers : Finset ν) :
    Option (Finset ν) :=
  if callee ∈ callees then some callers
  else
    let newCallers := callers.erase caller
    if newCallers = ∅ then none else some newCallers

def update (t : UnresolvedDependencies ν) (caller : ν) (callees : Finset ν) :
    Except ExnUnit (UnresolvedDependencies ν) := do
  (callees.sort (· ≤ ·)).forM (checkCallee t caller)
  pure (t.filterMap (removeCaller caller callees))

end UnresolvedDependencies

structure State (V ν : Type) [LinearOrder ν] where
  unitInfo : UnitInfo V ν
  unresolvedDeps : UnresolvedDependencies ν

/-! ## §3 Callees -/

inductive Hint
  | noHint
  | conservative
  | missingSummary

/-- The flags, and what is known of other units. -/
structure UnitConfig (ν : Type) where
  disablePrecise : Bool
  disableChecker : Bool
  enabled : Bool
  keepWitnesses : Option Annot → Bool
  isCamlInternal : ν → Bool
  /-- `Zero_alloc_info`, decoded. -/
  cachedZeroAllocInfo : ν → Option (Level × Level × Level)

/-- `Compilenv_utils.decode`. -/
def decode : Level → V
  | .top => Symbolic.ofResolved (.top ∅)
  | .safe => Symbolic.ofResolved .safe
  | .bot => Symbolic.ofResolved .bot

def getValueOpt (config : UnitConfig ν) (callee : ν) : Option (Value V) :=
  (config.cachedZeroAllocInfo callee).map fun d => ⟨decode d.1, decode d.2.1, decode d.2.2⟩

/-- The function that is checked. -/
structure Context (V ν : Type) [LinearOrder ν] where
  config : UnitConfig ν
  currentFunName : ν
  futureFuncnames : Finset ν
  unitInfo : UnitInfo V ν
  keepWitnesses : Bool

def createWitnesses (t : Context V ν) (k : Hint → ω) (hint : Hint) : Witnesses ω :=
  if t.keepWitnesses then {k hint} else ∅

/-- The value of a callee. The assertion that a resolved value is resolved is not here: the values
of other units are decoded, and those of this unit have been asked. -/
def findCallee (t : Context V ν) (callee : ν) (k : Hint → ω) : Value V :=
  let unresolved := Value.unresolved callee (createWitnesses t k .noHint)
  let resolved (v : Value V) := v.replaceWitnesses (createWitnesses t k .noHint)
  let returnTop (hint : Hint) : Value V := Value.top (createWitnesses t k hint)
  if callee ∈ t.futureFuncnames then
    if t.config.disablePrecise then returnTop .conservative
    else if callee = t.currentFunName then unresolved
    else unresolved
  else
    match t.unitInfo[callee]? with
    | none =>
      match getValueOpt t.config callee with
      | none =>
        if t.config.isCamlInternal callee then returnTop .noHint else returnTop .missingSummary
      | some v => resolved v
    | some calleeInfo => if calleeInfo.value.isResolved then resolved calleeInfo.value
      else unresolved

/-- A function of the unit: its body makes a summary of the values of its callees, and mentions
only the functions that these mention. -/
structure Fundecl (V ν ω : Type) [LinearOrder ν] [Symbolic V ν ω] where
  name : ν
  annot : Option Annot
  checkBody : (ν → (Hint → ω) → Value V) → Value V
  names : ∀ findCallee n, n ∈ (checkBody findCallee).getUnresolvedNames →
    ∃ callee k, n ∈ (findCallee callee k).getUnresolvedNames

/-! ## §4 Fixpoints -/

/-- The entries of `Env.t`. -/
structure EnvData (V ν : Type) where
  funcInfo : FuncInfo V ν
  approx : Value V

abbrev FixEnv (V ν : Type) [LinearOrder ν] := Std.ExtTreeMap ν (EnvData V ν)

namespace FixEnv

def add (funcInfo : FuncInfo V ν) (approx : Value V) (t : FixEnv V ν) :
    Except ExnUnit (FixEnv V ν) := do
  assertUnit approx.isResolved
  pure (t.insert funcInfo.name ⟨funcInfo, approx⟩)

def initVal : Value V := Value.diverges

def lookup (env : FixEnv V ν) (var : Var ν) : Option V :=
  (env[var.1]?).map fun d => d.approx.getComponent var.2

end FixEnv

/-- `Value.apply` with a lookup that fails for a function without an entry. -/
def applyExn (value : Value V) (env : FixEnv V ν) : Except ExnUnit (Value V) :=
  if ∀ n ∈ value.getUnresolvedNames, (env[n]?).isSome then pure (value.apply env.lookup)
  else throw .notFound

/-- The new approximation of an entry. -/
def stepApprox (env : FixEnv V ν) (d : EnvData V ν) : Value V :=
  d.approx.join (d.funcInfo.value.apply env.lookup)

/-- The effects of one round: its assertions, and whether something has changed. -/
def checkRound (env : FixEnv V ν) : Except ExnUnit Bool :=
  env.toList.foldlM (fun changed p => do
    let v' ← applyExn p.2.funcInfo.value env
    assertUnit v'.isResolved
    assertUnit (stepApprox env p.2).isResolved
    pure (changed || !v'.lessequal p.2.approx)) false

def loop : ℕ → FixEnv V ν → Except ExnUnit (FixEnv V ν)
  | 0, _ => throw .outOfFuel
  | fuel + 1, env => do
    let changed ← checkRound env
    let env' := env.map fun _ d => { d with approx := stepApprox env d }
    if changed then loop fuel env' else pure env'

def fixpoint (fuel : ℕ) (initEnv : FixEnv V ν) (unitInfo : UnitInfo V ν) :
    Except ExnUnit (UnitInfo V ν) := do
  let env ← loop fuel initEnv
  env.toList.foldlM (fun unitInfo p => do
    assertUnit p.2.approx.isResolved
    pure (unitInfo.update p.2.funcInfo p.2.approx)) unitInfo

def fixpointSelfRec (fuel : ℕ) (funcInfo : FuncInfo V ν) (unitInfo : UnitInfo V ν) :
    Except ExnUnit (UnitInfo V ν × Finset ν) :=
  let unresolvedCallees := funcInfo.value.getUnresolvedNames
  if unresolvedCallees = ∅ ∨ unresolvedCallees ≠ {funcInfo.name} then
    pure (unitInfo, unresolvedCallees)
  else do
    let initEnv ← FixEnv.add funcInfo FixEnv.initVal ∅
    pure (← fixpoint fuel initEnv unitInfo, ∅)

/-! ## §5 Checking a unit -/

/-- The lookup of `propagate`: the components of one resolved function. -/
def calleeLookup (calleeInfo : FuncInfo V ν) (callee : ν) (var : Var ν) : Option V :=
  if var.1 = callee then some (calleeInfo.value.getComponent var.2) else none

/-- The resolved callee goes into one caller. -/
def resolveCaller (fuel : ℕ) (calleeInfo : FuncInfo V ν) (callee : ν) (s : State V ν)
    (caller : ν) : Except ExnUnit (State V ν) := do
  let callerInfo ← s.unitInfo.findExn caller
  let newValue := callerInfo.value.apply (calleeLookup calleeInfo callee)
  let unitInfo := s.unitInfo.update callerInfo newValue
  let (unitInfo, unresolvedCallees) ←
    fixpointSelfRec fuel { callerInfo with value := newValue } unitInfo
  let unresolvedDeps ← s.unresolvedDeps.update callerInfo.name unresolvedCallees
  pure ⟨unitInfo, unresolvedDeps⟩

def propagate : ℕ → ν → State V ν → Except ExnUnit (State V ν)
  | 0, _, _ => throw .outOfFuel
  | fuel + 1, callee, s => do
    let calleeInfo ← s.unitInfo.findExn callee
    if calleeInfo.value.isResolved && s.unresolvedDeps.contains callee then do
      let callers ← s.unresolvedDeps.getCallers callee
      assertUnit (!decide (callers = ∅))
      let unresolvedDeps ← s.unresolvedDeps.remove callee
      let s ← (callers.sort (· ≤ ·)).foldlM (resolveCaller fuel calleeInfo callee)
        { s with unresolvedDeps := unresolvedDeps }
      (callers.sort (· ≤ ·)).foldlM (fun s caller => propagate fuel caller s) s
    else pure s

def addUnresolvedDependencies (fuel : ℕ) (caller : ν) (s : State V ν) :
    Except ExnUnit (State V ν) := do
  let callerInfo ← s.unitInfo.findExn caller
  let (unitInfo, unresolvedCallees) ← fixpointSelfRec fuel callerInfo s.unitInfo
  let unresolvedDeps ← if unresolvedCallees = ∅ then pure s.unresolvedDeps
    else s.unresolvedDeps.add caller unresolvedCallees
  propagate fuel caller ⟨unitInfo, unresolvedDeps⟩

/-- The value that `check_fun` records. -/
def summary (config : UnitConfig ν) (futureFuncnames : Finset ν) (unitInfo : UnitInfo V ν)
    (f : Fundecl V ν ω) : Value V :=
  let t : Context V ν :=
    ⟨config, f.name, futureFuncnames, unitInfo, config.keepWitnesses f.annot⟩
  match f.annot with
  | some a =>
    if a.assume then a.expectedValue
    else if config.disableChecker then Value.top ∅ else f.checkBody (findCallee t)
  | none => if config.disableChecker then Value.top ∅ else f.checkBody (findCallee t)

/-- Is the function assumed, or the checker disabled? -/
def bypasses (config : UnitConfig ν) (f : Fundecl V ν ω) : Bool :=
  (match f.annot with | some a => a.assume | none => false) || config.disableChecker

/-- The annotation that is recorded; an assumed function has none. -/
def recordedAnnot (f : Fundecl V ν ω) : Option Annot :=
  match f.annot with
  | some a => if a.assume then none else some a
  | none => none

def checkFun (fuel : ℕ) (config : UnitConfig ν) (futureFuncnames : Finset ν) (f : Fundecl V ν ω)
    (s : State V ν) : Except ExnUnit (State V ν) := do
  let unitInfo ← s.unitInfo.record f.name (summary config futureFuncnames s.unitInfo f)
    (recordedAnnot f)
  if bypasses config f then pure { s with unitInfo := unitInfo }
  else addUnresolvedDependencies fuel f.name { s with unitInfo := unitInfo }

/-- The environment that `record_unit` starts from, and whether a function is unresolved. -/
def initEnv (unitInfo : UnitInfo V ν) : Except ExnUnit (FixEnv V ν × Bool) :=
  unitInfo.toList.foldlM (fun acc p =>
    if p.2.value.isResolved then do pure (← acc.1.add p.2 p.2.value, acc.2)
    else do pure (← acc.1.add p.2 FixEnv.initVal, true)) (∅, false)

/-- `Compilenv_utils.encode` has a fatal error for a value that is not resolved. The result has
the functions that do not satisfy their annotation, the errors of `Report.Fail`. -/
def checkAndSaveUnitInfo (config : UnitConfig ν) (unitInfo : UnitInfo V ν) :
    Except ExnUnit (List ν) :=
  unitInfo.toList.foldlM (fun errors p => do
    let failed := match p.2.annot with
      | none => false
      | some a => !a.assume && config.enabled && !a.valid p.2.value
    if p.2.value.isResolved then pure (if failed then p.1 :: errors else errors)
    else throw .unresolvedValue) []

/-- The summaries at the end of the unit, and the functions that fail their check. -/
def recordUnit (fuel : ℕ) (config : UnitConfig ν) (s : State V ν) :
    Except ExnUnit (UnitInfo V ν × List ν) := do
  let (initEnv, foundUnresolved) ← initEnv s.unitInfo
  let unitInfo ← if foundUnresolved then fixpoint fuel initEnv s.unitInfo
    else do
      assertUnit (Std.ExtTreeMap.isEmpty s.unresolvedDeps)
      pure s.unitInfo
  pure (unitInfo, ← checkAndSaveUnitInfo config unitInfo)

end Oxcaml.Backend.ZeroAlloc
