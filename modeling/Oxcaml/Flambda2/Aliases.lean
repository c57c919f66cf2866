/-
Oxcaml.Flambda2.Aliases — the alias tracker of
`middle_end/flambda2/types/env/aliases.ml`.

Every element that is not canonical is bound to its canonical element with the
coercion to it, and every canonical element to its aliases, by name mode.

Names and constants are arbitrary ordered types, and the maps are
`Std.ExtTreeMap`s, folded over in increasing order. Coercions are `Labels`;
`compose_exn` fails when a composition is not defined. A `Simple` is a constant or a
name with a coercion, and has no coercion when that is the identity. `Env` is what
the functions are told about names: `Name.is_symbol`, `Name.compilation_unit`,
`binding_times_and_modes` and `binding_time_resolver`. `light` is
`Flambda_features.check_light_invariants`; the heavy checks are off. Fatal errors
and failed assertions are the constructors of `Exn`.
-/
import Oxcaml.Lib.Orders
import Oxcaml.Lib.LabelledClasses
import Mathlib.Order.Lattice

set_option linter.all false

namespace Oxcaml.Flambda2.Aliases

open Lib (Labels)
open Lib.Labels (unit inverse compose)

/-! ## §1 Simples and names -/

inductive Exn
  | composition
  | cannotApplyCoercion
  | alreadyHasCoercion
  | inconsistentCoercions
  | alreadyAdded
  | selfAlias
  | cannotAliasToItself
  | cannotDemoteConstant
  | discoveredBottom
  | assertFailure
  deriving DecidableEq

inductive OrBottom (α : Type)
  | bottom
  | ok (a : α)

inductive NameMode
  | normal
  | phantom
  | inTypes
  deriving DecidableEq

def NameMode.rank : NameMode → Nat
  | normal => 2
  | phantom => 1
  | inTypes => 0

instance : LinearOrder NameMode := LinearOrder.lift' NameMode.rank fun a b h => by
  cases a <;> cases b <;> first | rfl | cases h

inductive Simple (ν κ C : Type)
  | const (c : κ)
  | name (n : ν) (coercion : C)
  deriving DecidableEq

variable {ν κ C U : Type} [LinearOrder ν] [LinearOrder κ] [DecidableEq C] [Labels C] [LinearOrder U]

def assert (b : Bool) : Except Exn Unit := if b then pure () else throw .assertFailure

def composeExn (c thenC : C) : Except Exn C :=
  match compose c thenC with
  | some c' => pure c'
  | none => throw .composition

namespace Simple

def isConst : Simple ν κ C → Bool
  | const _ => true
  | name _ _ => false

def coercion : Simple ν κ C → C
  | const _ => unit
  | name _ c => c

def hasCoercion (t : Simple ν κ C) : Bool := !decide (t.coercion = unit)

def withoutCoercion : Simple ν κ C → Simple ν κ C
  | const c => const c
  | name n _ => name n unit

def withCoercion (t : Simple ν κ C) (newCoercion : C) : Except Exn (Simple ν κ C) :=
  if newCoercion = unit ∨ t.isConst then pure t
  else if t.coercion = unit then
    match t with
    | const c => pure (const c)
    | name n _ => pure (name n newCoercion)
  else throw .alreadyHasCoercion

def applyCoercionExn (t : Simple ν κ C) (appliedCoercion : C) : Except Exn (Simple ν κ C) :=
  if appliedCoercion = unit ∨ t.isConst then pure t
  else
    match compose t.coercion appliedCoercion with
    | some c => t.withoutCoercion.withCoercion c
    | none => throw .cannotApplyCoercion

end Simple

/-- A binding time, and a name mode. -/
abbrev BindingTimeAndMode := Nat × NameMode

namespace BindingTime

def consts : BindingTimeAndMode := (0, .normal)

def symbols : BindingTimeAndMode := (1, .normal)

def importedVariables : BindingTimeAndMode := (2, .inTypes)

end BindingTime

structure Env (ν U : Type) where
  isSymbol : ν → Bool
  compilationUnit : ν → U
  bindingTimesAndModes : ν → Option BindingTimeAndMode
  bindingTimeResolver : ν → BindingTimeAndMode

namespace Env

variable (env : Env ν U)

def bindingTime (n : ν) : Nat :=
  match env.bindingTimesAndModes n with
  | none => BindingTime.importedVariables.1
  | some bindingTimeAndMode => bindingTimeAndMode.1

def nameDefinedEarlier (alias' than : ν) : Bool :=
  if alias' = than ∨ (env.isSymbol alias' ∧ env.isSymbol than) then false
  else if env.isSymbol alias' ∧ ¬ env.isSymbol than then true
  else if env.isSymbol than ∧ ¬ env.isSymbol alias' then false
  else if env.bindingTime alias' < env.bindingTime than then true
  else if env.bindingTime alias' ≠ env.bindingTime than then false
  else if env.compilationUnit alias' < env.compilationUnit than then true
  else if env.compilationUnit than < env.compilationUnit alias' then false
  else decide ((env.bindingTimeResolver alias').1 < (env.bindingTimeResolver than).1)

def definedEarlier (alias' than : Simple ν κ C) : Bool :=
  match than, alias' with
  | .const _, _ => false
  | .name _ _, .const _ => true
  | .name than _, .name alias' _ => env.nameDefinedEarlier alias' than

def bindingTimeAndNameMode : Simple ν κ C → BindingTimeAndMode
  | .const _ => BindingTime.consts
  | .name n _ =>
    if env.isSymbol n then BindingTime.symbols
    else
      match env.bindingTimesAndModes n with
      | some bindingTimeAndMode => bindingTimeAndMode
      | none => BindingTime.importedVariables

def computeNameModeUnscoped (elt : Simple ν κ C) : NameMode := (env.bindingTimeAndNameMode elt).2

end Env

/-! ## §2 Aliases of one element -/

/-- `Map_to_canonical.t`: elements with their coercion to the canonical element. -/
abbrev MapToCanonical (ν C : Type) [LinearOrder ν] := Std.ExtTreeMap ν C

namespace MapToCanonical

def mapValues (f : C → Except Exn C) (map : MapToCanonical ν C) : Except Exn (MapToCanonical ν C) :=
  map.toList.foldlM (fun acc p => do pure (acc.insert p.1 (← f p.2))) ∅

def composeMapValuesExn (map : MapToCanonical ν C) (coercion : C) :
    Except Exn (MapToCanonical ν C) :=
  if coercion = unit then pure map else mapValues (fun old => composeExn old coercion) map

def union (map1 map2 : MapToCanonical ν C) : Except Exn (MapToCanonical ν C) :=
  map2.toList.foldlM (fun acc p =>
    match acc[p.1]? with
    | none => pure (acc.insert p.1 p.2)
    | some coercion1 => if coercion1 = p.2 then pure acc else throw .inconsistentCoercions) map1

end MapToCanonical

structure AliasesOfCanonicalElement (ν C : Type) [LinearOrder ν] where
  aliases : Std.ExtTreeMap NameMode (MapToCanonical ν C)
  all : MapToCanonical ν C

variable (light : Bool)

namespace AliasesOfCanonicalElement

def empty : AliasesOfCanonicalElement ν C := ⟨∅, ∅⟩

def mem (t : AliasesOfCanonicalElement ν C) (elt : ν) : Bool := t.all.contains elt

def add (t : AliasesOfCanonicalElement ν C) (elt : ν) (coercionToCanonical : C)
    (nameMode : NameMode) : Except Exn (AliasesOfCanonicalElement ν C) :=
  if t.mem elt then throw .alreadyAdded
  else do
    let elts ← match t.aliases[nameMode]? with
      | none => pure ((∅ : MapToCanonical ν C).insert elt coercionToCanonical)
      | some elts => do
        if light then assert (!elts.contains elt)
        pure (elts.insert elt coercionToCanonical)
    pure ⟨t.aliases.insert nameMode elts, t.all.insert elt coercionToCanonical⟩

def union (t1 t2 : AliasesOfCanonicalElement ν C) :
    Except Exn (AliasesOfCanonicalElement ν C) := do
  let aliases ← t2.aliases.toList.foldlM (fun acc p =>
    match acc[p.1]? with
    | none => pure (acc.insert p.1 p.2)
    | some elts1 => do pure (acc.insert p.1 (← MapToCanonical.union elts1 p.2))) t1.aliases
  pure ⟨aliases, ← MapToCanonical.union t1.all t2.all⟩

def compose (t : AliasesOfCanonicalElement ν C) (thenC : C) :
    Except Exn (AliasesOfCanonicalElement ν C) := do
  let f := MapToCanonical.mapValues (ν := ν) (composeExn · thenC)
  let aliases ← t.aliases.toList.foldlM (fun acc p => do pure (acc.insert p.1 (← f p.2))) ∅
  pure ⟨aliases, ← f t.all⟩

end AliasesOfCanonicalElement

/-! ## §3 The tracker -/

structure T (ν κ C : Type) [LinearOrder ν] [LinearOrder κ] where
  canonicalElements : Std.ExtTreeMap ν (Simple ν κ C × C)
  aliasesOfCanonicalNames : Std.ExtTreeMap ν (AliasesOfCanonicalElement ν C)
  aliasesOfConsts : Std.ExtTreeMap κ (AliasesOfCanonicalElement ν C)

def empty : T ν κ C := ⟨∅, ∅, ∅⟩

inductive Canonical (ν κ C : Type)
  | isCanonical
  | aliasOfCanonical (canonicalElement : Simple ν κ C) (coercionToCanonical : C)

def canonical (t : T ν κ C) (element : Simple ν κ C) : Except Exn (Canonical ν κ C) :=
  match element with
  | .const _ => pure .isCanonical
  | .name n coercionFromBare =>
    match t.canonicalElements[n]? with
    | none => pure .isCanonical
    | some (canonicalElement, coercionFromBareToCanonical) => do
      let coercion ← composeExn (inverse coercionFromBare) coercionFromBareToCanonical
      pure (.aliasOfCanonical canonicalElement coercion)

def getAliasesOfCanonicalElement (t : T ν κ C) (canonicalElement : Simple ν κ C) :
    Except Exn (AliasesOfCanonicalElement ν C) := do
  assert (!canonicalElement.hasCoercion)
  match canonicalElement with
  | .name n _ => pure ((t.aliasesOfCanonicalNames[n]?).getD .empty)
  | .const c => pure ((t.aliasesOfConsts[c]?).getD .empty)

/-- The assertions of `add_alias_between_canonical_elements` that are made with
`check_light_invariants`. -/
def checkCanonicalNotAlias (canonicalElement : Simple ν κ C)
    (aliasesOfToBeDemoted : AliasesOfCanonicalElement ν C) : Except Exn Unit :=
  if light then
    match canonicalElement with
    | .const _ => pure ()
    | .name n coercion => do
      assert (decide (coercion = unit))
      assert (!aliasesOfToBeDemoted.mem n)
  else pure ()

variable (env : Env ν U)

def addAliasBetweenCanonicalElements (t : T ν κ C) (canonicalElement : Simple ν κ C)
    (coercionToCanonical : C) (toBeDemoted : Simple ν κ C) : Except Exn (OrBottom (T ν κ C)) :=
  if canonicalElement = toBeDemoted then
    if coercionToCanonical = unit then pure (.ok t) else throw .selfAlias
  else do
    assert (!toBeDemoted.hasCoercion)
    match toBeDemoted with
    | .const _ => pure .bottom
    | .name nameToBeDemoted _ =>
      let aliasesOfToBeDemoted ← getAliasesOfCanonicalElement t toBeDemoted
      checkCanonicalNotAlias light canonicalElement aliasesOfToBeDemoted
      let moved ← aliasesOfToBeDemoted.all.toList.foldlM (fun acc p => do
        let coercion ← composeExn p.2 coercionToCanonical
        pure (acc.insert p.1 (canonicalElement, coercion))) t.canonicalElements
      let canonicalElements := moved.insert nameToBeDemoted (canonicalElement, coercionToCanonical)
      let aliasesOfCanonicalElement ← getAliasesOfCanonicalElement t canonicalElement
      let composed ← aliasesOfToBeDemoted.compose coercionToCanonical
      let united ← composed.union aliasesOfCanonicalElement
      let aliases ← united.add light nameToBeDemoted coercionToCanonical
        (env.computeNameModeUnscoped toBeDemoted)
      let aliasesOfCanonicalNames := t.aliasesOfCanonicalNames.erase nameToBeDemoted
      assert (!canonicalElement.hasCoercion)
      match canonicalElement with
      | .name n _ =>
        pure (.ok ⟨canonicalElements, aliasesOfCanonicalNames.insert n aliases, t.aliasesOfConsts⟩)
      | .const c =>
        pure (.ok ⟨canonicalElements, aliasesOfCanonicalNames, t.aliasesOfConsts.insert c aliases⟩)

inductive ToBeDemoted
  | demoteCanonicalElement1
  | demoteCanonicalElement2

def chooseCanonicalElementToBeDemoted (canonicalElement1 canonicalElement2 : Simple ν κ C) :
    ToBeDemoted :=
  if env.definedEarlier canonicalElement1 canonicalElement2 then .demoteCanonicalElement2
  else .demoteCanonicalElement1

def addAlias (t : T ν κ C) (canonicalElement1 : Simple ν κ C)
    (coercionFrom2To1 : C) (canonicalElement2 : Simple ν κ C) :
    Except Exn (OrBottom (T ν κ C × ToBeDemoted)) := do
  assert (!canonicalElement1.hasCoercion)
  assert (!canonicalElement2.hasCoercion)
  let whichElement := chooseCanonicalElementToBeDemoted env canonicalElement1 canonicalElement2
  let result ← match whichElement with
    | .demoteCanonicalElement1 =>
      addAliasBetweenCanonicalElements light env t canonicalElement2 (inverse coercionFrom2To1)
        canonicalElement1
    | .demoteCanonicalElement2 =>
      addAliasBetweenCanonicalElements light env t canonicalElement1 coercionFrom2To1
        canonicalElement2
  match result with
  | .bottom => pure .bottom
  | .ok t => pure (.ok (t, whichElement))

def add0 (t : T ν κ C) (element1 element2 : Simple ν κ C) :
    Except Exn (OrBottom (T ν κ C × ToBeDemoted)) := do
  let canonicalElement1 := element1.withoutCoercion
  let canonicalElement2 := element2.withoutCoercion
  let coercionFrom2To1 ← composeExn element2.coercion (inverse element1.coercion)
  if light ∧ canonicalElement1 = canonicalElement2 then throw .cannotAliasToItself
  addAlias light env t canonicalElement1 coercionFrom2To1 canonicalElement2

structure AddResult (ν κ C : Type) [LinearOrder ν] [LinearOrder κ] where
  t : T ν κ C
  demotedName : ν
  canonicalElement : Simple ν κ C

def add (t : T ν κ C) (canonicalElement1 canonicalElement2 : Simple ν κ C) :
    Except Exn (OrBottom (AddResult ν κ C)) := do
  match ← add0 light env t canonicalElement1 canonicalElement2 with
  | .bottom => pure .bottom
  | .ok (t, whichElement) =>
    let (canonicalElement, aliasOfDemotedElement) := match whichElement with
      | .demoteCanonicalElement1 => (canonicalElement2, canonicalElement1)
      | .demoteCanonicalElement2 => (canonicalElement1, canonicalElement2)
    match aliasOfDemotedElement with
    | .const _ => throw .cannotDemoteConstant
    | .name n coercion =>
      let canonicalElement ← canonicalElement.applyCoercionExn (inverse coercion)
      pure (.ok ⟨t, n, canonicalElement⟩)

/-! ## §4 Alias sets -/

structure AliasSet (ν κ C : Type) [LinearOrder ν] where
  const : Option κ
  names : MapToCanonical ν C

def createAliasesOfElement (canonicalElement : Simple ν κ C)
    (coercionFromCanonicalToElement : C) (aliasNamesWithCoercionsToElement : MapToCanonical ν C) :
    Except Exn (AliasSet ν κ C) :=
  match canonicalElement with
  | .const c => pure ⟨some c, aliasNamesWithCoercionsToElement⟩
  | .name n coercion => do
    assert (decide (coercion = unit))
    pure ⟨none, aliasNamesWithCoercionsToElement.insert n coercionFromCanonicalToElement⟩

def getAliases (t : T ν κ C) (element : Simple ν κ C) : Except Exn (AliasSet ν κ C) := do
  match ← canonical t element with
  | .isCanonical =>
    let canonicalElement := element.withoutCoercion
    assert (!canonicalElement.hasCoercion)
    let aliases ← getAliasesOfCanonicalElement t canonicalElement
    let names ← MapToCanonical.composeMapValuesExn aliases.all element.coercion
    createAliasesOfElement canonicalElement element.coercion names
  | .aliasOfCanonical canonicalElement coercionFromElementToCanonical =>
    assert (!canonicalElement.hasCoercion)
    assert (!decide (element.withoutCoercion = canonicalElement))
    let aliases ← getAliasesOfCanonicalElement t canonicalElement
    let coercionFromCanonicalToElement := inverse coercionFromElementToCanonical
    let names ← MapToCanonical.composeMapValuesExn aliases.all coercionFromCanonicalToElement
    createAliasesOfElement canonicalElement coercionFromCanonicalToElement names

def getCanonicalIgnoringNameMode (t : T ν κ C) (n : ν) : Except Exn (Simple ν κ C) := do
  let elt : Simple ν κ C := .name n unit
  match ← canonical t elt with
  | .isCanonical => pure elt
  | .aliasOfCanonical canonicalElement coercionToCanonical =>
    canonicalElement.applyCoercionExn (inverse coercionToCanonical)

/-- The local `add_alias` of `add_alias_set`. -/
def addToAliasSet (acc : T ν κ C × Simple ν κ C) (elt : Simple ν κ C) :
    Except Exn (T ν κ C × Simple ν κ C) :=
  if acc.2.withoutCoercion = elt.withoutCoercion then pure acc
  else do
    match ← add0 light env acc.1 acc.2 elt with
    | .bottom => throw .discoveredBottom
    | .ok (t, whichElement) =>
      match whichElement with
      | .demoteCanonicalElement1 => pure (t, elt)
      | .demoteCanonicalElement2 => pure (t, acc.2)

def addAliasSet (t : T ν κ C) (n : ν) (aliases : AliasSet ν κ C) : Except Exn (T ν κ C) := do
  let canonical ← getCanonicalIgnoringNameMode t n
  let acc ← match aliases.const with
    | none => pure (t, canonical)
    | some c => addToAliasSet light env (t, canonical) (.const c)
  let result ← aliases.names.toList.foldlM (fun acc p => do
    let elt ← getCanonicalIgnoringNameMode acc.1 p.1
    addToAliasSet light env acc (← elt.applyCoercionExn p.2)) acc
  pure result.1

end Oxcaml.Flambda2.Aliases
