/-
Oxcaml.Flambda2.NameOccurrences — occurrences of names, counted by name mode,
`middle_end/flambda2/nominal/name_occurrences.ml`.

`For_one_name.t` is an integer of a 64-bit host, in which three counters of twenty bits
are packed. The functor `For_one_variety_of_names` is over any ordered type of names;
its maps are `Std.ExtTreeMap`s, folded over in increasing order. An assertion that fails
is an error.
-/
import Oxcaml.Flambda2.Aliases
import Oxcaml.Lib.Outcome

namespace Oxcaml.Flambda2.NameOccurrences

open Aliases (NameMode)

inductive Exn
  | assertFailure
  deriving DecidableEq

/-- `Name_mode.compare_partial_order`. -/
def comparePartialOrder : NameMode → NameMode → Option Int
  | .normal, .normal | .phantom, .phantom | .inTypes, .inTypes => some 0
  | .normal, .phantom | .normal, .inTypes => some 1
  | .phantom, .normal | .inTypes, .normal => some (-1)
  | .phantom, .inTypes => some 1
  | .inTypes, .phantom => some (-1)

/-! ## §1 One name -/

namespace ForOneName

/-- The integers of a 64-bit host. -/
abbrev T := BitVec 63

def numOccurrencesNormal (t : T) : T := t &&& 0xfffff#63

def numOccurrencesInTypes (t : T) : T := (t &&& (0xfffff#63 <<< 20)) >>> 20

def numOccurrencesPhantom (t : T) : T := (t &&& (0xfffff#63 <<< 40)) >>> 40

/-- The assertion `num >= 0 && num <= 0xfffff`. -/
def assertCount (num : T) : Except Exn Unit :=
  if 0 ≤ num.toInt ∧ num.toInt ≤ 0xfffff then pure () else throw .assertFailure

def encodeNormalOccurrences (num : T) : Except Exn T := do
  assertCount num
  pure num

def encodeInTypesOccurrences (num : T) : Except Exn T := do
  assertCount num
  pure (num <<< 20)

def encodePhantomOccurrences (num : T) : Except Exn T := do
  assertCount num
  pure (num <<< 40)

def withoutNormalOccurrences (num : T) : T := num &&& ~~~0xfffff#63

def withoutInTypesOccurrences (num : T) : T := num &&& ~~~(0xfffff#63 <<< 20)

def withoutPhantomOccurrences (num : T) : T := num &&& ~~~(0xfffff#63 <<< 40)

def oneOccurrence : NameMode → Except Exn T
  | .normal => encodeNormalOccurrences 1
  | .inTypes => encodeInTypesOccurrences 1
  | .phantom => encodePhantomOccurrences 1

def add (t : T) : NameMode → Except Exn T
  | .normal => do
    let num ← encodeNormalOccurrences (1 + numOccurrencesNormal t)
    pure (num ||| withoutNormalOccurrences t)
  | .inTypes => do
    let num ← encodeInTypesOccurrences (1 + numOccurrencesInTypes t)
    pure (num ||| withoutInTypesOccurrences t)
  | .phantom => do
    let num ← encodePhantomOccurrences (1 + numOccurrencesPhantom t)
    pure (num ||| withoutPhantomOccurrences t)

def downgradeOccurrencesAtStrictlyGreaterNameMode (t : T) (maxNameMode : NameMode) : Except Exn T :=
  match maxNameMode with
  | .normal => pure t
  | .inTypes => encodeInTypesOccurrences (numOccurrencesInTypes t + numOccurrencesNormal t)
  | .phantom => encodePhantomOccurrences (numOccurrencesPhantom t + numOccurrencesNormal t)

def maxNameModeOpt (t : T) : Option NameMode :=
  if 0 < (numOccurrencesNormal t).toInt then some .normal
  else if 0 < (numOccurrencesInTypes t).toInt then some .inTypes
  else if 0 < (numOccurrencesPhantom t).toInt then some .phantom
  else none

def union (t1 t2 : T) : Except Exn T := do
  let normal ← encodeNormalOccurrences (numOccurrencesNormal t1 + numOccurrencesNormal t2)
  let inTypes ← encodeInTypesOccurrences (numOccurrencesInTypes t1 + numOccurrencesInTypes t2)
  let phantom ← encodePhantomOccurrences (numOccurrencesPhantom t1 + numOccurrencesPhantom t2)
  pure (normal ||| inTypes ||| phantom)

end ForOneName

/-! ## §2 All names -/

/-- `Name_mode.Or_absent.t`. -/
inductive OrAbsent
  | absent
  | present (nameMode : NameMode)
  deriving DecidableEq

variable {ν : Type} [LinearOrder ν]

abbrev T (ν : Type) [LinearOrder ν] := Std.ExtTreeMap ν ForOneName.T

def empty : T ν := ∅

def singleton (name : ν) (nameMode : NameMode) : Except Exn (T ν) := do
  pure (empty.insert name (← ForOneName.oneOccurrence nameMode))

def add (t : T ν) (name : ν) (nameMode : NameMode) : Except Exn (T ν) :=
  match t[name]? with
  | none => do pure (t.insert name (← ForOneName.oneOccurrence nameMode))
  | some forOneName => do pure (t.insert name (← ForOneName.add forOneName nameMode))

/-- `N.Map.union_total`. -/
def union (t1 t2 : T ν) : Except Exn (T ν) :=
  t2.toList.foldlM (fun acc p =>
    match acc[p.1]? with
    | none => pure (acc.insert p.1 p.2)
    | some forOneName1 => do pure (acc.insert p.1 (← ForOneName.union forOneName1 p.2))) t1

/-- `N.Map.map_sharing`. -/
def mapSharing (f : ForOneName.T → Except Exn ForOneName.T) (t : T ν) : Except Exn (T ν) :=
  t.toList.foldlM (fun acc p => do pure (acc.insert p.1 (← f p.2))) ∅

def downgradeOccurrencesAtStrictlyGreaterNameMode (t : T ν) (maxNameMode : NameMode) :
    Except Exn (T ν) :=
  match maxNameMode with
  | .normal => pure t
  | .phantom => mapSharing (ForOneName.downgradeOccurrencesAtStrictlyGreaterNameMode · .phantom) t
  | .inTypes => mapSharing (ForOneName.downgradeOccurrencesAtStrictlyGreaterNameMode · .inTypes) t

def greatestNameMode (t : T ν) (name : ν) : OrAbsent :=
  match t[name]? with
  | none => .absent
  | some forOneName =>
    match ForOneName.maxNameModeOpt forOneName with
    | none => .absent
    | some nameMode => .present nameMode

def foldWithMode {α : Type} (t : T ν) (init : α) (f : α → ν → NameMode → α) : α :=
  t.toList.foldl (fun acc p =>
    match ForOneName.maxNameModeOpt p.2 with
    | some nameMode => f acc p.1 nameMode
    | none => acc) init

end Oxcaml.Flambda2.NameOccurrences
