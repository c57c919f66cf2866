/-
Oxcaml.Flambda2.CodeAgeRelation — which code ids are newer versions of which,
`types/env/code_age_relation.ml` of `middle_end/flambda2`.

The compilation unit of a code id, the current unit and the resolver are in a context. A
resolver that raises an exception is a fatal error of the source and is left out. The walk
along the older versions takes fuel, since the source loops on a cyclic relation.
-/
import Oxcaml.Lib.Orders
import Mathlib.Data.Finset.Sort

namespace Oxcaml.Flambda2.CodeAgeRelation

inductive Exn
  | outOfFuel
deriving DecidableEq

inductive OrUnknown (α : Type)
  | known (a : α)
  | unknown
deriving DecidableEq

inductive OrBottom (α : Type)
  | ok (a : α)
  | bottom
deriving DecidableEq

inductive OrUnknownOrBottom (α : Type)
  | ok (a : α)
  | unknown
  | bottom
deriving DecidableEq

/-- `Code_age_relation.t`: a binding of `id1` to `id2` says that `id1` is a newer version of
`id2`. -/
abbrev T (ι : Type) [LinearOrder ι] := Std.ExtTreeMap ι ι

variable {ι υ : Type} [LinearOrder ι] [DecidableEq υ]

def empty : T ι := ∅

def getOlderVersionOf (t : T ι) (codeId : ι) : Option ι := t[codeId]?

def add (t : T ι) (newer older : ι) : T ι := t.insert newer older

/-- `Code_id.Set.filter`, for a test that may fail. -/
def filterSet (p : ι → Except Exn Bool) (ids : Finset ι) : Except Exn (Finset ι) :=
  (ids.sort (· ≤ ·)).foldlM
    (fun kept id => do
      let keep ← p id
      pure (if keep then insert id kept else kept)) ∅

/-- What the functions read besides their arguments. -/
structure Context (ι υ : Type) [LinearOrder ι] where
  getCompilationUnit : ι → υ
  current : υ
  resolver : υ → Option (T ι)

variable (c : Context ι υ)

def hasOlderVersionIn : ℕ → T ι → ι → Finset ι → Except Exn (OrUnknown Bool)
  | 0, _, _, _ => .error .outOfFuel
  | fuel + 1, t, id, candidates =>
    if id ∈ candidates then pure (.known true)
    else match t[id]? with
      | none =>
        let compUnit := c.getCompilationUnit id
        if compUnit = c.current then pure (.known false)
        else match c.resolver compUnit with
          | none => pure .unknown
          | some t =>
            match t[id]? with
            | none => pure (.known false)
            | some older => hasOlderVersionIn fuel t older candidates
      | some older => hasOlderVersionIn fuel t older candidates

def shouldKeepId (fuel : ℕ) (t : T ι) (otherIds : Finset ι) (id : ι) : Except Exn Bool := do
  match ← hasOlderVersionIn c fuel t id otherIds with
  | .known hasOlderVersionInOtherIds => pure hasOlderVersionInOtherIds
  | .unknown => pure true

def meetSet (fuel : ℕ) (t : T ι) (ids1 ids2 : Finset ι) : Except Exn (OrBottom (Finset ι)) :=
  if ids1 = ids2 then pure (.ok ids1)
  else do
    let kept2 ← filterSet (shouldKeepId c fuel t ids1) ids2
    let kept1 ← filterSet (shouldKeepId c fuel t ids2) ids1
    let ids := kept2 ∪ kept1
    pure (if ids = ∅ then .bottom else .ok ids)

def meet (fuel : ℕ) (t : T ι) (id1 id2 : ι) : Except Exn (OrUnknownOrBottom ι) :=
  if id1 = id2 then pure (.ok id1)
  else do
    let older2 ← hasOlderVersionIn c fuel t id2 {id1}
    let older1 ← hasOlderVersionIn c fuel t id1 {id2}
    match older2, older1 with
    | .known true, _ => pure (.ok id2)
    | _, .known true => pure (.ok id1)
    | .known false, .known false => pure .bottom
    | .unknown, _ => pure .unknown
    | _, .unknown => pure .unknown

end Oxcaml.Flambda2.CodeAgeRelation
