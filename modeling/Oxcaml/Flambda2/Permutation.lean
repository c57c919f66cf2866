/-
Oxcaml.Flambda2.Permutation — permutations of names and renamings,
`nominal/permutation.ml` and `nominal/renaming.ml` of `middle_end/flambda2`.

The functor `Permutation.Make` is over any ordered type of names; its maps are
`Std.ExtTreeMap`s, folded over in increasing order. Invariants are not checked, as in the
source. Of an import map only the importers of variables and continuations are kept, as
functions.
-/
import Oxcaml.Lib.Orders
import Mathlib.Order.Compare

namespace Oxcaml.Flambda2

namespace Permutation

variable {ν : Type} [LinearOrder ν]

structure T (ν : Type) [LinearOrder ν] where
  forwards : Std.ExtTreeMap ν ν
  backwards : Std.ExtTreeMap ν ν

def empty : T ν := ⟨∅, ∅⟩

def inverse (t : T ν) : T ν := ⟨t.backwards, t.forwards⟩

def isEmpty (t : T ν) : Bool := t.forwards.isEmpty

def apply (t : T ν) (n : ν) : ν :=
  match t.forwards[n]? with
  | none => n
  | some n => n

def applyBackwards (t : T ν) (n : ν) : ν :=
  match t.backwards[n]? with
  | none => n
  | some n => n

def addToMap (n1 n2 : ν) (map : Std.ExtTreeMap ν ν) : Std.ExtTreeMap ν ν :=
  if n1 = n2 then map.erase n1 else map.insert n1 n2

def postSwap (t : T ν) (n1 n2 : ν) : T ν :=
  let n1' := applyBackwards t n1
  let n2' := applyBackwards t n2
  let forwards := addToMap n1' n2 (addToMap n2' n1 t.forwards)
  let backwards := addToMap n2 n1' (addToMap n1 n2' t.backwards)
  ⟨forwards, backwards⟩

/-- `N.Map.union_left_biased`. -/
def unionLeftBiased (map1 map2 : Std.ExtTreeMap ν ν) : Std.ExtTreeMap ν ν := map2 ∪ map1

/-- `N.Map.inter` with the function that pairs the two data. -/
def inter (map1 map2 : Std.ExtTreeMap ν ν) : Std.ExtTreeMap ν (ν × ν) :=
  map1.filterMap fun n n1 => map2[n]?.map fun n3 => (n1, n3)

def compose (second first : T ν) : T ν :=
  let chained := inter first.backwards second.forwards
  let forwards := unionLeftBiased first.forwards second.forwards
  let forwards := chained.foldl (fun map _ p => addToMap p.1 p.2 map) forwards
  let backwards := unionLeftBiased second.backwards first.backwards
  let backwards := chained.foldl (fun map _ p => addToMap p.2 p.1 map) backwards
  ⟨forwards, backwards⟩

def composeOne (first : T ν) (n1 n2 : ν) : T ν := postSwap first n1 n2

def composeOneFresh (t : T ν) (n1 fresh : ν) : T ν :=
  let n1' := applyBackwards t n1
  let forwards := addToMap n1' fresh (addToMap fresh n1 t.forwards)
  let backwards := addToMap fresh n1' (addToMap n1 fresh t.backwards)
  ⟨forwards, backwards⟩

end Permutation

namespace Renaming

variable {ν κ : Type} [LinearOrder ν] [LinearOrder κ]

inductive Exn
  | fatal (message : String)

/-- `Import_map.t`. -/
structure ImportMap (ν κ : Type) where
  «variables» : ν → ν
  continuations : κ → κ

structure T (ν κ : Type) [LinearOrder ν] [LinearOrder κ] where
  continuations : Permutation.T κ
  «variables» : Permutation.T ν
  importMap : Option (ImportMap ν κ)

def empty : T ν κ := ⟨Permutation.empty, Permutation.empty, none⟩

/-- `create_import_map`. -/
def createImportMap (importMap : ImportMap ν κ) : T ν κ :=
    { empty with importMap := some importMap }

def isIdentity (t : T ν κ) : Bool :=
  Permutation.isEmpty t.continuations && Permutation.isEmpty t.variables &&
    match t.importMap with
    | none => true
    | some _ => false

def compose0 (second first : T ν κ) : Except Exn (T ν κ) := do
  let importMap ← match first.importMap, second.importMap with
    | none, none => pure none
    | some importMap1, none => pure (some importMap1)
    | _, some _ => throw (.fatal
        "Cannot compose renamings; only the [first] renaming may have an import map.")
  pure ⟨Permutation.compose second.continuations first.continuations,
    Permutation.compose second.variables first.variables, importMap⟩

def compose (second first : T ν κ) : Except Exn (T ν κ) :=
  if isIdentity second then pure first
  else if isIdentity first then pure second
  else compose0 second first

def addVariable (t : T ν κ) (var1 var2 : ν) : T ν κ :=
  { t with «variables» := Permutation.composeOne t.variables var1 var2 }

def addFreshVariable (t : T ν κ) (var1 guaranteedFresh : ν) : T ν κ :=
  { t with «variables» := Permutation.composeOneFresh t.variables var1 guaranteedFresh }

def applyVariable (t : T ν κ) (var : ν) : ν :=
  let var := match t.importMap with
    | none => var
    | some importMap => importMap.variables var
  Permutation.apply t.variables var

def addContinuation (t : T ν κ) (k1 k2 : κ) : T ν κ :=
  { t with continuations := Permutation.composeOne t.continuations k1 k2 }

def addFreshContinuation (t : T ν κ) (k1 guaranteedFresh : κ) : T ν κ :=
  { t with continuations := Permutation.composeOneFresh t.continuations k1 guaranteedFresh }

def applyContinuation (t : T ν κ) (k : κ) : κ :=
  let k := match t.importMap with
    | none => k
    | some importMap => importMap.continuations k
  Permutation.apply t.continuations k

end Renaming

end Oxcaml.Flambda2
