/-
Oxcaml.Typing.SolverBounds — reading and fixing the bounds of a mode, as
`typing/solver.ml` does after its calls of `submode`.

Upper bounds are kept precise, so the ceiling of a mode is read off its
variables and zapping to it is one call of `submode`. Lower bounds lag
behind. The precise floor of a morphvar is found by trial: `submode` it
below a guess, and if that fails undo the attempt and raise the guess by
the bound that the error reports.

`Result.get_ok` raises on an error. The functions that use it return
`Except Unit`, with the state as it was when the exception was raised.
`none` stands for lack of fuel, as in `Solver`.
-/
import Oxcaml.Typing.SolverRuns

namespace Oxcaml.Typing.Solver

open Allowance

variable {C : LatticesMono} {H : Hint} {o : C.Obj} {l r : Allowance}

/-! ## Logs -/

/-- `append_changes`. Logs are kept with the latest change first. -/
def appendChanges (l₀ l₁ : List (Change C H)) : List (Change C H) := l₁ ++ l₀

def emptyChanges : List (Change C H) := []

/-! ## Constant modes -/

namespace Mode

/-- `min`. -/
def min : Mode C H o l r :=
  .amode ⊥ (.min : CompHint C H o l disallowed) (.unknown ⊥ : CompHint C H o l r)

/-- `max`. -/
def max : Mode C H o l r :=
  .amode ⊤ (.unknown ⊤ : CompHint C H o l r) (.max : CompHint C H o disallowed r)

/-- `of_const`. -/
def ofConst (hint : Option (H.Const l r)) (a : C.Elt o) : Mode C H o l r :=
  let hint : CompHint C H o l r :=
    match hint with
    | none => .unknown a
    | some h => .const h a
  .amode a hint hint

end Mode

/-! ## Loose bounds -/

/-- `get_loose_ceil`. -/
def getLooseCeil (s : State C H) : Mode C H o l r → C.Elt o
  | .amode a _ _ => a
  | .amodevar mv => mupper s mv
  | .amodemeet a _ mvs => mvs.foldl (fun acc mv => acc ⊓ mupper s mv) a
  | .amodejoin a _ mvs => mvs.foldl (fun acc mv => acc ⊔ mupper s mv) a

/-- `get_loose_floor`. The source folds `mupper` over an `Amodejoin`. -/
def getLooseFloor (s : State C H) : Mode C H o l r → C.Elt o
  | .amode a _ _ => a
  | .amodevar mv => mlower s mv
  | .amodejoin a _ mvs => mvs.foldl (fun acc mv => acc ⊔ mupper s mv) a
  | .amodemeet a _ mvs => mvs.foldl (fun acc mv => acc ⊓ mlower s mv) a

/-- `get_ceil`. -/
def getCeil (s : State C H) (m : Mode C H o l r) : C.Elt o := getLooseCeil s m

/-! ## Zapping -/

/-- The outcome of a function that may raise from `Result.get_ok`. -/
abbrev Outcome (C : LatticesMono) (H : Hint) (α : Type) := Option (Except Unit α × State C H)

/-- `Amode (a, Unknown a, Unknown a)`. -/
def unknownConst (a : C.Elt o) : Mode C H o l r :=
  .amode a (.unknown a : CompHint C H o l r) (.unknown a : CompHint C H o l r)

/-- `zap_to_ceil`. -/
def zapToCeil (fuel : Nat) (s : State C H) (m : Mode C H o l allowed) : Outcome C H (C.Elt o) :=
  let ceil := getCeil s m
  match submode fuel s H.pinpointUnknown (unknownConst ceil : Mode C H o allowed allowed) m with
  | some (.ok (), s) => some (.ok ceil, s)
  | some (.error _, s) => some (.error (), s)
  | none => none

/-- The loop of `zap_to_floor_morphvar_aux`: the changes of the successful
attempt, the floor, and the store it leaves. Each round has a log of its
own. -/
def zapLoop (mv : MorphVar C H o allowed r) :
    Nat → Heap C H → C.Elt o → Option ((List (Change C H) × C.Elt o) × Heap C H)
  | 0, _, _ => none
  | fuel + 1, h, lower =>
    match submodeMvc fuel ⟨h, some emptyChanges⟩ H.pinpointUnknown mv lower (.unknown lower) with
    | some (.ok (), s) => some ((s.logged, lower), s.heap)
    | some (.error (a, _), s) => zapLoop mv fuel (undoChanges s.heap s.logged) (a ⊔ lower)
    | none => none

/-- `zap_to_floor_morphvar_aux`. -/
def zapToFloorMorphvarAux (fuel : Nat) (h : Heap C H) (mv : MorphVar C H o allowed r) :
    Option ((List (Change C H) × C.Elt o) × Heap C H) :=
  zapLoop mv fuel h (mlower ⟨h, none⟩ mv)

/-- `zap_to_floor_morphvar`, with `~commit` as the log of the state. -/
def zapToFloorMorphvar (fuel : Nat) (s : State C H) (mv : MorphVar C H o allowed r) :
    Option (C.Elt o × State C H) :=
  match zapToFloorMorphvarAux fuel s.heap mv with
  | none => none
  | some ((log', lower), h) =>
    match s.log with
    | none => some (lower, ⟨undoChanges h log', none⟩)
    | some log => some (lower, ⟨h, some (appendChanges log log')⟩)

/-- `VarMap.fold` of `zap_to_floor_morphvar ~commit:None` over `mvs`. -/
def joinFloors (fuel : Nat) : Heap C H → C.Elt o → VarMap C H o allowed r →
    Option (C.Elt o × Heap C H)
  | h, acc, [] => some (acc, h)
  | h, acc, mv :: mvs =>
    match zapToFloorMorphvar fuel ⟨h, none⟩ mv with
    | none => none
    | some (floor, s) => joinFloors fuel s.heap (acc ⊔ floor) mvs

/-- `zap_to_floor`. `VarMap.iter` with `Result.get_ok` stops at the first
error, as `find_error` does. -/
def zapToFloor (fuel : Nat) (s : State C H) : Mode C H o allowed r → Outcome C H (C.Elt o)
  | .amode a _ _ => some (.ok a, s)
  | .amodevar mv =>
    match zapToFloorMorphvar fuel s mv with
    | none => none
    | some (floor, s) => some (.ok floor, s)
  | .amodejoin a _ mvs =>
    match joinFloors fuel s.heap a mvs with
    | none => none
    | some (floor, h) =>
      match findError (fun s mv => submodeMvc fuel s H.pinpointUnknown mv floor (.unknown floor))
          ⟨h, s.log⟩ mvs with
      | some (.ok (), s) => some (.ok floor, s)
      | some (.error _, s) => some (.error (), s)
      | none => none

/-- `get_floor`, with the store it leaves. -/
def getFloor (fuel : Nat) (h : Heap C H) : Mode C H o allowed r → Option (C.Elt o × Heap C H)
  | .amode a _ _ => some (a, h)
  | .amodevar mv =>
    match zapToFloorMorphvar fuel ⟨h, none⟩ mv with
    | none => none
    | some (floor, s) => some (floor, s.heap)
  | .amodejoin a _ mvs => joinFloors fuel h a mvs

/-! ## Erasing hints -/

/-- `unhint_morphvar`. -/
def unhintMorphvar (mv : MorphVar C H o l r) : MorphVar C H o l r :=
  { mv with hint := .base H.morphUnknown mv.morph }

/-- `unhint_var`. -/
def unhintVar (x : Var C H o) : Var C H o :=
  { x with
    upperHint := .unknown x.upper
    lowerHint := .unknown x.lower
    vlower := x.vlower.map unhintMorphvar }

/-- `List.iter` of `unhint_var`. -/
def unhintVars (h : Heap C H) (vs : List (VarId C)) : Heap C H :=
  vs.foldl (fun h v => h.set v (unhintVar (h.get v))) h

/-- `erase_hints`. -/
def eraseHints (h : Heap C H) : Heap C H := unhintVars h h.vars

end Oxcaml.Typing.Solver
