/-
Oxcaml.Typing.GlobalModule — the names of the instances of parameterised modules,
`typing/global_module.ml`.

The names of modules and parameters are strings, of whose order only that it is linear
is used. A substitution is the function that looks up its map. The reference `changed`
is passed as a state; `Duplicate` is an error.
-/
import Mathlib

set_option linter.all false

namespace Oxcaml.Typing.GlobalModule

structure Argument (ν α : Type) where
  param : ν
  value : α
  deriving DecidableEq

structure Duplicate (ν α : Type) where
  name : ν
  value1 : α
  value2 : α

/-- The type `T0.t`. -/
inductive Global (ν : Type)
  | create (head : ν) (visibleArgs hiddenArgs : List (Argument ν (Global ν)))

variable {ν : Type}

namespace Global

def head : Global ν → ν
  | create head _ _ => head

def visibleArgs : Global ν → List (Argument ν (Global ν))
  | create _ visibleArgs _ => visibleArgs

def hiddenArgs : Global ν → List (Argument ν (Global ν))
  | create _ _ hiddenArgs => hiddenArgs

end Global

/-- `T0.of_parameter_name`. -/
def ofParameterName (param : ν) : Global ν := .create param [] []

def unsafeCreateUnchecked (head : ν) (visibleArgs hiddenArgs : List (Argument ν (Global ν))) :
    Global ν := .create head visibleArgs hiddenArgs

/-! ## §1 Creation -/

section Create

variable {α : Type} [LinearOrder ν]

/-- `compare_by_param t1 t2 <= 0`. -/
def leByParam (t1 t2 : Argument ν α) : Bool := t1.param ≤ t2.param

/-- The function `loop` of `check_uniqueness_of_sorted`. -/
def checkUniquenessFrom (n1 : ν) (v1 : α) : List (Argument ν α) → Except (Duplicate ν α) Unit
  | [] => .ok ()
  | ⟨n2, v2⟩ :: l =>
    if n1 = n2 then .error ⟨n1, v1, v2⟩ else checkUniquenessFrom n2 v2 l

def checkUniquenessOfSorted : List (Argument ν α) → Except (Duplicate ν α) Unit
  | [] => .ok ()
  | ⟨n1, v1⟩ :: l => checkUniquenessFrom n1 v1 l

def sortAndCheckUniqueness (l : List (Argument ν α)) :
    Except (Duplicate ν α) (List (Argument ν α)) := do
  let l := l.mergeSort leByParam
  checkUniquenessOfSorted l
  pure l

/-- The loop of `merge_iter` does nothing until it finds a parameter in both lists. -/
def checkUniquenessOfMerged : List (Argument ν α) → List (Argument ν α) →
    Except (Duplicate ν α) Unit
  | [], _ => .ok ()
  | _ :: _, [] => .ok ()
  | a :: l1, b :: l2 =>
    if a.param = b.param then .error ⟨a.param, a.value, b.value⟩
    else if a.param < b.param then checkUniquenessOfMerged l1 (b :: l2)
    else checkUniquenessOfMerged (a :: l1) l2
termination_by l1 l2 => l1.length + l2.length

def create (head : ν) (visibleArgs : List (Argument ν (Global ν))) (hiddenArgs : List ν) :
    Except (Duplicate ν (Global ν)) (Global ν) := do
  let hiddenArgs := hiddenArgs.map fun param => Argument.mk param (ofParameterName param)
  let visibleArgs ← sortAndCheckUniqueness visibleArgs
  let hiddenArgs ← sortAndCheckUniqueness hiddenArgs
  checkUniquenessOfMerged visibleArgs hiddenArgs
  pure (.create head visibleArgs hiddenArgs)

end Create

/-! ## §2 Substitution -/

abbrev Subst (ν : Type) := ν → Option (Global ν)

def findInParameterMap (t : Global ν) (map : Subst ν) : Option (Global ν) :=
  match t with
  | .create head [] [] => map head
  | _ => none

/-- The partition of the hidden arguments in `subst0_inside`. -/
def partitionHidden (s : Subst ν) : List (Argument ν (Global ν)) → Bool →
    List (Argument ν (Global ν)) × List (Argument ν (Global ν)) × Bool
  | [], changed => ([], [], changed)
  | pair :: rest, changed =>
    match findInParameterMap pair.value s with
    | some rhs =>
      let (matching, nonMatching, changed) := partitionHidden s rest true
      (⟨pair.param, rhs⟩ :: matching, nonMatching, changed)
    | none =>
      let (matching, nonMatching, changed) := partitionHidden s rest changed
      (matching, pair :: nonMatching, changed)

variable [LinearOrder ν]

/-- The end of `subst0_inside`, when the visible arguments have been substituted. -/
def revealHidden (head : ν) (visibleArgs hiddenArgs : List (Argument ν (Global ν)))
    (s : Subst ν) (changed : Bool) : Global ν × Bool :=
  let (matchingHiddenArgs, nonMatchingHiddenArgs, changed) := partitionHidden s hiddenArgs changed
  let visibleArgs := visibleArgs.merge matchingHiddenArgs leByParam
  (unsafeCreateUnchecked head visibleArgs nonMatchingHiddenArgs, changed)

mutual

def subst0 (s : Subst ν) : Global ν → Bool → Global ν × Bool
  | .create head visibleArgs hiddenArgs, changed =>
    match findInParameterMap (.create head visibleArgs hiddenArgs) s with
    | some rhs => (rhs, true)
    | none =>
      let (visibleArgs, changed) := subst0Alist s visibleArgs changed
      revealHidden head visibleArgs hiddenArgs s changed

def subst0Alist (s : Subst ν) : List (Argument ν (Global ν)) → Bool →
    List (Argument ν (Global ν)) × Bool
  | [], changed => ([], changed)
  | ⟨param, value⟩ :: l, changed =>
    let (value, changed) := subst0 s value changed
    let (l, changed) := subst0Alist s l changed
    (⟨param, value⟩ :: l, changed)

end

def subst0Inside (t : Global ν) (s : Subst ν) (changed : Bool) : Global ν × Bool :=
  let (visibleArgs, changed) := subst0Alist s t.visibleArgs changed
  revealHidden t.head visibleArgs t.hiddenArgs s changed

inductive Change
  | changed
  | didNotChange
  deriving DecidableEq

def subst (t : Global ν) (s : Subst ν) : Global ν × Change :=
  let (newT, changed) := subst0 s t false
  if changed then (newT, .changed) else (t, .didNotChange)

def substInside (t : Global ν) (s : Subst ν) : Global ν :=
  let (newT, changed) := subst0Inside t s false
  if changed then newT else t

mutual

def isComplete : Global ν → Bool
  | .create _ visibleArgs [] => isCompleteAll visibleArgs
  | .create _ _ (_ :: _) => false

/-- `List.for_all (fun { value; _ } -> is_complete value)`. -/
def isCompleteAll : List (Argument ν (Global ν)) → Bool
  | [] => true
  | ⟨_, value⟩ :: l => isComplete value && isCompleteAll l

end

/-! ## §3 Globals with a precision -/

mutual

/-- `compare glob1 glob2 = 0`. -/
def equal : Global ν → Global ν → Bool
  | .create head1 visibleArgs1 hiddenArgs1, .create head2 visibleArgs2 hiddenArgs2 =>
    head1 = head2 && equalArgs visibleArgs1 visibleArgs2 && equalArgs hiddenArgs1 hiddenArgs2

/-- `List.compare compare_pairs` gives 0. -/
def equalArgs : List (Argument ν (Global ν)) → List (Argument ν (Global ν)) → Bool
  | [], [] => true
  | ⟨param1, value1⟩ :: l1, ⟨param2, value2⟩ :: l2 =>
    param1 = param2 && equal value1 value2 && equalArgs l1 l2
  | _, _ => false

end

inductive Precision
  | exact
  | approximate
  deriving DecidableEq

namespace WithPrecision

abbrev T (ν : Type) := Global ν × Precision

inductive Exn
  | inconsistent
  deriving DecidableEq

def meetAtom (atom1 atom2 : ν) : Except Exn Unit :=
  if atom1 = atom2 then pure () else throw .inconsistent

-- Of each `merge_fold` the loop is written out, with the functions that it is given.
mutual

/-- The function `meet` of `meet_approximate`. -/
def meetApproximate : Global ν → Global ν → Except Exn (Global ν)
  | .create head1 visibleArgs1 hiddenArgs1, .create head2 visibleArgs2 hiddenArgs2 => do
    let visibleArgsRev ← meetVisible [] visibleArgs1 visibleArgs2
    let hiddenArgsRev ← meetHidden [] hiddenArgs1 hiddenArgs2
    meetAtom head1 head2
    pure (unsafeCreateUnchecked head1 visibleArgsRev.reverse hiddenArgsRev.reverse)
termination_by glob1 glob2 => sizeOf glob1 + sizeOf glob2

def meetArgs : Argument ν (Global ν) → Argument ν (Global ν) → Except Exn (Argument ν (Global ν))
  | ⟨param1, value1⟩, ⟨param2, value2⟩ => do
    meetAtom param1 param2
    let value ← meetApproximate value1 value2
    pure ⟨param1, value⟩
termination_by arg1 arg2 => sizeOf arg1 + sizeOf arg2

/-- The visible arguments: a parameter of one list only is inconsistent. -/
def meetVisible (accRev : List (Argument ν (Global ν))) :
    List (Argument ν (Global ν)) → List (Argument ν (Global ν)) →
    Except Exn (List (Argument ν (Global ν)))
  | [], [] => pure accRev
  | _ :: _, [] => throw .inconsistent
  | [], _ :: _ => throw .inconsistent
  | arg1 :: l1, arg2 :: l2 =>
    match compare arg1.param arg2.param with
    | .eq => do
      let arg ← meetArgs arg1 arg2
      meetVisible (arg :: accRev) l1 l2
    | .lt => throw .inconsistent
    | .gt => throw .inconsistent
termination_by l1 l2 => sizeOf l1 + sizeOf l2

/-- The hidden arguments that appear in both lists. -/
def meetHidden (accRev : List (Argument ν (Global ν))) :
    List (Argument ν (Global ν)) → List (Argument ν (Global ν)) →
    Except Exn (List (Argument ν (Global ν)))
  | [], [] => pure accRev
  | _ :: l1, [] => meetHidden accRev l1 []
  | [], _ :: l2 => meetHidden accRev [] l2
  | arg1 :: l1, arg2 :: l2 =>
    match compare arg1.param arg2.param with
    | .eq => do
      let arg ← meetArgs arg1 arg2
      meetHidden (arg :: accRev) l1 l2
    | .lt => meetHidden accRev l1 (arg2 :: l2)
    | .gt => meetHidden accRev (arg1 :: l1) l2
termination_by l1 l2 => sizeOf l1 + sizeOf l2

end

/-- The last case of `meet`, of an exact and an approximate global in either order. -/
def meetExact (exact approx : Global ν) : Except Exn (T ν) := do
  let exact' ← meetApproximate exact approx
  if GlobalModule.equal exact exact' then pure (exact, .exact) else throw .inconsistent

def meet (t1 t2 : T ν) : Except Exn (T ν) :=
  match t1, t2 with
  | (glob1, .approximate), (glob2, .approximate) => do
    let glob ← meetApproximate glob1 glob2
    pure (glob, .approximate)
  | (glob1, .exact), (glob2, .exact) =>
    if GlobalModule.equal glob1 glob2 then pure t1 else throw .inconsistent
  | (exact, .exact), (approx, .approximate) => meetExact exact approx
  | (approx, .approximate), (exact, .exact) => meetExact exact approx

def equal (t1 t2 : T ν) : Bool := GlobalModule.equal t1.1 t2.1 && t1.2 = t2.2

end WithPrecision

end Oxcaml.Typing.GlobalModule
