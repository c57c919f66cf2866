/-
Oxcaml.Flambda2.DataFlowGraph — the names and the code that are needed,
`simplify/flow/data_flow_graph.ml` of `middle_end/flambda2`.

A queue is the list of its elements, taken from the front; a set pushes its elements in
increasing order. The arguments that the three loops share are a state, and what a loop does
with the element that it takes is a function of its own. The loops take fuel. A graph is
filled with five operations (§1); `add_continuation_info`, which only says which of them run
on which names, is left out.
-/
import Oxcaml.Flambda2.CodeAgeRelation

namespace Oxcaml.Flambda2.DataFlowGraph

open CodeAgeRelation (Exn getOlderVersionOf)

variable {ν κ : Type} [LinearOrder ν] [LinearOrder κ]

structure T (ν κ : Type) [LinearOrder ν] [LinearOrder κ] where
  codeAgeRelation : CodeAgeRelation.T κ
  nameToName : Std.ExtTreeMap ν (Finset ν)
  nameToCodeId : Std.ExtTreeMap ν (Finset κ)
  codeIdToName : Std.ExtTreeMap κ (Finset ν)
  codeIdToCodeId : Std.ExtTreeMap κ (Finset κ)
  unconditionallyUsed : Finset ν
  codeIdUnconditionallyUsed : Finset κ
  isToplevel : Bool

/-! ## §1 Building a graph -/

def empty (codeAgeRelation : CodeAgeRelation.T κ) (isToplevel : Bool)
    (codeIdsToNeverDelete : Finset κ) : T ν κ where
  codeAgeRelation := codeAgeRelation
  isToplevel := isToplevel
  nameToName := ∅
  nameToCodeId := ∅
  codeIdToName := ∅
  codeIdToCodeId := ∅
  unconditionallyUsed := ∅
  codeIdUnconditionallyUsed := codeIdsToNeverDelete

/-- The update that binds `src` once; `none` is the fatal error `Same name bound multiple
times`. -/
def bindOnce {α β : Type} [LinearOrder α] [DecidableEq β] (graph : Std.ExtTreeMap α (Finset β))
    (src : α) (dst : Finset β) : Option (Std.ExtTreeMap α (Finset β)) :=
  match graph[src]? with
  | none => some (if dst = ∅ then graph else graph.insert src dst)
  | some _ => none

/-- The update that adds `dst` to the successors of `src`. -/
def addSuccessor {α β : Type} [LinearOrder α] [DecidableEq β]
    (graph : Std.ExtTreeMap α (Finset β)) (src : α) (dst : β) : Std.ExtTreeMap α (Finset β) :=
  graph.insert src (insert dst ((graph[src]?).getD ∅))

def addCodeIdDep (src : ν) (dst : Finset κ) (t : T ν κ) : Option (T ν κ) := do
  pure { t with nameToCodeId := ← bindOnce t.nameToCodeId src dst }

def addDependency (src dst : ν) (t : T ν κ) : T ν κ :=
  { t with nameToName := addSuccessor t.nameToName src dst }

def addCodeIdDependency (src : κ) (dst : ν) (t : T ν κ) : T ν κ :=
  { t with codeIdToName := addSuccessor t.codeIdToName src dst }

def addCodeIdToCodeId (src : κ) (dst : Finset κ) (t : T ν κ) : Option (T ν κ) := do
  pure { t with codeIdToCodeId := ← bindOnce t.codeIdToCodeId src dst }

/-- `add_name_occurrences`, of the names and the code ids that occur. -/
def addNameOccurrences (names : Finset ν) (codeIds : Finset κ) (t : T ν κ) : T ν κ :=
  { t with
    unconditionallyUsed := t.unconditionallyUsed ∪ names
    codeIdUnconditionallyUsed := codeIds ∪ t.codeIdUnconditionallyUsed }

/-! ## §2 What is reachable -/

/-- `Reachable_code_ids.t`. -/
structure ReachableCodeIds (κ : Type) where
  liveCodeIds : Finset κ
  ancestorsOfLiveCodeIds : Finset κ

/-- `Data_flow_result.t`; unknown code ids are `none`. -/
structure Result (ν κ : Type) where
  requiredNames : Finset ν
  reachableCodeIds : Option (ReachableCodeIds κ)

structure State (ν κ : Type) where
  codeIdQueue : List κ
  codeIdEnqueued : Finset κ
  olderQueue : List κ
  olderEnqueued : Finset κ
  nameQueue : List ν
  nameEnqueued : Finset ν

/-- `Src_map.find`, or the empty set. -/
def neighbours {α β : Type} [LinearOrder α] (graph : Std.ExtTreeMap α (Finset β)) (src : α) :
    Finset β := (graph[src]?).getD ∅

/-- `Edge.push`: the elements that are enqueued, and the queue. -/
def push {α β : Type} [LinearOrder α] [LinearOrder β] (src : α) (enqueued : Finset β)
    (queue : List β) (graph : Std.ExtTreeMap α (Finset β)) : Finset β × List β :=
  let newNeighbours := neighbours graph src \ enqueued
  (enqueued ∪ newNeighbours, queue ++ newNeighbours.sort (· ≤ ·))

/-- The name `src` is taken, and `nameQueue` is left. -/
def takeName (t : T ν κ) (s : State ν κ) (src : ν) (nameQueue : List ν) : State ν κ :=
  let names := push src s.nameEnqueued nameQueue t.nameToName
  let codeIds := push src s.codeIdEnqueued s.codeIdQueue t.nameToCodeId
  { s with
    nameEnqueued := names.1, nameQueue := names.2
    codeIdEnqueued := codeIds.1, codeIdQueue := codeIds.2 }

/-- The code id `src` is taken, and `codeIdQueue` is left. -/
def takeCodeId (t : T ν κ) (s : State ν κ) (src : κ) (codeIdQueue : List κ) : State ν κ :=
  let names := push src s.nameEnqueued s.nameQueue t.codeIdToName
  let codeIds := push src s.codeIdEnqueued codeIdQueue t.codeIdToCodeId
  let s := { s with
    nameEnqueued := names.1, nameQueue := names.2
    codeIdEnqueued := codeIds.1, codeIdQueue := codeIds.2 }
  if src ∈ s.olderEnqueued then s
  else { s with olderQueue := s.olderQueue ++ [src], olderEnqueued := insert src s.olderEnqueued }

/-- The code id `src` is taken to find its older version, and `olderQueue` is left. -/
def takeOlder (t : T ν κ) (s : State ν κ) (src : κ) (olderQueue : List κ) : State ν κ :=
  match getOlderVersionOf t.codeAgeRelation src with
  | none => { s with olderQueue := olderQueue }
  | some dst =>
    if dst ∈ s.olderEnqueued then
      if dst ∈ s.codeIdEnqueued then { s with olderQueue := olderQueue }
      else
        { s with
          olderQueue := olderQueue
          codeIdEnqueued := insert dst s.codeIdEnqueued, codeIdQueue := s.codeIdQueue ++ [dst] }
    else
      { s with olderQueue := olderQueue ++ [dst], olderEnqueued := insert dst s.olderEnqueued }

mutual

def reachableNames : ℕ → T ν κ → State ν κ → Except Exn (Result ν κ)
  | 0, _, _ => .error .outOfFuel
  | fuel + 1, t, s =>
    match s.nameQueue with
    | [] =>
      if t.isToplevel then
        if s.codeIdQueue.isEmpty then
          pure ⟨s.nameEnqueued, some ⟨s.codeIdEnqueued, s.olderEnqueued⟩⟩
        else reachableCodeIds fuel t { s with olderQueue := [] }
      else pure ⟨s.nameEnqueued, none⟩
    | src :: nameQueue => reachableNames fuel t (takeName t s src nameQueue)

def reachableCodeIds : ℕ → T ν κ → State ν κ → Except Exn (Result ν κ)
  | 0, _, _ => .error .outOfFuel
  | fuel + 1, t, s =>
    match s.codeIdQueue with
    | [] =>
      if s.olderQueue.isEmpty then reachableNames fuel t s
      else reachableOlderCodeIds fuel t s
    | src :: codeIdQueue => reachableCodeIds fuel t (takeCodeId t s src codeIdQueue)

def reachableOlderCodeIds : ℕ → T ν κ → State ν κ → Except Exn (Result ν κ)
  | 0, _, _ => .error .outOfFuel
  | fuel + 1, t, s =>
    match s.olderQueue with
    | [] => reachableCodeIds fuel t s
    | src :: olderQueue => reachableOlderCodeIds fuel t (takeOlder t s src olderQueue)

end

/-- The state that `required_names` starts with. -/
def start (t : T ν κ) : State ν κ where
  nameQueue := t.unconditionallyUsed.sort (· ≤ ·)
  nameEnqueued := t.unconditionallyUsed
  codeIdQueue := if t.isToplevel then t.codeIdUnconditionallyUsed.sort (· ≤ ·) else []
  codeIdEnqueued := t.codeIdUnconditionallyUsed
  olderQueue := []
  olderEnqueued := ∅

def requiredNames (fuel : ℕ) (t : T ν κ) : Except Exn (Result ν κ) :=
  reachableNames fuel t (start t)

end Oxcaml.Flambda2.DataFlowGraph
