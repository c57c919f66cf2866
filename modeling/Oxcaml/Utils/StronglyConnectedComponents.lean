/-
Oxcaml.Utils.StronglyConnectedComponents — Kosaraju's algorithm,
`utils/strongly_connected_components.ml`.

Arrays are lists, and `none` stands for the start value -1 of the arrays `stack` and
`id`. The two functions `aux` are one function with the code that runs when a node is
entered and when it is left; its fuel is the number of nested calls. A graph is the list
of its bindings, and the set of the successors of a node the list of its elements in the
order of `Id.Set.fold`.
-/
import Oxcaml.Lib.Arrays
import Oxcaml.Lib.Orders
import Mathlib.Data.Finset.Sort

namespace Oxcaml.Utils.StronglyConnectedComponents

inductive Exn
  | indexOutOfBounds
  | missingDependency
  | assertFailure
  | outOfFuel
  deriving DecidableEq

variable {α : Type}

def read (a : List α) (i : ℕ) : Except Exn α := Lib.read .indexOutOfBounds a i

def write (a : List α) (i : ℕ) (x : α) : Except Exn (List α) := Lib.write .indexOutOfBounds a i x

/-- The value of an entry that is used as an index. -/
def index (entry : Option ℕ) : Except Exn ℕ :=
  match entry with
  | some i => pure i
  | none => throw .indexOutOfBounds

/-! ## §1 Kosaraju -/

abbrev Graph := List (List ℕ)

def transpose (graph : Graph) : Except Exn Graph :=
  let add (transposed : Graph) (src dst : ℕ) : Except Exn Graph := do
    write transposed src (dst :: (← read transposed src))
  graph.zipIdx.foldlM (fun transposed (dsts, src) =>
    dsts.foldlM (fun transposed dst => add transposed dst src) transposed)
    (List.replicate graph.length [])

section Aux

variable {σ : Type} (graph : Graph) (enter leave : ℕ → σ → Except Exn σ)

/-- The traversal of a node: `marked`, and what is collected. -/
def aux : ℕ → ℕ → List Bool × σ → Except Exn (List Bool × σ)
  | 0, _, _ => throw .outOfFuel
  | fuel + 1, node, (marked, s) => do
    if ← read marked node then pure (marked, s)
    else do
      let marked ← write marked node true
      let s ← enter node s
      let next ← read graph node
      let (marked, s) ← next.foldlM (fun state child => aux fuel child state) (marked, s)
      let s ← leave node s
      pure (marked, s)

end Aux

/-- `push`, on the stack and its position. -/
def push (i : ℕ) : List (Option ℕ) × ℕ → Except Exn (List (Option ℕ) × ℕ)
  | (stack, pos) => do
    let stack ← write stack pos (some i)
    pure (stack, pos + 1)

def depthFirstOrder (graph : Graph) : Except Exn (List (Option ℕ)) := do
  let size := graph.length
  let (_, stack, _) ← (List.range size).foldlM
    (fun state i => aux graph (fun _ s => pure s) push (size + 1) i state)
    (List.replicate size false, List.replicate size none, 0)
  pure stack

/-- The body of the loop of `mark`. -/
def markStep (graph : Graph) (order : List (Option ℕ))
    (state : (List Bool × List (Option ℕ)) × ℕ) (i : ℕ) :
    Except Exn ((List Bool × List (Option ℕ)) × ℕ) := do
  let (state, count) := state
  let node ← index (← read order i)
  if ← read state.1 node then pure (state, count)
  else do
    let state ← aux graph (fun node id => write id node (some count)) (fun _ id => pure id)
      (graph.length + 1) node state
    pure (state, count + 1)

def mark (order : List (Option ℕ)) (graph : Graph) : Except Exn (List (Option ℕ) × ℕ) := do
  let size := graph.length
  let graph ← transpose graph
  let ((_, id), count) ← (List.range size).reverse.foldlM (markStep graph order)
    ((List.replicate size false, List.replicate size none), 0)
  pure (id, count)

def kosaraju (graph : Graph) : Except Exn (ℕ × List (Option ℕ)) := do
  let dfo ← depthFirstOrder graph
  let (components, ncomponents) ← mark dfo graph
  pure (ncomponents, components)

structure IntComponents where
  sortedConnectedComponents : List (List ℕ)
  componentEdges : List (List ℕ)

def addComponentDep (graph : Graph) (components : List (Option ℕ)) (node : ℕ) (set : Finset ℕ) :
    Except Exn (Finset ℕ) := do
  let nodeDeps ← read graph node
  nodeDeps.foldlM (fun set dep => do
    let component ← index (← read components dep)
    pure (insert component set)) set

/-- The body of `Array.iteri`. -/
def componentStep (graph : Graph) (components : List (Option ℕ))
    (state : List (List ℕ) × List (Finset ℕ)) (entry : Option ℕ × ℕ) :
    Except Exn (List (List ℕ) × List (Finset ℕ)) := do
  let (idScc, componentGraph) := state
  let node := entry.2
  let component ← index entry.1
  let idScc ← write idScc component (node :: (← read idScc component))
  let set ← addComponentDep graph components node (← read componentGraph component)
  pure (idScc, ← write componentGraph component set)

def intComponentGraph (graph : Graph) : Except Exn IntComponents := do
  let (ncomponents, components) ← kosaraju graph
  let (idScc, componentGraph) ← components.zipIdx.foldlM (componentStep graph components)
    (List.replicate ncomponents [], List.replicate ncomponents ∅)
  pure ⟨idScc, componentGraph.map fun set => set.sort (· ≤ ·)⟩

/-! ## §2 Graphs of identifiers -/

inductive Component (Id : Type)
  | hasLoop (ids : List Id)
  | noLoop (id : Id)
  deriving DecidableEq

section Make

variable {Id : Type} [DecidableEq Id]

abbrev DirectedGraph (Id : Type) := List (Id × List Id)

/-- `back`: the last binding of a node is found first. -/
def backOf (forth : List Id) : List (Id × ℕ) :=
  forth.zipIdx.foldl (fun back binding => binding :: back) []

/-- The body of `Id.Set.fold`. -/
def addDest (back : List (Id × ℕ)) (acc : List ℕ) (dest : Id) : Except Exn (List ℕ) :=
  match back.lookup dest with
  | some v => pure (v :: acc)
  | none => throw .missingDependency

/-- The numbers of the successors of a node. -/
def integerDests (stable : Bool) (back : List (Id × ℕ)) (dests : List Id) :
    Except Exn (List ℕ) := do
  let integerDests ← dests.foldlM (addDest back) []
  pure (if stable then integerDests.mergeSort (fun a b => a ≤ b) else integerDests)

def number (stable : Bool) (bindings : DirectedGraph Id) : Except Exn (List Id × Graph) := do
  let forth := bindings.map Prod.fst
  let back := backOf forth
  let integerGraph ← bindings.mapM fun b => integerDests stable back b.2
  pure (forth, integerGraph)

/-- The body of `Array.mapi`. -/
def numberedComponent (forth : List Id) (integerGraph : Graph) (componentEdges : List (List ℕ))
    (entry : List ℕ × ℕ) : Except Exn (Component Id × List ℕ) := do
  let (nodes, component) := entry
  match nodes with
  | [] => throw .assertFailure
  | [node] => do
    let edges ← read componentEdges component
    let id ← read forth node
    if node ∈ (← read integerGraph node) then pure (.hasLoop [id], edges)
    else pure (.noLoop id, edges)
  | nodes => do
    let edges ← read componentEdges component
    let ids ← nodes.mapM fun node => read forth node
    pure (.hasLoop ids, edges)

def numberedComponentGraph (forth : List Id) (integerGraph : Graph) :
    Except Exn (List (Component Id × List ℕ)) := do
  let r ← intComponentGraph integerGraph
  r.sortedConnectedComponents.zipIdx.mapM (numberedComponent forth integerGraph r.componentEdges)

def stableComponentGraph (graph : DirectedGraph Id) :
    Except Exn (List (Component Id × List ℕ)) := do
  let (forth, integerGraph) ← number true graph
  numberedComponentGraph forth integerGraph

def stableConnectedComponentsSortedFromRootsToLeaf (graph : DirectedGraph Id) :
    Except Exn (List (Component Id)) := do
  pure ((← stableComponentGraph graph).map Prod.fst)

def componentGraph (graph : DirectedGraph Id) : Except Exn (List (Component Id × List ℕ)) := do
  let (forth, integerGraph) ← number false graph
  numberedComponentGraph forth integerGraph

def connectedComponentsSortedFromRootsToLeaf (graph : DirectedGraph Id) :
    Except Exn (List (Component Id)) := do
  pure ((← componentGraph graph).map Prod.fst)

end Make

end Oxcaml.Utils.StronglyConnectedComponents
