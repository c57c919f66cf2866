/-
Oxcaml.Flambda2.Leapfrog — leapfrog joins of iterators.

`IteratorOps` is the signature `Iterator` over a type of iterator states, and
`MapIterator` its instance for Patricia trees (§1). The maps come from channels;
what these hold is the environment of `init`. A join holds an array of
iterators (§2), which it owns: no iterator occurs twice. The array of the
source has at least one element, so it is a function on `Fin (n + 1)`, and the
index that `search` moves around it is taken modulo its length by `Fin`.

`search` moves one iterator at a time to the highest key and stops when the
lowest key is the highest. It is defined as a fixed point in `Option`, where
`none` stands for a search that does not end; that it ends is a theorem.
`accept` only writes the channels of the values and is left out.
-/
import Oxcaml.Flambda2.PatriciaTreeTraversal
import Oxcaml.Flambda2.PatriciaTreeComparison
import Mathlib.Data.Fin.Basic

namespace Oxcaml.Flambda2.Leapfrog

/-! ## §1 Iterators -/

/-- The signature `Iterator`, with the states of an iterator as `S`, and as `E` what the
channels hold. -/
structure IteratorOps (E S K : Type) where
  current : S → Option K
  advance : S → S
  seek : S → K → S
  init : E → S → S
  equalKey : S → K → K → Bool
  compareKey : S → K → K → Int

open PatriciaTree (Key)

/-- An iterator over the map that a channel holds. Its values go to the channel `handler`. -/
structure MapIterator (C α : Type) where
  iterator : PatriciaTree.Iterator α
  map : C
  handler : C

variable {C α : Type}

/-- The module `Map`, for Patricia trees. -/
def mapOps (C α : Type) : IteratorOps (C → PatriciaTree.T α) (MapIterator C α) Key where
  current i := (PatriciaTree.current i.iterator).map Prod.fst
  advance i := { i with iterator := PatriciaTree.advance i.iterator }
  seek i k := { i with iterator := PatriciaTree.seek i.iterator k }
  init channels i := { i with iterator := PatriciaTree.iterator (channels i.map) }
  equalKey _ k k' := k == k'
  compareKey _ := PatriciaTree.compareInt

/-- `Map.create`. -/
def createMapIterator (cell handler : C) : MapIterator C α :=
  ⟨PatriciaTree.iterator .empty, cell, handler⟩

/-! ## §2 Joins -/

/-- A join of `n + 1` iterators. -/
structure Join (S : Type) (n : Nat) where
  iterators : Fin (n + 1) → S
  atEnd : Bool

/-- `create`. -/
def create {S : Type} : List S → Except String (Σ n, Join S n)
  | [] => .error "Joined_iterator.create: cannot join an empty list"
  | it :: its => .ok ⟨its.length, fun i => (it :: its).get i, false⟩

section Join

variable {E S K : Type} {n : Nat} (ops : IteratorOps E S K)

def current (j : Join S n) : Option K :=
  if j.atEnd then none else ops.current (j.iterators (Fin.last n))

/-- `search`, with the iterators that it leaves. -/
def search (iterators : Fin (n + 1) → S) (indexOfLowestKey : Fin (n + 1)) (k : K) :
    Option (Option K × (Fin (n + 1) → S)) :=
  let iteratorWithLowestKey := iterators indexOfLowestKey
  match ops.current iteratorWithLowestKey with
  | none => some (none, iterators)
  | some lowestKey =>
    if ops.equalKey iteratorWithLowestKey lowestKey k then
      some (some lowestKey, iterators)
    else
      let moved := ops.seek iteratorWithLowestKey k
      let iterators := Function.update iterators indexOfLowestKey moved
      match ops.current moved with
      | none => some (none, iterators)
      | some newHighestKey => (search (k := newHighestKey)) iterators (indexOfLowestKey + 1)
partial_fixpoint

/-- `repair`, on a join that is not at its end (the source asserts this). -/
def repair (iterators : Fin (n + 1) → S) : Option (Join S n) :=
  if n + 1 > 1 then
    match ops.current (iterators (Fin.last n)) with
    | none => some ⟨iterators, true⟩
    | some highestKey => do
      match ← search ops iterators 0 highestKey with
      | (none, iterators) => some ⟨iterators, true⟩
      | (some _, iterators) => some ⟨iterators, false⟩
  else some ⟨iterators, false⟩

def advance (j : Join S n) : Option (Join S n) :=
  if j.atEnd then some j
  else
    let highestIterator := j.iterators (Fin.last n)
    repair ops (Function.update j.iterators (Fin.last n) (ops.advance highestIterator))

def seek (j : Join S n) (key : K) : Option (Join S n) :=
  if j.atEnd then some j
  else
    let highestIterator := j.iterators (Fin.last n)
    repair ops (Function.update j.iterators (Fin.last n) (ops.seek highestIterator key))

/-- The loop of `init` over the array. The flag is `false` when it raises `Empty_iterator`. -/
def initIterators (env : E) : List (Fin (n + 1)) → (Fin (n + 1) → S) → (Fin (n + 1) → S) × Bool
  | [], iterators => (iterators, true)
  | i :: rest, iterators =>
    let it := ops.init env (iterators i)
    let iterators := Function.update iterators i it
    match ops.current it with
    | none => (iterators, false)
    | some _ => initIterators env rest iterators

/-- `Or_null.compare`. -/
def orNullCompare (compare : K → K → Int) : Option K → Option K → Int
  | none, none => 0
  | none, some _ => -1
  | some _, none => 1
  | some x, some y => compare x y

/-- The comparison by which `init` sorts. -/
def compareCurrent (it1 it2 : S) : Int :=
  orNullCompare (ops.compareKey it1) (ops.current it1) (ops.current it2)

/-- `init`, with `Array.sort` as parameter: the sort of the standard library is not stable. -/
def init (sort : (S → S → Int) → (Fin (n + 1) → S) → Fin (n + 1) → S) (env : E)
    (j : Join S n) : Option (Join S n) :=
  match initIterators ops env (List.finRange (n + 1)) j.iterators with
  | (iterators, false) => some ⟨iterators, true⟩
  | (iterators, true) => repair ops (sort (compareCurrent ops) iterators)

end Join

end Oxcaml.Flambda2.Leapfrog
