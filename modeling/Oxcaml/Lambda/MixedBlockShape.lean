/-
Oxcaml.Lambda.MixedBlockShape — the order of the elements of a mixed block,
`lambda/mixed_block_shape.ml`, and their places in the block,
`middle_end/flambda2/kinds/flambda_kind.ml`.

An array is a list, and the table from the old paths to the new indexes is the function
that looks a path up. `Lambda.split_vectors`, which the architecture decides, is a
parameter. Where a fatal error prints a shape, its text ends before that.
-/
import Oxcaml.Lambda.MixedProductBytes
import Oxcaml.Lib.Arrays

set_option linter.all false

namespace Oxcaml.Lambda.MixedBlockShape

open Lib

abbrev Path := List ℕ

/-- `Singleton_mixed_block_element.t`. -/
inductive SingletonMixedBlockElement (κ α : Type)
  | value (kind : κ)
  | floatBoxed (mode : α)
  | float64
  | float32
  | bits8
  | bits16
  | bits32
  | bits64
  | vec128
  | vec256
  | vec512
  | mask
  | word
  | untaggedImmediate
  deriving DecidableEq

abbrev Shape (κ α : Type) := List (SingletonMixedBlockElement κ α)

abbrev ShapeWithPaths (κ α : Type) := List (SingletonMixedBlockElement κ α × Path)

inductive Tree (κ α : Type)
  | leaf (element : SingletonMixedBlockElement κ α) (newIndex : ℕ)
  | node (children : List (Tree κ α))

/-- `Mixed_block_shape.t`, whose `prefix` and `suffix` have the names of their readers. -/
structure T (κ α : Type) where
  valuePrefix : Shape κ α
  flatSuffix : Shape κ α
  flattenedReorderedShape : ShapeWithPaths κ α
  forest : List (Tree κ α)

variable {κ α σ : Type}

/-! ## §1 Indexes -/

mutual

def flattenTree : Tree κ α → List ℕ
  | .leaf _ newIndex => [newIndex]
  | .node children => flattenTreeArray children

def flattenTreeArray : List (Tree κ α) → List ℕ
  | [] => []
  | tree :: arr => flattenTree tree ++ flattenTreeArray arr

end

/-- `Array.iteri (fun old_index new_index -> result.(new_index) <- old_index)`. -/
def writeOldIndexes : ℕ → List ℕ → List ℤ → Except Fatal (List ℤ)
  | _, [], result => pure result
  | oldIndex, newIndex :: newIndexes, result => do
    let result ← write .indexOutOfBounds result newIndex (oldIndex : ℤ)
    writeOldIndexes (oldIndex + 1) newIndexes result

def newIndexesToOldIndexes (t : T κ α) : Except Fatal (List ℤ) :=
  let oldIndexesToNewIndexes := flattenTreeArray t.forest
  writeOldIndexes 0 oldIndexesToNewIndexes (List.replicate oldIndexesToNewIndexes.length (-1))

/-- `lookup_path'`. -/
def lookupTree : Path → Tree κ α → Except Fatal (List ℕ)
  | [], .leaf _ newIndex => pure [newIndex]
  | index :: path, .node children => do
    let child ← read .indexOutOfBounds children index
    lookupTree path child
  | [], .node children => pure (flattenTreeArray children)
  | _ :: _, .leaf _ _ => throw (.fatalError "Invalid path:")

def lookupPathProducingNewIndexes (t : T κ α) (path : Path) : Except Fatal (List ℕ) :=
  match path with
  | [] => throw (.fatalError "No path provided:")
  | index :: path => do
    let tree ← read .indexOutOfBounds t.forest index
    lookupTree path tree

/-! ## §2 Shapes -/

inductive SingletonOrProduct (κ α σ : Type)
  | singleton (element : SingletonMixedBlockElement κ α)
  | product (subElements : MixedBlockShape κ α σ)

variable (splitVectors : Bool)

def singletonOrProductOfMixedBlockElement :
    MixedBlockElement κ α σ → Except Fatal (SingletonOrProduct κ α σ)
  | .value kind => pure (.singleton (.value kind))
  | .floatBoxed mode => pure (.singleton (.floatBoxed mode))
  | .float64 => pure (.singleton .float64)
  | .float32 => pure (.singleton .float32)
  | .bits8 => pure (.singleton .bits8)
  | .bits16 => pure (.singleton .bits16)
  | .bits32 => pure (.singleton .bits32)
  | .bits64 => pure (.singleton .bits64)
  | .vec128 => pure (.singleton .vec128)
  | .vec256 =>
    if splitVectors then pure (.product [.vec128, .vec128]) else pure (.singleton .vec256)
  | .vec512 => pure (.singleton .vec512)
  | .mask => pure (.singleton .mask)
  | .word => pure (.singleton .word)
  | .untaggedImmediate => pure (.singleton .untaggedImmediate)
  | .product subElements => pure (.product subElements)
  | .spliceVariable _ =>
    throw (.fatalError "singleton_or_product_of_mixed_block_element: Splice_variable")

mutual

/-- A weight that falls from an element to its parts, those of a vector included. -/
def weight : MixedBlockElement κ α σ → ℕ
  | .vec256 => 5
  | .product shape => weightShape shape + 1
  | _ => 1

def weightShape : MixedBlockShape κ α σ → ℕ
  | [] => 0
  | el :: shape => weight el + weightShape shape + 1

end

variable {splitVectors} in
theorem weightShape_lt {element : MixedBlockElement κ α σ} {subElements : MixedBlockShape κ α σ}
    (h : singletonOrProductOfMixedBlockElement splitVectors element = .ok (.product subElements)) :
    weightShape subElements < weight element := by
  cases element with
  | product shape =>
    obtain rfl : shape = subElements := by
      simpa [singletonOrProductOfMixedBlockElement, pure, Except.pure] using h
    rw [weight]
    exact Nat.lt_succ_self _
  | vec256 =>
    cases splitVectors with
    | false => simp [singletonOrProductOfMixedBlockElement, pure, Except.pure] at h
    | true =>
      obtain rfl : [.vec128, .vec128] = subElements := by
        simpa [singletonOrProductOfMixedBlockElement, pure, Except.pure] using h
      simp [weight, weightShape]
  | _ => simp [singletonOrProductOfMixedBlockElement, pure, Except.pure, throw, throwThe,
      MonadExceptOf.throw] at h

mutual

def flattenOne (index : ℕ) (element : MixedBlockElement κ α σ) :
    Except Fatal (ShapeWithPaths κ α) :=
  match _h : singletonOrProductOfMixedBlockElement splitVectors element with
  | .error e => throw e
  | .ok (.singleton element) => pure [(element, [index])]
  | .ok (.product subElements) => do
    let flattened ← flattenFrom 0 subElements
    pure (flattened.map fun (subElement, path) => (subElement, index :: path))
termination_by weight element
decreasing_by exact weightShape_lt ‹_›

/-- `Array.mapi flatten_one`, from an index on, with the arrays concatenated. -/
def flattenFrom (index : ℕ) (subElements : MixedBlockShape κ α σ) :
    Except Fatal (ShapeWithPaths κ α) :=
  match subElements with
  | [] => pure []
  | element :: subElements => do
    let first ← flattenOne index element
    let rest ← flattenFrom (index + 1) subElements
    pure (first ++ rest)
termination_by weightShape subElements
decreasing_by all_goals simp only [weightShape]; omega

end

def flattenList (subElements : MixedBlockShape κ α σ) : Except Fatal (ShapeWithPaths κ α) :=
  flattenFrom splitVectors 0 subElements

mutual

def buildTreeOne (oldPathToNewIndex : Path → Option ℕ) (path : Path) (index : ℕ)
    (element : MixedBlockElement κ α σ) : Except Fatal (Tree κ α) :=
  match _h : singletonOrProductOfMixedBlockElement splitVectors element with
  | .error e => throw e
  | .ok (.singleton element) =>
    let path := (index :: path).reverse
    match oldPathToNewIndex path with
    | none => throw (.fatalError
        ("build_tree_one: path=" ++ String.intercalate ", " (path.map toString) ++ "\n"))
    | some newIndex => pure (.leaf element newIndex)
  | .ok (.product subElements) => do
    let children ← buildTreesFrom oldPathToNewIndex (index :: path) 0 subElements
    pure (.node children)
termination_by weight element
decreasing_by exact weightShape_lt ‹_›

/-- The `Array.mapi` of `build_tree_list`, from an index on. -/
def buildTreesFrom (oldPathToNewIndex : Path → Option ℕ) (path : Path) (index : ℕ)
    (subElements : MixedBlockShape κ α σ) : Except Fatal (List (Tree κ α)) :=
  match subElements with
  | [] => pure []
  | element :: subElements => do
    let tree ← buildTreeOne oldPathToNewIndex path index element
    let trees ← buildTreesFrom oldPathToNewIndex path (index + 1) subElements
    pure (tree :: trees)
termination_by weightShape subElements
decreasing_by all_goals simp only [weightShape]; omega

end

def buildTreeList (oldPathToNewIndex : Path → Option ℕ) (path : Path)
    (subElements : MixedBlockShape κ α σ) : Except Fatal (List (Tree κ α)) :=
  buildTreesFrom splitVectors oldPathToNewIndex path 0 subElements

/-- The test that puts an element into the prefix. -/
def SingletonMixedBlockElement.isValue : SingletonMixedBlockElement κ α → Bool
  | .value _ => true
  | _ => false

/-- The prefix and the suffix, filled from the last element on. -/
def partitionShape : ShapeWithPaths κ α → ShapeWithPaths κ α × ShapeWithPaths κ α
  | [] => ([], [])
  | (elem, path) :: flattened =>
    let (pre, suf) := partitionShape flattened
    if elem.isValue then ((elem, path) :: pre, suf) else (pre, (elem, path) :: suf)

/-- The loop of `Hashtbl.replace old_path_to_new_index`. -/
def indexPaths : ℕ → ShapeWithPaths κ α → (Path → Option ℕ) → Path → Option ℕ
  | _, [], table => table
  | newIndex, (_, oldPath) :: shape, table =>
    indexPaths (newIndex + 1) shape fun path => if path = oldPath then some newIndex else table path

def ofMixedBlockElements (originalShape : MixedBlockShape κ α σ) : Except Fatal (T κ α) := do
  let flattenedShapeWithPaths ← flattenList splitVectors originalShape
  let (pre, suf) := partitionShape flattenedShapeWithPaths
  let flattenedReorderedShape := pre ++ suf
  let oldPathToNewIndex := indexPaths 0 flattenedReorderedShape fun _ => none
  let forest ← buildTreeList splitVectors oldPathToNewIndex [] originalShape
  pure {
    valuePrefix := pre.map Prod.fst
    flatSuffix := suf.map Prod.fst
    flattenedReorderedShape
    forest }

/-! ## §3 Places -/

/-- `Flat_suffix_element0.size_in_words`, on what `from_singleton_mixed_block_element` gives. -/
def flatSizeInWords : SingletonMixedBlockElement κ α → Except Fatal ℕ
  | .floatBoxed _ | .float64 | .float32 | .bits8 | .bits16 | .bits32 | .bits64 | .word
  | .untaggedImmediate => pure 1
  | .vec128 => pure 2
  | .vec256 => pure 4
  | .vec512 => pure 8
  | .mask => pure 1
  | .value _ => throw (.fatalError
      "Cannot convert [Value] mixed block elements to flat suffix elements")

/-- `Flambda_kind.Mixed_block_shape.t`, with the sizes of the flat suffix. -/
structure FlambdaShape where
  valuePrefixSize : ℕ
  flatSuffix : List ℕ

/-- `from_mixed_block_shape`. -/
def fromMixedBlockShape (t : T κ α) : Except Fatal FlambdaShape := do
  let flatSuffix ← t.flatSuffix.mapM flatSizeInWords
  pure ⟨t.valuePrefix.length, flatSuffix⟩

/-- The loop of `offset_in_words`. -/
def addSizes : List ℕ → ℕ → ℕ → Except Fatal ℕ
  | _, 0, o => pure o
  | [], _ + 1, _ => throw .indexOutOfBounds
  | size :: sizes, n + 1, o => addSizes sizes n (o + size)

def offsetInWords (shape : FlambdaShape) (index : ℕ) : Except Fatal ℕ :=
  if index ≤ shape.valuePrefixSize then pure index
  else addSizes shape.flatSuffix (index - shape.valuePrefixSize) shape.valuePrefixSize

end Oxcaml.Lambda.MixedBlockShape
