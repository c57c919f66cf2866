/-
Oxcaml.Lambda.MixedProductBytes — the bytes of a mixed product and of its parts,
`lambda/mixed_product_bytes.ml`, and the block indices that are made of them.

An array is a list, and a byte count on a 64-bit machine a natural number. The payloads
of an element (the kind of a value, a mode, an identifier) are type parameters.
-/
import Mathlib.Tactic

namespace Oxcaml.Lambda

/-- `Misc.fatal_error`, and an access outside an array. -/
inductive Fatal
  | fatalError (message : String)
  | indexOutOfBounds
  deriving DecidableEq

/-- `Lambda.mixed_block_element`. -/
inductive MixedBlockElement (κ α σ : Type)
  | value (kind : κ)
  | floatBoxed (mode : α)
  | float64
  | float32
  | bits8
  | bits16
  | bits32
  | bits64
  | vec128
  | vec256
  | vec512
  | mask
  | word
  | untaggedImmediate
  | product (shape : List (MixedBlockElement κ α σ))
  | spliceVariable (id : σ)

/-- `Lambda.mixed_block_shape`. -/
abbrev MixedBlockShape (κ α σ : Type) := List (MixedBlockElement κ α σ)

namespace MixedProductBytes

variable {κ α σ : Type}

/-- `Mixed_product_bytes.t`. -/
@[ext]
structure Bytes where
  value : ℕ
  flat : ℕ
  deriving DecidableEq

def blockIndexOffsetBits : ℕ := 52

def zero : Bytes := ⟨0, 0⟩

def add (b b' : Bytes) : Bytes := ⟨b.value + b'.value, b.flat + b'.flat⟩

mutual

def count : MixedBlockElement κ α σ → Except Fatal Bytes
  | .value _ => pure ⟨8, 0⟩
  | .floatBoxed _ | .float64 | .float32 | .bits8 | .bits16 | .bits32 | .bits64 | .word
  | .untaggedImmediate => pure ⟨0, 8⟩
  | .vec128 => pure ⟨0, 16⟩
  | .vec256 => pure ⟨0, 32⟩
  | .vec512 => pure ⟨0, 64⟩
  | .mask => pure ⟨0, 8⟩
  | .product layouts => countFrom zero layouts
  | .spliceVariable _ =>
    throw (.fatalError "Mixed_product_bytes_count: layout poly not supported")

/-- The fold of `count` over an array. -/
def countFrom (cts : Bytes) : MixedBlockShape κ α σ → Except Fatal Bytes
  | [] => pure cts
  | l :: layouts => do
    let c ← count l
    countFrom (add cts c) layouts

end

def hasValueAndFlat (b : Bytes) : Bool := b.value > 0 && b.flat > 0

/-! ## §1 Bytes with respect to a path -/

namespace WrtPath

/-- `Wrt_path.t`. -/
@[ext]
structure Counts where
  here : Bytes
  left : Bytes
  right : Bytes

def zero : Counts := ⟨MixedProductBytes.zero, MixedProductBytes.zero, MixedProductBytes.zero⟩

def add (c c' : Counts) : Counts :=
  ⟨MixedProductBytes.add c.here c'.here, MixedProductBytes.add c.left c'.left,
    MixedProductBytes.add c.right c'.right⟩

mutual

def countWrtPath (el : MixedBlockElement κ α σ) (path : List ℕ) : Except Fatal Counts :=
  match path with
  | [] => do
    let here ← MixedProductBytes.count el
    pure { zero with here }
  | i :: pathRest =>
    match el with
    | .product shape => countShapeFrom i pathRest 0 zero shape
    | .spliceVariable _ =>
      throw (.fatalError "Mixed_product_bytes_wrt_path: layout poly not supported")
    | _ => throw (.fatalError "Mixed_product_bytes_wrt_path: bad mixed block path")

/-- The fold of `count_shape_wrt_path` from the index `i` on. -/
def countShapeFrom (pos : ℕ) (path : List ℕ) (i : ℕ) (totals : Counts) :
    MixedBlockShape κ α σ → Except Fatal Counts
  | [] => pure totals
  | el :: shape => do
    let counts ← if i = pos then countWrtPath el path
      else if i < pos then do
        let left ← MixedProductBytes.count el
        pure { zero with left }
      else do
        let right ← MixedProductBytes.count el
        pure { zero with right }
    countShapeFrom pos path (i + 1) (add totals counts) shape

end

/-- `count_shape_wrt_path`. -/
def countShape (shape : MixedBlockShape κ α σ) (pos : ℕ) (path : List ℕ) : Except Fatal Counts :=
  countShapeFrom pos path 0 zero shape

/-- `lowest_invalid_gap_on_64_bit_arch`. -/
def lowestInvalidGap : ℕ := 1 <<< (64 - blockIndexOffsetBits)

structure OffsetAndGapBytes where
  offsetBytes : ℕ
  gapBytes : ℕ
  deriving DecidableEq

def offsetAndGap (c : Counts) : Option OffsetAndGapBytes :=
  let offsetBytes :=
    if c.here.value = 0 then c.left.value + c.left.flat + c.right.value else c.left.value
  if hasValueAndFlat c.here then
    let gapBytes := c.left.flat + c.right.value
    let deepenedGapUpperBound := gapBytes + c.here.value + c.here.flat
    if deepenedGapUpperBound ≥ lowestInvalidGap then none else some ⟨offsetBytes, gapBytes⟩
  else some ⟨offsetBytes, 0⟩

end WrtPath

end MixedProductBytes

end Oxcaml.Lambda
