/-
Oxcaml.Backend.LogicalImmediates — the logical immediates of
`backend/arm64/ast/logical_immediates.ml`.

Native integers are words of 64 bits. The local functions of
`encode_logical_immediate_fields` count a position up to the length of the
pattern, which is an argument of theirs here. `decodeBitMasks` (§3) is not in
the source: it is what the architecture does with the three fields.
-/
import Mathlib

namespace Oxcaml.Backend.LogicalImmediates

abbrev Nativeint := BitVec 64

instance neZero_eight : NeZero 8 := ⟨by decide⟩

/-! ## §1 Recognition -/

/-- An automaton to recognize ( 0+1+0* | 1+0+1* ): accepting, next on 0, next on 1. State 7 is
the error state. -/
def autoTable : Fin 8 → Bool × Fin 8 × Fin 8
  | 0 => (false, 1, 4)
  | 1 => (false, 1, 2)
  | 2 => (true, 3, 2)
  | 3 => (true, 3, 7)
  | 4 => (false, 5, 4)
  | 5 => (true, 5, 6)
  | 6 => (true, 7, 6)
  | 7 => (false, 7, 7)

def runAutomata : Nat → Fin 8 → Nativeint → Bool
  | 0, state, _ => (autoTable state).1
  | nbits + 1, state, input =>
    runAutomata nbits
      (if input &&& 1 = 0 then (autoTable state).2.1 else (autoTable state).2.2) (input >>> 1)

/-- The low `2 * n` bits of `x` are two occurrences of the same `n` bits. -/
def test (x : Nativeint) (n : Nat) : Bool :=
  let mask : Nativeint := ((1 : Nativeint) <<< n) - 1
  let lowNBits := x &&& mask
  let nextNBits := (x >>> n) &&& mask
  lowNBits == nextNBits

/-- A length such that `x` is a repetition of its low bits up to it. -/
def logicalImmLength (x : Nativeint) : Nat :=
  if !test x 32 then 64
  else if !test x 16 then 32
  else if !test x 8 then 16
  else if !test x 4 then 8
  else if !test x 2 then 4
  else 2

def isLogicalImmediate (x : Nativeint) : Bool :=
  !(x == 0) && !(x == -1) && runAutomata (logicalImmLength x) 0 x

/-! ## §2 Encoding -/

/-- A mask with the `n` low bits set. -/
def maskOfWidth (n : Nat) : Nativeint := if n ≥ 64 then -1 else ((1 : Nativeint) <<< n) - 1

structure EncodedLogicalImmediate where
  n : Nat
  immr : Nat
  imms : Nat
  deriving DecidableEq

section Loops

variable (len : Nat)

/-- The position of the rightmost set bit. -/
def findFirstOne (p : Nativeint) (pos : Nat) : Nat :=
  if pos ≥ len then 0
  else if p &&& 1 = 1 then pos
  else findFirstOne (p >>> 1) (pos + 1)
termination_by len - pos

/-- Counts consecutive ones. -/
def countOnes (p : Nativeint) (pos count : Nat) : Nat :=
  if pos ≥ len ∨ p &&& 1 = 0 then count
  else countOnes (p >>> 1) (pos + 1) (count + 1)
termination_by len - pos

/-- Counts all ones. -/
def countAllOnes (p : Nativeint) (pos acc : Nat) : Nat :=
  if pos ≥ len then acc
  else countAllOnes (p >>> 1) (pos + 1) (if p &&& 1 = 1 then acc + 1 else acc)
termination_by len - pos

def findFirstZero (p : Nativeint) (pos : Nat) : Nat :=
  if pos ≥ len then len
  else if p &&& 1 = 0 then pos
  else findFirstZero (p >>> 1) (pos + 1)
termination_by len - pos

def findOneFrom (p : Nativeint) (pos : Nat) : Nat :=
  if pos ≥ len then len
  else if p &&& 1 = 1 then pos
  else findOneFrom (p >>> 1) (pos + 1)
termination_by len - pos

/-- The rotation and the number of ones of a pattern of `len` bits. -/
def rotationAndOnes (pattern : Nativeint) : Nat × Nat :=
  let firstOne := findFirstOne len pattern 0
  if firstOne > 0 then
    -- 0+1+0*
    let rotated := (pattern >>> firstOne) ||| ((pattern <<< (len - firstOne)) &&& maskOfWidth len)
    (firstOne, countOnes len rotated 0 0)
  else
    let onesFromLsb := countOnes len pattern 0 0
    if onesFromLsb = len then (0, len)
    else
      let firstZero := findFirstZero len pattern 0
      let nextOneRel := findOneFrom len (pattern >>> firstZero) 0
      if nextOneRel ≥ len - firstZero then
        -- 1+0*
        (0, onesFromLsb)
      else
        -- 1+0+1*: the ones wrap around
        (firstZero + nextOneRel, countAllOnes len pattern 0 0)

end Loops

/-- The high bits of `imms`, which tell the element size. -/
def sizeEncoding : Nat → Except String Nat
  | 64 => .ok 0b000000
  | 32 => .ok 0b000000
  | 16 => .ok 0b100000
  | 8 => .ok 0b110000
  | 4 => .ok 0b111000
  | 2 => .ok 0b111100
  | size => .error s!"invalid element size: {size}"

def encodeLogicalImmediateFields (x : Nativeint) : Except String EncodedLogicalImmediate :=
  if !isLogicalImmediate x then
    .error "encode_logical_immediate_fields: not a valid logical immediate"
  else do
    let len := logicalImmLength x
    let (rotation, ones) := rotationAndOnes len (x &&& maskOfWidth len)
    let n := if len = 64 then 1 else 0
    let immr := (len - rotation) % len
    let imms := (← sizeEncoding len) ||| (ones - 1)
    .ok ⟨n, immr, imms⟩

/-! ## §3 The architecture -/

/-- The element sizes of logical immediates. -/
def elementSizes : List Nat := [2, 4, 8, 16, 32, 64]

/-- A run of `ones` ones, rotated right by `rotation` in `e` bits and replicated. -/
def replicatedRun (e ones rotation : Nat) : Nativeint :=
  (((BitVec.allOnes ones).setWidth e).rotateRight rotation |>.replicate (64 / e)).setWidth 64

/-- `x` is a bitmask immediate: the run is neither empty nor full. -/
def IsBitmaskImmediate (x : Nativeint) : Prop :=
  ∃ e ∈ elementSizes, ∃ ones rotation, 0 < ones ∧ ones < e ∧ rotation < e ∧
    x = replicatedRun e ones rotation

/-- The position of the highest set bit below `w`. -/
def highestSetBit (b : Nat) : Nat → Option Nat
  | 0 => none
  | w + 1 => if b.testBit w then some w else highestSetBit b w

/-- `DecodeBitMasks` for an immediate operand, with `none` where the encoding is undefined. -/
def decodeBitMasks (f : EncodedLogicalImmediate) : Option Nativeint := do
  let len ← highestSetBit (f.n * 64 + (63 - f.imms)) 7
  if len < 1 then none
  let levels := 2 ^ len - 1
  if f.imms &&& levels = levels then none
  let s := f.imms &&& levels
  let r := f.immr &&& levels
  let esize := 2 ^ len
  some (replicatedRun esize (s + 1) r)

end Oxcaml.Backend.LogicalImmediates
