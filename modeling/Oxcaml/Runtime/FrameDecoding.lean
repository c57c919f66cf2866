/-
Oxcaml.Runtime.FrameDecoding — how the runtime reads a frame descriptor:
`runtime/caml/frame_descriptors.h`, and the readers in `runtime/frame_descriptors.c`,
`runtime/fiber.c` and `runtime/signals_nat.c`.

A pointer is an address, and memory is the function from the addresses to their bytes.
Numbers are little-endian. Values of the types `uintN_t` are natural numbers, cut off
where the source stores them; shifting a delta by more than its width is undefined.
-/
import Oxcaml.Lib.Bytes
import Mathlib.Data.Nat.Bitwise

set_option linter.all false

namespace Oxcaml.Runtime.FrameDecoding

open Lib.Bytes (Memory readLe bitsFrom)

inductive Exn
  | undefinedShift
  deriving DecidableEq

/-- The targets, which differ in `caml_frame_hot_regs`. -/
inductive Target
  | amd64
  | arm64
  deriving DecidableEq

def Target.camlFrameHotRegs : Target → List ℕ
  | .arm64 => [0, 1, 2, 3, 4, 5, 6, 7]
  | .amd64 => [0, 1, 2, 3, 4, 5, 6, 8]

def frameReturnToCMarker : ℕ := 0xFFFF

def frameLongMarker : ℕ := 0x7FFF

def frameRetaddrRelOfs : ℕ := 1

def frameDataOfs : ℕ := 5

def frameNumLiveOfs : ℕ := 7

def frameLiveOfs : ℕ := 9

def frameLongDataOfs : ℕ := 9

def frameLongNumLiveOfs : ℕ := 13

def frameLongLiveOfs : ℕ := 17

/-- `sizeof(value)`. -/
def sizeofValue : ℕ := 8

variable (mem : Memory)

def uint8 (p : ℕ) : ℕ := readLe mem 1 p

def uint16 (p : ℕ) : ℕ := readLe mem 2 p

def uint32 (p : ℕ) : ℕ := readLe mem 4 p

def int32 (p : ℕ) : ℤ :=
  if uint32 mem p < 2 ^ 31 then (uint32 mem p : ℤ) else (uint32 mem p : ℤ) - 2 ^ 32

/-! ## §1 The header -/

def frameIsShort (d : ℕ) : Bool := uint8 mem d ≠ 0

def frameReturnToC (d : ℕ) : Bool :=
  if frameIsShort mem d then false else uint16 mem (d + frameDataOfs) = frameReturnToCMarker

def frameIsLong (d : ℕ) : Bool :=
  if frameIsShort mem d then false else uint16 mem (d + frameDataOfs) = frameLongMarker

/-- `frame_short_size`. -/
def frameShortSize (d : ℕ) : ℕ := uint8 mem d / 4 * 16

def frameData (d : ℕ) : ℕ :=
  if frameIsShort mem d then frameShortSize mem d ||| uint8 mem d % 4
  else if frameIsLong mem d then uint32 mem (d + frameLongDataOfs)
  else uint16 mem (d + frameDataOfs)

/-- `frame_data(d) &~ FRAME_DESCRIPTOR_FLAGS`. -/
def frameSize (d : ℕ) : ℕ :=
  if frameIsShort mem d then frameShortSize mem d else frameData mem d - frameData mem d % 4

def frameHasAllocs (d : ℕ) : Bool :=
  if frameIsShort mem d then uint8 mem d &&& 2 ≠ 0 else frameData mem d &&& 2 ≠ 0

def frameHasDebug (d : ℕ) : Bool :=
  if frameIsShort mem d then uint8 mem d &&& 1 ≠ 0 else frameData mem d &&& 1 ≠ 0

/-- `Retaddr_frame`. -/
def retaddrFrame (d : ℕ) : ℕ :=
  (((d + frameRetaddrRelOfs : ℕ) + int32 mem (d + frameRetaddrRelOfs)) % 2 ^ 64).toNat

/-- `struct frame_descr_decoded`; its fields are 0 until they are set. -/
structure Decoded where
  isShort : Bool := false
  returnToC : Bool := false
  isLong : Bool := false
  hasAllocs : Bool := false
  hasDebug : Bool := false
  frameSize : ℕ := 0
  numLive : ℕ := 0
  numAllocs : ℕ := 0
  numDebuginfo : ℕ := 0
  shortAllocs : ℕ := 0
  shortRegBitmap : ℕ := 0
  shortLive : ℕ := 0
  shortLiveBytes : ℕ := 0
  endOfLive : ℕ := 0
  endOfDescr : ℕ := 0

/-- `caml_decode_frame_descr`, when the descriptor is short. -/
def decodeShort (d : ℕ) : Decoded :=
  let sf := uint8 mem d
  let p := d + 1
  let hasAllocs : Bool := sf &&& 2 ≠ 0
  let hasDebug : Bool := sf &&& 1 ≠ 0
  let frameSize := sf / 4 * 16
  let shortRegBitmap := if hasAllocs then uint8 mem p else 0
  let numAllocs := if hasAllocs then uint8 mem (p + 1) else 0
  let shortAllocs := if hasAllocs then p + 2 else 0
  let p := if hasAllocs then p + 2 + (numAllocs + 1) / 2 else p
  let shortLiveBytes := (frameSize / sizeofValue + 7) / 8 % 256
  let shortLive := p
  let p := p + shortLiveBytes
  let numDebuginfo := if hasAllocs then numAllocs else 1
  { isShort := true
    hasAllocs
    hasDebug
    frameSize
    numAllocs
    numDebuginfo
    shortAllocs
    shortRegBitmap
    shortLive
    shortLiveBytes
    endOfLive := p
    endOfDescr := if hasDebug then p + 4 * numDebuginfo else p }

/-- `caml_decode_frame_descr`, when the descriptor is escaped and not a return to C. -/
def decodeEscaped (d : ℕ) : Decoded :=
  let isLong := frameIsLong mem d
  let hasAllocs := frameHasAllocs mem d
  let hasDebug := frameHasDebug mem d
  let numLive :=
    if isLong then uint32 mem (d + frameLongNumLiveOfs) else uint16 mem (d + frameNumLiveOfs)
  let p := if isLong then d + frameLongLiveOfs + numLive * 4 else d + frameLiveOfs + numLive * 2
  let endOfLive := p
  let numAllocs := if hasAllocs then uint8 mem p else 0
  let numDebuginfo := if hasAllocs then uint8 mem p else 1
  let p := if hasAllocs then p + (uint8 mem p + 1) else p
  { isLong
    hasAllocs
    hasDebug
    frameSize := frameSize mem d
    numLive
    numAllocs
    numDebuginfo
    endOfLive
    endOfDescr := if hasDebug then p + 4 * numDebuginfo else p }

def camlDecodeFrameDescr (d : ℕ) : Decoded :=
  if frameIsShort mem d then decodeShort mem d
  else if frameReturnToC mem d then
    { returnToC := true, endOfLive := d + frameLiveOfs, endOfDescr := d + frameLiveOfs }
  else decodeEscaped mem d

/-! ## §2 Iteration -/

structure FrametableIter where
  next : ℕ
  retaddr : ℕ
  remaining : ℕ

/-- The loop that reads a delta; its fuel is the number of the shifts that are defined. -/
def readDelta : ℕ → ℕ → ℕ → ℕ → Except Exn (ℕ × ℕ)
  | 0, _, _, _ => throw .undefinedShift
  | fuel + 1, p, delta, shift =>
    let byte := uint8 mem p
    let delta := delta ||| (byte % 128) <<< shift % 2 ^ 64
    if byte / 128 = 1 then readDelta fuel (p + 1) delta (shift + 7) else pure (delta, p + 1)

def frametableIterStart (tbl : ℕ) : FrametableIter :=
  ⟨tbl + 8, 0, readLe mem 8 tbl⟩

/-- The descriptor, with the iterator after it. -/
def frametableIterNext (it : FrametableIter) : Except Exn (ℕ × FrametableIter) := do
  let p := it.next
  let (d, retaddr) ← if uint8 mem p = 0 then pure (p, retaddrFrame mem p)
    else do
      let (delta, p) ← readDelta mem 10 p 0 0
      pure (p, (it.retaddr + delta) % 2 ^ 64)
  let dec := camlDecodeFrameDescr mem d
  pure (d, ⟨dec.endOfDescr, retaddr, it.remaining - 1⟩)

/-- A descriptor that is yielded: where its delta starts, its return address, and it. -/
structure Yielded where
  start : ℕ
  retaddr : ℕ
  descr : ℕ

/-- `while (it.remaining > 0)`. -/
def iterate : ℕ → FrametableIter → Except Exn (List Yielded × FrametableIter)
  | 0, it => pure ([], it)
  | remaining + 1, it => do
    let (d, it') ← frametableIterNext mem it
    let (rest, last) ← iterate remaining it'
    pure (⟨it.next, it'.retaddr, d⟩ :: rest, last)

def readFrametable (tbl : ℕ) : Except Exn (List Yielded × FrametableIter) :=
  let it := frametableIterStart mem tbl
  iterate mem it.remaining it

/-! ## §3 Roots and allocations -/

/-- A root that `scan_stack_frames` visits: `regs + n`, or `sp + ofs`. -/
inductive Root
  | reg (n : ℕ)
  | slot (ofs : ℕ)
  deriving DecidableEq

/-- The root of an entry of `live_ofs`. -/
def rootOf (ofs : ℕ) : Root := if ofs % 2 = 1 then .reg (ofs / 2) else .slot ofs

/-- The loops over `live_ofs`, whose entries have the width `size`. -/
def scanLive (size : ℕ) : ℕ → ℕ → List Root
  | 0, _ => []
  | n + 1, p => rootOf (readLe mem size p) :: scanLive size n (p + size)

/-- The loop over the bitmap of the frame. -/
def scanBitmap (shortLive : ℕ) (byte : ℕ) : List Root :=
  (bitsFrom 8 0 (uint8 mem (shortLive + byte))).map fun i => .slot ((byte * 8 + i) * sizeofValue)

/-- The roots of the frame of a descriptor. -/
def scanFrame (target : Target) (d : ℕ) : List Root :=
  if frameReturnToC mem d then []
  else if frameIsShort mem d then
    let dec := camlDecodeFrameDescr mem d
    let regs :=
      if dec.hasAllocs then
        (bitsFrom 8 0 dec.shortRegBitmap).map fun i => .reg (target.camlFrameHotRegs.getD i 0)
      else []
    regs ++ (List.range dec.shortLiveBytes).flatMap (scanBitmap mem dec.shortLive)
  else if frameIsLong mem d then
    scanLive mem 4 (uint32 mem (d + frameLongNumLiveOfs)) (d + frameLongLiveOfs)
  else scanLive mem 2 (uint16 mem (d + frameNumLiveOfs)) (d + frameLiveOfs)

/-- The encoded allocation lengths that `current_frame_alloc_wosize` reads. -/
def allocLen (d : ℕ) : List ℕ :=
  let dec := camlDecodeFrameDescr mem d
  (List.range dec.numAllocs).map fun i =>
    if dec.isShort then
      let byte := uint8 mem (dec.shortAllocs + i / 2)
      if i % 2 = 1 then byte / 16 else byte % 16
    else uint8 mem (dec.endOfLive + 1 + i)

/-- `Whsize_wosize(Wosize_encoded_alloc_len(n))`. -/
def whsizeEncoded (n : ℕ) : ℕ := n + 1 + 1

def currentFrameAllocWosize (d : ℕ) : ℤ × List ℕ :=
  let alloc := allocLen mem d
  if alloc.length = 0 then (0, [])
  else ((alloc.map fun n => (whsizeEncoded n : ℤ)).sum - 1, alloc)

end Oxcaml.Runtime.FrameDecoding
