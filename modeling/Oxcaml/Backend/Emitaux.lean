/-
Oxcaml.Backend.Emitaux — recording and emission of frame descriptors,
`backend/emitaux.ml`.

An OCaml `int` is an integer. `emit_frames` gives the directives that it passes to the
assembler for the descriptors; the debug information, the names and the strings that it
emits after them are left out, and a label of debug information is the key under which
`label_debuginfos` finds it. A fatal error is `fatal`.
-/
import Oxcaml.Lib.Arrays
import Mathlib.Data.Nat.Bitwise

set_option linter.all false

namespace Oxcaml.Backend.Emitaux

inductive Error
  | assertFailure
  | indexOutOfBounds
  | fatal
  | stackFrameTooLarge (n : ℤ)
  | stackFrameWayTooLarge (n : ℤ)
  deriving DecidableEq

/-- The architectures, which differ in `Arch.frame_hot_regs`. -/
inductive Arch
  | amd64
  | arm64
  deriving DecidableEq

def Arch.frameHotRegs : Arch → List ℕ
  | .amd64 => [0, 1, 2, 3, 4, 5, 6, 8]
  | .arm64 => [0, 1, 2, 3, 4, 5, 6, 7]

/-- `Arch.size_addr`. -/
def sizeAddr : ℤ := 8

/-- `Config.max_young_wosize`. -/
def maxYoungWosize : ℤ := 256

/-- `Oxcaml_flags.max_long_frames_threshold`. -/
def maxLongFramesThreshold : ℤ := 0x7FFF

variable {δ : Type}

/-- The flags of the compiler; `set_long_frames_threshold` checks its argument. -/
structure Flags (δ : Type) where
  debug : Bool
  isNoneDbg : δ → Bool
  longFramesThreshold : ℤ
  allowLongFrames : Bool
  disableShortDescriptors : Bool
  arch : Arch
  threshold_le : longFramesThreshold ≤ maxLongFramesThreshold

structure AllocDbginfo (δ : Type) where
  allocWords : ℤ
  allocDbg : δ

inductive FrameDebuginfo (δ : Type)
  | dbgAlloc (dbgs : List (AllocDbginfo δ))
  | dbgRaise (dbg : δ)
  | dbgOther (dbg : δ)

structure FrameDescr (δ : Type) where
  fdLbl : ℕ
  fdFrameSize : ℤ
  fdLiveOffset : List ℤ
  fdDebuginfo : FrameDebuginfo δ
  fdLong : Bool
  fdSection : ℕ

inductive Label (δ : Type)
  | code (lbl : ℕ)
  | debuginfos (rs : Bool) (dbg : δ)

/-- The directives of `emit_frame_actions` that emit bytes. -/
inductive Directive (δ : Type)
  | u8 (n : ℕ)
  | u16 (n : ℕ)
  | u32 (n : ℕ)
  | i32 (n : ℤ)
  | word (n : ℤ)
  | labelRel (lbl : Label δ) (ofs : ℤ)
  | labelDelta (upper lower : ℕ)

abbrev Block (δ : Type) := List (Directive δ)

/-! ## §1 Recording -/

variable (flags : Flags δ)

def getFlags : FrameDebuginfo δ → ℕ
  | .dbgOther d => if flags.isNoneDbg d then 0 else 1
  | .dbgRaise d => if flags.isNoneDbg d then 0 else 1
  | .dbgAlloc dbgs =>
    if flags.debug && dbgs.any fun d => !flags.isNoneDbg d.allocDbg then 3 else 2

def isLong (n : ℤ) : Except Error Bool :=
  if ¬0 ≤ n then throw .assertFailure
  else if n > 0x3FFFFFFF then throw (.stackFrameWayTooLarge n)
  else pure (flags.longFramesThreshold ≤ n)

/-- `List.sort_uniq (-)`. -/
def sortUniq (l : List ℤ) : List ℤ := l.dedup.mergeSort (· ≤ ·)

/-- The descriptor that is put in front of `frame_descriptors`, in the section `epoch`. -/
def recordFrameDescr (label : ℕ) (frameSize : ℤ) (liveOffset : List ℤ)
    (debuginfo : FrameDebuginfo δ) (epoch : ℕ) : Except Error (FrameDescr δ) :=
  if frameSize % 4 ≠ 0 then throw .assertFailure
  else do
    let fdLong ← isLong flags (frameSize + getFlags flags debuginfo) <||>
      isLong flags liveOffset.length <||> liveOffset.anyM (isLong flags)
    if fdLong && !flags.allowLongFrames then throw (.stackFrameTooLarge frameSize)
    else pure {
      fdLbl := label
      fdFrameSize := frameSize
      fdLiveOffset := sortUniq liveOffset
      fdDebuginfo := debuginfo
      fdLong
      fdSection := epoch }

/-! ## §2 Emission -/

/-- The functions that check that a number is in the range of an unsigned type. -/
def emitUnsigned (limit : ℤ) (directive : ℕ → Directive δ) (n : ℤ) : Except Error (Block δ) :=
  if n < 0 ∨ n > limit then throw .fatal else pure [directive n.toNat]

def emitU8 (n : ℤ) : Except Error (Block δ) := emitUnsigned 0xFF .u8 n

def emitU16 (n : ℤ) : Except Error (Block δ) := emitUnsigned 0xFFFF .u16 n

def emitU32 (n : ℤ) : Except Error (Block δ) := emitUnsigned 0xFFFFFFFF .u32 n

/-- `List.iter`. -/
def emitIter {α : Type} (emit : α → Except Error (Block δ)) : List α → Except Error (Block δ)
  | [] => pure []
  | x :: l => do
    let first ← emit x
    let rest ← emitIter emit l
    pure (first ++ rest)

def emitDebugWords (fd : FrameDescr δ) : List (Directive δ) :=
  if getFlags flags fd.fdDebuginfo = 0 then []
  else
    match fd.fdDebuginfo with
    | .dbgOther dbg => [.labelRel (.debuginfos false dbg) 0]
    | .dbgRaise dbg => [.labelRel (.debuginfos true dbg) 0]
    | .dbgAlloc dbgs =>
      if getFlags flags fd.fdDebuginfo = 3 then
        dbgs.map fun d =>
          if flags.isNoneDbg d.allocDbg then .i32 0 else .labelRel (.debuginfos false d.allocDbg) 0
      else []

/-- The allocation length of an escaped descriptor. -/
def emitAllocWords (d : AllocDbginfo δ) : Except Error (Block δ) :=
  if 2 ≤ d.allocWords ∧ d.allocWords - 1 ≤ maxYoungWosize ∧ maxYoungWosize ≤ 256 then
    emitU8 (d.allocWords - 2)
  else throw .assertFailure

/-- The blocks that follow one another. -/
def emitSeq : List (Except Error (Block δ)) → Except Error (Block δ) := emitIter id

/-- The allocation lengths of an escaped descriptor. -/
def emitAllocs : FrameDebuginfo δ → Except Error (Block δ)
  | .dbgAlloc dbgs =>
    if ¬dbgs.length < 256 then throw .assertFailure
    else emitSeq [emitU8 dbgs.length, emitIter emitAllocWords dbgs]
  | _ => pure []

/-- The marker of a long descriptor. -/
def emitMarker (fd : FrameDescr δ) : Except Error (Block δ) :=
  if fd.fdLong then emitSeq [emitU16 maxLongFramesThreshold, emitU16 0] else pure []

def emitUnsigned16Or32 (fd : FrameDescr δ) : ℤ → Except Error (Block δ) :=
  if fd.fdLong then emitU32 else emitU16

def emitEscapedFrame (fd : FrameDescr δ) : Except Error (Block δ) :=
  emitSeq [pure [.labelRel (.code fd.fdLbl) 0], emitMarker fd,
    emitUnsigned16Or32 fd (fd.fdFrameSize + getFlags flags fd.fdDebuginfo),
    emitUnsigned16Or32 fd fd.fdLiveOffset.length,
    emitIter (emitUnsigned16Or32 fd) fd.fdLiveOffset,
    emitAllocs fd.fdDebuginfo,
    pure (emitDebugWords flags fd)]

/-- `n lsr 1`. -/
def lsr1 (n : ℤ) : ℕ := (n % 2 ^ 63).toNat / 2

/-- The live registers. -/
def liveRegs (live : List ℤ) : List ℕ := (live.filter (· % 2 = 1)).map lsr1

/-- The byte offsets of the live stack slots. -/
def liveSlots (live : List ℤ) : List ℤ := live.filter fun n => ¬n % 2 = 1

structure ShortEncoding where
  sizeUnits : ℤ
  numAllocs : ℕ
  allocNibbles : List ℤ
  regBitmap : ℕ
  slotBitmap : List ℕ

/-- The words of the slots, with `none` for a slot outside the frame. -/
def wordSlots (frameWords : ℤ) (slots : List ℤ) : Except Error (List (Option ℤ)) :=
  slots.mapM fun byteOfs =>
    if byteOfs % sizeAddr ≠ 0 then throw .assertFailure
    else
      let w := byteOfs.tdiv sizeAddr
      pure (if w ≥ frameWords then none else some w)

def hotRegBit (reg : ℕ) : Option ℕ := flags.arch.frameHotRegs.findIdx? (· = reg)

def regBits (regs : List ℕ) : Option ℕ :=
  regs.foldlM (fun bits reg => (hotRegBit flags reg).map fun b => bits ||| 1 <<< b) 0

/-- `slot_bitmap.(w / 8) <- slot_bitmap.(w / 8) lor (1 lsl (w land 7))`. -/
def setSlot (slotBitmap : List ℕ) (w : ℤ) : Except Error (List ℕ) := do
  let byte ← Lib.read .indexOutOfBounds slotBitmap (w / 8).toNat
  Lib.write .indexOutOfBounds slotBitmap (w / 8).toNat (byte ||| 1 <<< (w % 8).toNat)

def allocNibblesOf : FrameDebuginfo δ → List ℤ
  | .dbgAlloc dbgs => dbgs.map fun d => d.allocWords - 2
  | _ => []

def shortEncoding (fd : FrameDescr δ) : Except Error (Option ShortEncoding) :=
  let hasAlloc := getFlags flags fd.fdDebuginfo &&& 2 ≠ 0
  let size := fd.fdFrameSize
  if fd.fdLong || size ≤ 0 || size > 63 * 16 || size % 16 ≠ 0 then pure none
  else do
    let frameWords := size.tdiv sizeAddr
    let regs := liveRegs fd.fdLiveOffset
    let words ← wordSlots frameWords (liveSlots fd.fdLiveOffset)
    if words.any Option.isNone then pure none
    else if !hasAlloc && !regs.isEmpty then pure none
    else
      match regBits flags regs with
      | none => pure none
      | some regBitmap => do
        let allocNibbles := allocNibblesOf fd.fdDebuginfo
        let numAllocs := allocNibbles.length
        if numAllocs > 255 || allocNibbles.any fun s => s < 0 || s > 15 then pure none
        else do
          let slotBitmap ← (words.filterMap id).foldlM setSlot
            (List.replicate ((frameWords + 7) / 8).toNat 0)
          pure (some ⟨size.tdiv 16, numAllocs, allocNibbles, regBitmap, slotBitmap⟩)

def emitNibbles : List ℤ → Except Error (Block δ)
  | [] => pure []
  | [a] => emitU8 (a % 16)
  | a :: b :: rest =>
    emitSeq [emitU8 ((a % 16).toNat ||| (b % 16).toNat <<< 4 : ℕ), emitNibbles rest]

def emitShortBody (fd : FrameDescr δ) (encoding : ShortEncoding) : Except Error (Block δ) :=
  let hasAlloc := getFlags flags fd.fdDebuginfo &&& 2 ≠ 0
  emitSeq [emitU8 (encoding.sizeUnits.toNat <<< 2 ||| getFlags flags fd.fdDebuginfo : ℕ),
    if hasAlloc then
      emitSeq [emitU8 encoding.regBitmap, emitU8 encoding.numAllocs,
        emitNibbles encoding.allocNibbles]
    else pure [],
    emitIter (fun (byte : ℕ) => emitU8 byte) encoding.slotBitmap,
    pure (emitDebugWords flags fd)]

/-- The function `escape` of `emit_descr`. -/
def escape (fd : FrameDescr δ) : Except Error (Block δ) :=
  emitSeq [emitU8 0, emitEscapedFrame flags fd]

def emitDescr (prev : Option (FrameDescr δ)) (fd : FrameDescr δ) : Except Error (Block δ) :=
  if flags.disableShortDescriptors then escape flags fd
  else
    match prev with
    | none => escape flags fd
    | some prevFd =>
      if prevFd.fdSection = fd.fdSection then do
        match ← shortEncoding flags fd with
        | some encoding =>
          emitSeq [pure [.labelDelta fd.fdLbl prevFd.fdLbl], emitShortBody flags fd encoding]
        | none => escape flags fd
      else escape flags fd

def emitDescrs : Option (FrameDescr δ) → List (FrameDescr δ) → Except Error (Block δ)
  | _, [] => pure []
  | prev, fd :: descrs => emitSeq [emitDescr flags prev fd, emitDescrs (some fd) descrs]

/-- The part of `emit_frames` up to the last descriptor. -/
def emitFrames (frameDescriptors : List (FrameDescr δ)) : Except Error (Block δ) :=
  let descrs := frameDescriptors.reverse
  emitSeq [pure [.word descrs.length], emitDescrs flags none descrs]

end Oxcaml.Backend.Emitaux
