/-
Oxcaml.Backend.DwarfValue — sizes in DWARF sections and the values that are written into
them: `dwarf_low/dwarf_int.ml` and `dwarf_low/dwarf_value.ml` of `backend/debug/dwarf`.

`Dwarf_format` is set to the format of the flags. The host and the target have 64 bits, so
a sum of sizes does not exceed an `Int64.t`. Comments are left out.
-/
import Oxcaml.Backend.AsmDirectives

namespace Oxcaml.Backend

open AsmDirectives

/-! ## §1 Sizes -/

/-- `Dwarf_int.t`. -/
inductive DwarfInt
  | thirtyTwo (i : ℤ)
  | sixtyFour (i : ℤ)
  deriving DecidableEq

namespace DwarfInt

variable (env : Env)

def num (i : ℤ) : DwarfInt :=
  match env.gdwarfFormat with
  | .thirtyTwo => .thirtyTwo i
  | .sixtyFour => .sixtyFour i

def zero : DwarfInt := num env 0

def one : DwarfInt := num env 1

def two : DwarfInt := num env 2

def four : DwarfInt := num env 4

def eight : DwarfInt := num env 8

/-- `of_int64_exn`, and on a machine of 64 bits `of_host_int_exn` and `of_targetint_exn`. -/
def ofInt64Exn (i : ℤ) : Except Exn DwarfInt :=
  match env.gdwarfFormat with
  | .sixtyFour => pure (.sixtyFour i)
  | .thirtyTwo =>
    if -0x80000000 ≤ i ∧ i ≤ 0x7fffffff then pure (.thirtyTwo i)
    else throw .tooLargeForThirtyTwoBitDwarf

def toInt64 : DwarfInt → ℤ
  | .thirtyTwo i => i
  | .sixtyFour i => i

def toUint64Exn (t : DwarfInt) : Except Exn ℕ :=
  if t.toInt64 < 0 then throw (.fatal "Uint64.of_nonnegative_int64_exn") else pure t.toInt64.toNat

def add : DwarfInt → DwarfInt → Except Exn DwarfInt
  | .thirtyTwo i, .thirtyTwo i' => ofInt64Exn env (i + i')
  | .sixtyFour i, .sixtyFour i' => ofInt64Exn env (i + i')
  | _, _ => throw (.fatal "Cannot intermix sizes of [Dwarf_int]s")

/-- The sum of what two functions return. -/
def sum (size size' : Except Exn DwarfInt) : Except Exn DwarfInt := do
  let t ← size
  let t' ← size'
  add env t t'

/-- `List.fold_left (fun size x -> Dwarf_int.add size (f x)) init`. -/
def foldAdd {α : Type} (f : α → Except Exn DwarfInt) (init : DwarfInt) :
    List α → Except Exn DwarfInt
  | [] => pure init
  | x :: l => do
    let size ← sum env (pure init) (f x)
    foldAdd f size l

def succ (t : DwarfInt) : Except Exn DwarfInt := add env t (one env)

def widthAsInt64 : ℤ :=
  match zero env with
  | .thirtyTwo _ => 4
  | .sixtyFour _ => 8

def size : DwarfInt → DwarfInt
  | .thirtyTwo _ => .thirtyTwo 4
  | .sixtyFour _ => .sixtyFour 8

def emit : DwarfInt → Emission
  | .thirtyTwo i => int32 i
  | .sixtyFour i => int64 i

end DwarfInt

/-! ## §2 Values -/

/-- `Dwarf_value.value`. -/
inductive DwarfValue
  | flagTrue
  | bool (b : Bool)
  | int8 (i : ℤ)
  | int16 (i : ℤ)
  | int32 (i : ℤ)
  | int64 (i : ℤ)
  | uint8 (n : ℕ)
  | uint16 (n : ℕ)
  | uint32 (n : ℕ)
  | uint64 (n : ℕ)
  | uleb128 (n : ℕ)
  | sleb128 (i : ℤ)
  | string (str : List UInt8)
  | indirectString (str : List UInt8) (cached : AsmLabel)
  | absoluteAddress (addr : ℤ)
  | codeAddressFromLabel (lbl : AsmLabel)
  | codeAddressFromLabelPlusOffset (label : AsmLabel) (offsetInBytes : ℤ)
  | codeAddressFromSymbol (sym : AsmSymbol)
  | codeAddressFromLabelSymbolDiff (upper : AsmLabel) (lower : AsmSymbol) (offsetUpper : ℤ)
  | codeAddressFromSymbolDiff (upper lower : AsmSymbol)
  | codeAddressFromSymbolPlusBytes (sym : AsmSymbol) (offsetInBytes : ℤ)
  | offsetIntoDebugInfo (lbl : AsmLabel)
  | offsetIntoDebugInfoFromSymbol (sym : AsmSymbol)
  | offsetIntoDebugLine (lbl : AsmLabel)
  | offsetIntoDebugLineFromSymbol (sym : AsmSymbol)
  | offsetIntoDebugAddr (lbl : AsmLabel)
  | offsetIntoDebugLoc (lbl : AsmLabel)
  | offsetIntoDebugRanges (lbl : AsmLabel)
  | offsetIntoDebugLoclists (lbl : AsmLabel)
  | offsetIntoDebugRnglists (lbl : AsmLabel)
  | offsetIntoDebugAbbrev (lbl : AsmLabel)
  | distanceBetweenLabels16Bit (upper lower : AsmLabel)
  | distanceBetweenLabels32Bit (upper lower : AsmLabel)
  | distanceBetweenLabels64Bit (upper lower : AsmLabel)
  | distanceBetweenLabels64BitWithOffsets (upper : AsmLabel) (upperOffset : ℤ) (lower : AsmLabel)
      (lowerOffset : ℤ)

namespace DwarfValue

variable (env : Env)

/-- `uleb128_size`, by recursion over the groups of 7 bits. -/
def uleb128Size (n : ℕ) : Except Exn DwarfInt :=
  if n < 128 then pure (DwarfInt.one env)
  else do
    let size ← uleb128Size (n / 128)
    DwarfInt.succ env size
termination_by n
decreasing_by omega

def sleb128Size (i : ℤ) : Except Exn DwarfInt :=
  if -64 ≤ i ∧ i < 64 then pure (DwarfInt.one env)
  else do
    let size ← sleb128Size (i / 128)
    DwarfInt.succ env size
termination_by i.natAbs
decreasing_by omega

def size : DwarfValue → Except Exn DwarfInt
  | .flagTrue => pure (DwarfInt.zero env)
  | .bool _ => pure (DwarfInt.one env)
  | .int8 _ | .uint8 _ => pure (DwarfInt.one env)
  | .int16 _ | .uint16 _ => pure (DwarfInt.two env)
  | .int32 _ | .uint32 _ => pure (DwarfInt.four env)
  | .int64 _ | .uint64 _ => pure (DwarfInt.eight env)
  | .uleb128 n => uleb128Size env n
  | .sleb128 i => sleb128Size env i
  | .absoluteAddress _ | .codeAddressFromLabel _ | .codeAddressFromLabelPlusOffset _ _
  | .codeAddressFromSymbol _ | .codeAddressFromLabelSymbolDiff _ _ _
  | .codeAddressFromSymbolDiff _ _ | .codeAddressFromSymbolPlusBytes _ _ =>
    pure (DwarfInt.eight env)
  | .string str => DwarfInt.ofInt64Exn env (str.length + 1)
  | .indirectString _ _ | .offsetIntoDebugLine _ | .offsetIntoDebugLineFromSymbol _
  | .offsetIntoDebugInfo _ | .offsetIntoDebugInfoFromSymbol _ | .offsetIntoDebugAddr _
  | .offsetIntoDebugLoc _ | .offsetIntoDebugRanges _ | .offsetIntoDebugLoclists _
  | .offsetIntoDebugRnglists _ | .offsetIntoDebugAbbrev _ =>
    pure (DwarfInt.size (DwarfInt.zero env))
  | .distanceBetweenLabels16Bit _ _ => pure (DwarfInt.two env)
  | .distanceBetweenLabels32Bit _ _ => pure (DwarfInt.four env)
  | .distanceBetweenLabels64Bit _ _ | .distanceBetweenLabels64BitWithOffsets _ _ _ _ =>
    pure (DwarfInt.eight env)

/-- `emit`; the label of an indirect string is what `cache_string` returns for it. -/
def emit : DwarfValue → Emission
  | .flagTrue => emitNothing
  | .bool b => AsmDirectives.int8 (if b then 1 else 0)
  | .int8 i => AsmDirectives.int8 i
  | .int16 i => AsmDirectives.int16 i
  | .int32 i => AsmDirectives.int32 i
  | .int64 i => AsmDirectives.int64 i
  | .uint8 n => AsmDirectives.uint8 n
  | .uint16 n => AsmDirectives.uint16 n
  | .uint32 n => AsmDirectives.uint32 n
  | .uint64 n => AsmDirectives.uint64 n
  | .uleb128 n => AsmDirectives.uleb128 n
  | .sleb128 i => AsmDirectives.sleb128 i
  | .string str => AsmDirectives.string str
  | .indirectString _ cached => offsetIntoDwarfSectionLabel env .debugStr cached
  | .absoluteAddress addr => targetint addr
  | .codeAddressFromLabel lbl => label lbl
  | .codeAddressFromLabelPlusOffset label offsetInBytes => labelPlusOffset label offsetInBytes
  | .codeAddressFromSymbol sym => symbol sym
  | .codeAddressFromLabelSymbolDiff upper lower offsetUpper =>
    betweenSymbolInCurrentUnitAndLabelOffset env upper lower offsetUpper
  | .codeAddressFromSymbolDiff upper lower => betweenSymbolsInCurrentUnit env upper lower
  | .codeAddressFromSymbolPlusBytes sym offsetInBytes => symbolPlusOffset sym offsetInBytes
  | .offsetIntoDebugLine label => offsetIntoDwarfSectionLabel env .debugLine label
  | .offsetIntoDebugLineFromSymbol symbol => offsetIntoDwarfSectionSymbol env .debugLine symbol
  | .offsetIntoDebugInfo lbl => offsetIntoDwarfSectionLabel env .debugInfo lbl
  | .offsetIntoDebugInfoFromSymbol sym => offsetIntoDwarfSectionSymbol env .debugInfo sym
  | .offsetIntoDebugAddr label => offsetIntoDwarfSectionLabel env .debugAddr label
  | .offsetIntoDebugLoc label => offsetIntoDwarfSectionLabel env .debugLoc label
  | .offsetIntoDebugRanges label => offsetIntoDwarfSectionLabel env .debugRanges label
  | .offsetIntoDebugLoclists label => offsetIntoDwarfSectionLabel env .debugLoclists label
  | .offsetIntoDebugRnglists label => offsetIntoDwarfSectionLabel env .debugRnglists label
  | .offsetIntoDebugAbbrev label => offsetIntoDwarfSectionLabel env .debugAbbrev label
  | .distanceBetweenLabels16Bit _ _ => betweenLabels16Bit
  | .distanceBetweenLabels32Bit upper lower => betweenLabels32Bit upper lower
  | .distanceBetweenLabels64Bit _ _ => betweenLabels64Bit
  | .distanceBetweenLabels64BitWithOffsets upper upperOffset lower lowerOffset =>
    betweenLabels64BitWithOffsets env upper upperOffset lower lowerOffset

end DwarfValue

end Oxcaml.Backend
