/-
Oxcaml.Backend.DwarfSections — the contents of DWARF sections, from location descriptions
to the tables and the compilation unit: the other files of `backend/debug/dwarf/dwarf_low`.

A tag, an attribute and a form are the numbers that encode them. A map is the list of its
data in the order of the keys, a set the list of its elements.
-/
import Oxcaml.Backend.DwarfOperator

set_option linter.all false

namespace Oxcaml.Backend

open DwarfInt (foldAdd ofInt64Exn sum zero)
open DwarfOperator (nonnegativeToUint64Exn sizeAddr)

open AsmDirectives

/-- A size function and `emit`, the signature `Dwarf_emittable.S`. -/
structure DwarfEmittable (α : Type) where
  size : α → Except Exn DwarfInt
  emit : α → Emission

variable (env : Env)

/-! ## §1 Location descriptions -/

abbrev SimpleLocationDescription := List DwarfOperator

def simpleLocationDescription : DwarfEmittable SimpleLocationDescription where
  size := DwarfOperator.sizeOfExpression env
  emit := emitIter (DwarfOperator.emit env)

/-- `Pieces`. -/
abbrev CompositeLocationDescription := List (SimpleLocationDescription × ℤ)

def compositeLocationDescription : DwarfEmittable CompositeLocationDescription where
  size := fun slds =>
    foldAdd env (fun (sld, sizeInBytes) =>
      sum env ((simpleLocationDescription env).size sld)
        (DwarfOperator.size env (.piece sizeInBytes))) (zero env) slds
  emit := emitIter fun (sld, sizeInBytes) =>
    emitSeq [(simpleLocationDescription env).emit sld, DwarfOperator.emit env (.piece sizeInBytes)]

inductive SingleLocationDescription
  | simple (sle : SimpleLocationDescription)
  | composite (cle : CompositeLocationDescription)

def singleLocationDescription : DwarfEmittable SingleLocationDescription where
  size := fun
    | .simple sle => (simpleLocationDescription env).size sle
    | .composite cle => (compositeLocationDescription env).size cle
  emit := fun
    | .simple sle => (simpleLocationDescription env).emit sle
    | .composite cle => (compositeLocationDescription env).emit cle

/-- `Counted_location_description.t`, which `create` makes with its size. -/
structure CountedLocationDescription where
  locDesc : SingleLocationDescription
  locDescSize : DwarfInt
  size_eq : (singleLocationDescription env).size locDesc = .ok locDescSize

def countedLocationDescription : DwarfEmittable (CountedLocationDescription env) where
  size := fun t => do
    let length ← t.locDescSize.toUint64Exn
    sum env ((DwarfValue.uleb128 length).size env) (pure t.locDescSize)
  emit := fun t => do
    let length ← t.locDescSize.toUint64Exn
    emitSeq [(DwarfValue.uleb128 length).emit env, (singleLocationDescription env).emit t.locDesc]

/-! ## §2 Debugging information entries -/

/-- `Dwarf_attribute_values.Value.internal_t`. -/
inductive AttributeValue
  | dwarfValue (value : DwarfValue)
  | singleLocationDescription (locDesc : SingleLocationDescription)
  | compositeLocationDescription (locDesc : CompositeLocationDescription)

/-- A location description with the size that is in front of it. -/
def sizeWithLength {α : Type} (locDesc : DwarfEmittable α) (t : α) : Except Exn DwarfInt := do
  let locDescSize ← locDesc.size t
  let length ← locDescSize.toUint64Exn
  sum env (DwarfValue.uleb128Size env length) (pure locDescSize)

def emitWithLength {α : Type} (locDesc : DwarfEmittable α) (t : α) : Emission := do
  let locDescSize ← locDesc.size t
  let length ← locDescSize.toUint64Exn
  emitSeq [uleb128 length, locDesc.emit t]

/-- `Attribute_value`. -/
def attributeValue : DwarfEmittable AttributeValue where
  size := fun
    | .dwarfValue value => value.size env
    | .singleLocationDescription locDesc =>
      sizeWithLength env (singleLocationDescription env) locDesc
    | .compositeLocationDescription locDesc =>
      sizeWithLength env (compositeLocationDescription env) locDesc
  emit := fun
    | .dwarfValue value => value.emit env
    | .singleLocationDescription locDesc =>
      emitWithLength (singleLocationDescription env) locDesc
    | .compositeLocationDescription locDesc =>
      emitWithLength (compositeLocationDescription env) locDesc

/-- `Debugging_information_entry.t`; the abbreviation code 0 is `null`. -/
structure DebuggingInformationEntry where
  label : AsmLabel
  name : Option AsmSymbol
  abbreviationCode : ℕ
  attributeValues : List AttributeValue

def debuggingInformationEntry : DwarfEmittable DebuggingInformationEntry where
  size := fun t => do
    let codeSize ← (DwarfValue.uleb128 t.abbreviationCode).size env
    foldAdd env (attributeValue env).size codeSize t.attributeValues
  emit := fun t => emitSeq [
    if t.abbreviationCode ≠ 0 then
      emitSeq [
        match t.name with
        | none => emitNothing
        | some symbol => defineDataSymbol symbol,
        defineLabel env t.label]
    else emitNothing,
    (DwarfValue.uleb128 t.abbreviationCode).emit env,
    emitIter (attributeValue env).emit t.attributeValues]

/-! ## §3 Abbreviations -/

inductive ChildDetermination
  | yes
  | no
  deriving DecidableEq

def ChildDetermination.encode : ChildDetermination → ℤ
  | .yes => 0x01
  | .no => 0x00

def childDetermination : DwarfEmittable ChildDetermination where
  size := fun _ => pure (DwarfInt.one env)
  emit := fun t => (DwarfValue.int8 t.encode).emit env

/-- `Attribute_specification.Sealed.t`, by the codes of the attribute and the form. -/
structure AttributeSpecification where
  attributeCode : ℕ
  formCode : ℕ

def attributeSpecification : DwarfEmittable AttributeSpecification where
  size := fun t => sum env ((DwarfValue.uleb128 t.attributeCode).size env)
    ((DwarfValue.uleb128 t.formCode).size env)
  emit := fun t => emitSeq [(DwarfValue.uleb128 t.attributeCode).emit env,
    (DwarfValue.uleb128 t.formCode).emit env]

structure AbbreviationsTableEntry where
  abbreviationCode : ℕ
  tag : ℕ
  hasChildren : ChildDetermination
  attributeSpecs : List AttributeSpecification

def abbreviationsTableEntry : DwarfEmittable AbbreviationsTableEntry where
  size := fun t => sum env (sum env (sum env (sum env
    (sum env ((DwarfValue.uleb128 t.abbreviationCode).size env)
      ((DwarfValue.uleb128 t.tag).size env))
      ((childDetermination env).size t.hasChildren))
      (foldAdd env (attributeSpecification env).size (zero env) t.attributeSpecs))
      ((DwarfValue.uleb128 0).size env))
      ((DwarfValue.uleb128 0).size env)
  emit := fun t => emitSeq [(DwarfValue.uleb128 t.abbreviationCode).emit env,
    (DwarfValue.uleb128 t.tag).emit env,
    (childDetermination env).emit t.hasChildren,
    emitIter (attributeSpecification env).emit t.attributeSpecs,
    (DwarfValue.uleb128 0).emit env,
    (DwarfValue.uleb128 0).emit env]

abbrev AbbreviationsTable := List AbbreviationsTableEntry

def abbreviationsTable : DwarfEmittable AbbreviationsTable where
  size := fun t => sum env ((DwarfValue.uleb128 0).size env)
    (foldAdd env (abbreviationsTableEntry env).size (zero env) t)
  emit := fun t => emitSeq [emitIter (abbreviationsTableEntry env).emit t,
    (DwarfValue.uleb128 0).emit env]

/-! ## §4 Initial lengths -/

/-- `Initial_length`. -/
def initialLength : DwarfEmittable DwarfInt where
  size := fun t => pure t.size
  emit := fun t =>
    match env.gdwarfFormat with
    | .thirtyTwo => t.emit
    | .sixtyFour => emitSeq [(DwarfValue.int32 0xffffffff).emit env, t.emit]

/-- The size of what an initial length stands in front of, with the initial length. -/
def sizeWithInitialLength (length : Except Exn DwarfInt) : Except Exn DwarfInt := do
  let length ← length
  sum env ((initialLength env).size length) (pure length)

def DwarfVersion.code : DwarfVersion → ℤ
  | .four => 4
  | .five => 5

/-- `Dwarf_version`. -/
def dwarfVersion : DwarfEmittable DwarfVersion where
  size := fun t => (DwarfValue.int16 (DwarfVersion.code t)).size env
  emit := fun t => (DwarfValue.int16 (DwarfVersion.code t)).emit env

/-! ## §5 Address tables -/

structure AddressTableEntry where
  addr : AsmLabel
  adjustment : ℤ
  startOfCodeSymbol : AsmSymbol

structure AddressTable where
  baseAddr : AsmLabel
  table : List AddressTableEntry

def AddressTable.initialLength (t : AddressTable) : Except Exn DwarfInt :=
  ofInt64Exn env (4 + t.table.length * 8)

def AddressTableEntry.toDwarfValue (entry : AddressTableEntry) : DwarfValue :=
  .codeAddressFromLabelSymbolDiff entry.addr entry.startOfCodeSymbol entry.adjustment

/-- The emission of an address table after its initial length. -/
def emitAddressTable (t : AddressTable) : Emission :=
  emitSeq [(dwarfVersion env).emit .five, uint8 sizeAddr, uint8 0,
    defineLabel env t.baseAddr,
    emitIter (fun (entry : AddressTableEntry) => entry.toDwarfValue.emit env) t.table]

def addressTable : DwarfEmittable AddressTable where
  size := fun t => sizeWithInitialLength env (t.initialLength env)
  emit := fun t => do
    let length ← t.initialLength env
    emitSeq [(initialLength env).emit length, emitAddressTable env t]

/-! ## §6 Location and range lists -/

/-- `Address_index`. -/
def addressIndex : DwarfEmittable ℤ where
  size := fun t => do
    let t ← nonnegativeToUint64Exn t
    (DwarfValue.uleb128 t).size env
  emit := fun t => do
    let t ← nonnegativeToUint64Exn t
    (DwarfValue.uleb128 t).emit env

inductive ListEntry (π : Type)
  | endOfList
  | baseAddressx (addrIndex : ℤ)
  | startxEndx (startInclusive endExclusive : ℤ) (payload : π)
  | startxLength (startInclusive : ℤ) (length : ℤ) (payload : π)
  | offsetPair (startOffsetInclusive endOffsetExclusive : ℤ) (payload : π)
  | baseAddress (sym : AsmSymbol)
  | startEnd (startInclusive endExclusive : AsmLabel) (endAdjustment : ℤ) (payload : π)
  | startLength (startInclusive : AsmLabel) (length : ℤ) (payload : π)

/-- The argument of `Location_or_range_list_entry.Make`. -/
structure ListKind (π : Type) where
  payload : DwarfEmittable π
  codeForEntryKind : ListEntry π → ℤ

/-- `Location_or_range_list_entry.Make(P).t`. -/
structure LocatedEntry (π : Type) where
  entry : ListEntry π
  startOfCodeSymbol : AsmSymbol

section Lists

variable {π : Type} (kind : ListKind π)

def labelAddress (t : LocatedEntry π) (label : AsmLabel) (adjustment : ℤ) : DwarfValue :=
  .codeAddressFromLabelSymbolDiff label t.startOfCodeSymbol adjustment

/-- `Dwarf_int.of_host_int_exn Dwarf_arch_sizes.size_addr`. -/
def addressSize : Except Exn DwarfInt := ofInt64Exn env sizeAddr

/-- The size of a number as an unsigned one. -/
def sizeOfUleb128 (n : ℤ) : Except Exn DwarfInt := do
  let n ← nonnegativeToUint64Exn n
  (DwarfValue.uleb128 n).size env

def size0 (t : LocatedEntry π) : Except Exn DwarfInt :=
  match t.entry with
  | .endOfList => pure (zero env)
  | .baseAddressx addrIndex => (addressIndex env).size addrIndex
  | .startxEndx startInclusive endExclusive payload =>
    sum env ((addressIndex env).size startInclusive)
      (sum env ((addressIndex env).size endExclusive) (kind.payload.size payload))
  | .startxLength startInclusive _ payload =>
    sum env ((addressIndex env).size startInclusive)
      (sum env (ofInt64Exn env 8) (kind.payload.size payload))
  | .offsetPair startOffsetInclusive endOffsetExclusive payload =>
    sum env (sizeOfUleb128 env startOffsetInclusive)
      (sum env (sizeOfUleb128 env endOffsetExclusive) (kind.payload.size payload))
  | .baseAddress _ => addressSize env
  | .startEnd _ _ _ payload =>
    sum env (addressSize env)
      (sum env (addressSize env) (kind.payload.size payload))
  | .startLength _ length payload =>
    sum env (addressSize env)
      (sum env (sizeOfUleb128 env length) (kind.payload.size payload))

/-- The emission of an entry after its kind. -/
def emitEntry (t : LocatedEntry π) : Emission :=
  match t.entry with
  | .endOfList => emitNothing
  | .baseAddressx addrIndex => (addressIndex env).emit addrIndex
  | .startxEndx startInclusive endExclusive payload =>
    emitSeq [(addressIndex env).emit startInclusive, (addressIndex env).emit endExclusive,
      kind.payload.emit payload]
  | .startxLength startInclusive length payload =>
    emitSeq [(addressIndex env).emit startInclusive, targetint length, kind.payload.emit payload]
  | .offsetPair startOffsetInclusive endOffsetExclusive payload =>
    emitSeq [(DwarfValue.sleb128 startOffsetInclusive).emit env,
      (DwarfValue.sleb128 endOffsetExclusive).emit env, kind.payload.emit payload]
  | .baseAddress sym => symbol sym
  | .startEnd startInclusive endExclusive endAdjustment payload =>
    emitSeq [(labelAddress t startInclusive 0).emit env,
      (labelAddress t endExclusive endAdjustment).emit env, kind.payload.emit payload]
  | .startLength startInclusive length payload =>
    emitSeq [(labelAddress t startInclusive 0).emit env, do
        let length ← nonnegativeToUint64Exn length
        (DwarfValue.uleb128 length).emit env,
      kind.payload.emit payload]

/-- `Location_or_range_list_entry.Make(P)`. -/
def listEntry : DwarfEmittable (LocatedEntry π) where
  size := fun t => do
    let size ← size0 env kind t
    DwarfInt.succ env size
  emit := fun t => emitSeq [int8 (kind.codeForEntryKind t.entry), emitEntry env kind t]

/-- `Location_or_range_list.Make(Entry)`. -/
def locationOrRangeList : DwarfEmittable (List (LocatedEntry π)) where
  size := fun t => foldAdd env (listEntry env kind).size (zero env) t
  emit := fun t => emitIter (listEntry env kind).emit t.reverse

structure OneList (π : Type) where
  list : List (LocatedEntry π)
  offsetFromFirstList : DwarfInt
  label : AsmLabel

/-- `Location_or_range_list_table.Make(List).t`. -/
structure ListTable (π : Type) where
  baseAddr : AsmLabel
  lists : List (OneList π)

def offsetEntryCount (t : ListTable π) : Except Exn ℕ :=
  if env.gdwarfOffsets then
    if t.lists.length > 2 ^ 32 - 1 then throw (.fatal "Uint32.of_nonnegative_int_exn")
    else pure t.lists.length
  else pure 0

def offsetArraySize (t : ListTable π) : Except Exn DwarfInt :=
  if env.gdwarfOffsets then do
    let count ← offsetEntryCount env t
    ofInt64Exn env (DwarfInt.widthAsInt64 env * count)
  else pure (zero env)

def ListTable.initialLength (t : ListTable π) : Except Exn DwarfInt := do
  let listsSize ← foldAdd env (fun (one : OneList π) =>
    (locationOrRangeList env kind).size one.list) (DwarfInt.eight env) t.lists
  sum env (offsetArraySize env t) (pure listsSize)

/-- The offset array. -/
def emitOffsets (t : ListTable π) : Emission := do
  let size ← offsetArraySize env t
  emitIter (fun (one : OneList π) => do
    let offset ← DwarfInt.add env size one.offsetFromFirstList
    offset.emit) t.lists

/-- The emission of a table after its initial length. -/
def emitListTable (t : ListTable π) : Emission := do
  let count ← offsetEntryCount env t
  emitSeq [(dwarfVersion env).emit .five, uint8 sizeAddr, uint8 0, uint32 count,
    defineLabel env t.baseAddr,
    if env.gdwarfOffsets then emitOffsets env t else emitNothing,
    emitIter (fun (one : OneList π) =>
      emitSeq [defineLabel env one.label, (locationOrRangeList env kind).emit one.list]) t.lists]

/-- `Location_or_range_list_table.Make(List)`. -/
def listTable : DwarfEmittable (ListTable π) where
  size := fun t => sizeWithInitialLength env (t.initialLength env kind)
  emit := fun t => do
    let length ← t.initialLength env kind
    emitSeq [(initialLength env).emit length, emitListTable env kind t]

end Lists

/-- The argument of `Make` in `location_list_entry.ml`. -/
def locationListKind : ListKind (CountedLocationDescription env) where
  payload := countedLocationDescription env
  codeForEntryKind := fun
    | .endOfList => 0x00
    | .baseAddressx _ => 0x01
    | .startxEndx _ _ _ => 0x02
    | .startxLength _ _ _ => 0x03
    | .offsetPair _ _ _ => 0x04
    | .baseAddress _ => 0x06
    | .startEnd _ _ _ _ => 0x07
    | .startLength _ _ _ => 0x08

/-- The argument of `Make` in `range_list_entry.ml`. -/
def rangeListKind : ListKind Unit where
  payload := ⟨fun _ => pure (zero env), fun _ => emitNothing⟩
  codeForEntryKind := fun
    | .endOfList => 0x00
    | .baseAddressx _ => 0x01
    | .startxEndx _ _ _ => 0x02
    | .startxLength _ _ _ => 0x03
    | .offsetPair _ _ _ => 0x04
    | .baseAddress _ => 0x05
    | .startEnd _ _ _ _ => 0x06
    | .startLength _ _ _ => 0x07

/-! ## §7 The compilation unit -/

structure DebugInfoSection where
  dies : List DebuggingInformationEntry
  debugAbbrevLabel : AsmLabel
  compilationUnitHeaderLabel : AsmLabel

/-- `debug_abbrev_offset`. -/
def DebugInfoSection.debugAbbrevOffset (t : DebugInfoSection) : DwarfValue :=
  .offsetIntoDebugAbbrev t.debugAbbrevLabel

def addressWidthInBytesOnTarget : DwarfValue := .int8 sizeAddr

/-- `Unit_type.encode` of `Compile`. -/
def unitType : DwarfValue := .uint8 0x01

def sizeWithoutFirstWord (t : DebugInfoSection) : Except Exn DwarfInt := do
  let totalDieSize ← foldAdd env (debuggingInformationEntry env).size
    (zero env) t.dies
  match env.gdwarfVersion with
  | .four =>
    sum env (sum env (sum env ((dwarfVersion env).size env.gdwarfVersion)
      (t.debugAbbrevOffset.size env))
      (addressWidthInBytesOnTarget.size env))
      (pure totalDieSize)
  | .five =>
    sum env (sum env (sum env (sum env
      ((dwarfVersion env).size env.gdwarfVersion)
      (unitType.size env))
      (addressWidthInBytesOnTarget.size env))
      (t.debugAbbrevOffset.size env))
      (pure totalDieSize)

/-- The emission of a compilation unit after its initial length. -/
def emitDebugInfo (t : DebugInfoSection) : Emission :=
  emitSeq [(dwarfVersion env).emit env.gdwarfVersion,
    match env.gdwarfVersion with
    | .four => emitSeq [t.debugAbbrevOffset.emit env, addressWidthInBytesOnTarget.emit env]
    | .five => emitSeq [unitType.emit env, addressWidthInBytesOnTarget.emit env,
        t.debugAbbrevOffset.emit env],
    emitIter (debuggingInformationEntry env).emit t.dies]

/-- `Debug_info_section`. -/
def debugInfoSection : DwarfEmittable DebugInfoSection where
  size := fun t => sizeWithInitialLength env (sizeWithoutFirstWord env t)
  emit := fun t => do
    let length ← sizeWithoutFirstWord env t
    emitSeq [defineLabel env t.compilationUnitHeaderLabel, (initialLength env).emit length,
      emitDebugInfo env t]

/-! ## §8 The lists of DWARF 4 -/

/-- `Location_list_entry.t` of `dwarf_4_location_list_entry.ml`. -/
structure Dwarf4Location where
  startOfCodeSymbol : AsmSymbol
  beginningAddressLabel : AsmLabel
  beginningAddressOffset : Option ℤ
  endingAddressLabel : AsmLabel
  endingAddressOffset : Option ℤ
  expr : SingleLocationDescription

def addressWithOffset (upper : AsmLabel) (lower : AsmSymbol) : Option ℤ → DwarfValue
  | none => .codeAddressFromLabelSymbolDiff upper lower 0
  | some offset => .codeAddressFromLabelSymbolDiff upper lower offset

def Dwarf4Location.beginningValue (t : Dwarf4Location) : DwarfValue :=
  addressWithOffset t.beginningAddressLabel t.startOfCodeSymbol t.beginningAddressOffset

def Dwarf4Location.endingValue (t : Dwarf4Location) : DwarfValue :=
  addressWithOffset t.endingAddressLabel t.startOfCodeSymbol t.endingAddressOffset

def Dwarf4Location.exprSize (t : Dwarf4Location) : Except Exn ℤ := do
  let size ← (singleLocationDescription env).size t.expr
  let size := size.toInt64
  if ¬size < 0xffff then throw (.fatal "Assertion failed")
  else if size < -2 ^ 15 ∨ size > 2 ^ 15 - 1 then
    throw (.fatal "Int16.of_int64_exn: out of range")
  else pure size

/-- `Location_list_entry`. -/
def dwarf4Location : DwarfEmittable Dwarf4Location where
  size := fun t => do
    let exprSize ← t.exprSize env
    sum env (sum env (sum env
      (t.beginningValue.size env) (t.endingValue.size env))
      ((DwarfValue.int16 exprSize).size env))
      ((singleLocationDescription env).size t.expr)
  emit := fun t => emitSeq [t.beginningValue.emit env, t.endingValue.emit env, do
      let exprSize ← t.exprSize env
      int16 exprSize,
    (singleLocationDescription env).emit t.expr]

/-- `Range_list_entry.t` of `dwarf_4_range_list_entry.ml`. -/
structure Dwarf4Range where
  startOfCodeSymbol : AsmSymbol
  beginningAddressLabel : AsmLabel
  endingAddressLabel : AsmLabel
  endingAddressOffset : Option ℤ

def Dwarf4Range.beginningValue (t : Dwarf4Range) : DwarfValue :=
  .codeAddressFromLabelSymbolDiff t.beginningAddressLabel t.startOfCodeSymbol 0

def Dwarf4Range.endingValue (t : Dwarf4Range) : DwarfValue :=
  addressWithOffset t.endingAddressLabel t.startOfCodeSymbol t.endingAddressOffset

/-- `Range_list_entry`. -/
def dwarf4Range : DwarfEmittable Dwarf4Range where
  size := fun t => sum env (t.beginningValue.size env) (t.endingValue.size env)
  emit := fun t => emitSeq [t.beginningValue.emit env, t.endingValue.emit env]

/-- `Base_address_selection_entry.to_dwarf_values`. -/
def baseAddressValues (t : AsmSymbol) : List DwarfValue :=
  [.absoluteAddress (-1), .codeAddressFromSymbol t]

def baseAddressSelectionEntry : DwarfEmittable AsmSymbol where
  size := fun t => foldAdd env (DwarfValue.size env) (zero env)
    (baseAddressValues t)
  emit := fun t => emitIter (DwarfValue.emit env) (baseAddressValues t)

/-- `Dwarf_4_location_list_entry.t` and `Dwarf_4_range_list_entry.t`. -/
inductive Dwarf4Entry (ε : Type)
  | listEntry (entry : ε)
  | baseAddressSelectionEntry (entry : AsmSymbol)

def dwarf4Entry {ε : Type} (listEntry : DwarfEmittable ε) : DwarfEmittable (Dwarf4Entry ε) where
  size := fun
    | .listEntry entry => listEntry.size entry
    | .baseAddressSelectionEntry entry => (baseAddressSelectionEntry env).size entry
  emit := fun
    | .listEntry entry => listEntry.emit entry
    | .baseAddressSelectionEntry entry => (baseAddressSelectionEntry env).emit entry

/-- `Dwarf_4_location_list.t` and `Dwarf_4_range_list.t`, with sorted entries. -/
structure Dwarf4List (ε : Type) where
  name : AsmLabel
  entries : List (Dwarf4Entry ε)

def endMarker : DwarfValue := .absoluteAddress 0

def dwarf4List {ε : Type} (listEntry : DwarfEmittable ε) : DwarfEmittable (Dwarf4List ε) where
  size := fun t => sum env (sum env
    (foldAdd env (dwarf4Entry env listEntry).size (zero env) t.entries)
    (endMarker.size env))
    (endMarker.size env)
  emit := fun t => emitSeq [defineLabel env t.name,
    emitIter (dwarf4Entry env listEntry).emit t.entries,
    endMarker.emit env, endMarker.emit env]

/-- `Debug_loc_table`, in the reverse of the order of insertion. -/
def debugLocTable : DwarfEmittable (List (Dwarf4List Dwarf4Location)) where
  size := fun t => foldAdd env (dwarf4List env (dwarf4Location env)).size
    (zero env) t
  emit := fun t => emitIter (dwarf4List env (dwarf4Location env)).emit t.reverse

/-- `Debug_ranges_table`. -/
def debugRangesTable : DwarfEmittable (List (Dwarf4List Dwarf4Range)) where
  size := fun t => foldAdd env (dwarf4List env (dwarf4Range env)).size
    (zero env) t
  emit := fun t => emitIter (dwarf4List env (dwarf4Range env)).emit t

end Oxcaml.Backend
