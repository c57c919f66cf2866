/-
Oxcaml.Backend.DwarfOperator — the operators of DWARF expressions,
`backend/debug/dwarf/dwarf_low/dwarf_operator.ml`, and the branches of expressions,
`dwarf_high/operator_builder.ml`.

The operators without operands are `SimpleOperator`; the families `DW_op_lit`, `DW_op_breg`
and `DW_op_reg` have a number. `operands` are the values that the functor `Make` hands on;
the block of an entry value follows them.
-/
import Oxcaml.Backend.DwarfValue
import Oxcaml.Lib.Bytes

set_option linter.all false

namespace Oxcaml.Backend

open DwarfInt (sum zero)

open AsmDirectives

/-- `implicit_value`. -/
inductive ImplicitValue
  | int (i : ℤ)
  | symbol (sym : AsmSymbol)
  | label (lbl : AsmLabel)

/-- The operators that are only an opcode. -/
inductive SimpleOperator
  | dup
  | drop
  | pick
  | over
  | swap
  | rot
  | deref
  | xderef
  | pushObjectAddress
  | formTlsAddress
  | callFrameCfa
  | abs
  | and
  | div
  | minus
  | mod
  | mul
  | neg
  | not
  | or
  | plus
  | shl
  | shr
  | shra
  | xor
  | le
  | ge
  | eq
  | lt
  | gt
  | ne
  | nop
  | stackValue
  deriving DecidableEq

inductive DwarfOperator
  | lit (n : Fin 32)
  | addr (value : ImplicitValue)
  | const1u (n : ℕ)
  | const2u (n : ℕ)
  | const4u (n : ℕ)
  | const8u (n : ℕ)
  | const1s (n : ℤ)
  | const2s (n : ℤ)
  | const4s (n : ℤ)
  | const8s (n : ℤ)
  | constu (n : ℕ)
  | consts (n : ℤ)
  | fbreg (offsetInBytes : ℤ)
  | breg (n : Fin 32) (offsetInBytes : ℤ)
  | bregx (regNumber : ℤ) (offsetInBytes : ℤ)
  | simple (op : SimpleOperator)
  | derefSize (n : ℕ)
  | xderefSize (n : ℕ)
  | plusUconst (n : ℕ)
  | skip (numBytesForward : ℤ)
  | bra (numBytesForward : ℤ)
  | call2 (label compilationUnitHeaderLabel : AsmLabel)
  | call4 (label compilationUnitHeaderLabel : AsmLabel)
  | callRef (label compilationUnitHeaderLabel : AsmLabel)
  | reg (n : Fin 32)
  | regx (regNumber : ℤ)
  | implicitValue (value : ImplicitValue)
  | piece (sizeInBytes : ℤ)
  | bitPiece (sizeInBits offsetInBits : ℤ)
  | implicitPointer (label : AsmLabel) (offsetInBytes : ℤ)
  | gnuImplicitPointer (label : AsmLabel) (offsetInBytes : ℤ)
  | entryValue (block : List DwarfOperator)
  | gnuEntryValue (block : List DwarfOperator)

def SimpleOperator.opcode : SimpleOperator → ℕ
  | .dup => 0x12
  | .drop => 0x13
  | .pick => 0x15
  | .over => 0x14
  | .swap => 0x16
  | .rot => 0x17
  | .deref => 0x06
  | .xderef => 0x18
  | .pushObjectAddress => 0x97
  | .formTlsAddress => 0x9b
  | .callFrameCfa => 0x9c
  | .abs => 0x19
  | .and => 0x1a
  | .div => 0x1b
  | .minus => 0x1c
  | .mod => 0x1d
  | .mul => 0x1e
  | .neg => 0x1f
  | .not => 0x20
  | .or => 0x21
  | .plus => 0x22
  | .shl => 0x24
  | .shr => 0x25
  | .shra => 0x26
  | .xor => 0x27
  | .le => 0x2c
  | .ge => 0x2a
  | .eq => 0x29
  | .lt => 0x2d
  | .gt => 0x2b
  | .ne => 0x2e
  | .nop => 0x96
  | .stackValue => 0x9f

namespace DwarfOperator

def opcode : DwarfOperator → ℕ
  | .lit n => 0x30 + n
  | .addr _ => 0x03
  | .const1u _ => 0x08
  | .const2u _ => 0x0a
  | .const4u _ => 0x0c
  | .const8u _ => 0x0e
  | .const1s _ => 0x09
  | .const2s _ => 0x0b
  | .const4s _ => 0x0d
  | .const8s _ => 0x0f
  | .constu _ => 0x10
  | .consts _ => 0x11
  | .fbreg _ => 0x91
  | .breg n _ => 0x70 + n
  | .bregx _ _ => 0x92
  | .simple op => op.opcode
  | .derefSize _ => 0x94
  | .xderefSize _ => 0x95
  | .plusUconst _ => 0x23
  | .skip _ => 0x2f
  | .bra _ => 0x28
  | .call2 _ _ => 0x98
  | .call4 _ _ => 0x99
  | .callRef _ _ => 0x9a
  | .reg n => 0x50 + n
  | .regx _ => 0x90
  | .implicitValue _ => 0x9e
  | .piece _ => 0x93
  | .bitPiece _ _ => 0x9d
  | .implicitPointer _ _ => 0xa0
  | .gnuImplicitPointer _ _ => 0xf2
  | .entryValue _ => 0xa3
  | .gnuEntryValue _ => 0xf3

/-- `Uint64.of_nonnegative_int_exn` and its kin. -/
def nonnegativeToUint64Exn (i : ℤ) : Except Exn ℕ :=
  if i < 0 then throw (.fatal "Uint64.of_nonnegative_int64_exn") else pure i.toNat

/-- `Dwarf_arch_sizes.size_addr`. -/
def sizeAddr : ℕ := 8

/-- `Dwarf_arch_sizes.size_int`. -/
def sizeInt : ℕ := 4

variable (env : Env)

/-- The values after the opcode; the block of an entry value is not among them. -/
def operands : DwarfOperator → Except Exn (List DwarfValue)
  | .lit _ => pure []
  | .addr (.int i) => pure [.absoluteAddress i]
  | .addr (.symbol sym) => pure [.codeAddressFromSymbol sym]
  | .addr (.label lbl) => pure [.codeAddressFromLabel lbl]
  | .const1u n => pure [.uint8 n]
  | .const2u n => pure [.uint16 n]
  | .const4u n => pure [.uint32 n]
  | .const8u n => pure [.uint64 n]
  | .const1s n => pure [.int8 n]
  | .const2s n => pure [.int16 n]
  | .const4s n => pure [.int32 n]
  | .const8s n => pure [.int64 n]
  | .constu n => pure [.uleb128 n]
  | .consts n => pure [.sleb128 n]
  | .fbreg offsetInBytes => pure [.sleb128 offsetInBytes]
  | .breg _ offsetInBytes => pure [.sleb128 offsetInBytes]
  | .bregx regNumber offsetInBytes => do
    let regNumber ← nonnegativeToUint64Exn regNumber
    pure [.uleb128 regNumber, .sleb128 offsetInBytes]
  | .simple _ => pure []
  | .derefSize _ => pure []
  | .xderefSize n => pure [.uint8 n]
  | .plusUconst n => pure [.uleb128 n]
  | .skip numBytesForward => pure [.int16 numBytesForward]
  | .bra numBytesForward => pure [.int16 numBytesForward]
  | .call2 label compilationUnitHeaderLabel =>
    pure [.distanceBetweenLabels16Bit label compilationUnitHeaderLabel]
  | .call4 label compilationUnitHeaderLabel =>
    pure [.distanceBetweenLabels32Bit label compilationUnitHeaderLabel]
  | .callRef label compilationUnitHeaderLabel =>
    match env.gdwarfFormat with
    | .thirtyTwo => pure [.distanceBetweenLabels32Bit label compilationUnitHeaderLabel]
    | .sixtyFour => pure [.distanceBetweenLabels64Bit label compilationUnitHeaderLabel]
  | .reg _ => pure []
  | .regx regNumber => do
    let regNumber ← nonnegativeToUint64Exn regNumber
    pure [.uleb128 regNumber]
  | .implicitValue (.int i) =>
    let buf := Lib.Bytes.leBytes sizeInt (i % 2 ^ 32).toNat
    pure [.uleb128 buf.length, .string buf]
  | .implicitValue (.symbol symbol) => pure [.uleb128 sizeAddr, .codeAddressFromSymbol symbol]
  | .implicitValue (.label lbl) => pure [.uleb128 sizeAddr, .codeAddressFromLabel lbl]
  | .piece sizeInBytes => do
    let sizeInBytes ← nonnegativeToUint64Exn sizeInBytes
    pure [.uleb128 sizeInBytes]
  | .bitPiece sizeInBits offsetInBits => do
    let sizeInBits ← nonnegativeToUint64Exn sizeInBits
    let offsetInBits ← nonnegativeToUint64Exn offsetInBits
    pure [.uleb128 sizeInBits, .uleb128 offsetInBits]
  | .implicitPointer label offsetInBytes =>
    pure [.offsetIntoDebugInfo label, .sleb128 offsetInBytes]
  | .gnuImplicitPointer label offsetInBytes =>
    pure [.offsetIntoDebugInfo label, .sleb128 offsetInBytes]
  | .entryValue _ => pure []
  | .gnuEntryValue _ => pure []

/-- The sum of the sizes of values. -/
def sizeOfValues : List DwarfValue → Except Exn DwarfInt
  | [] => pure (zero env)
  | v :: values => sum env (v.size env) (sizeOfValues values)

mutual

/-- `Size.run`. -/
def size : DwarfOperator → Except Exn DwarfInt
  | .entryValue block => sizeOfEntryValue block
  | .gnuEntryValue block => sizeOfEntryValue block
  | op =>
    sum env (pure (DwarfInt.one env)) do
      let values ← operands env op
      sizeOfValues env values

/-- The size of an opcode, of the length of a block, and of the block. -/
def sizeOfEntryValue (block : List DwarfOperator) : Except Exn DwarfInt :=
  sum env (pure (DwarfInt.one env)) do
    let blockSize ← sizeOfOperators (zero env) block
    let length ← blockSize.toUint64Exn
    let lengthSize ← (DwarfValue.uleb128 length).size env
    sizeOfOperators lengthSize block

/-- The fold of `I.add acc (size op)`. -/
def sizeOfOperators (acc : DwarfInt) : List DwarfOperator → Except Exn DwarfInt
  | [] => pure acc
  | op :: ops => do
    let acc ← sum env (pure acc) (size op)
    sizeOfOperators acc ops

end

def sizeOfExpression (ops : List DwarfOperator) : Except Exn DwarfInt :=
  sizeOfOperators env (zero env) ops

mutual

/-- `Emit.run`. -/
def emit : DwarfOperator → Emission
  | .entryValue block => emitSeq [DwarfValue.emit env (.uint8 0xa3), emitBlock block]
  | .gnuEntryValue block => emitSeq [DwarfValue.emit env (.uint8 0xf3), emitBlock block]
  | op => emitSeq [DwarfValue.emit env (.uint8 op.opcode), do
      let values ← operands env op
      emitIter (DwarfValue.emit env) values]

/-- The length of a block and the block. -/
def emitBlock (block : List DwarfOperator) : Emission := do
  let blockSize ← sizeOfExpression env block
  let length ← blockSize.toUint64Exn
  emitSeq [DwarfValue.emit env (.uleb128 length), emitOperators block]

def emitOperators : List DwarfOperator → Emission
  | [] => emitNothing
  | op :: ops => emitSeq [emit op, emitOperators ops]

end

/-! ### Branches -/

/-- The size of a branch in `Operator_builder.conditional`. -/
def branchSize (acc : DwarfInt) : List DwarfOperator → Except Exn DwarfInt
  | [] => pure acc
  | op :: ops => do
    let acc ← sum env (size env op) (pure acc)
    branchSize acc ops

def jumpOffsetOfInt (jumpOffset : DwarfInt) : Except Exn ℤ :=
  if jumpOffset.toInt64 < -2 ^ 15 ∨ jumpOffset.toInt64 > 2 ^ 15 - 1 then
    throw (.fatal "Dwarf_operator.conditional: nonzero branch too long")
  else pure jumpOffset.toInt64

/-- `Operator_builder.conditional`. -/
def conditional (atJoin ifZero ifNonzero : List DwarfOperator) :
    Except Exn (List DwarfOperator) := do
  let nonzeroBranchSize ← branchSize env (zero env) ifNonzero
  let nonzeroBranchSize ← jumpOffsetOfInt nonzeroBranchSize
  let ifZero := ifZero ++ [.skip nonzeroBranchSize]
  let zeroBranchSize ← branchSize env (zero env) ifZero
  let zeroBranchSize ← jumpOffsetOfInt zeroBranchSize
  pure (.bra zeroBranchSize :: ifZero ++ ifNonzero ++ atJoin)

end DwarfOperator

end Oxcaml.Backend
