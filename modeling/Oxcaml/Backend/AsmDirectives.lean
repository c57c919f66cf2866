/-
Oxcaml.Backend.AsmDirectives — the assembler directives that DWARF sections are made of,
`backend/asm_targets/asm_directives.ml`.

An `Int64.t` is an integer, and a `Numbers.Uint64.t`, which is made of non-negative
integers only, a natural number; a `string` is the list of its bytes. Comments and new
lines are left out, and so are the names of the temporaries of macOS.
-/
import Mathlib.Tactic

namespace Oxcaml.Backend.AsmDirectives

/-- `Asm_section.dwarf_section`. -/
inductive DwarfSection
  | debugInfo
  | debugAbbrev
  | debugAranges
  | debugAddr
  | debugLoc
  | debugRanges
  | debugLoclists
  | debugRnglists
  | debugStr
  | debugLine
  deriving DecidableEq

/-- `Asm_section.t`, with a number for every section that is not one of DWARF. -/
inductive AsmSection
  | dwarf (name : DwarfSection)
  | other (number : ℕ)
  deriving DecidableEq

structure AsmLabel where
  inSection : AsmSection
  label : ℕ
  deriving DecidableEq

abbrev AsmSymbol := String

/-- `Dwarf_format.t` and `Dwarf_flags.dwarf_format`. -/
inductive DwarfFormat
  | thirtyTwo
  | sixtyFour
  deriving DecidableEq

inductive DwarfVersion
  | four
  | five
  deriving DecidableEq

/-- The flags and the state of the assembler that emission depends on. -/
structure Env where
  gdwarfFormat : DwarfFormat
  gdwarfVersion : DwarfVersion
  gdwarfOffsets : Bool
  isMacos : Bool
  currentSection : AsmSection

inductive Exn
  | fatal (message : String)
  | tooLargeForThirtyTwoBitDwarf
  deriving DecidableEq

/-- `Constant.t`. -/
inductive Expr
  | signedInt (i : ℤ)
  | unsignedInt (n : ℕ)
  | label (lbl : AsmLabel)
  | symbol (sym : AsmSymbol)
  | add (e e' : Expr)
  | sub (e e' : Expr)
  | temporary

inductive WidthInBytes
  | eight
  | sixteen
  | thirtyTwo
  | sixtyFour
  deriving DecidableEq

def WidthInBytes.toInt : WidthInBytes → ℕ
  | .eight => 1
  | .sixteen => 2
  | .thirtyTwo => 4
  | .sixtyFour => 8

inductive Directive
  | bytes (str : List UInt8)
  | const (constant : Expr) (width : WidthInBytes)
  | directAssignment (constant : Expr)
  | newLabel (lbl : AsmLabel)
  | newSymbol (sym : AsmSymbol)
  | sleb128 (i : ℤ)
  | uleb128 (n : ℕ)

abbrev Block := List Directive

/-- What is emitted, unless an exception is raised. -/
abbrev Emission := Except Exn Block

/-! ## §1 Bytes -/

/-- `emit_uleb128`. -/
def emitUleb128 (v : ℕ) : List UInt8 :=
  let byte := v % 128
  if v / 128 = 0 then [UInt8.ofNat byte] else UInt8.ofNat (byte + 128) :: emitUleb128 (v / 128)
termination_by v
decreasing_by omega

/-- `emit_sleb128`; shifting right by 7 divides by 128. -/
def emitSleb128 (v : ℤ) : List UInt8 :=
  let byte := (v % 128).toNat
  if v / 128 = 0 ∧ byte < 64 ∨ v / 128 = -1 ∧ 64 ≤ byte then [UInt8.ofNat byte]
  else UInt8.ofNat (byte + 128) :: emitSleb128 (v / 128)
termination_by v.natAbs
decreasing_by omega

/-- The number of bytes that the assembler makes of a directive. -/
def Directive.numBytes : Directive → ℕ
  | .bytes str => str.length
  | .const _ width => width.toInt
  | .sleb128 i => (emitSleb128 i).length
  | .uleb128 n => (emitUleb128 n).length
  | .directAssignment _ | .newLabel _ | .newSymbol _ => 0

def numBytes (block : Block) : ℕ := (block.map Directive.numBytes).sum

/-! ## §2 Emission -/

def emitNothing : Emission := pure []

def emit (d : Directive) : Emission := pure [d]

/-- Emissions that follow one another. -/
def emitSeq : List Emission → Emission
  | [] => pure []
  | emission :: emissions => do
    let first ← emission
    let rest ← emitSeq emissions
    pure (first ++ rest)

/-- `List.iter`. -/
def emitIter {α : Type} (f : α → Emission) (l : List α) : Emission := emitSeq (l.map f)

def string (str : List UInt8) : Emission :=
  if str.length ≠ 0 then emit (.bytes str) else emitNothing

def sleb128 (i : ℤ) : Emission := emit (.sleb128 i)

def uleb128 (n : ℕ) : Emission := emit (.uleb128 n)

def const (constant : Expr) (width : WidthInBytes) : Emission := emit (.const constant width)

def constMachineWidth (constant : Expr) : Emission := const constant .sixtyFour

def constWithOffset (constant : Expr) (offset : ℤ) : Expr :=
  if offset = 0 then constant
  else if offset < 0 then .sub constant (.signedInt (-offset))
  else .add constant (.signedInt offset)

def label (lbl : AsmLabel) : Emission := constMachineWidth (.label lbl)

def labelPlusOffset (lab : AsmLabel) (offsetInBytes : ℤ) : Emission :=
  constMachineWidth (constWithOffset (.label lab) offsetInBytes)

def symbol (sym : AsmSymbol) : Emission := constMachineWidth (.symbol sym)

def symbolPlusOffset (sym : AsmSymbol) (offsetInBytes : ℤ) : Emission :=
  constMachineWidth (constWithOffset (.symbol sym) offsetInBytes)

def int8 (i : ℤ) : Emission := const (.signedInt i) .eight

def int16 (i : ℤ) : Emission := const (.signedInt i) .sixteen

def int32 (i : ℤ) : Emission := const (.signedInt i) .thirtyTwo

def int64 (i : ℤ) : Emission := const (.signedInt i) .sixtyFour

def uint8 (n : ℕ) : Emission := const (.unsignedInt n) .eight

def uint16 (n : ℕ) : Emission := const (.unsignedInt n) .sixteen

def uint32 (n : ℕ) : Emission := const (.unsignedInt n) .thirtyTwo

def uint64 (n : ℕ) : Emission := const (.unsignedInt n) .sixtyFour

/-- On a target of 64 bits. -/
def targetint (n : ℤ) : Emission := int64 n

variable (env : Env)

def defineLabel (lbl : AsmLabel) : Emission :=
  if lbl.inSection ≠ env.currentSection then throw (.fatal "Cannot define label")
  else emit (.newLabel lbl)

def defineDataSymbol (sym : AsmSymbol) : Emission := emit (.newSymbol sym)

/-- A directive for the constant, forced to be one at assembly time. -/
def constAssemblyTime (expr : Expr) (width : WidthInBytes) : Emission :=
  if env.isMacos then pure [.directAssignment expr, .const .temporary width]
  else const expr width

def betweenSymbolsInCurrentUnit (upper lower : AsmSymbol) : Emission :=
  constAssemblyTime env (.sub (.symbol upper) (.symbol lower)) .sixtyFour

def betweenLabels16Bit : Emission := throw (.fatal "between_labels_16_bit not implemented yet")

def betweenLabels32Bit (upper lower : AsmLabel) : Emission :=
  const (.sub (.label upper) (.label lower)) .thirtyTwo

def betweenLabels64Bit : Emission := throw (.fatal "between_labels_64_bit not implemented yet")

def betweenLabels64BitWithOffsets (upper : AsmLabel) (upperOffset : ℤ) (lower : AsmLabel)
    (lowerOffset : ℤ) : Emission :=
  constAssemblyTime env (.sub (.add (.label upper) (.signedInt upperOffset))
    (.add (.label lower) (.signedInt lowerOffset))) .sixtyFour

def betweenSymbolInCurrentUnitAndLabelOffset (upper : AsmLabel) (lower : AsmSymbol)
    (offsetUpper : ℤ) : Emission :=
  if offsetUpper = 0 then
    constAssemblyTime env (.sub (.label upper) (.symbol lower)) .sixtyFour
  else
    constAssemblyTime env
      (.sub (.add (.label upper) (.signedInt offsetUpper)) (.symbol lower)) .sixtyFour

/-- The width of a reference in a format, `const_with_width`. -/
def DwarfFormat.width : DwarfFormat → WidthInBytes
  | .thirtyTwo => .thirtyTwo
  | .sixtyFour => .sixtyFour

/-- `Asm_label.for_dwarf_section`, the label 0 of the section. -/
def AsmLabel.forDwarfSection (name : DwarfSection) : AsmLabel := ⟨.dwarf name, 0⟩

def offsetIntoDwarfSectionLabel (name : DwarfSection) (upper : AsmLabel) : Emission :=
  if upper.inSection ≠ .dwarf name then throw (.fatal "Label is not in section")
  else if env.isMacos then
    let lower := AsmLabel.forDwarfSection name
    if lower = upper then const (.signedInt 0) env.gdwarfFormat.width
    else constAssemblyTime env (.sub (.label upper) (.label lower)) env.gdwarfFormat.width
  else const (.label upper) env.gdwarfFormat.width

def offsetIntoDwarfSectionSymbol (name : DwarfSection) (upper : AsmSymbol) : Emission :=
  if env.isMacos then
    let lower := AsmLabel.forDwarfSection name
    constAssemblyTime env (.sub (.symbol upper) (.label lower)) env.gdwarfFormat.width
  else const (.symbol upper) env.gdwarfFormat.width

end Oxcaml.Backend.AsmDirectives
