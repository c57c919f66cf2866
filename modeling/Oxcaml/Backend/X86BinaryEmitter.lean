/-
Oxcaml.Backend.X86BinaryEmitter — the assembly of one section,
`backend/x86_binary_emitter.ml`.

A label or a symbol is its encoded name, which is not empty: the empty name, which stands
for the current position in `eval_const`, is `none`. An `Int64.t` is an integer, since it is
cut to the width of a field in the end. The global tables of a pass are in `Pass`.

An instruction that is not a jump or a call to a symbol is `encoded`: what it emits depends
on the instruction alone.
-/
import Oxcaml.Backend.AsmDirectives
import Oxcaml.Lib.Bytes

set_option linter.all false

namespace Oxcaml.Backend.X86BinaryEmitter

open AsmDirectives (WidthInBytes emitUleb128)

abbrev Name := String

/-! ## §1 Sections -/

/-- `Asm_directives.Directive.Constant.t`. -/
inductive Constant
  | signedInt (n : ℤ)
  | unsignedInt (n : ℕ)
  | this
  | label (lbl : Name)
  | symbol (sym : Name)
  | named (name : Name)
  | add (c₁ c₂ : Constant)
  | sub (c₁ c₂ : Constant)
  deriving DecidableEq

/-- `Relocation.Kind.t`. -/
inductive RelocationKind
  | rel32 (name : Name) (offset : ℤ)
  | dir32 (name : Option Name) (offset : ℤ)
  | dir64 (name : Option Name) (offset : ℤ)
  deriving DecidableEq

structure Relocation where
  offsetFromSectionBeginning : ℤ
  kind : RelocationKind
  deriving DecidableEq

inductive Condition
  | o | no | b | ae | e | ne | be | a | s | ns | p | np | l | ge | le | g
  deriving DecidableEq

/-- What an instruction emits: its bytes, and relocations at offsets in them. -/
structure Encoding where
  bytes : List UInt8
  relocations : List (ℕ × RelocationKind)

/-- Instructions; without an encoding, the operands are not supported. -/
inductive Instr
  | jmp (symbol : Name)
  | j (condition : Condition) (symbol : Name)
  | call (symbol : Name)
  | encoded (encoding : Option Encoding)

inductive AlignPadding
  | nop
  | zero
  deriving DecidableEq

inductive SymbolType
  | function
  | object
  deriving DecidableEq

/-- `Directive.t`. `ignored` are the directives that emit nothing, `unsupported` those that
are refused. The only supported `Reloc` has `isPlt32Field`. -/
inductive Directive
  | ignored
  | unsupported
  | globl (sym : Name)
  | weak (sym : Name)
  | protectedSym (sym : Name)
  | const (constant : Constant) (width : WidthInBytes)
  | newLabel (name : Name)
  | bytes (str : List UInt8)
  | type (name : Name) (kind : SymbolType)
  | size (sym : Name) (cst : Constant)
  | align (fill : AlignPadding) (bytes : ℤ)
  | space (bytes : ℤ)
  | deltaUleb128 (delta : Constant)
  | reloc (isPlt32 : Bool) (targetSymbol : Name) (addend : ℤ) (offset : Constant)

/-- `X86_ast.asm_line`. -/
inductive AsmLine
  | ins (instr : Instr)
  | directive (d : Directive)

structure Section where
  secName : String
  isTextLike : Bool
  secInstrs : List AsmLine

/-! ## §2 Buffers -/

inductive SymbolBinding
  | syLocal
  | syGlobal
  | syWeak
  deriving DecidableEq

structure Symbol where
  syType : Option SymbolType
  sySize : Option ℤ
  syBinding : SymbolBinding
  syProtected : Bool
  syPos : Option ℕ
  deriving DecidableEq

structure Buffer where
  buf : List UInt8
  labels : Name → Option Symbol
  patches : List (ℕ × WidthInBytes × ℤ)
  relocations : List Relocation

inductive LocalReloc
  | relocCall (label : Name)
  | relocShortJump (label : Name) (loc : ℕ)
  | relocLongJump (label : Name)
  | relocConstant (cst : Constant) (dataSize : WidthInBytes)

inductive Exn
  | assertFailure
  | notFound
  | invalidArgument
  | divisionByZero
  | fatalError
  deriving DecidableEq

def newBuffer : Buffer := ⟨[], fun _ => none, [], []⟩

def newSymbol : Symbol := ⟨none, none, .syLocal, false, none⟩

namespace Buffer

def size (b : Buffer) : ℕ := b.buf.length

def setSymbol (b : Buffer) (s : Name) (sy : Symbol) : Buffer :=
  { b with labels := fun name => if name = s then some sy else b.labels name }

/-- `get_symbol`, which adds the symbol, followed by an update of the symbol. -/
def updateSymbol (b : Buffer) (s : Name) (f : Symbol → Symbol) : Buffer :=
  b.setSymbol s (f ((b.labels s).getD newSymbol))

def addBytes (b : Buffer) (bytes : List UInt8) : Buffer := { b with buf := b.buf ++ bytes }

def recordReloc (b : Buffer) (offset : ℤ) (kind : RelocationKind) : Buffer :=
  { b with relocations := ⟨offset, kind⟩ :: b.relocations }

def addPatch (b : Buffer) (pos : ℕ) (size : WidthInBytes) (v : ℤ) : Buffer :=
  { b with patches := (pos, size, v) :: b.patches }

def labelPos (b : Buffer) (lbl : Name) : Except Exn ℕ :=
  match b.labels lbl with
  | none => throw .notFound
  | some sy =>
    match sy.syPos with
    | none => throw .notFound
    | some pos => pure pos

def declareLabel (b : Buffer) (s : Name) : Except Exn Buffer :=
  if (((b.labels s).getD newSymbol).syPos).isSome then throw .assertFailure
  else pure (b.updateSymbol s fun sy => { sy with syPos := some b.size })

end Buffer

/-- What `buf_int8L`, `buf_int16L`, `buf_int32L` and `buf_int64L` add: the integer in a field
of the width. -/
def intBytes (width : WidthInBytes) (n : ℤ) : List UInt8 := Lib.Bytes.leInt width.toInt n

/-! ## §3 Constants -/

inductive Result
  | rint (n : ℤ)
  | rabs (s : Option Name) (n : ℤ)
  | rrel (s : Name) (n : ℤ)
  deriving DecidableEq

def evalSub (b : Buffer) (currentPos : ℕ) : Result → Result → Except Exn Result
  | .rint n₁, .rint n₂ => pure (.rint (n₁ - n₂))
  | .rabs s n₁, .rint n₂ => pure (.rabs s (n₁ - n₂))
  | .rrel s n₁, .rint n₂ => pure (.rrel s (n₁ - n₂))
  | .rabs none n₁, .rabs none n₂ => pure (.rint (n₁ - n₂))
  | .rabs none n₁, .rabs (some s₂) n₂ =>
    match b.labels s₂ with
    | none => throw .assertFailure
    | some sy₂ =>
      match sy₂.syPos with
      | some pos₂ => pure (.rint (n₁ + currentPos - (pos₂ + n₂)))
      | none => throw .assertFailure
  | .rabs (some s) n₁, .rabs none n₂ =>
    match b.labels s with
    | none => pure (.rrel s (n₁ - n₂))
    | some sy =>
      match sy.syPos with
      | some pos => pure (.rint (pos + n₁ - (n₂ + currentPos)))
      | none => throw .assertFailure
  | .rabs (some s₁) n₁, .rabs (some s₂) n₂ =>
    match b.labels s₂ with
    | none => throw .assertFailure
    | some sy₂ =>
      match b.labels s₁ with
      | some sy₁ =>
        match sy₁.syPos, sy₂.syPos with
        | some pos₁, some pos₂ => pure (.rint (pos₁ + n₁ - (pos₂ + n₂)))
        | _, _ => throw .assertFailure
      | none =>
        match sy₂.syPos with
        | some pos₂ => pure (.rrel s₁ (n₁ + currentPos - (pos₂ + n₂)))
        | none => throw .assertFailure
  | _, _ => throw .assertFailure

def evalAdd : Result → Result → Except Exn Result
  | .rint n₁, .rint n₂ => pure (.rint (n₁ + n₂))
  | .rabs s n₁, .rint n₂ => pure (.rabs s (n₁ + n₂))
  | .rint n₂, .rabs s n₁ => pure (.rabs s (n₁ + n₂))
  | .rrel s n₁, .rint n₂ => pure (.rrel s (n₁ + n₂))
  | .rint n₂, .rrel s n₁ => pure (.rrel s (n₁ + n₂))
  | .rrel s n₁, .rabs none n₂ => pure (.rabs (some s) (n₁ + n₂))
  | _, _ => throw .assertFailure

def evalConst (b : Buffer) (currentPos : ℕ) : Constant → Except Exn Result
  | .signedInt n => pure (.rint n)
  | .unsignedInt n => pure (.rint n)
  | .this => pure (.rabs none 0)
  | .label lbl => pure (.rabs (some lbl) 0)
  | .symbol sym => pure (.rabs (some sym) 0)
  | .named name => pure (.rabs (some name) 0)
  | .sub c₁ c₂ => do
    let r₁ ← evalConst b currentPos c₁
    let r₂ ← evalConst b currentPos c₂
    evalSub b currentPos r₁ r₂
  | .add c₁ c₂ => do
    let r₁ ← evalConst b currentPos c₁
    let r₂ ← evalConst b currentPos c₂
    evalAdd r₁ r₂

/-! ## §4 Jumps and calls -/

/-- The state of a pass: the buffer, `local_relocs`, `forced_long_jumps` and the number of
the next instruction. -/
structure Pass where
  b : Buffer
  localRelocs : List (ℕ × LocalReloc)
  forcedLongJumps : Finset ℕ
  loc : ℕ

/-- What the lines of a section are assembled in: `local_labels`, `cross_section_labels`, and
the section. -/
structure Context where
  localLabels : Name → Option ℕ
  crossSectionLabels : Name → Option (String × ℕ)
  secName : String
  isTextLike : Bool

namespace Pass

def addBytes (s : Pass) (bytes : List UInt8) : Pass := { s with b := s.b.addBytes bytes }

def recordReloc (s : Pass) (offset : ℤ) (kind : RelocationKind) : Pass :=
  { s with b := s.b.recordReloc offset kind }

def recordLocalReloc (s : Pass) (localReloc : LocalReloc) : Pass :=
  { s with localRelocs := (s.b.size, localReloc) :: s.localRelocs }

end Pass

def Condition.cd : Condition → ℕ
  | .o => 0
  | .no => 1
  | .b => 2
  | .ae => 3
  | .e => 4
  | .ne => 5
  | .be => 6
  | .a => 7
  | .s => 8
  | .ns => 9
  | .p => 10
  | .np => 11
  | .l => 12
  | .ge => 13
  | .le => 14
  | .g => 15

def emitRelocJump (ctx : Context) (nearOpcodes farOpcodes : List UInt8) (s : Pass)
    (symbol : Name) : Except Exn Pass :=
  match ctx.localLabels symbol with
  | some targetLoc =>
    if targetLoc < s.loc then
      -- backward
      match s.b.labelPos symbol with
      | .error _ => throw .assertFailure
      | .ok targetPos =>
        let sourcePos := s.b.size
        if ¬targetPos < sourcePos then throw .assertFailure
        else
          let togo : ℤ := targetPos - sourcePos
          let togoShort := togo - (1 + nearOpcodes.length)
          if s.loc ∉ s.forcedLongJumps ∧ -128 ≤ togoShort ∧ togoShort < 128 then
            pure ((s.addBytes nearOpcodes).addBytes (intBytes .eight togoShort))
          else
            let s := { s with forcedLongJumps := insert s.loc s.forcedLongJumps }
            pure ((s.addBytes farOpcodes).addBytes
              (intBytes .thirtyTwo (togo - (4 + farOpcodes.length))))
    else if s.loc ∈ s.forcedLongJumps then
      pure (((s.addBytes farOpcodes).recordLocalReloc (.relocLongJump symbol)).addBytes
        (intBytes .thirtyTwo 0))
    else
      pure (((s.addBytes nearOpcodes).recordLocalReloc (.relocShortJump symbol s.loc)).addBytes
        (intBytes .eight 0))
  | none =>
    let s := s.addBytes farOpcodes
    pure ((s.recordReloc s.b.size (.rel32 symbol 0)).addBytes (intBytes .thirtyTwo 0))

def emitCall (ctx : Context) (s : Pass) (symbol : Name) : Pass :=
  let s := s.addBytes [0xE8]
  let s := match ctx.localLabels symbol with
    | some _ => s.recordLocalReloc (.relocCall symbol)
    | none => s.recordReloc s.b.size (.rel32 symbol 0)
  s.addBytes (intBytes .thirtyTwo 0)

def emitEncoding (s : Pass) (encoding : Encoding) : Pass :=
  let s' := encoding.relocations.foldl
    (fun (s' : Pass) reloc => s'.recordReloc (s.b.size + reloc.1) reloc.2) s
  s'.addBytes encoding.bytes

def assembleInstr (ctx : Context) (s : Pass) : Instr → Except Exn Pass
  | .jmp symbol => emitRelocJump ctx [0xEB] [0xE9] s symbol
  | .j condition symbol => emitRelocJump ctx [UInt8.ofNat (0x70 + condition.cd)]
      [0x0F, UInt8.ofNat (0x80 + condition.cd)] s symbol
  | .call symbol => pure (emitCall ctx s symbol)
  | .encoded (some encoding) => pure (emitEncoding s encoding)
  | .encoded none => throw .assertFailure

/-! ## §5 Directives -/

/-- `constant`, whose integers need no patch. -/
def emitConstant (s : Pass) (cst : Constant) (width : WidthInBytes) : Pass :=
  match cst with
  | .signedInt n => s.addBytes (intBytes width n)
  | .unsignedInt n => s.addBytes (intBytes width n)
  | cst => (s.recordLocalReloc (.relocConstant cst width)).addBytes (intBytes width 0)

/-- The bytes of `emit_single_nop`, for at most 15 bytes. -/
def singleNop : ℕ → List UInt8
  | 0 => []
  | 1 => [0x90]
  | 2 => [0x66, 0x90]
  | 3 => [0x0f, 0x1f, 0x00]
  | 4 => [0x0f, 0x1f, 0x40, 0x00]
  | 5 => [0x0f, 0x1f, 0x44, 0x00, 0x00]
  | 6 => [0x66, 0x0f, 0x1f, 0x44] ++ intBytes .sixteen 0
  | 7 => [0x0f, 0x1f, 0x80] ++ intBytes .thirtyTwo 0
  | 8 => [0x0f, 0x1f, 0x84, 0x00] ++ intBytes .thirtyTwo 0
  | 9 => [0x66, 0x0f, 0x1f, 0x84, 0x00] ++ intBytes .thirtyTwo 0
  | n => List.replicate (n - 9) 0x66 ++ [0x2e] ++ [0x0f, 0x1f, 0x84, 0x00] ++ intBytes .thirtyTwo 0

/-- The bytes of `emit_nop`, for a length that is not negative. -/
def nops (n : ℕ) : List UInt8 := (List.replicate (n / 15) (singleNop 15)).flatten ++
    singleNop (n % 15)

def emitNop (n : ℤ) : Except Exn (List UInt8) :=
  if n < 0 then throw .invalidArgument else pure (nops n.toNat)

/-- The bytes of an `Align` at a position. -/
def alignBytes (fill : AlignPadding) (n : ℤ) (pos : ℕ) : Except Exn (List UInt8) :=
  if n = 0 then throw .divisionByZero
  else
    let current := (pos : ℤ).tmod n
    if current > 0 then
      match fill with
      | .zero => pure (List.replicate (n - current).toNat 0x00)
      | .nop => emitNop (n - current)
    else pure []

/-- The bytes of a `Space`. -/
def spaceBytes (isTextLike : Bool) (n : ℤ) : Except Exn (List UInt8) :=
  if isTextLike then emitNop n else pure (List.replicate n.toNat 0x00)

/-- Where a label of `Delta_uleb128` is: in this section, or in one that has been assembled. -/
def resolve (ctx : Context) (b : Buffer) (lbl : Name) : Except Exn (String × ℕ) :=
  match b.labelPos lbl with
  | .ok pos => pure (ctx.secName, pos)
  | .error _ =>
    match ctx.crossSectionLabels lbl with
    | some entry => pure entry
    | none => throw .fatalError

def deltaBytes (ctx : Context) (b : Buffer) : Constant → Except Exn (List UInt8)
  | .sub (.label upper) (.label lower) => do
    let (secU, posU) ← resolve ctx b upper
    let (secL, posL) ← resolve ctx b lower
    if secU ≠ secL then throw .fatalError
    else if posU < posL then throw .fatalError
    else pure (emitUleb128 (posU - posL))
  | _ => throw .fatalError

def assembleDirective (ctx : Context) (s : Pass) : Directive → Except Exn Pass
  | .ignored => pure s
  | .unsupported => throw .assertFailure
  | .globl sym => pure { s with
      b := s.b.updateSymbol sym fun sy => { sy with syBinding := .syGlobal } }
  | .weak sym => pure { s with
      b := s.b.updateSymbol sym fun sy => { sy with syBinding := .syWeak } }
  | .protectedSym sym => pure { s with
      b := s.b.updateSymbol sym fun sy => { sy with syProtected := true } }
  | .const constant width => pure (emitConstant s constant width)
  | .newLabel name => do
    let b ← s.b.declareLabel name
    pure { s with b }
  | .bytes str => pure (s.addBytes str)
  | .type name kind => pure { s with
      b := s.b.updateSymbol name fun sy => { sy with syType := some kind } }
  | .size sym cst => do
    match ← evalConst s.b s.b.size cst with
    | .rint n => pure { s with
        b := s.b.updateSymbol sym fun sy => { sy with sySize := some n } }
    | _ => throw .assertFailure
  | .align fill n => do
    let bytes ← alignBytes fill n s.b.size
    pure (s.addBytes bytes)
  | .space n => do
    let bytes ← spaceBytes ctx.isTextLike n
    pure (s.addBytes bytes)
  | .deltaUleb128 delta => do
    let bytes ← deltaBytes ctx s.b delta
    pure (s.addBytes bytes)
  | .reloc isPlt32 targetSymbol addend offset =>
    if isPlt32 ∧ addend = 4 ∧ offset = .sub .this (.signedInt 4) then
      pure (s.recordReloc ((s.b.size : ℤ) - 4) (.rel32 targetSymbol 0))
    else throw .fatalError

def assembleLine (ctx : Context) (s : Pass) : AsmLine → Except Exn Pass
  | .ins instr => do
    let s ← assembleInstr ctx s instr
    pure { s with loc := s.loc + 1 }
  | .directive d => assembleDirective ctx s d

/-! ## §6 Passes -/

/-- The label positions, as numbers of instructions; the last declaration of a name counts. -/
def localLabels (icount : ℕ) (acc : Name → Option ℕ) : List AsmLine → Name → Option ℕ
  | [] => acc
  | .ins _ :: lines => localLabels (icount + 1) acc lines
  | .directive (.newLabel name) :: lines =>
    localLabels icount (fun name' => if name' = name then some icount else acc name') lines
  | .directive _ :: lines => localLabels icount acc lines

/-- The lines of a section, in one pass. -/
def assembleLines (ctx : Context) (forced : Finset ℕ) (lines : List AsmLine) : Except Exn Pass :=
  lines.foldlM (assembleLine ctx) ⟨newBuffer, [], forced, 0⟩

/-- What the resolution of the local relocations changes. -/
structure Resolution where
  b : Buffer
  forcedLongJumps : Finset ℕ
  retry : Bool

def doLocalReloc (t : Resolution) : ℕ × LocalReloc → Except Exn Resolution
  | (pos, .relocShortJump label loc) => do
    let targetPos ← t.b.labelPos label
    let n : ℤ := targetPos - (pos + 1)
    if -128 ≤ n ∧ n < 128 then pure { t with b := t.b.addPatch pos .eight n }
    else pure { t with forcedLongJumps := insert loc t.forcedLongJumps, retry := true }
  | (pos, .relocCall label) => do
    let targetPos ← t.b.labelPos label
    pure { t with b := t.b.addPatch pos .thirtyTwo (targetPos - (pos + 4)) }
  | (pos, .relocLongJump label) => do
    let targetPos ← t.b.labelPos label
    pure { t with b := t.b.addPatch pos .thirtyTwo (targetPos - (pos + 4)) }
  | (pos, .relocConstant cst dataSize) => do
    match ← evalConst t.b pos cst, dataSize with
    | .rint n, _ => pure { t with b := t.b.addPatch pos dataSize n }
    | .rabs lbl offset, .thirtyTwo => pure { t with b := t.b.recordReloc pos (.dir32 lbl offset) }
    | .rabs lbl offset, .sixtyFour => pure { t with b := t.b.recordReloc pos (.dir64 lbl offset) }
    -- relative to the end of the field, as `REL32` is
    | .rrel lbl offset, .thirtyTwo =>
      pure { t with b := t.b.recordReloc pos (.rel32 lbl (offset + 4)) }
    | _, _ => throw .assertFailure

/-- One round of `iter_assemble`. -/
def assemblePass (ctx : Context) (forced : Finset ℕ) (lines : List AsmLine) :
    Except Exn Resolution := do
  let s ← assembleLines ctx forced lines
  s.localRelocs.foldlM doLocalReloc ⟨s.b, s.forcedLongJumps, false⟩

/-- `iter_assemble`; `none` when there is not enough fuel. -/
def iterAssemble (ctx : Context) (lines : List AsmLine) : ℕ → Finset ℕ → Option (Except Exn Buffer)
  | 0, _ => none
  | fuel + 1, forced =>
    match assemblePass ctx forced lines with
    | .error e => some (.error e)
    | .ok t => if t.retry then iterAssemble ctx lines fuel t.forcedLongJumps else some (.ok t.b)

def Section.context (sec : Section) (crossSectionLabels : Name → Option (String × ℕ)) : Context :=
  ⟨localLabels 0 (fun _ => none) sec.secInstrs, crossSectionLabels, sec.secName, sec.isTextLike⟩

/-- `cross_section_labels` after the section. -/
def recordLabels (crossSectionLabels : Name → Option (String × ℕ)) (secName : String) (b : Buffer) :
    Name → Option (String × ℕ) := fun name =>
  match b.labelPos name with
  | .ok pos => some (secName, pos)
  | .error _ => crossSectionLabels name

/-- `assemble_section`: the buffer, and the positions of labels for the next sections. -/
def assembleSection (fuel : ℕ) (crossSectionLabels : Name → Option (String × ℕ)) (sec : Section) :
    Option (Except Exn (Buffer × (Name → Option (String × ℕ)))) :=
  match iterAssemble (sec.context crossSectionLabels) sec.secInstrs fuel ∅ with
  | none => none
  | some (.error e) => some (.error e)
  | some (.ok b) => some (.ok (b, recordLabels crossSectionLabels sec.secName b))

/-! ## §7 Contents -/

def strInt8L (s : List UInt8) (pos : ℕ) (v : ℤ) : List UInt8 :=
  s.set pos (UInt8.ofNat (v % 256).toNat)

def strInt16L (s : List UInt8) (pos : ℕ) (v : ℤ) : List UInt8 :=
  strInt8L (strInt8L s pos v) (pos + 1) (v / 2 ^ 8)

def strInt32L (s : List UInt8) (pos : ℕ) (v : ℤ) : List UInt8 :=
  strInt16L (strInt16L s pos v) (pos + 2) (v / 2 ^ 16)

def strInt64L (s : List UInt8) (pos : ℕ) (v : ℤ) : List UInt8 :=
  strInt32L (strInt32L s pos v) (pos + 4) (v / 2 ^ 32)

def applyPatch (buf : List UInt8) : ℕ × WidthInBytes × ℤ → List UInt8
  | (pos, .sixtyFour, v) => strInt64L buf pos v
  | (pos, .thirtyTwo, v) => strInt32L buf pos v
  | (pos, .sixteen, v) => strInt16L buf pos v
  | (pos, .eight, v) => strInt8L buf pos v

def contents (b : Buffer) : List UInt8 := b.patches.foldl applyPatch b.buf

end Oxcaml.Backend.X86BinaryEmitter
