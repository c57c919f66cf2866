/-
Oxcaml.Backend.X86BinaryEmitterTheorems — the layout of an assembled section.

`Placed` says what stands in the contents for one line at its position, when the labels are
where they are in the end: a jump has its exact displacement in a field that is wide enough
for its form, and a constant its value, or a relocation of that value. `LaidOut` says that
the contents of a buffer are the lines of the section, one after the other.

The proof has two halves. A pass emits chunks (§4), some of which have a local relocation;
the resolution patches each chunk in place (§5). A pass that is retried has found another
jump that is too long, so the passes end (§6).
-/
import Oxcaml.Backend.X86BinaryEmitter
import Oxcaml.Lib.Arrays

set_option linter.all false

namespace Oxcaml.Backend.X86BinaryEmitter

open List (Perm append_assoc flatten_cons length_append)

open AsmDirectives (WidthInBytes emitUleb128)
open Lib Lib.Bytes

/-! ## §1 The layout of a section -/

/-- The positions of labels. -/
def positions (b : Buffer) : Name → Option ℕ := fun name => (b.labels name).bind Symbol.syPos

/-- The value of a constant, when names have addresses and the constant is at `here`. -/
def Constant.value (address : Name → ℤ) (here : ℤ) : Constant → ℤ
  | .signedInt n => n
  | .unsignedInt n => n
  | .this => here
  | .label lbl => address lbl
  | .symbol sym => address sym
  | .named name => address name
  | .add c₁ c₂ => c₁.value address here + c₂.value address here
  | .sub c₁ c₂ => c₁.value address here - c₂.value address here

/-- The value that the linker gives to a field at an address; the writer subtracts the width
of a `REL32` field from its addend. -/
def RelocationKind.value (address : Name → ℤ) (place : ℤ) : RelocationKind → ℤ
  | .rel32 name offset => address name + (offset - 4) - place
  | .dir32 name offset => (name.elim 0 address) + offset
  | .dir64 name offset => (name.elim 0 address) + offset

/-- The addresses of the labels of a section that is loaded at `base`. -/
def Loaded (labels : Name → Option ℕ) (base : ℤ) (address : Name → ℤ) : Prop :=
  ∀ name pos, labels name = some pos → address name = base + pos

/-- The opcodes of the two forms of a jump, and its symbol. -/
def Instr.jump? : Instr → Option (List UInt8 × List UInt8 × Name)
  | .jmp symbol => some ([0xEB], [0xE9], symbol)
  | .j condition symbol => some ([UInt8.ofNat (0x70 + condition.cd)],
      [0x0F, UInt8.ofNat (0x80 + condition.cd)], symbol)
  | _ => none

/-- Where `Delta_uleb128` may find a label. -/
def Located (ctx : Context) (labels : Name → Option ℕ) (lbl : Name) (entry : String × ℕ) : Prop :=
  (entry.1 = ctx.secName ∧ labels lbl = some entry.2) ∨ ctx.crossSectionLabels lbl = some entry

/-- The bytes of a line at a position, and its relocations. -/
inductive Placed (ctx : Context) (labels : Name → Option ℕ) (pos : ℕ) :
    AsmLine → List UInt8 → List Relocation → Prop
  | shortJump {instr : Instr} {near far : List UInt8} {symbol : Name} {target : ℕ} {disp : ℤ}
      (hjump : instr.jump? = some (near, far, symbol)) (htarget : labels symbol = some target)
      (hdisp : disp = target - (pos + (near ++ intBytes .eight disp).length))
      (hfits : -128 ≤ disp ∧ disp < 128) :
      Placed ctx labels pos (.ins instr) (near ++ intBytes .eight disp) []
  | longJump {instr : Instr} {near far : List UInt8} {symbol : Name} {target : ℕ} {disp : ℤ}
      (hjump : instr.jump? = some (near, far, symbol)) (htarget : labels symbol = some target)
      (hdisp : disp = target - (pos + (far ++ intBytes .thirtyTwo disp).length)) :
      Placed ctx labels pos (.ins instr) (far ++ intBytes .thirtyTwo disp) []
  | externalJump {instr : Instr} {near far : List UInt8} {symbol : Name}
      (hjump : instr.jump? = some (near, far, symbol)) (hexternal : ctx.localLabels symbol = none) :
      Placed ctx labels pos (.ins instr) (far ++ intBytes .thirtyTwo 0)
        [⟨(pos + far.length : ℕ), .rel32 symbol 0⟩]
  | localCall {symbol : Name} {target : ℕ} {disp : ℤ} (htarget : labels symbol = some target)
      (hdisp : disp = target - (pos + (0xE8 :: intBytes .thirtyTwo disp).length)) :
      Placed ctx labels pos (.ins (.call symbol)) (0xE8 :: intBytes .thirtyTwo disp) []
  | externalCall {symbol : Name} (hexternal : ctx.localLabels symbol = none) :
      Placed ctx labels pos (.ins (.call symbol)) (0xE8 :: intBytes .thirtyTwo 0)
        [⟨(pos + 1 : ℕ), .rel32 symbol 0⟩]
  | encoded {encoding : Encoding} {relocs : List Relocation}
      (hrelocs : relocs.Perm (encoding.relocations.map fun reloc => ⟨pos + reloc.1, reloc.2⟩)) :
      Placed ctx labels pos (.ins (.encoded (some encoding))) encoding.bytes relocs
  | constantValue {c : Constant} {width : WidthInBytes} {n : ℤ}
      (hvalue : ∀ base address, Loaded labels base address → c.value address (base + pos) = n) :
      Placed ctx labels pos (.directive (.const c width)) (intBytes width n) []
  | constantReloc {c : Constant} {width : WidthInBytes} {kind : RelocationKind}
      (hvalue : ∀ base address, Loaded labels base address →
        c.value address (base + pos) = kind.value address (base + pos)) :
      Placed ctx labels pos (.directive (.const c width)) (intBytes width 0) [⟨pos, kind⟩]
  | constantHere {c : Constant} {width : WidthInBytes} {n : ℤ} {bytes : List UInt8}
      {relocs : List Relocation} (hlength : bytes.length = width.toInt)
      (hvalue : ∀ base address, Loaded labels base address →
        c.value address (base + pos) = base + pos + n) :
      Placed ctx labels pos (.directive (.const c width)) bytes relocs
  | newLabel {name : Name} (hpos : labels name = some pos) :
      Placed ctx labels pos (.directive (.newLabel name)) [] []
  | bytes {str : List UInt8} : Placed ctx labels pos (.directive (.bytes str)) str []
  | align {fill : AlignPadding} {n : ℤ} {bytes : List UInt8}
      (hbytes : alignBytes fill n pos = .ok bytes) :
      Placed ctx labels pos (.directive (.align fill n)) bytes []
  | space {n : ℤ} {bytes : List UInt8} (hbytes : spaceBytes ctx.isTextLike n = .ok bytes) :
      Placed ctx labels pos (.directive (.space n)) bytes []
  | deltaUleb128 {upper lower : Name} {sec : String} {posU posL : ℕ}
      (hupper : Located ctx labels upper (sec, posU))
        (hlower : Located ctx labels lower (sec, posL))
      (hle : posL ≤ posU) :
      Placed ctx labels pos (.directive (.deltaUleb128 (.sub (.label upper) (.label lower))))
        (emitUleb128 (posU - posL)) []
  | reloc {targetSymbol : Name} : Placed ctx labels pos
        (.directive (.reloc true targetSymbol 4 (.sub .this (.signedInt 4)))) []
        [⟨(pos : ℤ) - 4, .rel32 targetSymbol 0⟩]
  | ignored : Placed ctx labels pos (.directive .ignored) [] []
  | globl {sym : Name} : Placed ctx labels pos (.directive (.globl sym)) [] []
  | weak {sym : Name} : Placed ctx labels pos (.directive (.weak sym)) [] []
  | protectedSym {sym : Name} : Placed ctx labels pos (.directive (.protectedSym sym)) [] []
  | type {name : Name} {kind : SymbolType} :
      Placed ctx labels pos (.directive (.type name kind)) [] []
  | size {sym : Name} {cst : Constant} : Placed ctx labels pos (.directive (.size sym cst)) [] []

/-- The label that a line declares. -/
def declares : AsmLine → ℕ → List (Name × ℕ)
  | .directive (.newLabel name), pos => [(name, pos)]
  | _, _ => []

/-- Lines from a position on: their bytes, relocations and labels. -/
inductive Assembled (ctx : Context) (labels : Name → Option ℕ) :
    ℕ → List AsmLine → List UInt8 → List Relocation → List (Name × ℕ) → Prop
  | nil {pos : ℕ} : Assembled ctx labels pos [] [] [] []
  | cons {pos : ℕ} {line : AsmLine} {lines : List AsmLine} {bytes rest : List UInt8}
      {relocs relocs' : List Relocation} {decls : List (Name × ℕ)}
      (hline : Placed ctx labels pos line bytes relocs)
      (hlines : Assembled ctx labels (pos + bytes.length) lines rest relocs' decls) :
      Assembled ctx labels pos (line :: lines) (bytes ++ rest) (relocs ++ relocs')
        (declares line pos ++ decls)

/-- The contents and the relocations of a buffer are those of the lines, and its labels are
where the lines declare them. -/
def LaidOut (ctx : Context) (lines : List AsmLine) (b : Buffer) : Prop :=
  ∃ relocs decls, Assembled ctx (positions b) 0 lines (contents b) relocs decls ∧
    b.relocations.Perm relocs ∧
    ∀ name pos, positions b name = some pos ↔ (name, pos) ∈ decls

/-! ## §2 Constants -/

/-- The value of a result. -/
def Result.value (address : Name → ℤ) (here : ℤ) : Result → ℤ
  | .rint n => n
  | .rabs none n => here + n
  | .rabs (some s) n => address s + n
  | .rrel s n => address s + n - here

variable {ctx : Context} {b : Buffer} {pos : ℕ} {base : ℤ} {address : Name → ℤ} {name symbol : Name}

variable {p loc pos : ℕ}

theorem positions_eq_some :
    positions b name = some p ↔ ∃ sy, b.labels name = some sy ∧ sy.syPos = some p := by
  simp [positions, Option.bind_eq_some_iff]

theorem labelPos_eq_ok : b.labelPos name = .ok p ↔ positions b name = some p := by
  unfold Buffer.labelPos positions
  cases b.labels name with
  | none => simp [throwThe]
  | some sy => cases hpos : sy.syPos <;> simp [hpos, pure, Except.pure]

theorem throw_ne_ok {α : Type} {e : Exn} {a : α} : (throw e : Except Exn α) ≠ .ok a := by
  intro h
  cases h

/-- A label of the section is at its position. -/
theorem address_eq {sy : Symbol} (hloaded : Loaded (positions b) base address)
    (hsy : b.labels name = some sy) (hp : sy.syPos = some p) : address name = base + p :=
  hloaded name p (positions_eq_some.2 ⟨sy, hsy, hp⟩)

variable {r₁ r₂ r : Result}

theorem evalSub_value (h : evalSub b pos r₁ r₂ = .ok r)
    (hloaded : Loaded (positions b) base address) :
    r.value address (base + pos) =
      r₁.value address (base + pos) - r₂.value address (base + pos) := by
  unfold evalSub at h
  split at h
  · cases h; rfl
  · rename_i s n₁ n₂
    cases h
    cases s <;> simp only [Result.value] <;> ring
  · cases h
    simp only [Result.value]
    ring
  · cases h
    simp only [Result.value]
    ring
  · split at h
    · cases h
    split at h
    · rename_i sy₂ hsy₂ _ pos₂ hpos₂
      cases h
      simp only [Result.value, address_eq hloaded hsy₂ hpos₂]
      ring
    · cases h
  · split at h
    · cases h
      simp only [Result.value]
      ring
    split at h
    · rename_i sy hsy _ p hp
      cases h
      simp only [Result.value, address_eq hloaded hsy hp]
      ring
    · cases h
  · split at h
    · cases h
    rename_i sy₂ hsy₂
    split at h
    · rename_i sy₁ hsy₁
      split at h
      · rename_i pos₁ pos₂ hpos₁ hpos₂
        cases h
        simp only [Result.value, address_eq hloaded hsy₁ hpos₁, address_eq hloaded hsy₂ hpos₂]
        ring
      · cases h
    split at h
    · rename_i pos₂ hpos₂
      cases h
      simp only [Result.value, address_eq hloaded hsy₂ hpos₂]
      ring
    · cases h
  · cases h

theorem evalAdd_value (h : evalAdd r₁ r₂ = .ok r) {here : ℤ} :
    r.value address here = r₁.value address here + r₂.value address here := by
  unfold evalAdd at h
  split at h
  · cases h; rfl
  · rename_i s n₁ n₂
    cases h
    cases s <;> simp only [Result.value] <;> ring
  · rename_i n₂ s n₁
    cases h
    cases s <;> simp only [Result.value] <;> ring
  · cases h
    simp only [Result.value]
    ring
  · cases h
    simp only [Result.value]
    ring
  · cases h
    simp only [Result.value]
    ring
  · cases h

variable {c : Constant}

/-- The result of an evaluation has the value of the constant. -/
theorem evalConst_value (h : evalConst b pos c = .ok r)
    (hloaded : Loaded (positions b) base address) :
    r.value address (base + pos) = c.value address (base + pos) := by
  induction c generalizing r with
  | signedInt n | unsignedInt n => cases h; rfl
  | this | label lbl | symbol sym
  | named name => cases h; simp [Result.value, Constant.value]
  | add c₁ c₂ ih₁ ih₂ =>
    obtain ⟨r₁, h₁, h⟩ := bind_eq_ok.1 h
    obtain ⟨r₂, h₂, h⟩ := bind_eq_ok.1 h
    rw [evalAdd_value h, ih₁ h₁, ih₂ h₂, Constant.value]
  | sub c₁ c₂ ih₁ ih₂ =>
    obtain ⟨r₁, h₁, h⟩ := bind_eq_ok.1 h
    obtain ⟨r₂, h₂, h⟩ := bind_eq_ok.1 h
    rw [evalSub_value h hloaded, ih₁ h₁, ih₂ h₂, Constant.value]

/-! ## §3 Patches -/

theorem writes_strInt8L : Writes strInt8L 1 := writes_one

theorem writes_strInt16L : Writes strInt16L 2 := (writes_strInt8L).double

theorem writes_strInt32L : Writes strInt32L 4 := (writes_strInt16L).double

theorem writes_strInt64L : Writes strInt64L 8 := (writes_strInt32L).double

variable {width : WidthInBytes}

/-- A patch replaces the field that it is for. -/
theorem applyPatch_field (pre field post : List UInt8) (v : ℤ)
    (hpos : pre.length = pos) (hfield : field.length = width.toInt) :
    applyPatch (pre ++ field ++ post) (pos, width, v) = pre ++ intBytes width v ++ post := by
  subst hpos
  cases width with
  | eight => exact writes_strInt8L pre field post v hfield
  | sixteen => exact writes_strInt16L pre field post v hfield
  | thirtyTwo => exact writes_strInt32L pre field post v hfield
  | sixtyFour => exact writes_strInt64L pre field post v hfield

/-! ## §4 A pass -/

/-- What a pass emits for a line: the line in place, or a field with a local relocation. -/
inductive Emitted (ctx : Context) (labels : Name → Option ℕ) (forced : Finset ℕ) (pos loc : ℕ) :
    AsmLine → List UInt8 → List (ℕ × LocalReloc) → List Relocation → Prop
  | placed {line : AsmLine} {bytes : List UInt8} {relocs : List Relocation}
      (hplaced : Placed ctx labels pos line bytes relocs) :
      Emitted ctx labels forced pos loc line bytes [] relocs
  | shortJump {instr : Instr} {near far : List UInt8} {symbol : Name}
      (hjump : instr.jump? = some (near, far, symbol)) (hloc : loc ∉ forced) :
      Emitted ctx labels forced pos loc (.ins instr) (near ++ intBytes .eight 0)
        [(pos + near.length, .relocShortJump symbol loc)] []
  | longJump {instr : Instr} {near far : List UInt8} {symbol : Name}
      (hjump : instr.jump? = some (near, far, symbol)) :
      Emitted ctx labels forced pos loc (.ins instr) (far ++ intBytes .thirtyTwo 0)
        [(pos + far.length, .relocLongJump symbol)] []
  | localCall {symbol : Name} :
      Emitted ctx labels forced pos loc (.ins (.call symbol)) ([0xE8] ++ intBytes .thirtyTwo 0)
        [(pos + 1, .relocCall symbol)] []
  | constant {c : Constant} {width : WidthInBytes} :
      Emitted ctx labels forced pos loc (.directive (.const c width)) (intBytes width 0)
        [(pos, .relocConstant c width)] []

/-- What a step adds to the state of a pass. -/
structure Adds (s s' : Pass) (decls : List (Name × ℕ)) (bytes : List UInt8)
    (locals : List (ℕ × LocalReloc)) (relocs : List Relocation) : Prop where
  buf : s'.b.buf = s.b.buf ++ bytes
  localRelocs : s'.localRelocs = locals ++ s.localRelocs
  relocations : s'.b.relocations = relocs ++ s.b.relocations
  patches : s'.b.patches = s.b.patches
  labels : ∀ name p, positions s'.b name = some p ↔ positions s.b name = some p ∨ (name, p) ∈ decls
  forced : s.forcedLongJumps ⊆ s'.forcedLongJumps
  loc : s'.loc = s.loc

variable {labels : Name → Option ℕ} {s s' s'' : Pass} {line : AsmLine}
  {decls decls' : List (Name × ℕ)} {bytes bytes' : List UInt8}
  {locals locals' : List (ℕ × LocalReloc)} {relocs relocs' : List Relocation}

theorem Adds.trans (h : Adds s s' decls bytes locals relocs)
    (h' : Adds s' s'' decls' bytes' locals' relocs') :
    Adds s s'' (decls ++ decls') (bytes ++ bytes') (locals' ++ locals) (relocs' ++ relocs) where
  buf := by rw [h'.buf, h.buf, append_assoc]
  localRelocs := by rw [h'.localRelocs, h.localRelocs, append_assoc]
  relocations := by rw [h'.relocations, h.relocations, append_assoc]
  patches := h'.patches.trans h.patches
  labels := fun name p => by rw [h'.labels, h.labels, List.mem_append, or_assoc]
  forced := h.forced.trans h'.forced
  loc := h'.loc.trans h.loc

theorem adds_nothing : Adds s s [] [] [] [] :=
  ⟨by simp, rfl, rfl, rfl, by simp, subset_rfl, rfl⟩

theorem adds_bytes : Adds s (s.addBytes bytes) [] bytes [] [] :=
  ⟨rfl, rfl, rfl, rfl, by simp [positions, Pass.addBytes, Buffer.addBytes], subset_rfl, rfl⟩

theorem adds_localReloc {x : LocalReloc} : Adds s (s.recordLocalReloc x) [] [] [(s.b.size, x)] [] :=
  ⟨by simp [Pass.recordLocalReloc], rfl, rfl, rfl, by simp [Pass.recordLocalReloc], subset_rfl, rfl⟩

theorem adds_reloc {offset : ℤ} {kind : RelocationKind} :
    Adds s (s.recordReloc offset kind) [] [] [] [⟨offset, kind⟩] :=
  ⟨by simp [Pass.recordReloc, Buffer.recordReloc], rfl, rfl, rfl,
    by simp [positions, Pass.recordReloc, Buffer.recordReloc], subset_rfl, rfl⟩

theorem adds_forced :
    Adds s { s with forcedLongJumps := insert loc s.forcedLongJumps } [] [] [] [] :=
  ⟨by simp, rfl, rfl, rfl, by simp, Finset.subset_insert _ _, rfl⟩

theorem adds_symbol {f : Symbol → Symbol} (hf : ∀ sy, (f sy).syPos = sy.syPos) :
    Adds s { s with b := s.b.updateSymbol name f } [] [] [] [] := by
  refine ⟨by simp [Buffer.updateSymbol, Buffer.setSymbol], rfl, rfl, rfl, fun name' p => ?_,
    subset_rfl, rfl⟩
  simp only [positions, Buffer.updateSymbol, Buffer.setSymbol, List.not_mem_nil, or_false]
  by_cases hname : name' = name
  · rw [if_pos hname, hname, Option.bind_some, hf]
    cases s.b.labels name with
    | none => simp [newSymbol]
    | some sy => simp
  · rw [if_neg hname]

@[simp] theorem size_addBytes : (s.addBytes bytes).b.size = s.b.size + bytes.length := by
  simp [Pass.addBytes, Buffer.addBytes, Buffer.size]

@[simp] theorem declares_ins {instr : Instr} {pos : ℕ} : declares (.ins instr) pos = [] := rfl

/-- The labels of a buffer are where they are in the end. -/
def Final (labels : Name → Option ℕ) (b : Buffer) : Prop :=
  ∀ name p, positions b name = some p → labels name = some p

theorem Adds.final (h : Adds s s' decls bytes locals relocs) (hfinal : Final labels s'.b) :
    Final labels s.b := fun name p hp => hfinal name p ((h.labels name p).2 (.inl hp))

/-- What a step emits for a line. -/
def Emits (ctx : Context) (labels : Name → Option ℕ) (line : AsmLine) (s s' : Pass) : Prop :=
  ∃ bytes locals relocs, Emitted ctx labels s.forcedLongJumps s.b.size s.loc line bytes locals
    relocs ∧ Adds s s' (declares line s.b.size) bytes locals relocs

theorem emits_placed (hplaced : Placed ctx labels s.b.size line bytes relocs)
    (hadds : Adds s s' (declares line s.b.size) bytes [] relocs) : Emits ctx labels line s s' :=
  ⟨bytes, [], relocs, .placed hplaced, hadds⟩

/-! ### Jumps and calls -/

theorem emitRelocJump_emits {instr : Instr} {near far : List UInt8}
    (hjump : instr.jump? = some (near, far, symbol))
    (h : emitRelocJump ctx near far s symbol = .ok s') (hfinal : Final labels s.b) :
    Emits ctx labels (.ins instr) s s' := by
  unfold emitRelocJump at h
  split at h
  · rename_i targetLoc hlocal
    by_cases hback : targetLoc < s.loc
    · rw [if_pos hback] at h
      split at h
      · exact absurd h throw_ne_ok
      rename_i targetPos hpos
      have hlabel := hfinal _ _ (labelPos_eq_ok.1 hpos)
      by_cases hlt : ¬targetPos < s.b.size
      · rw [if_pos hlt] at h; exact absurd h throw_ne_ok
      rw [if_neg hlt] at h
      by_cases hshort : s.loc ∉ s.forcedLongJumps ∧
          -128 ≤ ((targetPos : ℤ) - s.b.size) - (1 + near.length) ∧
          ((targetPos : ℤ) - s.b.size) - (1 + near.length) < 128
      · rw [if_pos hshort] at h
        cases h
        refine emits_placed (.shortJump hjump hlabel ?_ hshort.2) (adds_bytes.trans adds_bytes)
        simp only [intBytes, WidthInBytes.toInt, length_append, leInt_length]
        push_cast
        ring
      rw [if_neg hshort] at h
      cases h
      refine emits_placed (.longJump hjump hlabel ?_)
        ((adds_forced.trans adds_bytes).trans adds_bytes)
      simp only [intBytes, WidthInBytes.toInt, length_append, leInt_length]
      push_cast
      ring
    rw [if_neg hback] at h
    by_cases hforced : s.loc ∈ s.forcedLongJumps
    · rw [if_pos hforced] at h
      cases h
      have hadds := ((@adds_bytes s far).trans
        (@adds_localReloc _ (.relocLongJump symbol))).trans
          (@adds_bytes _ (intBytes .thirtyTwo 0))
      exact ⟨_, _, _, .longJump hjump, by simpa using hadds⟩
    rw [if_neg hforced] at h
    cases h
    have hadds := ((@adds_bytes s near).trans
      (@adds_localReloc _ (.relocShortJump symbol s.loc))).trans
      (@adds_bytes _ (intBytes .eight 0))
    exact ⟨_, _, _, .shortJump hjump hforced, by simpa using hadds⟩
  rename_i hexternal
  cases h
  have hadds := ((@adds_bytes s far).trans
    (@adds_reloc _ (s.addBytes far).b.size (.rel32 symbol 0))).trans
    (@adds_bytes _ (intBytes .thirtyTwo 0))
  refine emits_placed (.externalJump hjump hexternal) ?_
  simpa using hadds

theorem emitCall_emits : Emits ctx labels (.ins (.call symbol)) s (emitCall ctx s symbol) := by
  unfold emitCall
  cases hlocal : ctx.localLabels symbol with
  | some targetLoc =>
    have hadds := ((@adds_bytes s [0xE8]).trans (@adds_localReloc _ (.relocCall symbol))).trans
      (@adds_bytes _ (intBytes .thirtyTwo 0))
    exact ⟨_, _, _, .localCall, by simpa using hadds⟩
  | none =>
    have hadds := ((@adds_bytes s [0xE8]).trans
      (@adds_reloc _ (s.addBytes [0xE8]).b.size (.rel32 symbol 0))).trans
      (@adds_bytes _ (intBytes .thirtyTwo 0))
    refine emits_placed (.externalCall hlocal) ?_
    simpa using hadds

theorem adds_relocs {place : ℕ} {l : List (ℕ × RelocationKind)} :
    Adds s (l.foldl (fun (s' : Pass) reloc => s'.recordReloc (place + reloc.1) reloc.2) s) [] [] []
      (l.map fun reloc => (⟨place + reloc.1, reloc.2⟩ : Relocation)).reverse := by
  induction l generalizing s with
  | nil => exact adds_nothing
  | cons reloc l ih =>
    rw [List.map_cons, List.reverse_cons]
    exact (@adds_reloc s (place + reloc.1) reloc.2).trans ih

theorem emitEncoding_emits {encoding : Encoding} :
    Emits ctx labels (.ins (.encoded (some encoding))) s (emitEncoding s encoding) := by
  have hadds := (@adds_relocs s s.b.size encoding.relocations).trans (@adds_bytes _ encoding.bytes)
  refine emits_placed (.encoded (List.reverse_perm _)) ?_
  simpa [emitEncoding] using hadds

theorem assembleInstr_emits {instr : Instr} (h : assembleInstr ctx s instr = .ok s')
    (hfinal : Final labels s.b) : Emits ctx labels (.ins instr) s s' := by
  cases instr with
  | jmp symbol | j condition symbol => exact emitRelocJump_emits rfl h hfinal
  | call symbol => cases h; exact emitCall_emits
  | encoded encoding =>
    cases encoding with
    | none => exact absurd h throw_ne_ok
    | some encoding => cases h; exact emitEncoding_emits

/-! ### Directives -/

theorem emitConstant_emits :
    Emits ctx labels (.directive (.const c width)) s (emitConstant s c width) := by
  have hlocal : Emits ctx labels (.directive (.const c width)) s
      ((s.recordLocalReloc (.relocConstant c width)).addBytes (intBytes width 0)) :=
    ⟨_, _, _, .constant, adds_localReloc.trans adds_bytes⟩
  cases c with
  | signedInt n | unsignedInt n => exact emits_placed (.constantValue fun _ _ _ => rfl) adds_bytes
  | _ => exact hlocal

theorem declareLabel_eq_ok {b' : Buffer} (h : b.declareLabel name = .ok b') :
    positions b name = none ∧ b' = b.updateSymbol name fun sy =>
      { sy with syPos := some b.size } := by
  unfold Buffer.declareLabel at h
  split_ifs at h with hdeclared
  cases h
  refine ⟨?_, rfl⟩
  unfold positions
  cases hsy : b.labels name with
  | none => rfl
  | some sy => simpa [hsy] using hdeclared

theorem adds_label (hnone : positions s.b name = none) :
    Adds s { s with b := s.b.updateSymbol name fun sy => { sy with syPos := some s.b.size } }
      [(name, s.b.size)] [] [] [] := by
  refine ⟨by simp [Buffer.updateSymbol, Buffer.setSymbol], rfl, rfl, rfl, fun name' p => ?_,
    subset_rfl, rfl⟩
  by_cases hname : name' = name
  · subst hname
    rw [hnone]
    simp [positions, Buffer.updateSymbol, Buffer.setSymbol, eq_comm]
  · simp [positions, Buffer.updateSymbol, Buffer.setSymbol, hname]

theorem resolve_located {lbl : Name} {entry : String × ℕ} (h : resolve ctx s.b lbl = .ok entry)
    (hfinal : Final labels s.b) : Located ctx labels lbl entry := by
  unfold resolve at h
  split at h
  · rename_i pos hpos
    cases h
    exact .inl ⟨rfl, hfinal _ _ (labelPos_eq_ok.1 hpos)⟩
  split at h
  · rename_i entry' hentry
    cases h
    exact .inr hentry
  · exact absurd h throw_ne_ok

theorem deltaBytes_placed {delta : Constant} (h : deltaBytes ctx s.b delta = .ok bytes)
    (hfinal : Final labels s.b) :
    Placed ctx labels s.b.size (.directive (.deltaUleb128 delta)) bytes [] := by
  unfold deltaBytes at h
  split at h
  · obtain ⟨⟨secU, posU⟩, hupper, h⟩ := bind_eq_ok.1 h
    obtain ⟨⟨secL, posL⟩, hlower, h⟩ := bind_eq_ok.1 h
    dsimp only at h
    split_ifs at h with hsec hlt
    obtain rfl : secU = secL := not_not.1 hsec
    cases h
    exact .deltaUleb128 (resolve_located hupper hfinal) (resolve_located hlower hfinal)
      (not_lt.1 hlt)
  · exact absurd h throw_ne_ok

theorem assembleDirective_emits {d : Directive} (h : assembleDirective ctx s d = .ok s')
    (hfinal : Final labels s'.b) : Emits ctx labels (.directive d) s s' := by
  cases d with
  | ignored => cases h; exact emits_placed .ignored adds_nothing
  | unsupported => exact absurd h throw_ne_ok
  | globl sym => cases h; exact emits_placed .globl (adds_symbol fun _ => rfl)
  | weak sym => cases h; exact emits_placed .weak (adds_symbol fun _ => rfl)
  | protectedSym sym => cases h; exact emits_placed .protectedSym (adds_symbol fun _ => rfl)
  | const c width => cases h; exact emitConstant_emits
  | newLabel name =>
    obtain ⟨b', hb', h⟩ := bind_eq_ok.1 h
    cases h
    obtain ⟨hnone, rfl⟩ := declareLabel_eq_ok hb'
    have hadds := adds_label hnone
    refine emits_placed (.newLabel (hfinal _ _ ?_)) hadds
    exact (hadds.labels _ _).2 (.inr (by simp))
  | bytes str => cases h; exact emits_placed .bytes adds_bytes
  | type name kind => cases h; exact emits_placed .type (adds_symbol fun _ => rfl)
  | size sym cst =>
    obtain ⟨r, -, h⟩ := bind_eq_ok.1 h
    cases r with
    | rint n => cases h; exact emits_placed .size (adds_symbol fun _ => rfl)
    | rabs s n | rrel s n => exact absurd h throw_ne_ok
  | align fill n =>
    obtain ⟨bytes, hbytes, h⟩ := bind_eq_ok.1 h
    cases h
    exact emits_placed (.align hbytes) adds_bytes
  | space n =>
    obtain ⟨bytes, hbytes, h⟩ := bind_eq_ok.1 h
    cases h
    exact emits_placed (.space hbytes) adds_bytes
  | deltaUleb128 delta =>
    obtain ⟨bytes, hbytes, h⟩ := bind_eq_ok.1 h
    cases h
    exact emits_placed (deltaBytes_placed hbytes (adds_bytes.final hfinal)) adds_bytes
  | reloc isPlt32 targetSymbol addend offset =>
    simp only [assembleDirective] at h
    split_ifs at h with hplt
    obtain ⟨rfl, rfl, rfl⟩ := hplt
    cases h
    exact emits_placed .reloc adds_reloc

/-! ### Lines -/

/-- The number of instructions of a line. -/
def AsmLine.numIns : AsmLine → ℕ
  | .ins _ => 1
  | .directive _ => 0

/-- What a line emits, which counts its instructions. -/
def EmitsLine (ctx : Context) (labels : Name → Option ℕ) (line : AsmLine) (s s' : Pass) : Prop :=
  ∃ t, Emits ctx labels line s t ∧ s' = { t with loc := s.loc + line.numIns }

theorem assembleLine_emits (h : assembleLine ctx s line = .ok s') (hfinal : Final labels s'.b) :
    EmitsLine ctx labels line s s' := by
  cases line with
  | ins instr =>
    obtain ⟨t, ht, h⟩ := bind_eq_ok.1 h
    cases h
    -- an instruction declares no label
    obtain ⟨_, _, _, -, hadds⟩ := @assembleInstr_emits ctx (positions s.b) _ _ _ ht fun _ _ hp => hp
    refine ⟨t, assembleInstr_emits ht (hadds.final hfinal), ?_⟩
    rw [AsmLine.numIns, hadds.loc]
  | directive d =>
    have hemits := assembleDirective_emits h hfinal
    obtain ⟨_, _, _, -, hadds⟩ := hemits
    refine ⟨s', assembleDirective_emits h hfinal, ?_⟩
    rw [AsmLine.numIns, Nat.add_zero, ← hadds.loc]

/-- The chunks of lines from a position and an instruction on: their bytes, their local
relocations and their relocations. -/
inductive Chunks (ctx : Context) (labels : Name → Option ℕ) (forced : Finset ℕ) :
    ℕ → ℕ → List AsmLine → List (List UInt8) → List (List (ℕ × LocalReloc)) →
      List (List Relocation) → Prop
  | nil {pos loc : ℕ} : Chunks ctx labels forced pos loc [] [] [] []
  | cons {pos loc : ℕ} {line : AsmLine} {lines : List AsmLine} {bytes : List UInt8}
      {locals : List (ℕ × LocalReloc)} {relocs : List Relocation} {chunks : List (List UInt8)}
      {localss : List (List (ℕ × LocalReloc))} {relocss : List (List Relocation)}
      (hline : Emitted ctx labels forced pos loc line bytes locals relocs)
      (hlines : Chunks ctx labels forced (pos + bytes.length) (loc + line.numIns) lines chunks
        localss relocss) :
      Chunks ctx labels forced pos loc (line :: lines) (bytes :: chunks) (locals :: localss)
        (relocs :: relocss)

/-- The labels that lines declare, when the chunks are their bytes. -/
def declaresAll : ℕ → List AsmLine → List (List UInt8) → List (Name × ℕ)
  | pos, line :: lines, bytes :: chunks =>
    declares line pos ++ declaresAll (pos + bytes.length) lines chunks
  | _, _, _ => []

variable {forced forced' : Finset ℕ}

theorem Emitted.mono (hsub : forced ⊆ forced')
    (h : Emitted ctx labels forced' pos loc line bytes locals relocs) :
    Emitted ctx labels forced pos loc line bytes locals relocs := by
  cases h with
  | placed hplaced => exact .placed hplaced
  | shortJump hjump hloc => exact .shortJump hjump fun hmem => hloc (hsub hmem)
  | longJump hjump => exact .longJump hjump
  | localCall => exact .localCall
  | constant => exact .constant

variable {lines : List AsmLine} {relocss : List (List Relocation)} {chunks : List (List UInt8)}

variable {localss : List (List (ℕ × LocalReloc))}

theorem Chunks.mono (hsub : forced ⊆ forced')
    (h : Chunks ctx labels forced' pos loc lines chunks localss relocss) :
    Chunks ctx labels forced pos loc lines chunks localss relocss := by
  induction h with
  | nil => exact .nil
  | cons hline _ ih => exact .cons (hline.mono hsub) ih

/-- What the lines of a section add to the state of a pass. -/
theorem assembleLines_emits
    (h : lines.foldlM (assembleLine ctx) s = .ok s') (hfinal : Final labels s'.b) :
    ∃ chunks localss relocss, Chunks ctx labels s.forcedLongJumps s.b.size s.loc lines chunks
        localss relocss ∧
      s'.b.buf = s.b.buf ++ chunks.flatten ∧
      s'.localRelocs = localss.reverse.flatten ++ s.localRelocs ∧
      s'.b.relocations = relocss.reverse.flatten ++ s.b.relocations ∧
      s'.b.patches = s.b.patches ∧
      (∀ name p, positions s'.b name = some p ↔
        positions s.b name = some p ∨ (name, p) ∈ declaresAll s.b.size lines chunks) ∧
      s.forcedLongJumps ⊆ s'.forcedLongJumps := by
  induction lines generalizing s with
  | nil =>
    cases h
    exact ⟨[], [], [], .nil, by simp, rfl, rfl, rfl, by simp [declaresAll], subset_rfl⟩
  | cons line lines ih =>
    obtain ⟨t, ht, h⟩ := bind_eq_ok.1 h
    obtain ⟨chunks, localss, relocss, hchunks, hbuf, hlocals, hrelocs, hpatches,
      hlabels, hforced⟩ :=
      ih h
    have hfinal' : Final labels t.b := fun name p hp => hfinal name p ((hlabels name p).2 (.inl hp))
    obtain ⟨u, ⟨bytes, locals, relocs, hemitted, hadds⟩, rfl⟩ := assembleLine_emits ht hfinal'
    have hsize : u.b.size = s.b.size + bytes.length := by
      unfold Buffer.size
      rw [hadds.buf, length_append]
    refine ⟨bytes :: chunks, locals :: localss, relocs :: relocss, .cons hemitted ?_, ?_, ?_, ?_,
      ?_, ?_, ?_⟩
    · rw [← hsize]; exact hchunks.mono hadds.forced
    · rw [hbuf, hadds.buf, flatten_cons, append_assoc]
    · simp [hlocals, hadds.localRelocs]
    · simp [hrelocs, hadds.relocations]
    · exact hpatches.trans hadds.patches
    · intro name p; rw [hlabels, hadds.labels, declaresAll, ← hsize, List.mem_append, or_assoc]
    · exact hadds.forced.trans hforced

/-! ## §5 The resolution -/

variable {t t' : Resolution} {forced : Finset ℕ} {loc : ℕ}

/-- What the resolution of a chunk changes: the chunk, patched in place, is the line. -/
structure Resolved (ctx : Context) (labels : Name → Option ℕ) (pos : ℕ) (line : AsmLine)
    (bytes bytes' : List UInt8) (relocs relocs' : List Relocation)
    (patches : List (ℕ × WidthInBytes × ℤ)) : Prop where
  placed : Placed ctx labels pos line bytes' (relocs' ++ relocs)
  length : bytes'.length = bytes.length
  patched : ∀ pre post : List UInt8, pre.length = pos →
    patches.foldl applyPatch (pre ++ bytes ++ post) = pre ++ bytes' ++ post

/-- Patches and relocations are added, and nothing else is changed. -/
structure Patches (t t' : Resolution) (patches : List (ℕ × WidthInBytes × ℤ))
    (relocs : List Relocation) : Prop where
  retry : t.retry = false
  buf : t'.b.buf = t.b.buf
  labels : t'.b.labels = t.b.labels
  patches : t'.b.patches = patches ++ t.b.patches
  relocations : t'.b.relocations = relocs ++ t.b.relocations

/-- A field after an opcode, with its patch. -/
theorem resolved_field {opcode : List UInt8} {width : WidthInBytes} {v : ℤ}
    (hplaced : Placed ctx labels pos line (opcode ++ intBytes width v) []) :
    Resolved ctx labels pos line (opcode ++ intBytes width 0) (opcode ++ intBytes width v) [] []
      [(pos + opcode.length, width, v)] where
  placed := hplaced
  length := by simp [intBytes]
  patched := by
    intro pre post hpre
    have hfield : (pre ++ opcode).length = pos + opcode.length := by rw [length_append, hpre]
    have hpatch := applyPatch_field (pre ++ opcode) (intBytes width 0) post v hfield
      (leInt_length width.toInt 0)
    simpa using hpatch

theorem resolved_nothing {bytes : List UInt8} {relocs : List Relocation}
    (hplaced : Placed ctx labels pos line bytes relocs) :
    Resolved ctx labels pos line bytes bytes relocs [] [] where
  placed := hplaced
  length := rfl
  patched := fun _ _ _ => rfl

theorem patches_patch {v : ℤ} (hretry : t.retry = false) :
    Patches t { t with b := t.b.addPatch pos width v } [(pos, width, v)] [] :=
  ⟨hretry, rfl, rfl, rfl, rfl⟩

theorem patches_reloc {offset : ℤ} {kind : RelocationKind} (hretry : t.retry = false) :
    Patches t { t with b := t.b.recordReloc offset kind } [] [⟨offset, kind⟩] :=
  ⟨hretry, rfl, rfl, rfl, rfl⟩

/-- The resolution of a constant at its position. -/
theorem doLocalReloc_constant (hlabels : positions t.b = labels)
    (h : doLocalReloc t (pos, .relocConstant c width) = .ok t') (hretry : t'.retry = false) :
    ∃ patches relocs bytes, Patches t t' patches relocs ∧
      Resolved ctx labels pos (.directive (.const c width)) (intBytes width 0) bytes [] relocs
        patches := by
  subst hlabels
  obtain ⟨r, hr, h⟩ := bind_eq_ok.1 h
  have hvalue : ∀ base address, Loaded (positions t.b) base address →
      c.value address (base + pos) = r.value address (base + pos) :=
    fun base address hloaded => (evalConst_value hr hloaded).symm
  -- a field that is not patched, with a relocation
  have hfield : ∀ kind : RelocationKind, (∀ base address, Loaded (positions t.b) base address →
      c.value address (base + pos) = kind.value address (base + pos)) →
      Resolved ctx (positions t.b) pos (.directive (.const c width)) (intBytes width 0)
        (intBytes width 0) [] [⟨pos, kind⟩] [] :=
    fun kind hkind => ⟨.constantReloc hkind, rfl, fun _ _ _ => rfl⟩
  have hhere : ∀ (n : ℤ) (kind : RelocationKind),
      (∀ base address, Loaded (positions t.b) base address →
        c.value address (base + pos) = base + pos + n) →
      Resolved ctx (positions t.b) pos (.directive (.const c width)) (intBytes width 0)
        (intBytes width 0) [] [⟨pos, kind⟩] [] :=
    fun n kind hn => ⟨.constantHere (leInt_length _ _) hn, rfl, fun _ _ _ => rfl⟩
  split at h
  · rename_i n
    cases h
    exact ⟨_, _, _, patches_patch hretry, 
      @resolved_field ctx pos (positions t.b) _ [] width n (.constantValue hvalue)⟩
  · rename_i lbl offset _
    cases h
    cases lbl with
    | none => exact ⟨_, _, _, patches_reloc hretry, hhere offset _ hvalue⟩
    | some lbl => exact ⟨_, _, _, patches_reloc hretry, hfield _ hvalue⟩
  · rename_i lbl offset _
    cases h
    cases lbl with
    | none => exact ⟨_, _, _, patches_reloc hretry, hhere offset _ hvalue⟩
    | some lbl => exact ⟨_, _, _, patches_reloc hretry, hfield _ hvalue⟩
  · cases h
    refine ⟨_, _, _, patches_reloc hretry, hfield _ fun base address hloaded => ?_⟩
    rw [hvalue base address hloaded]
    simp only [Result.value, RelocationKind.value]
    ring
  · exact absurd h throw_ne_ok

/-- The resolution of a chunk at its position. -/
theorem resolve_chunk (hlabels : positions t.b = labels)
    (hemitted : Emitted ctx labels forced pos loc line bytes locals relocs)
    (h : locals.foldlM doLocalReloc t = .ok t') (hretry : t'.retry = false) :
    ∃ patches relocs' bytes', Patches t t' patches relocs' ∧
      Resolved ctx labels pos line bytes bytes' relocs relocs' patches := by
  cases hemitted with
  | placed hplaced =>
    cases h
    exact ⟨[], [], bytes, ⟨hretry, rfl, rfl, rfl, rfl⟩, resolved_nothing hplaced⟩
  | shortJump hjump hloc =>
    obtain ⟨u, hu, h⟩ := bind_eq_ok.1 h
    cases h
    obtain ⟨targetPos, htarget, hu⟩ := bind_eq_ok.1 hu
    have hlabel := labelPos_eq_ok.1 htarget
    rw [hlabels] at hlabel
    dsimp only at hu
    split_ifs at hu with hfits
    · cases hu
      refine ⟨_, _, _, patches_patch hretry, resolved_field (.shortJump hjump hlabel ?_ hfits)⟩
      simp only [intBytes, WidthInBytes.toInt, length_append, leInt_length]
      push_cast
      ring
    · cases hu; cases hretry
  | longJump hjump =>
    obtain ⟨u, hu, h⟩ := bind_eq_ok.1 h
    cases h
    obtain ⟨targetPos, htarget, hu⟩ := bind_eq_ok.1 hu
    have hlabel := labelPos_eq_ok.1 htarget
    rw [hlabels] at hlabel
    cases hu
    refine ⟨_, _, _, patches_patch hretry, resolved_field (.longJump hjump hlabel ?_)⟩
    simp only [intBytes, WidthInBytes.toInt, length_append, leInt_length]
    push_cast
    ring
  | localCall =>
    obtain ⟨u, hu, h⟩ := bind_eq_ok.1 h
    cases h
    obtain ⟨targetPos, htarget, hu⟩ := bind_eq_ok.1 hu
    have hlabel := labelPos_eq_ok.1 htarget
    rw [hlabels] at hlabel
    cases hu
    refine ⟨_, _, _, patches_patch hretry, resolved_field (.localCall hlabel ?_)⟩
    simp only [intBytes, WidthInBytes.toInt, List.length_cons, leInt_length]
    push_cast
    ring
  | constant =>
    obtain ⟨u, hu, h⟩ := bind_eq_ok.1 h
    cases h
    exact doLocalReloc_constant hlabels hu hretry

/-- What the resolution of one local relocation can do. -/
theorem doLocalReloc_cases {x : ℕ × LocalReloc} (h : doLocalReloc t x = .ok t') :
    (∃ patches relocations, t' = { t with b := { t.b with patches, relocations } }) ∨
      ∃ label loc, x.2 = .relocShortJump label loc ∧
        t' = { t with forcedLongJumps := insert loc t.forcedLongJumps, retry := true } := by
  obtain ⟨pos, x⟩ := x
  cases x with
  | relocShortJump label loc =>
    obtain ⟨targetPos, -, h⟩ := bind_eq_ok.1 h
    dsimp only at h
    split_ifs at h
    · cases h; exact .inl ⟨_, _, rfl⟩
    · cases h; exact .inr ⟨label, loc, rfl, rfl⟩
  | relocCall label =>
    obtain ⟨targetPos, -, h⟩ := bind_eq_ok.1 h
    cases h
    exact .inl ⟨_, _, rfl⟩
  | relocLongJump label =>
    obtain ⟨targetPos, -, h⟩ := bind_eq_ok.1 h
    cases h
    exact .inl ⟨_, _, rfl⟩
  | relocConstant c width =>
    obtain ⟨r, -, h⟩ := bind_eq_ok.1 h
    split at h
    · cases h; exact .inl ⟨_, _, rfl⟩
    · cases h; exact .inl ⟨_, _, rfl⟩
    · cases h; exact .inl ⟨_, _, rfl⟩
    · cases h; exact .inl ⟨_, _, rfl⟩
    · exact absurd h throw_ne_ok

/-- A run of the resolution keeps the labels. It only adds long jumps, and is retried after
it has added one that was not there. -/
theorem doLocalRelocs_grows {l : List (ℕ × LocalReloc)} {n : ℕ}
    (hlocs : ∀ x ∈ l, ∀ label loc, x.2 = .relocShortJump label loc → loc ∉ forced ∧ loc < n)
    (h : l.foldlM doLocalReloc t = .ok t') :
    t'.b.labels = t.b.labels ∧ t.forcedLongJumps ⊆ t'.forcedLongJumps ∧
      (t'.retry = true → t.retry = true ∨ ∃ loc ∈ t'.forcedLongJumps, loc ∉ forced ∧ loc < n) := by
  induction l generalizing t with
  | nil => cases h; exact ⟨rfl, subset_rfl, .inl⟩
  | cons x l ih =>
    obtain ⟨u, hu, h⟩ := bind_eq_ok.1 h
    obtain ⟨hlabels, hsub, hretry⟩ := ih (fun y hy => hlocs y (List.mem_cons_of_mem _ hy)) h
    rcases doLocalReloc_cases hu with ⟨patches, relocations, rfl⟩ | ⟨label, loc, hx, rfl⟩
    · exact ⟨hlabels, hsub, hretry⟩
    obtain ⟨hnew, hlt⟩ := hlocs x List.mem_cons_self label loc hx
    have hmem := hsub (Finset.mem_insert_self loc t.forcedLongJumps)
    exact ⟨hlabels, (Finset.subset_insert _ _).trans hsub, fun _ => .inr ⟨loc, hmem, hnew, hlt⟩⟩

/-- The short jumps of chunks are not forced, and are instructions of the lines. -/
theorem chunks_locs (hchunks : Chunks ctx labels forced pos loc lines chunks localss relocss) :
    ∀ x ∈ localss.flatten, ∀ label loc', x.2 = .relocShortJump label loc' →
      loc' ∉ forced ∧ loc' < loc + (lines.map AsmLine.numIns).sum := by
  induction hchunks with
  | nil => simp
  | @cons pos loc line lines bytes locals relocs chunks localss relocss hline _ ih =>
    intro x hx label loc' heq
    rw [flatten_cons, List.mem_append] at hx
    rw [List.map_cons, List.sum_cons]
    rcases hx with hx | hx
    · cases hline with
      | placed => simp at hx
      | shortJump hjump hloc =>
        obtain rfl := List.mem_singleton.1 hx
        cases heq
        rw [AsmLine.numIns]
        exact ⟨hloc, by omega⟩
      | longJump | localCall | constant => obtain rfl := List.mem_singleton.1 hx; cases heq
    · obtain ⟨hforced, hlt⟩ := ih x hx label loc' heq; exact ⟨hforced, by omega⟩

/-- The resolution of all chunks, the last one first: the patched chunks are the lines. -/
theorem resolve_chunks (hlabels : positions t.b = labels)
    (hchunks : Chunks ctx labels forced pos loc lines chunks localss relocss)
    (h : localss.reverse.flatten.foldlM doLocalReloc t = .ok t') (hretry : t'.retry = false) :
    ∃ patches relocs' contents relocs, Patches t t' patches relocs' ∧
      Assembled ctx labels pos lines contents relocs (declaresAll pos lines chunks) ∧
      relocs.Perm (relocs' ++ relocss.flatten) ∧
      ∀ pre post : List UInt8, pre.length = pos →
        patches.foldl applyPatch (pre ++ chunks.flatten ++ post) = pre ++ contents ++ post := by
  induction hchunks generalizing t' with
  | nil =>
    cases h
    exact ⟨[], [], [], [], ⟨hretry, rfl, rfl, rfl, rfl⟩, .nil, .refl _, fun _ _ _ => rfl⟩
  | @cons pos loc line lines bytes locals relocs chunks localss relocss hline hlines ih =>
    rw [List.reverse_cons, List.flatten_append, List.foldlM_append] at h
    obtain ⟨u, hu, h⟩ := bind_eq_ok.1 h
    rw [flatten_cons, List.flatten_nil, List.append_nil] at h
    have hlocs : ∀ x ∈ localss.reverse.flatten, ∀ label loc', x.2 = .relocShortJump label loc' →
        loc' ∉ forced ∧ loc' < loc + line.numIns + (lines.map AsmLine.numIns).sum := by
      intro x hx
      refine chunks_locs hlines x ?_
      simpa [List.mem_flatten] using hx
    have hlabels' : positions u.b = labels := by
      rw [← hlabels]
      unfold positions
      rw [(doLocalRelocs_grows hlocs hu).1]
    obtain ⟨patches, relocs', bytes', hpatches, hresolved⟩ :=
      resolve_chunk hlabels' hline h hretry
    obtain ⟨patches', relocs'', contents, all, hrest, hassembled, hperm, hpatched⟩ :=
      ih hu hpatches.retry
    refine ⟨patches ++ patches', relocs' ++ relocs'', bytes' ++ contents, relocs' ++ relocs ++ all,
      ?_, ?_, ?_, ?_⟩
    · exact ⟨hrest.retry, hpatches.buf.trans hrest.buf, hpatches.labels.trans hrest.labels,
        by rw [hpatches.patches, hrest.patches, append_assoc],
        by rw [hpatches.relocations, hrest.relocations, append_assoc]⟩
    · rw [declaresAll]
      rw [← hresolved.length] at hassembled ⊢
      exact .cons hresolved.placed hassembled
    · rw [flatten_cons]
      have hswap : (relocs' ++ relocs ++ all).Perm
        (relocs' ++ relocs ++ (relocs'' ++ relocss.flatten)) :=
        hperm.append_left _
      refine hswap.trans ?_
      rw [append_assoc, append_assoc]
      refine Perm.append_left _ ?_
      rw [← append_assoc, ← append_assoc]
      exact List.perm_append_comm.append_right _
    intro pre post hpre
    have hfirst := hresolved.patched pre (chunks.flatten ++ post) hpre
    have hsecond := hpatched (pre ++ bytes') post (by
      rw [length_append, hpre, hresolved.length])
    rw [List.foldl_append, flatten_cons]
    simp only [append_assoc] at hfirst hsecond ⊢
    rw [hfirst, hsecond]

/-! ## §6 The passes -/

/-- A pass that is not retried has laid out the lines. -/
theorem assemblePass_laidOut (h : assemblePass ctx forced lines = .ok t)
    (hretry : t.retry = false) : LaidOut ctx lines t.b := by
  obtain ⟨s, hs, h⟩ := bind_eq_ok.1 h
  obtain ⟨chunks, localss, relocss, hchunks, hbuf, hlocals, hrelocs, hpatches, hlabels, -⟩ :=
    assembleLines_emits hs fun _ _ hp => hp
  rw [hlocals] at h
  simp only [List.append_nil] at h
  obtain ⟨patches, relocs', bytes, relocs, hadded, hassembled, hperm, hpatched⟩ :=
    resolve_chunks rfl hchunks h hretry
  have hpositions : positions t.b = positions s.b := by
    unfold positions
    rw [hadded.labels]
  have hcontents : contents t.b = bytes := by
    unfold contents
    rw [hadded.patches, hadded.buf]
    rw [hpatches, hbuf]
    have hall := hpatched [] [] rfl
    simpa [newBuffer] using hall
  refine ⟨relocs, declaresAll 0 lines chunks, ?_, ?_, ?_⟩
  · rw [hpositions, hcontents]; exact hassembled
  · rw [hadded.relocations]
    rw [hrelocs]
    refine Perm.trans ?_ hperm.symm
    refine Perm.append_left _ ?_
    simp only [newBuffer, List.append_nil]
    exact (List.reverse_perm relocss).flatten
  intro name p
  rw [hpositions, hlabels]
  simp [positions, newBuffer, Buffer.size]

/-- The number of instructions of a section. -/
def numIns (lines : List AsmLine) : ℕ := (lines.map AsmLine.numIns).sum

theorem assemblePass_grows (h : assemblePass ctx forced lines = .ok t) :
    forced ⊆ t.forcedLongJumps ∧
      (t.retry = true → ∃ loc ∈ t.forcedLongJumps, loc ∉ forced ∧ loc < numIns lines) := by
  obtain ⟨s, hs, h⟩ := bind_eq_ok.1 h
  obtain ⟨chunks, localss, relocss, hchunks, -, hlocals, -, -, -, hsub⟩ :=
    assembleLines_emits hs fun _ _ hp => hp
  rw [hlocals] at h
  simp only [List.append_nil] at h
  have hlocs : ∀ x ∈ localss.reverse.flatten, ∀ label loc, x.2 = .relocShortJump label loc →
      loc ∉ forced ∧ loc < numIns lines := by
    intro x hx label loc heq
    have hmem : x ∈ localss.flatten := by simpa [List.mem_flatten] using hx
    have hloc := chunks_locs hchunks x hmem label loc heq
    rwa [Nat.zero_add] at hloc
  obtain ⟨-, hforced, hretry⟩ := doLocalRelocs_grows hlocs h
  refine ⟨hsub.trans hforced, fun htrue => ?_⟩
  rcases hretry htrue with hfalse | hnew
  · cases hfalse
  · exact hnew

/-- The instructions that are not forced to be long jumps. -/
def unforced (lines : List AsmLine) (forced : Finset ℕ) : ℕ :=
  (Finset.range (numIns lines) \ forced).card

theorem unforced_lt (hsub : forced ⊆ forced')
    (hmem : ∃ loc ∈ forced', loc ∉ forced ∧ loc < numIns lines) :
    unforced lines forced' < unforced lines forced := by
  obtain ⟨loc, hloc, hnew, hlt⟩ := hmem
  refine Finset.card_lt_card ⟨Finset.sdiff_subset_sdiff subset_rfl hsub, fun hall => ?_⟩
  have hin : loc ∈ Finset.range (numIns lines) \ forced :=
    Finset.mem_sdiff.2 ⟨Finset.mem_range.2 hlt, hnew⟩
  exact (Finset.mem_sdiff.1 (hall hin)).2 hloc

/-- With more fuel than instructions that may be forced, the passes end. -/
theorem iterAssemble_ends {lines : List AsmLine} {fuel : ℕ} (hfuel : unforced lines forced < fuel) :
    ∃ outcome, (∀ fuel', fuel ≤ fuel' → iterAssemble ctx lines fuel' forced = some outcome) ∧
      ∀ b, outcome = .ok b → LaidOut ctx lines b := by
  induction fuel generalizing forced with
  | zero => omega
  | succ fuel ih =>
    cases hpass : assemblePass ctx forced lines with
    | error e =>
      refine ⟨.error e, fun fuel' hle => ?_, fun b hb => by cases hb⟩
      obtain ⟨n, rfl⟩ := Nat.exists_eq_add_of_le' (Nat.succ_le_of_lt (by omega : 0 < fuel'))
      rw [iterAssemble, hpass]
    | ok t =>
      cases hretry : t.retry with
      | false =>
        refine ⟨.ok t.b, fun fuel' hle => ?_, fun b hb => ?_⟩
        · obtain ⟨n, rfl⟩ := Nat.exists_eq_add_of_le' (Nat.succ_le_of_lt (by omega : 0 < fuel'))
          rw [iterAssemble, hpass]
          simp [hretry]
        · cases hb; exact assemblePass_laidOut hpass hretry
      | true =>
        obtain ⟨hsub, hnew⟩ := assemblePass_grows hpass
        have hlt := unforced_lt hsub (hnew hretry)
        obtain ⟨outcome, hrun, hlaid⟩ := @ih t.forcedLongJumps (by omega)
        refine ⟨outcome, fun fuel' hle => ?_, hlaid⟩
        obtain ⟨n, rfl⟩ := Nat.exists_eq_add_of_le' (Nat.succ_le_of_lt (by omega : 0 < fuel'))
        rw [iterAssemble, hpass]
        simp only [hretry]
        exact hrun n (by omega)

/-- A byte for the difference of two labels and 300. -/
def byteSection : Section where
  secName := ".data"
  isTextLike := false
  secInstrs := [.directive (.newLabel "L1"), .directive (.newLabel "L2"),
    .directive (.const (.add (.sub (.label "L2") (.label "L1")) (.signedInt 300)) .eight)]

/-- The address of a field, moved by the difference of two labels. -/
def hereSection : Section where
  secName := ".data"
  isTextLike := false
  secInstrs := [.directive (.newLabel "L1"), .directive (.newLabel "L2"),
    .directive (.const (.add .this (.sub (.label "L2") (.label "L1"))) .sixtyFour)]

end Oxcaml.Backend.X86BinaryEmitter
