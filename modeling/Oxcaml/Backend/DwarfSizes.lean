/-
Oxcaml.Backend.DwarfSizes — when the size functions of DWARF agree with emission.

`Sized` and `Takes` say which number a size function computes and how many bytes an
emission makes. `Agrees` compares the two: `missing` are the bytes that are counted and
not emitted, the terminators of strings, and `extra` the bytes that are emitted and not
counted, of signed encodings and of initial lengths in the 64-bit format.
-/
import Oxcaml.Backend.DwarfSections
import Oxcaml.Lib.Arrays

set_option linter.all false

namespace Oxcaml.Backend.DwarfSizes

open DwarfInt (eight foldAdd num ofInt64Exn sum widthAsInt64 zero)
open Except (ok)
open DwarfOperator (emitOperators nonnegativeToUint64Exn operands sizeOfOperators)

open AsmDirectives Lib

variable {env : Env}

/-! ## §1 Sizes and emissions -/

def Sized (size : Except Exn DwarfInt) (k : ℤ) : Prop := ∃ n, size = .ok n ∧ n.toInt64 = k

/-- An emission of `k` bytes. -/
def Takes (emission : Emission) (k : ℤ) : Prop :=
  ∃ block, emission = .ok block ∧ (numBytes block : ℤ) = k

/-- What is counted and what is emitted. -/
def Agrees (missing extra : ℕ) (size : Except Exn DwarfInt) (emission : Emission) : Prop :=
  ∀ k k', Sized size k → Takes emission k' → k + extra = k' + missing

variable {size size' : Except Exn DwarfInt} {emission : Emission} {k k' : ℤ}

/-! ### Sizes -/

@[simp] theorem num_toInt64 (i : ℤ) : (num env i).toInt64 = i := by
  unfold num
  cases env.gdwarfFormat <;> rfl

variable {i : ℤ}

theorem ofInt64Exn_eq_ok {n : DwarfInt} (h : ofInt64Exn env i = .ok n) :
    n = num env i := by
  unfold ofInt64Exn at h
  unfold num
  cases hformat : env.gdwarfFormat with
  | sixtyFour => simpa [hformat, pure, Except.pure, eq_comm] using h
  | thirtyTwo =>
    simp only [hformat] at h ⊢
    split_ifs at h
    simpa [pure, Except.pure, eq_comm] using h

theorem add_eq_ok {t t' n : DwarfInt} (h : DwarfInt.add env t t' = .ok n) :
    n = num env (t.toInt64 + t'.toInt64) := by
  cases t with
  | thirtyTwo i =>
    cases t' with
    | thirtyTwo i' => exact ofInt64Exn_eq_ok h
    | sixtyFour i' => cases h
  | sixtyFour i =>
    cases t' with
    | thirtyTwo i' => cases h
    | sixtyFour i' => exact ofInt64Exn_eq_ok h

@[simp] theorem sized_pure {n : DwarfInt} : Sized (pure n) k ↔ k = n.toInt64 := by
  simp [Sized, pure, Except.pure, eq_comm]

@[simp] theorem sized_throw {e : Exn} : ¬Sized (throw e) k := by
  simp [Sized, throw, throwThe, MonadExceptOf.throw]

theorem sized_ofInt64Exn (h : Sized (ofInt64Exn env i) k) : k = i := by
  obtain ⟨n, hn, rfl⟩ := h
  rw [ofInt64Exn_eq_ok hn, num_toInt64]

variable {α : Type} {x : Except Exn α} {f : α → Except Exn DwarfInt}

theorem sized_bind (h : Sized (x >>= f) k) : ∃ a, x = .ok a ∧ Sized (f a) k := by
  obtain ⟨n, hn, hk⟩ := h
  obtain ⟨a, ha, hn⟩ := bind_eq_ok.1 hn
  exact ⟨a, ha, n, hn, hk⟩

theorem sum_eq_ok {n : DwarfInt} (h : sum env size size' = .ok n) :
    ∃ a b, Sized size a ∧ Sized size' b ∧ n = num env (a + b) := by
  obtain ⟨t, ht, h⟩ := bind_eq_ok.1 h
  obtain ⟨t', ht', h⟩ := bind_eq_ok.1 h
  exact ⟨_, _, ⟨t, ht, rfl⟩, ⟨t', ht', rfl⟩, add_eq_ok h⟩

theorem sized_sum (h : Sized (sum env size size') k) :
    ∃ a b, Sized size a ∧ Sized size' b ∧ k = a + b := by
  obtain ⟨n, hn, rfl⟩ := h
  obtain ⟨a, b, ha, hb, rfl⟩ := sum_eq_ok hn
  exact ⟨a, b, ha, hb, num_toInt64 _⟩

theorem sized_succ {t : DwarfInt} (h : Sized (DwarfInt.succ env t) k) : k = t.toInt64 + 1 := by
  obtain ⟨n, hn, rfl⟩ := h
  rw [add_eq_ok hn, num_toInt64, DwarfInt.one, num_toInt64]

/-! ### Emissions -/

@[simp] theorem takes_pure {block : Block} : Takes (pure block) k ↔ k = numBytes block := by
  simp [Takes, pure, Except.pure, eq_comm]

@[simp] theorem takes_throw {e : Exn} : ¬Takes (throw e) k := by
  simp [Takes, throw, throwThe, MonadExceptOf.throw]

@[simp] theorem takes_nothing : Takes emitNothing k ↔ k = 0 := takes_pure

@[simp] theorem takes_emit {d : Directive} : Takes (emit d) k ↔ k = d.numBytes := by
  unfold emit
  simp [numBytes]

theorem takes_bind {f : α → Emission} (h : Takes (x >>= f) k) : ∃ a, x = .ok a ∧ Takes (f a) k := by
  obtain ⟨block, hblock, hk⟩ := h
  obtain ⟨a, ha, hblock⟩ := bind_eq_ok.1 hblock
  exact ⟨a, ha, block, hblock, hk⟩

@[simp] theorem takes_seq_nil : Takes (emitSeq []) k ↔ k = 0 := takes_pure

theorem takes_seq_cons {emissions : List Emission} : Takes (emitSeq (emission :: emissions)) k ↔
      ∃ a b, Takes emission a ∧ Takes (emitSeq emissions) b ∧ k = a + b := by
  constructor
  · intro h
    obtain ⟨block, hok, rfl⟩ := h
    obtain ⟨first, hfirst, hok⟩ := bind_eq_ok.1 hok
    obtain ⟨rest, hrest, hok⟩ := bind_eq_ok.1 hok
    obtain rfl : first ++ rest = block := by simpa [pure, Except.pure] using hok
    exact ⟨_, _, ⟨first, hfirst, rfl⟩, ⟨rest, hrest, rfl⟩, by simp [numBytes]⟩
  intro h
  obtain ⟨a, b, ⟨first, hfirst, rfl⟩, ⟨rest, hrest, rfl⟩, rfl⟩ := h
  refine ⟨first ++ rest, ?_, by simp [numBytes]⟩
  rw [emitSeq, hfirst, hrest]
  rfl

@[simp] theorem takes_iter_nil {α : Type} {f : α → Emission} : Takes (emitIter f []) k ↔ k = 0 :=
  takes_pure

variable {l : List α}

theorem takes_iter_cons {f : α → Emission} {x : α} : Takes (emitIter f (x :: l)) k ↔
      ∃ a b, Takes (f x) a ∧ Takes (emitIter f l) b ∧ k = a + b := takes_seq_cons

/-! ### Folds -/

variable {emit : α → Emission}

/-- The sum over a list agrees with the emission of the list. -/
theorem agrees_foldAdd (missing extra : α → ℕ)
    (h : ∀ x ∈ l, Agrees (missing x) (extra x) (f x) (emit x)) (init : DwarfInt)
    (hsize : Sized (foldAdd env f init l) k) (htakes : Takes (emitIter emit l) k') :
    k + (l.map extra).sum = init.toInt64 + k' + (l.map missing).sum := by
  induction l generalizing init k k' with
  | nil =>
    obtain rfl := takes_iter_nil.1 htakes
    obtain rfl := sized_pure.1 hsize
    simp
  | cons x l ih =>
    obtain ⟨a, b, ha, hb, rfl⟩ := takes_iter_cons.1 htakes
    obtain ⟨n, hn, hrest⟩ := sized_bind hsize
    obtain ⟨c, d, hc, hd, rfl⟩ := sum_eq_ok hn
    obtain rfl := sized_pure.1 hc
    have hx := h x List.mem_cons_self d a hd ha
    have hl := ih (fun y hy => h y (List.mem_cons_of_mem _ hy)) _ hrest hb
    rw [num_toInt64] at hl
    simp only [List.map_cons, List.sum_cons]
    omega

/-! ## §2 Values -/

variable {n opcode missing : ℕ}

/-- The length of an unsigned number is that of its shortest encoding. -/
theorem sized_uleb128 (h : Sized (DwarfValue.uleb128Size env n) k) :
    k = (emitUleb128 n).length := by
  induction n using Nat.strong_induction_on generalizing k with | _ n ih =>
rw [DwarfValue.uleb128Size] at h
rw [emitUleb128]
by_cases hn : n < 128
· rw [if_pos hn, sized_pure] at h
  rw [if_pos (by omega), h]
  simp [DwarfInt.one]
rw [if_neg hn] at h
obtain ⟨t, ht, hk⟩ := sized_bind h
have hrest := ih (n / 128) (by omega) ⟨t, ht, rfl⟩
rw [if_neg (by omega), sized_succ hk, hrest]
simp

theorem sized_sleb128 (h : Sized (DwarfValue.sleb128Size env i) k) :
    k = (emitSleb128 i).length := by
  induction hm : i.natAbs using Nat.strong_induction_on generalizing i k with | _ m ih =>
rw [DwarfValue.sleb128Size] at h
rw [emitSleb128]
by_cases hi : -64 ≤ i ∧ i < 64
· rw [if_pos hi, sized_pure] at h
  rw [if_pos (by omega), h]
  simp [DwarfInt.one]
rw [if_neg hi] at h
obtain ⟨t, ht, hk⟩ := sized_bind h
have hrest := ih (i / 128).natAbs (by omega) ⟨t, ht, rfl⟩ rfl
rw [if_neg (by omega), sized_succ hk, hrest]
simp

variable {width : WidthInBytes} {e : Expr}

theorem takes_const : Takes (const e width) k ↔ k = width.toInt := takes_emit

theorem takes_constAssemblyTime : Takes (constAssemblyTime env e width) k ↔ k = width.toInt := by
  unfold constAssemblyTime
  split_ifs
  · simp [numBytes, Directive.numBytes]
  · exact takes_const

theorem takes_string {str : List UInt8} : Takes (string str) k ↔ k = str.length := by
  unfold string
  split_ifs with h
  · exact takes_emit
  · simp_all

variable {name : DwarfSection} {upper : AsmLabel}

theorem takes_offsetLabel (h : Takes (offsetIntoDwarfSectionLabel env name upper) k) :
    k = env.gdwarfFormat.width.toInt := by
  unfold offsetIntoDwarfSectionLabel at h
  split_ifs at h
  · exact absurd h takes_throw
  · dsimp only at h
    split_ifs at h
    · exact takes_const.1 h
    · exact takes_constAssemblyTime.1 h
  · exact takes_const.1 h

theorem takes_offsetSymbol {upper : AsmSymbol}
    (h : Takes (offsetIntoDwarfSectionSymbol env name upper) k) :
    k = env.gdwarfFormat.width.toInt := by
  unfold offsetIntoDwarfSectionSymbol at h
  split_ifs at h
  · exact takes_constAssemblyTime.1 h
  · exact takes_const.1 h

theorem takes_labelSymbolDiff {lower : AsmSymbol} {offsetUpper : ℤ}
    (h : Takes (betweenSymbolInCurrentUnitAndLabelOffset env upper lower offsetUpper) k) :
    k = 8 := by
  unfold betweenSymbolInCurrentUnitAndLabelOffset at h
  split_ifs at h
  · exact takes_constAssemblyTime.1 h
  · exact takes_constAssemblyTime.1 h

/-- The size of a reference is the width of the format. -/
theorem size_zero_toInt64 :
    (DwarfInt.size (zero env)).toInt64 = env.gdwarfFormat.width.toInt := by
  unfold zero num
  cases env.gdwarfFormat <;> rfl

/-- The terminator of a string is counted, and not emitted. -/
def missingOfValue : DwarfValue → ℕ
  | .string _ => 1
  | _ => 0

theorem agrees_const {n : DwarfInt}
    (h : n.toInt64 = width.toInt) : Agrees 0 0 (pure n) (const e width) := by
  intro k k' hsize htakes
  rw [sized_pure.1 hsize, takes_const.1 htakes, h]

theorem agrees_offsetLabel : Agrees 0 0 (pure (DwarfInt.size (zero env)))
      (offsetIntoDwarfSectionLabel env name upper) := by
  intro k k' hsize htakes
  rw [sized_pure.1 hsize, takes_offsetLabel htakes, size_zero_toInt64]

theorem agrees_offsetSymbol {upper : AsmSymbol} :
    Agrees 0 0 (pure (DwarfInt.size (zero env)))
      (offsetIntoDwarfSectionSymbol env name upper) := by
  intro k k' hsize htakes
  rw [sized_pure.1 hsize, takes_offsetSymbol htakes, size_zero_toInt64]

theorem agrees_eight :
    Agrees 0 0 (pure (eight env)) (constAssemblyTime env e .sixtyFour) := by
  intro k k' hsize htakes
  rw [sized_pure.1 hsize, takes_constAssemblyTime.1 htakes, eight, num_toInt64]
  rfl

/-- The size of a value is that of its emission, without the terminator of a string. -/
theorem agrees_value (v : DwarfValue) : Agrees (missingOfValue v) 0 (v.size env) (v.emit env) := by
  cases v with
  | flagTrue =>
    intro k k' hsize htakes
    rw [sized_pure.1 hsize, takes_nothing.1 htakes, zero, num_toInt64]
    rfl
  | uleb128 n =>
    intro k k' hsize htakes
    rw [sized_uleb128 hsize, takes_emit.1 htakes]
    rfl
  | sleb128 i =>
    intro k k' hsize htakes
    rw [sized_sleb128 hsize, takes_emit.1 htakes]
    rfl
  | string str =>
    intro k k' hsize htakes
    rw [sized_ofInt64Exn hsize, takes_string.1 htakes]
    rfl
  | codeAddressFromLabelSymbolDiff upper lower offsetUpper =>
    intro k k' hsize htakes
    rw [sized_pure.1 hsize, takes_labelSymbolDiff htakes, eight, num_toInt64]
    rfl
  | codeAddressFromSymbolDiff upper lower => exact agrees_eight
  | distanceBetweenLabels16Bit upper lower
  | distanceBetweenLabels64Bit upper lower => exact fun k k' _ htakes => absurd htakes takes_throw
  | distanceBetweenLabels64BitWithOffsets => exact agrees_eight
  | indirectString | offsetIntoDebugInfo | offsetIntoDebugLine | offsetIntoDebugAddr
  | offsetIntoDebugLoc | offsetIntoDebugRanges | offsetIntoDebugLoclists
  | offsetIntoDebugRnglists | offsetIntoDebugAbbrev => exact agrees_offsetLabel
  | offsetIntoDebugInfoFromSymbol | offsetIntoDebugLineFromSymbol => exact agrees_offsetSymbol
  | _ => exact agrees_const (num_toInt64 _)

theorem agrees_opcode :
    Agrees 0 0 (pure (DwarfInt.one env)) (DwarfValue.emit env (.uint8 opcode)) :=
  agrees_value (.uint8 opcode)

theorem agrees_uleb128 : Agrees 0 0 (DwarfValue.uleb128Size env n) (uleb128 n) :=
  agrees_value (.uleb128 n)

/-! ## §3 Operators -/

/-- Induction over the blocks of entry values. -/
theorem operatorInd {P : DwarfOperator → Prop}
    (hblock : ∀ block, (∀ op ∈ block, P op) → P (.entryValue block))
    (hgnu : ∀ block, (∀ op ∈ block, P op) → P (.gnuEntryValue block))
    (hother : ∀ op, (∀ block, op ≠ .entryValue block ∧ op ≠ .gnuEntryValue block) → P op)
    (op : DwarfOperator) : P op :=
  match op with
  | .entryValue block => hblock block (all block)
  | .gnuEntryValue block => hgnu block (all block)
  | .lit _ | .addr _ | .const1u _ | .const2u _ | .const4u _ | .const8u _ | .const1s _
  | .const2s _ | .const4s _ | .const8s _ | .constu _ | .consts _ | .fbreg _ | .breg _ _
  | .bregx _ _ | .simple _ | .derefSize _ | .xderefSize _ | .plusUconst _ | .skip _ | .bra _
  | .call2 _ _ | .call4 _ _ | .callRef _ _ | .reg _ | .regx _ | .implicitValue _ | .piece _
  | .bitPiece _ _ | .implicitPointer _ _ | .gnuImplicitPointer _ _ => hother _ (by simp)
where
  all : ∀ block : List DwarfOperator, ∀ op ∈ block, P op
    | [] => by simp
    | op :: block => List.forall_mem_cons.2 ⟨operatorInd hblock hgnu hother op, all block⟩

mutual

/-- The terminators that are counted for an operator: one for each implicit integer. -/
def missingOfOperator : DwarfOperator → ℕ
  | .implicitValue (.int _) => 1
  | .entryValue block => missingOfOperators block
  | .gnuEntryValue block => missingOfOperators block
  | _ => 0

def missingOfOperators : List DwarfOperator → ℕ
  | [] => 0
  | op :: ops => missingOfOperator op + missingOfOperators ops

end

theorem agrees_values (values : List DwarfValue) :
    Agrees ((values.map missingOfValue).sum) 0 (DwarfOperator.sizeOfValues env values)
      (emitIter (DwarfValue.emit env) values) := by
  induction values with
  | nil =>
    intro k k' hsize htakes
    rw [sized_pure.1 hsize, takes_iter_nil.1 htakes, zero, num_toInt64]
    rfl
  | cons v values ih =>
    intro k k' hsize htakes
    obtain ⟨a, b, ha, hb, rfl⟩ := sized_sum hsize
    obtain ⟨c, d, hc, hd, rfl⟩ := takes_iter_cons.1 htakes
    have hv := agrees_value v a c ha hc
    have hvalues := ih b d hb hd
    simp only [List.map_cons, List.sum_cons]
    omega

variable {op : DwarfOperator}

theorem missing_operands {values : List DwarfValue} (h : operands env op = .ok values)
    (hop : ∀ block, op ≠ .entryValue block ∧ op ≠ .gnuEntryValue block) :
    (values.map missingOfValue).sum = missingOfOperator op := by
  cases op with
  | entryValue block => exact absurd rfl (hop block).1
  | gnuEntryValue block => exact absurd rfl (hop block).2
  | addr value | implicitValue value => cases value <;> cases h <;> rfl
  | callRef label header =>
    unfold operands at h
    cases hformat : env.gdwarfFormat <;> rw [hformat] at h <;> cases h <;> rfl
  | bregx regNumber offsetInBytes =>
    obtain ⟨n, -, h⟩ := bind_eq_ok.1 h
    cases h
    rfl
  | regx regNumber =>
    obtain ⟨n, -, h⟩ := bind_eq_ok.1 h
    cases h
    rfl
  | piece sizeInBytes =>
    obtain ⟨n, -, h⟩ := bind_eq_ok.1 h
    cases h
    rfl
  | bitPiece sizeInBits offsetInBits =>
    obtain ⟨n, -, h⟩ := bind_eq_ok.1 h
    obtain ⟨m, -, h⟩ := bind_eq_ok.1 h
    cases h
    rfl
  | _ => cases h; rfl

section

variable (hop : ∀ block, op ≠ .entryValue block ∧ op ≠ .gnuEntryValue block)
include hop

theorem size_eq :
    DwarfOperator.size env op = sum env (pure (DwarfInt.one env))
      (operands env op >>= DwarfOperator.sizeOfValues env) := by
  cases op with
  | entryValue block => exact absurd rfl (hop block).1
  | gnuEntryValue block => exact absurd rfl (hop block).2
  | _ =>
    rw [DwarfOperator.size]
    all_goals simp

theorem emit_eq :
    DwarfOperator.emit env op = emitSeq [DwarfValue.emit env (.uint8 op.opcode),
      operands env op >>= emitIter (DwarfValue.emit env)] := by
  cases op with
  | entryValue block => exact absurd rfl (hop block).1
  | gnuEntryValue block => exact absurd rfl (hop block).2
  | _ =>
    rw [DwarfOperator.emit]
    all_goals simp

end

variable {ops : List DwarfOperator}

theorem takes_operators : Takes (emitOperators env ops) k ↔
      Takes (emitIter (DwarfOperator.emit env) ops) k := by
  induction ops generalizing k with
  | nil => rw [emitOperators, takes_nothing, takes_iter_nil]
  | cons op ops ih => rw [emitOperators, takes_iter_cons]; simp [takes_seq_cons, ih]

/-- The operators of a list, when each of them agrees. -/
theorem agrees_operators
    (h : ∀ op ∈ ops, Agrees (missingOfOperator op) 0 (DwarfOperator.size env op)
      (DwarfOperator.emit env op)) {acc : DwarfInt}
    (hsize : Sized (sizeOfOperators env acc ops) k)
    (htakes : Takes (emitOperators env ops) k') :
    k = acc.toInt64 + k' + missingOfOperators ops := by
  induction ops generalizing acc k k' with
  | nil =>
    rw [sizeOfOperators] at hsize
    rw [emitOperators] at htakes
    rw [sized_pure.1 hsize, takes_nothing.1 htakes]
    simp [missingOfOperators]
  | cons op ops ih =>
    rw [sizeOfOperators] at hsize
    rw [emitOperators] at htakes
    obtain ⟨n, hn, hrest⟩ := sized_bind hsize
    obtain ⟨a, b, ha, hb, rfl⟩ := sum_eq_ok hn
    obtain rfl := sized_pure.1 ha
    obtain ⟨c, d, hc, hd, rfl⟩ := takes_seq_cons.1 htakes
    obtain ⟨e, f, he, hf, rfl⟩ := takes_seq_cons.1 hd
    obtain rfl := takes_seq_nil.1 hf
    have hop := h op List.mem_cons_self b c hb hc
    have hops := ih (fun op' hmem => h op' (List.mem_cons_of_mem _ hmem)) hrest he
    rw [num_toInt64] at hops
    rw [missingOfOperators]
    omega

/-- An entry value: the opcode, the length of the block, and the block. -/
theorem agrees_entryValue {block : List DwarfOperator}
    (h : ∀ op ∈ block, Agrees (missingOfOperator op) 0 (DwarfOperator.size env op)
      (DwarfOperator.emit env op)) :
    Agrees (missingOfOperators block) 0 (DwarfOperator.sizeOfEntryValue env block)
      (emitSeq [DwarfValue.emit env (.uint8 opcode), DwarfOperator.emitBlock env block]) := by
  intro k k' hsize htakes
  rw [DwarfOperator.sizeOfEntryValue] at hsize
  obtain ⟨a, b, ha, hb, rfl⟩ := sized_sum hsize
  obtain ⟨blockSize, hblockSize, hb⟩ := sized_bind hb
  obtain ⟨length, hlength, hb⟩ := sized_bind hb
  obtain ⟨lengthSize, hlengthSize, hb⟩ := sized_bind hb
  obtain ⟨c, d, hc, hd, rfl⟩ := takes_seq_cons.1 htakes
  obtain ⟨e, f, he, hf, rfl⟩ := takes_seq_cons.1 hd
  obtain rfl := takes_seq_nil.1 hf
  rw [DwarfOperator.emitBlock] at he
  obtain ⟨blockSize', hblockSize', he⟩ := takes_bind he
  obtain ⟨length', hlength', he⟩ := takes_bind he
  obtain ⟨g, i, hg, hi, rfl⟩ := takes_seq_cons.1 he
  obtain ⟨j, l, hj, hl, rfl⟩ := takes_seq_cons.1 hi
  obtain rfl := takes_seq_nil.1 hl
  obtain rfl : blockSize = blockSize' := ok.inj (hblockSize.symm.trans hblockSize')
  obtain rfl : length = length' := ok.inj (hlength.symm.trans hlength')
  have hopcode := agrees_opcode a c ha hc
  have hlen := agrees_value (.uleb128 length) _ g ⟨lengthSize, hlengthSize, rfl⟩ hg
  have hblock := agrees_operators h hb hj
  simp only [missingOfValue] at hlen
  omega

theorem agrees_operator (op : DwarfOperator) :
    Agrees (missingOfOperator op) 0 (DwarfOperator.size env op) (DwarfOperator.emit env op) := by
  induction op using operatorInd with
  | hblock block ih =>
    rw [DwarfOperator.size, DwarfOperator.emit, missingOfOperator]
    exact agrees_entryValue ih
  | hgnu block ih => rw [DwarfOperator.size, DwarfOperator.emit]; exact agrees_entryValue ih
  | hother op hop =>
    intro k k' hsize htakes
    rw [size_eq hop] at hsize
    rw [emit_eq hop] at htakes
    obtain ⟨a, b, ha, hb, rfl⟩ := sized_sum hsize
    obtain ⟨values, hvalues, hb⟩ := sized_bind hb
    obtain ⟨c, d, hc, hd, rfl⟩ := takes_seq_cons.1 htakes
    obtain ⟨e, f, he, hf, rfl⟩ := takes_seq_cons.1 hd
    obtain rfl := takes_seq_nil.1 hf
    obtain ⟨values', hvalues', he⟩ := takes_bind he
    obtain rfl : values = values' := ok.inj (hvalues.symm.trans hvalues')
    have hopcode := agrees_opcode a c ha hc
    have hoperands := agrees_values values b e hb he
    rw [missing_operands hvalues hop] at hoperands
    omega

/-! ## §4 Location descriptions and debugging information entries -/

theorem agrees_expression (ops : List DwarfOperator) :
    Agrees (missingOfOperators ops) 0 (DwarfOperator.sizeOfExpression env ops)
      (emitIter (DwarfOperator.emit env) ops) := by
  intro k k' hsize htakes
  have hops := agrees_operators (fun op _ => agrees_operator op) hsize (takes_operators.2 htakes)
  rw [zero, num_toInt64] at hops
  omega

theorem agrees_foldAdd_zero
    (missing extra : α → ℕ) (h : ∀ x, Agrees (missing x) (extra x) (f x) (emit x)) (l : List α) :
    Agrees (l.map missing).sum (l.map extra).sum
      (foldAdd env f (zero env) l) (emitIter emit l) := by
  intro k k' hsize htakes
  have hl := agrees_foldAdd missing extra (fun x _ => h x) _ hsize htakes
  rw [zero, num_toInt64] at hl
  omega

def missingOfComposite (slds : CompositeLocationDescription) : ℕ :=
  (slds.map fun sld => missingOfOperators sld.1).sum

section Sums

variable {m₁ m₂ m₃ x₁ x₂ x₃ : ℕ} {s₁ s₂ s₃ : Except Exn DwarfInt} {e₁ e₂ e₃ : Emission}

theorem agrees_of_eq {n : ℤ} (hsize : ∀ {k}, Sized size k → k = n)
    (htakes : ∀ {k}, Takes emission k → k = n) : Agrees 0 0 size emission := by
  intro k k' hk hk'
  rw [hsize hk, htakes hk']

theorem Agrees.two (h₁ : Agrees m₁ x₁ s₁ e₁) (h₂ : Agrees m₂ x₂ s₂ e₂) :
    Agrees (m₁ + m₂) (x₁ + x₂) (sum env s₁ s₂) (emitSeq [e₁, e₂]) := by
  intro k k' hsize htakes
  obtain ⟨a, b, ha, hb, rfl⟩ := sized_sum hsize
  obtain ⟨c, d, hc, hd, rfl⟩ := takes_seq_cons.1 htakes
  obtain ⟨e, f, he, hf, rfl⟩ := takes_seq_cons.1 hd
  obtain rfl := takes_seq_nil.1 hf
  have h₁ := h₁ a c ha hc
  have h₂ := h₂ b e hb he
  omega

theorem Agrees.three (h₁ : Agrees m₁ x₁ s₁ e₁) (h₂ : Agrees m₂ x₂ s₂ e₂)
    (h₃ : Agrees m₃ x₃ s₃ e₃) : Agrees (m₁ + (m₂ + m₃)) (x₁ + (x₂ + x₃))
      (sum env s₁ (sum env s₂ s₃)) (emitSeq [e₁, e₂, e₃]) := by
  intro k k' hsize htakes
  obtain ⟨a, b, ha, hb, rfl⟩ := sized_sum hsize
  obtain ⟨c, d, hc, hd, rfl⟩ := takes_seq_cons.1 htakes
  have h₁ := h₁ a c ha hc
  have h₂ := h₂.two h₃ b d hb hd
  omega

end Sums

theorem agrees_piece (sld : SimpleLocationDescription) (sizeInBytes : ℤ) :
    Agrees (missingOfOperators sld) 0 (sum env ((simpleLocationDescription env).size sld)
        (DwarfOperator.size env (.piece sizeInBytes)))
      (emitSeq [(simpleLocationDescription env).emit sld,
        DwarfOperator.emit env (.piece sizeInBytes)]) := by
  have hzero : missingOfOperator (.piece sizeInBytes) = 0 := by simp [missingOfOperator]
  exact hzero ▸ (agrees_expression sld).two (agrees_operator (.piece sizeInBytes))

theorem agrees_composite (slds : CompositeLocationDescription) :
    Agrees (missingOfComposite slds) 0 ((compositeLocationDescription env).size slds)
      ((compositeLocationDescription env).emit slds) := by
  intro k k' hsize htakes
  have hpieces := agrees_foldAdd_zero (fun sld => missingOfOperators sld.1) (fun _ => 0)
    (fun sld => agrees_piece sld.1 sld.2) slds k k' hsize htakes
  simpa [missingOfComposite] using hpieces

def missingOfSingle : SingleLocationDescription → ℕ
  | .simple sle => missingOfOperators sle
  | .composite cle => missingOfComposite cle

theorem agrees_single (locDesc : SingleLocationDescription) :
    Agrees (missingOfSingle locDesc) 0 ((singleLocationDescription env).size locDesc)
      ((singleLocationDescription env).emit locDesc) := by
  cases locDesc with
  | simple sle => exact agrees_expression sle
  | composite cle => exact agrees_composite cle

theorem agrees_withLength {locDesc : DwarfEmittable α} {t : α}
    (h : Agrees missing 0 (locDesc.size t) (locDesc.emit t)) :
    Agrees missing 0 (sizeWithLength env locDesc t) (emitWithLength locDesc t) := by
  intro k k' hsize htakes
  obtain ⟨locDescSize, hlocDesc, hsize⟩ := sized_bind hsize
  obtain ⟨length, hlength, hsize⟩ := sized_bind hsize
  obtain ⟨a, b, ha, hb, rfl⟩ := sized_sum hsize
  obtain ⟨locDescSize', hlocDesc', htakes⟩ := takes_bind htakes
  obtain ⟨length', hlength', htakes⟩ := takes_bind htakes
  obtain ⟨c, d, hc, hd, rfl⟩ := takes_seq_cons.1 htakes
  obtain ⟨e, f, he, hf, rfl⟩ := takes_seq_cons.1 hd
  obtain rfl := takes_seq_nil.1 hf
  obtain rfl : locDescSize = locDescSize' := ok.inj (hlocDesc.symm.trans hlocDesc')
  obtain rfl : length = length' := ok.inj (hlength.symm.trans hlength')
  have hlen := agrees_uleb128 a c ha hc
  have hdesc := h _ e ⟨locDescSize, hlocDesc, rfl⟩ he
  rw [sized_pure.1 hb]
  omega

def missingOfAttribute : AttributeValue → ℕ
  | .dwarfValue value => missingOfValue value
  | .singleLocationDescription locDesc => missingOfSingle locDesc
  | .compositeLocationDescription locDesc => missingOfComposite locDesc

theorem agrees_attribute (value : AttributeValue) :
    Agrees (missingOfAttribute value) 0 ((attributeValue env).size value)
      ((attributeValue env).emit value) := by
  cases value with
  | dwarfValue value => exact agrees_value value
  | singleLocationDescription locDesc => exact agrees_withLength (agrees_single locDesc)
  | compositeLocationDescription locDesc => exact agrees_withLength (agrees_composite locDesc)

theorem takes_defineLabel {lbl : AsmLabel} (h : Takes (defineLabel env lbl) k) : k = 0 := by
  unfold defineLabel at h
  split_ifs at h
  · exact absurd h takes_throw
  · exact takes_emit.1 h

def missingOfDie (t : DebuggingInformationEntry) : ℕ :=
  (t.attributeValues.map missingOfAttribute).sum

theorem agrees_die (t : DebuggingInformationEntry) :
    Agrees (missingOfDie t) 0 ((debuggingInformationEntry env).size t)
      ((debuggingInformationEntry env).emit t) := by
  intro k k' hsize htakes
  obtain ⟨codeSize, hcode, hsize⟩ := sized_bind hsize
  obtain ⟨a, b, ha, hb, rfl⟩ := takes_seq_cons.1 htakes
  obtain ⟨c, d, hc, hd, rfl⟩ := takes_seq_cons.1 hb
  obtain ⟨e, f, he, hf, rfl⟩ := takes_seq_cons.1 hd
  obtain rfl := takes_seq_nil.1 hf
  have hlabel : a = 0 := by
    split_ifs at ha
    · obtain ⟨g, i, hg, hi, rfl⟩ := takes_seq_cons.1 ha
      obtain ⟨j, l, hj, hl, rfl⟩ := takes_seq_cons.1 hi
      obtain rfl := takes_seq_nil.1 hl
      have hg : g = 0 := by
        cases hname : t.name with
        | none => rw [hname] at hg; exact takes_nothing.1 hg
        | some sym => rw [hname] at hg; exact takes_emit.1 hg
      rw [hg, takes_defineLabel hj]
      rfl
    · exact takes_nothing.1 ha
  have hcodeAgrees := agrees_value (.uleb128 t.abbreviationCode) _ c ⟨codeSize, hcode, rfl⟩ hc
  have hattributes := agrees_foldAdd missingOfAttribute (fun _ => 0)
    (fun value _ => agrees_attribute value) codeSize hsize he
  simp only [missingOfValue] at hcodeAgrees
  simp only [List.map_const', List.sum_replicate, smul_zero] at hattributes
  unfold missingOfDie
  omega

/-! ## §5 Abbreviations -/

/-- An unsigned number, as it stands in the tables. -/
theorem agrees_code (n : ℕ) :
    Agrees 0 0 ((DwarfValue.uleb128 n).size env) ((DwarfValue.uleb128 n).emit env) :=
  agrees_value (.uleb128 n)

theorem agrees_specification (t : AttributeSpecification) :
    Agrees 0 0 ((attributeSpecification env).size t) ((attributeSpecification env).emit t) :=
  (agrees_code t.attributeCode).two (agrees_code t.formCode)

/-- The elements of a list agree, so the list does. -/
theorem agrees_list (h : ∀ x, Agrees 0 0 (f x) (emit x)) (l : List α) :
    Agrees 0 0 (foldAdd env f (zero env) l) (emitIter emit l) := by
  intro k k' hsize htakes
  have hl := agrees_foldAdd_zero (fun _ => 0) (fun _ => 0) h l k k' hsize htakes
  simpa using hl

theorem agrees_abbreviation (t : AbbreviationsTableEntry) :
    Agrees 0 0 ((abbreviationsTableEntry env).size t) ((abbreviationsTableEntry env).emit t) := by
  intro k k' hsize htakes
  obtain ⟨c₅, a₆, hc₅, h₆, rfl⟩ := sized_sum hsize
  obtain ⟨c₄, a₅, hc₄, h₅, rfl⟩ := sized_sum hc₅
  obtain ⟨c₃, a₄, hc₃, h₄, rfl⟩ := sized_sum hc₄
  obtain ⟨c₂, a₃, hc₂, h₃, rfl⟩ := sized_sum hc₃
  obtain ⟨a₁, a₂, h₁, h₂, rfl⟩ := sized_sum hc₂
  simp only [abbreviationsTableEntry, takes_seq_cons, takes_seq_nil] at htakes
  obtain ⟨b₁, _, hb₁, ⟨b₂, _, hb₂, ⟨b₃, _, hb₃, ⟨b₄, _, hb₄, ⟨b₅, _, hb₅, ⟨b₆, _, hb₆, rfl, rfl⟩,
    rfl⟩, rfl⟩, rfl⟩, rfl⟩, rfl⟩ := htakes
  have hcode := agrees_code t.abbreviationCode a₁ b₁ h₁ hb₁
  have htag := agrees_code t.tag a₂ b₂ h₂ hb₂
  have hchildren := agrees_value (.int8 t.hasChildren.encode) a₃ b₃ h₃ hb₃
  have hspecs := agrees_list agrees_specification t.attributeSpecs a₄ b₄ h₄ hb₄
  have hfirst := agrees_code 0 a₅ b₅ h₅ hb₅
  have hsecond := agrees_code 0 a₆ b₆ h₆ hb₆
  simp only [missingOfValue] at hchildren
  omega

theorem agrees_abbreviations (t : AbbreviationsTable) :
    Agrees 0 0 ((abbreviationsTable env).size t) ((abbreviationsTable env).emit t) := by
  intro k k' hsize htakes
  obtain ⟨a, b, ha, hb, rfl⟩ := sized_sum hsize
  obtain ⟨c, d, hc, hd, rfl⟩ := takes_seq_cons.1 htakes
  obtain ⟨e, f, he, hf, rfl⟩ := takes_seq_cons.1 hd
  obtain rfl := takes_seq_nil.1 hf
  have hterminator := agrees_code 0 a e ha he
  have hentries := agrees_list agrees_abbreviation t b c hb hc
  omega

/-! ## §6 Initial lengths -/

/-- The indicator of the 64-bit format is emitted, and not counted. -/
def extraOfInitialLength (env : Env) : ℕ :=
  match env.gdwarfFormat with
  | .thirtyTwo => 0
  | .sixtyFour => 4

/-- What stands behind an initial length agrees, up to the indicator, with it in front. -/
theorem agrees_withInitialLength {extra : ℕ} {length : Except Exn DwarfInt}
    {emission : Emission} (hlength : ∀ n, length = .ok n → ∃ i, n = num env i)
    (h : Agrees missing extra length emission) :
    Agrees missing (extra + extraOfInitialLength env) (sizeWithInitialLength env length)
      (length >>= fun n => emitSeq [(initialLength env).emit n, emission]) := by
  intro k k' hsize htakes
  obtain ⟨n, hn, hsize⟩ := sized_bind hsize
  obtain ⟨a, b, ha, hb, rfl⟩ := sized_sum hsize
  obtain ⟨n', hn', htakes⟩ := takes_bind htakes
  obtain rfl : n = n' := ok.inj (hn.symm.trans hn')
  obtain ⟨c, d, hc, hd, rfl⟩ := takes_seq_cons.1 htakes
  obtain ⟨e, f, he, hf, rfl⟩ := takes_seq_cons.1 hd
  obtain rfl := takes_seq_nil.1 hf
  have hbody := h _ e ⟨n, hn, rfl⟩ he
  have hheader : a + extraOfInitialLength env = c := by
    obtain ⟨i, rfl⟩ := hlength n hn
    have hsizeEq := sized_pure.1 ha
    unfold initialLength at hc
    unfold extraOfInitialLength
    unfold num at hsizeEq hc
    cases hformat : env.gdwarfFormat with
    | thirtyTwo =>
      simp only [hformat] at hsizeEq hc ⊢
      rw [hsizeEq, takes_const.1 hc]
      rfl
    | sixtyFour =>
      simp only [hformat] at hsizeEq hc ⊢
      obtain ⟨g, l, hg, hl, rfl⟩ := takes_seq_cons.1 hc
      obtain ⟨m, o, hm, ho, rfl⟩ := takes_seq_cons.1 hl
      obtain rfl := takes_seq_nil.1 ho
      rw [hsizeEq, takes_const.1 hg, takes_const.1 hm]
      rfl
  rw [sized_pure.1 hb]
  omega

theorem takes_version {version : DwarfVersion}
    (h : Takes ((dwarfVersion env).emit version) k) : k = 2 := takes_const.1 h

theorem agrees_addressTableUnit (t : AddressTable) :
    Agrees 0 0 (t.initialLength env) (emitAddressTable env t) := by
  intro k k' hsize htakes
  simp only [emitAddressTable, takes_seq_cons, takes_seq_nil] at htakes
  obtain ⟨b₁, _, hb₁, ⟨b₂, _, hb₂, ⟨b₃, _, hb₃, ⟨b₄, _, hb₄, ⟨b₅, _, hb₅, rfl, rfl⟩, rfl⟩, rfl⟩,
    rfl⟩, rfl⟩ := htakes
  have hentries : b₅ = 8 * t.table.length := by
    generalize t.table = table at hb₅
    induction table generalizing b₅ with
    | nil => simpa using hb₅
    | cons entry table ih =>
      obtain ⟨a, c, ha, hc, rfl⟩ := takes_iter_cons.1 hb₅
      rw [takes_labelSymbolDiff ha, ih c hc, List.length_cons]
      push_cast
      ring
  rw [sized_ofInt64Exn hsize, takes_version hb₁, takes_const.1 hb₂, takes_const.1 hb₃,
    takes_defineLabel hb₄]
  simp only [WidthInBytes.toInt]
  omega

/-! ## §7 Location and range lists -/

/-- The last group of 7 bits of an unsigned number. -/
def lastGroup (n : ℕ) : ℕ := if n < 128 then n else lastGroup (n / 128)
termination_by n
decreasing_by omega

/-- A signed encoding is a byte longer when the last group has its sign bit set. -/
def extraOfBound (bound : ℤ) : ℕ := if 64 ≤ lastGroup bound.toNat then 1 else 0

theorem lastGroup_small (h : n < 128) : lastGroup n = n := by
  rw [lastGroup, if_pos h]

theorem lastGroup_large (h : ¬n < 128) : lastGroup n = lastGroup (n / 128) := by
  rw [lastGroup, if_neg h]

theorem length_emitSleb128 (n : ℕ) :
    (emitSleb128 n).length = (emitUleb128 n).length + extraOfBound n := by
  induction n using Nat.strong_induction_on with | _ n ih =>
unfold extraOfBound at ih ⊢
rw [emitSleb128, emitUleb128, Int.toNat_natCast]
by_cases hgroup : n < 128
· rw [lastGroup_small hgroup, if_pos (by lia : n / 128 = 0)]
  by_cases hsmall : n < 64
  · rw [if_pos (by lia), if_neg (by lia)]; rfl
  have hdiv : (n : ℤ) / 128 = (0 : ℕ) := by lia
  rw [if_neg (by lia), if_pos (by lia), hdiv, emitSleb128]
  rfl
have hdiv : (n : ℤ) / 128 = (n / 128 : ℕ) := by lia
have hrest := ih (n / 128) (by lia)
rw [Int.toNat_natCast] at hrest
rw [lastGroup_large hgroup, if_neg (by lia), if_neg (by lia), hdiv, List.length_cons,
  List.length_cons]
lia

theorem nonnegative_eq_ok (h : nonnegativeToUint64Exn i = .ok n) : i = n := by
  unfold nonnegativeToUint64Exn at h
  split_ifs at h with hneg
  obtain rfl : i.toNat = n := by simpa [pure, Except.pure] using h
  omega

/-- A bound is counted as an unsigned number and emitted as a signed one. -/
theorem agrees_bound (bound : ℤ) : Agrees 0 (extraOfBound bound) (sizeOfUleb128 env bound)
      ((DwarfValue.sleb128 bound).emit env) := by
  intro k k' hsize htakes
  obtain ⟨n, hn, hsize⟩ := sized_bind hsize
  obtain rfl := nonnegative_eq_ok hn
  rw [sized_uleb128 hsize, takes_emit.1 htakes]
  simp only [Directive.numBytes, length_emitSleb128 n]
  rfl

theorem agrees_index (index : ℤ) :
    Agrees 0 0 ((addressIndex env).size index) ((addressIndex env).emit index) := by
  intro k k' hsize htakes
  obtain ⟨n, hn, hsize⟩ := sized_bind hsize
  obtain ⟨n', hn', htakes⟩ := takes_bind htakes
  obtain rfl : n = n' := ok.inj (hn.symm.trans hn')
  exact agrees_code n k k' hsize htakes

theorem agrees_length (length : ℤ) :
    Agrees 0 0 (sizeOfUleb128 env length) (do
      let length ← nonnegativeToUint64Exn length
      (DwarfValue.uleb128 length).emit env) := agrees_index length

theorem sized_addressSize (h : Sized (addressSize env) k) : k = 8 := sized_ofInt64Exn h

section Lists

variable {π : Type} {kind : ListKind π} {missingOfPayload : π → ℕ}

def missingOfEntry (missingOfPayload : π → ℕ) : ListEntry π → ℕ
  | .startxEndx _ _ payload | .startxLength _ _ payload | .offsetPair _ _ payload
  | .startEnd _ _ _ payload | .startLength _ _ payload => missingOfPayload payload
  | _ => 0

def extraOfEntry : ListEntry π → ℕ
  | .offsetPair startOffsetInclusive endOffsetExclusive _ =>
    extraOfBound startOffsetInclusive + extraOfBound endOffsetExclusive
  | _ => 0

theorem agrees_size0 (hpayload : ∀ payload, Agrees (missingOfPayload payload) 0
      (kind.payload.size payload) (kind.payload.emit payload)) (t : LocatedEntry π) :
    Agrees (missingOfEntry missingOfPayload t.entry) (extraOfEntry t.entry) (size0 env kind t)
      (emitEntry env kind t) := by
  intro k k' hsize htakes
  unfold size0 at hsize
  unfold emitEntry at htakes
  cases hentry : t.entry with
  | endOfList =>
    simp only [hentry] at hsize htakes
    rw [sized_pure.1 hsize, takes_nothing.1 htakes, zero, num_toInt64]
    rfl
  | baseAddressx addrIndex =>
    simp only [hentry] at hsize htakes
    exact agrees_index addrIndex k k' hsize htakes
  | baseAddress sym =>
    simp only [hentry] at hsize htakes
    rw [sized_addressSize hsize, takes_const.1 htakes]
    rfl
  | startxEndx startInclusive endExclusive payload =>
    simp only [hentry] at hsize htakes
    simpa [missingOfEntry, extraOfEntry] using (agrees_index startInclusive).three
      (agrees_index endExclusive) (hpayload payload) k k' hsize htakes
  | startxLength startInclusive length payload =>
    simp only [hentry] at hsize htakes
    simpa [missingOfEntry, extraOfEntry] using (agrees_index startInclusive).three
      (agrees_of_eq sized_ofInt64Exn takes_const.1) (hpayload payload) k k' hsize htakes
  | offsetPair startOffsetInclusive endOffsetExclusive payload =>
    simp only [hentry] at hsize htakes
    simpa [missingOfEntry, extraOfEntry] using (agrees_bound startOffsetInclusive).three
      (agrees_bound endOffsetExclusive) (hpayload payload) k k' hsize htakes
  | startEnd startInclusive endExclusive endAdjustment payload =>
    simp only [hentry] at hsize htakes
    simpa [missingOfEntry, extraOfEntry] using
      (agrees_of_eq sized_addressSize takes_labelSymbolDiff).three
        (agrees_of_eq sized_addressSize takes_labelSymbolDiff) (hpayload payload) k k' hsize htakes
  | startLength startInclusive length payload =>
    simp only [hentry] at hsize htakes
    simpa [missingOfEntry, extraOfEntry] using
      (agrees_of_eq sized_addressSize takes_labelSymbolDiff).three (agrees_length length)
        (hpayload payload) k k' hsize htakes

theorem agrees_entry (hpayload : ∀ payload, Agrees (missingOfPayload payload) 0
      (kind.payload.size payload) (kind.payload.emit payload)) (t : LocatedEntry π) :
    Agrees (missingOfEntry missingOfPayload t.entry) (extraOfEntry t.entry)
      ((listEntry env kind).size t) ((listEntry env kind).emit t) := by
  intro k k' hsize htakes
  obtain ⟨n, hn, hsize⟩ := sized_bind hsize
  simp only [listEntry, takes_seq_cons, takes_seq_nil] at htakes
  obtain ⟨a, _, ha, ⟨b, _, hb, rfl, rfl⟩, rfl⟩ := htakes
  have hentry := agrees_size0 hpayload t _ b ⟨n, hn, rfl⟩ hb
  have ha : a = 1 := takes_const.1 ha
  rw [sized_succ hsize]
  omega

def missingOfList (missingOfPayload : π → ℕ) (t : List (LocatedEntry π)) : ℕ :=
  (t.map fun entry => missingOfEntry missingOfPayload entry.entry).sum

def extraOfList (t : List (LocatedEntry π)) : ℕ := (t.map fun entry => extraOfEntry entry.entry).sum

theorem takes_iter_append {f : α → Emission} {l' : List α} : Takes (emitIter f (l ++ l')) k ↔
      ∃ a b, Takes (emitIter f l) a ∧ Takes (emitIter f l') b ∧ k = a + b := by
  induction l generalizing k with
  | nil => simp
  | cons x l ih =>
    rw [List.cons_append]
    simp only [ih, takes_iter_cons]
    constructor
    · intro h
      obtain ⟨a, _, ha, ⟨b, c, hb, hc, rfl⟩, rfl⟩ := h
      exact ⟨a + b, c, ⟨a, b, ha, hb, rfl⟩, hc, by ring⟩
    intro h
    obtain ⟨_, c, ⟨a, b, ha, hb, rfl⟩, hc, rfl⟩ := h
    exact ⟨a, b + c, ha, ⟨b, c, hb, hc, rfl⟩, by ring⟩

theorem takes_iter_reverse {f : α → Emission} :
    Takes (emitIter f l.reverse) k ↔ Takes (emitIter f l) k := by
  induction l generalizing k with
  | nil => simp
  | cons x l ih =>
    rw [List.reverse_cons, takes_iter_append]
    simp only [ih, takes_iter_cons, takes_iter_nil]
    constructor
    · intro h
      obtain ⟨a, _, ha, ⟨b, _, hb, rfl, rfl⟩, rfl⟩ := h
      exact ⟨b, a, hb, ha, by ring⟩
    intro h
    obtain ⟨b, a, hb, ha, rfl⟩ := h
    exact ⟨a, b, ha, ⟨b, 0, hb, rfl, by ring⟩, by ring⟩

theorem agrees_lists (hpayload : ∀ payload, Agrees (missingOfPayload payload) 0
      (kind.payload.size payload) (kind.payload.emit payload)) (t : List (LocatedEntry π)) :
    Agrees (missingOfList missingOfPayload t) (extraOfList t)
      ((locationOrRangeList env kind).size t) ((locationOrRangeList env kind).emit t) := by
  intro k k' hsize htakes
  exact agrees_foldAdd_zero _ _ (agrees_entry hpayload) t k k' hsize (takes_iter_reverse.1 htakes)

theorem takes_num (h : Takes (num env i).emit k) : k = widthAsInt64 env := by
  unfold num at h
  unfold widthAsInt64 zero num
  cases hformat : env.gdwarfFormat <;> simp only [hformat] at h ⊢ <;> exact takes_const.1 h

theorem takes_offsetIter {size : DwarfInt} {lists : List (OneList π)}
    (h : Takes (emitIter (fun (one : OneList π) => do
      let offset ← DwarfInt.add env size one.offsetFromFirstList
      offset.emit) lists) k) : k = widthAsInt64 env * lists.length := by
  induction lists generalizing k with
  | nil => rw [takes_iter_nil.1 h, List.length_nil, Nat.cast_zero, mul_zero]
  | cons one lists ih =>
    obtain ⟨a, b, ha, hb, rfl⟩ := takes_iter_cons.1 h
    obtain ⟨offset, hoffset, ha⟩ := takes_bind ha
    rw [add_eq_ok hoffset] at ha
    rw [takes_num ha, ih hb, List.length_cons]
    push_cast
    ring

/-- The offset array has a number of the width of the format for each list. -/
theorem takes_offsets {t : ListTable π} (hoffsets : env.gdwarfOffsets = true)
    (h : Takes (emitOffsets env t) k) (hsize : Sized (offsetArraySize env t) k') : k' = k := by
  obtain ⟨n, -, h⟩ := takes_bind h
  unfold offsetArraySize at hsize
  rw [if_pos hoffsets] at hsize
  obtain ⟨count, hcount, hsize⟩ := sized_bind hsize
  have hlength : count = t.lists.length := by
    unfold offsetEntryCount at hcount
    split_ifs at hcount
    simpa [pure, Except.pure, eq_comm] using hcount
  rw [sized_ofInt64Exn hsize, takes_offsetIter h, hlength]

def missingOfTable (missingOfPayload : π → ℕ) (t : ListTable π) : ℕ :=
  (t.lists.map fun one => missingOfList missingOfPayload one.list).sum

def extraOfTable (t : ListTable π) : ℕ := (t.lists.map fun one => extraOfList one.list).sum

theorem agrees_labelled (hpayload : ∀ payload, Agrees (missingOfPayload payload) 0
      (kind.payload.size payload) (kind.payload.emit payload)) (one : OneList π) :
    Agrees (missingOfList missingOfPayload one.list) (extraOfList one.list)
      ((locationOrRangeList env kind).size one.list)
      (emitSeq [defineLabel env one.label, (locationOrRangeList env kind).emit one.list]) := by
  intro k k' hsize htakes
  simp only [takes_seq_cons, takes_seq_nil] at htakes
  obtain ⟨a, _, ha, ⟨b, _, hb, rfl, rfl⟩, rfl⟩ := htakes
  have hlist := agrees_lists hpayload one.list k b hsize hb
  rw [takes_defineLabel ha]
  omega

theorem agrees_listTableUnit (hpayload : ∀ payload, Agrees (missingOfPayload payload) 0
      (kind.payload.size payload) (kind.payload.emit payload)) (t : ListTable π) :
    Agrees (missingOfTable missingOfPayload t) (extraOfTable t) (t.initialLength env kind)
      (emitListTable env kind t) := by
  intro k k' hsize htakes
  obtain ⟨listsSize, hlists, hsize⟩ := sized_bind hsize
  obtain ⟨a, c, ha, hc, rfl⟩ := sized_sum hsize
  obtain rfl := sized_pure.1 hc
  obtain ⟨count, hcount, htakes⟩ := takes_bind htakes
  simp only [takes_seq_cons, takes_seq_nil] at htakes
  obtain ⟨b₁, _, hb₁, ⟨b₂, _, hb₂, ⟨b₃, _, hb₃, ⟨b₄, _, hb₄, ⟨b₅, _, hb₅, ⟨b₆, _, hb₆,
    ⟨b₇, _, hb₇, rfl, rfl⟩, rfl⟩, rfl⟩, rfl⟩, rfl⟩, rfl⟩, rfl⟩ := htakes
  have hentries := agrees_foldAdd _ _ (fun one _ => agrees_labelled hpayload one) _
    ⟨listsSize, hlists, rfl⟩ hb₇
  rw [eight, num_toInt64] at hentries
  have harray : a = b₆ := by
    split_ifs at hb₆ with hoffsets
    · exact takes_offsets hoffsets hb₆ ha
    unfold offsetArraySize at ha
    rw [if_neg hoffsets] at ha
    rw [sized_pure.1 ha, takes_nothing.1 hb₆, zero, num_toInt64]
  have hb₂ : b₂ = 1 := takes_const.1 hb₂
  have hb₃ : b₃ = 1 := takes_const.1 hb₃
  have hb₄ : b₄ = 4 := takes_const.1 hb₄
  rw [takes_version hb₁, takes_defineLabel hb₅]
  unfold missingOfTable extraOfTable
  omega

end Lists

end Oxcaml.Backend.DwarfSizes
