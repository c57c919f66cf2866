/-
Oxcaml.Backend.CmmExtension — narrowing in `backend/cmm_helpers.ml`.

`low_bits` simplifies an expression of which only the low bits matter;
`zero_extend` and `sign_extend` fill the bits above them, and `tag_int` and
`untag_int` go between OCaml's integers and words.

The source asserts that the number of bits is positive, and at most
`arch_bits` for the extensions; here it is a `Nat`, and the theorems take these
bounds. `low_bits` calls itself on what `asr_const` returns, and `sign_extend`
on operands of what `low_bits` returns, so §1 weighs the results.
-/
import Mathlib
import Oxcaml.Backend.CmmTails

set_option linter.all false

namespace Oxcaml.Backend

open Expression CmmPeepholeEngine

variable {O : Type}

/-! ## §1 Weights -/

theorem weight_setTail (e t : Expression O) :
    (e.setTail t).weight + e.tail.weight = e.weight + t.weight := by
  fun_induction tail e with
  | case1 v exp body ih => simp only [setTail, weight]; omega
  | case2 v exp body ih | case3 v body ih => simpa only [setTail, weight] using ih
  | case4 e1 e2 ih => simp only [setTail, weight]; omega
  | case5 e h1 h2 h3 h4 =>
    have h : e.setTail t = t := by rw [setTail] <;> assumption
    rw [h, Nat.add_comm]

namespace CmmHelpers

theorem weight_natintConstUntagged (n : Nativeint) :
    (natintConstUntagged n : Expression O).weight = 1 := by
  rw [natintConstUntagged]
  split <;> simp only [weight]

variable {e x : Expression O}

theorem weight_bitwiseInt_le {op : Operation O} {f : Nativeint → Nativeint → Nativeint}
    {const : Expression O → Nativeint → Except (Fatal O) (Expression O)}
    (hconst : ∀ c k r, const c k = .ok r → r.weight ≤ c.weight + 2) {c1 c2 : Expression O}
    (h : bitwiseInt op f const c1 c2 = .ok e) : e.weight ≤ c1.weight + c2.weight + 1 := by
  obtain ⟨t, ht, rfl⟩ := mapTail2_ok h
  have h1 := weight_setTail c1 t
  have h2 := weight_setTail c2 (c1.setTail t)
  have hpos1 := c1.tail.one_le_weight
  have hpos2 := c2.tail.one_le_weight
  have ht : t.weight ≤ c1.tail.weight + c2.tail.weight + 1 := by
    split at ht
    · cases ht
      rw [weight_natintConstUntagged]
      omega
    · have := hconst _ _ _ ht; omega
    · have := hconst _ _ _ ht; omega
    cases ht
    simp only [weight, weightList]
    omega
  omega

/-! ## §2 Low bits -/

variable [DecidableEq O]

def getConstBitmask : Expression O → Option (Expression O × Nativeint)
  | cop .cand [x, cconstNatint mask] => some (x, mask)
  | cop .cand [cconstNatint mask, x] => some (x, mask)
  | cop .cand [x, cconstInt mask] => some (x, ofInt mask)
  | cop .cand [cconstInt mask, x] => some (x, ofInt mask)
  | _ => none

/-- A shift to the left and one back to the right, when neither reaches the low bits. -/
def shiftedBack (unusedBits : OcamlInt) : Expression O → Option (Expression O × OcamlInt × OcamlInt)
  | cop op [cop .clsl [x, cconstInt left], cconstInt right] =>
    if (op = .casr ∨ op = .clsr) ∧ (0 : OcamlInt).sle left ∧ (0 : OcamlInt).sle right ∧
        left.sle unusedBits ∧ right.sle unusedBits then
      some (x, left, right)
    else none
  | _ => none

/-- The mask of the low `bits` bits. -/
def lowMask (bits : Nat) : Nativeint := (1 : Nativeint) <<< bits - 1

def doesMaskKeepLowBits (bits : Nat) (mask : Nativeint) : Bool :=
  lowMask bits == mask &&& lowMask bits

omit [DecidableEq O] in
theorem getConstBitmask_weight {mask : Nativeint}
    (h : getConstBitmask e = some (x, mask)) : x.weight < e.weight := by
  unfold getConstBitmask at h
  split at h <;> cases h <;> simp only [weight, weightList] <;> lia

variable {unusedBits left right : OcamlInt}

section

variable (h : shiftedBack unusedBits e = some (x, left, right))
include h

theorem shiftedBack_eq_some :
    ∃ op, e = cop op [cop .clsl [x, cconstInt left], cconstInt right] ∧
      (op = .casr ∨ op = .clsr) ∧ (0 : OcamlInt).sle left ∧ (0 : OcamlInt).sle right ∧
        left.sle unusedBits ∧ right.sle unusedBits := by
  unfold shiftedBack at h
  split at h
  · obtain ⟨hguard, h⟩ := Option.ite_none_right_eq_some.1 h
    cases h
    exact ⟨_, rfl, hguard⟩
  · cases h

theorem shiftedBack_weight : x.weight + 4 = e.weight := by
  obtain ⟨op, rfl, -⟩ := shiftedBack_eq_some h
  simp only [weight, weightList]

end

theorem weight_shiftOutside (op : Operation O) (c1 c2 : Expression O) :
    (shiftOutside op c1 c2).weight = c1.weight + c2.weight + 1 := by
  unfold shiftOutside
  split
  · split
    · simp only [weight, weightList]; omega
    · simp only [weight, weightList]; omega
  · simp only [weight, weightList]; omega

theorem weight_asrConst_le {c : Expression O} {n : OcamlInt} (h : asrConst c n = .ok e) :
    e.weight ≤ c.weight + 2 := by
  by_cases hn : isDefinedShift n = true
  · exact (asrInt_becomes hn h).weight_le
  rw [asrConst, asrInt] at h
  obtain ⟨t, ht, rfl⟩ := mapTail2_ok h
  dsimp only [tail, setTail] at ht ⊢
  rw [if_neg (ne_zero_of_not_isDefinedShift hn), if_neg hn] at ht
  cases ht
  have := weight_setTail c (shiftOutside .casr c.tail (cconstInt n))
  rw [weight_shiftOutside, weight] at this
  omega

/-- `low_bits`: agrees with `x` on at least the low `bits` bits. -/
def lowBits (bits : Nat) (x : Expression O) : Except (Fatal O) (Expression O) :=
  if archBits ≤ bits then pure x
  else
    mapTail x fun x hx =>
      match hs : shiftedBack (BitVec.ofNat 63 (archBits - bits)) x with
      | some (y, left, right) =>
        -- It does not matter if the right shift that is left is logical or
        -- arithmetic, because the topmost bits are wrong anyway.
        if right.sle left then lowBits bits (lslConst0 y (left - right))
        else
          match hr : asrConst y (right - left) with
          | .error err => .error err
          | .ok z => lowBits bits z
      | none =>
        match hm : (getConstBitmask x).filter fun p => doesMaskKeepLowBits bits p.2 with
        | some (y, _) => lowBits bits y
        | none =>
          match hb : x with
          | cop .cand [x1, x2] => do
            let x1 ← lowBits bits x1
            let x2 ← lowBits bits x2
            andInt x1 x2
          | cop .cor [x1, x2] => do
            let x1 ← lowBits bits x1
            let x2 ← lowBits bits x2
            orInt x1 x2
          | cop .cxor [x1, x2] => do
            let x1 ← lowBits bits x1
            let x2 ← lowBits bits x2
            xorInt x1 x2
          | x => pure x
termination_by x.weight
decreasing_by
  · have := shiftedBack_weight hs
    simp only [lslConst0, weight, weightList]
    omega
  · have := shiftedBack_weight hs
    have := weight_asrConst_le hr
    omega
  · have := getConstBitmask_weight (Option.filter_eq_some_iff.1 hm).1; omega
  all_goals
    rw [hb] at hx
    simp only [weight, weightList] at hx
    omega

/-- What `low_bits` makes of a tail. -/
inductive LowBitsStep (bits : Nat) (x : Expression O) : Expression O → Prop
  | left {y left right e} :
    shiftedBack (BitVec.ofNat 63 (archBits - bits)) x = some (y, left, right) →
    right.sle left = true → lowBits bits (lslConst0 y (left - right)) = .ok e → LowBitsStep bits x e
  | right {y left right z e} :
    shiftedBack (BitVec.ofNat 63 (archBits - bits)) x = some (y, left, right) →
    right.sle left = false → asrConst y (right - left) = .ok z → lowBits bits z = .ok e →
    LowBitsStep bits x e
  | mask {y mask e} : getConstBitmask x = some (y, mask) → doesMaskKeepLowBits bits mask = true →
    lowBits bits y = .ok e → LowBitsStep bits x e
  | and {x1 x2 y1 y2 e} : x = cop .cand [x1, x2] → lowBits bits x1 = .ok y1 →
    lowBits bits x2 = .ok y2 → andInt y1 y2 = .ok e → LowBitsStep bits x e
  | or {x1 x2 y1 y2 e} : x = cop .cor [x1, x2] → lowBits bits x1 = .ok y1 →
    lowBits bits x2 = .ok y2 → orInt y1 y2 = .ok e → LowBitsStep bits x e
  | xor {x1 x2 y1 y2 e} : x = cop .cxor [x1, x2] → lowBits bits x1 = .ok y1 →
    lowBits bits x2 = .ok y2 → xorInt y1 y2 = .ok e → LowBitsStep bits x e
  | same : LowBitsStep bits x x

theorem lowBits_ok {bits : Nat} (h : lowBits bits x = .ok e) : (archBits ≤ bits ∧ e = x) ∨
      (¬ archBits ≤ bits ∧ Retailed
        (fun c t => c.weight ≤ x.weight ∧ LowBitsStep bits c t) x e) := by
  rw [lowBits] at h
  split at h
  · cases h; exact .inl ⟨‹_›, rfl⟩
  rename_i hbits
  refine .inr ⟨hbits, (mapTail_ok x h).mono fun c t ⟨hle, ht⟩ => ⟨hle, ?_⟩⟩
  dsimp only at ht
  split at ht
  · rename_i y left right hs
    split at ht
    · exact .left hs ‹_› ht
    rename_i hlt
    split at ht
    · cases ht
    · exact .right hs (Bool.eq_false_iff.2 hlt) ‹_› ht
  split at ht
  · rename_i y mask hm
    obtain ⟨hm, hkeep⟩ := Option.filter_eq_some_iff.1 hm
    exact .mask hm hkeep ht
  split at ht
  · obtain ⟨y1, h1, ht⟩ := bind_ok ht
    obtain ⟨y2, h2, ht⟩ := bind_ok ht
    exact .and rfl h1 h2 ht
  · obtain ⟨y1, h1, ht⟩ := bind_ok ht
    obtain ⟨y2, h2, ht⟩ := bind_ok ht
    exact .or rfl h1 h2 ht
  · obtain ⟨y1, h1, ht⟩ := bind_ok ht
    obtain ⟨y2, h2, ht⟩ := bind_ok ht
    exact .xor rfl h1 h2 ht
  · cases ht; exact .same

theorem weight_lowBits_le {bits : Nat} (h : lowBits bits x = .ok e) : e.weight ≤ x.weight := by
  induction hw : x.weight using Nat.strongRecOn generalizing x e with | ind w ih =>
subst hw
rcases lowBits_ok h with ⟨-, rfl⟩ | ⟨-, h⟩
· exact Nat.le_refl _
apply h.weight_le
intro c t ⟨hle, ht⟩
have hop : ∀ {op : Operation O} {f const} {x1 x2 y1 y2 : Expression O}, c = cop op [x1, x2] →
    lowBits bits x1 = .ok y1 → lowBits bits x2 = .ok y2 → bitwiseInt op f const y1 y2 = .ok t →
    (∀ c k r, const c k = .ok r → r.weight ≤ c.weight + 2) → t.weight ≤ c.weight := by
  rintro op f const x1 x2 y1 y2 rfl h1 h2 ht hconst
  simp only [weight, weightList] at hle ⊢
  have := weight_bitwiseInt_le hconst ht
  have := ih _ (by omega) h1 rfl
  have := ih _ (by omega) h2 rfl
  omega
cases ht with
| left hs hle' ht =>
  have hy := shiftedBack_weight hs
  have := ih _ (by simp only [lslConst0, weight, weightList]; omega) ht rfl
  simp only [lslConst0, weight, weightList] at this
  omega
| right hs hle' hr ht =>
  have hy := shiftedBack_weight hs
  have hz := weight_asrConst_le hr
  have := ih _ (by omega) ht rfl
  omega
| mask hm hkeep ht =>
  have hy := getConstBitmask_weight hm
  have := ih _ (by omega) ht rfl
  omega
| and hc h1 h2 ht => exact hop hc h1 h2 ht fun c k r h => (andConst_becomes h).weight_le
| or hc h1 h2 ht => exact hop hc h1 h2 ht fun c k r h => (orConst_becomes h).weight_le
| xor hc h1 h2 ht => exact hop hc h1 h2 ht fun c k r h => (xorConst_becomes h).weight_le
| same => exact Nat.le_refl _

/-! ## §3 Tags -/

def tagInt (i : Expression O) : Except (Fatal O) (Expression O) := do
  match ← lowBits (archBits - 1) i with
  | cconstInt n => pure (intConst n)
  | c => incrInt (← lslConst c 1)

def untagInt (i : Expression O) : Except (Fatal O) (Expression O) :=
  match i with
  | cconstInt n => pure (cconstInt (n.sshiftRight 1))
  | cop .cor [cop .casr [c, cconstInt n], cconstInt 1] =>
    if (0 : OcamlInt).slt n && isDefinedShift (n + 1) then asrConst c (n + 1)
    else asrConst (cop .cor [cop .casr [c, cconstInt n], cconstInt 1]) 1
  | cop .cor [cop .clsr [c, cconstInt n], cconstInt 1] =>
    if (0 : OcamlInt).slt n && isDefinedShift (n + 1) then lsrConst c (n + 1)
    else asrConst (cop .cor [cop .clsr [c, cconstInt n], cconstInt 1]) 1
  | c => asrConst c 1

/-! ## §4 Extensions -/

/-- `zero_extend`: the most significant `arch_bits - bits` bits set to 0. -/
def zeroExtend (bits : Nat) (e : Expression O) : Except (Fatal O) (Expression O) := do
  let zeroExtendViaMask (e : Expression O) :=
    cop .cand [e, natintConstUntagged (lowMask bits)]
  if bits = archBits then pure e
  else
    let e ← lowBits bits e
    mapTail e fun e _ =>
      match e with
      | cop (.cload memoryChunk mutability isAtomic) args =>
        let load memoryChunk := cop (.cload memoryChunk mutability isAtomic) args
        match memoryChunk, bits with
        | .byteSigned, 8 | .byteUnsigned, 8 => pure (load .byteUnsigned)
        | .sixteenSigned, 16 | .sixteenUnsigned, 16 => pure (load .sixteenUnsigned)
        | .thirtytwoSigned, 32 | .thirtytwoUnsigned, 32 => pure (load .thirtytwoUnsigned)
        | _, _ => pure (zeroExtendViaMask e)
      | e => pure (zeroExtendViaMask e)

def isConstant : Expression O → Bool
  | cconstInt _ => true
  | cconstNatint _ => true
  | _ => false

def signExtendViaShift (unusedBits : OcamlInt) (e : Expression O) :
    Except (Fatal O) (Expression O) :=
  asrConst (lslConst0 e unusedBits) unusedBits

def signExtend (bits : Nat) (e : Expression O) : Except (Fatal O) (Expression O) :=
  let unusedBits := BitVec.ofNat 63 (archBits - bits)
  if bits = archBits then pure e
  else
    match hl : lowBits bits e with
    | .error err => .error err
    | .ok e' =>
      mapTail e' fun c hc =>
        match hp : preferOr c with
        | cop .cand [x, y] =>
          if isConstant y then do
            let y ← signExtend bits y
            let x ← signExtend bits x
            andInt x y
          else signExtendViaShift unusedBits (cop .cand [x, y])
        | cop .cor [x, y] =>
          if isConstant y then do
            let y ← signExtend bits y
            let x ← signExtend bits x
            orInt x y
          else signExtendViaShift unusedBits (cop .cor [x, y])
        | cop .cxor [x, y] =>
          if isConstant y then do
            let y ← signExtend bits y
            let x ← signExtend bits x
            xorInt x y
          else signExtendViaShift unusedBits (cop .cxor [x, y])
        | cop .casr [inner, cconstInt n] =>
          if isDefinedShift n then
            if n = unusedBits then pure (cop .casr [inner, cconstInt n])
            else if unusedBits.slt n then
              -- sign-extension is a no-op since the top n bits already match
              pure (cop .casr [inner, cconstInt n])
            else asrConst (lslConst0 inner (unusedBits - n)) unusedBits
          else signExtendViaShift unusedBits (cop .casr [inner, cconstInt n])
        | cop .clsr [inner, cconstInt n] =>
          if isDefinedShift n then
            if n = unusedBits then asrConst inner unusedBits
            else if unusedBits.slt n then
              -- sign-extension is a no-op since the top n bits already match
              pure (cop .clsr [inner, cconstInt n])
            else asrConst (lslConst0 inner (unusedBits - n)) unusedBits
          else signExtendViaShift unusedBits (cop .clsr [inner, cconstInt n])
        | cop (.cload memoryChunk mutability isAtomic) args =>
          let load memoryChunk := cop (.cload memoryChunk mutability isAtomic) args
          match memoryChunk, bits with
          | .byteSigned, 8 | .byteUnsigned, 8 => pure (load .byteSigned)
          | .sixteenSigned, 16 | .sixteenUnsigned, 16 => pure (load .sixteenSigned)
          | .thirtytwoSigned, 32 | .thirtytwoUnsigned, 32 => pure (load .thirtytwoSigned)
          | _, _ => signExtendViaShift unusedBits (load memoryChunk)
        | e => signExtendViaShift unusedBits e
termination_by e.weight
decreasing_by
  all_goals
    have hle := weight_lowBits_le hl
    have hw := weight_preferOr c
    rw [hp] at hw
    simp only [weight, weightList] at hw
    omega

end CmmHelpers

end Oxcaml.Backend
