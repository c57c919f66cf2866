/-
Oxcaml.Runtime.IntsTheorems — integer literals are parsed exactly.

A `Literal` is an optional sign, an optional base letter after a zero, a digit,
and then digits and underscores; its magnitude is computed without bound.
`parse_intnat` detects overflow in the multiplication and in the addition, on
words; §1 shows that together this is the test whether the magnitude so far is
below `2 ^ 64`. §2 reads the sign and the base back. §3 is about the decimal
numerals that `%d` prints.
-/
import Oxcaml.Runtime.Ints
import Mathlib.Tactic
import Mathlib.Data.List.TakeWhile
import Mathlib.Data.Nat.Digits.Defs

set_option linter.all false

namespace Oxcaml.Runtime.Ints

open BitVec (lt_def ofInt ofNat toNat_ofNat)

/-! ## §1 Digits -/

/-- A digit of the base, or an underscore. -/
def isDigitOrUnderscore (base : Nat) (c : UInt8) : Bool :=
  c == byte '_' || (digitOf base c).isSome

/-- The magnitude of `p`, read after the magnitude `n`. -/
def magnitude (base : Nat) : Nat → Bytes → Nat
  | n, [] => n
  | n, c :: p => magnitude base (if c = byte '_' then n else base * n + (digitOf base c).getD 0) p

variable {c : UInt8}

theorem digitOf_lt {base d : Nat} (h : digitOf base c = some d) : d < base := by
  have h' := (Option.filter_eq_some_iff.1 h).2
  simpa using h'

theorem le_magnitude {base : Nat} (hbase : 0 < base) (p : Bytes) (n : Nat) :
    n ≤ magnitude base n p := by
  induction p generalizing n with
  | nil => exact Nat.le_refl n
  | cons c p ih =>
    rw [magnitude]
    refine Nat.le_trans ?_ (ih _)
    split
    · exact Nat.le_refl n
    · exact Nat.le_trans (Nat.le_mul_of_pos_left n hbase) (Nat.le_add_right _ _)

/-- One round of the loop: the two tests together detect overflow. -/
theorem step_overflow {base d : Nat} (hbase : 2 ≤ base ∧ base ≤ 16) (hd : d < base)
    (res : Uintnat) :
    let next := ofNat 64 base * res + ofNat 64 d
    let overflows := (-1 : Uintnat) / ofNat 64 base < res ∨ next < ofNat 64 d
    (overflows ↔ 2 ^ 64 ≤ base * res.toNat + d) ∧
      (¬ overflows → next.toNat = base * res.toNat + d) := by
  intro next overflows
  have hb : (ofNat 64 base).toNat = base := by
    rw [toNat_ofNat, Nat.mod_eq_of_lt (by omega)]
  have hd' : (ofNat 64 d).toNat = d := by
    rw [toNat_ofNat, Nat.mod_eq_of_lt (by omega)]
  have hthreshold : ((-1 : Uintnat) / ofNat 64 base).toNat = (2 ^ 64 - 1) / base := by
    rw [BitVec.toNat_udiv, hb]
    rfl
  have hnext : next.toNat = (base * res.toNat + d) % 2 ^ 64 := by
    simp [next]
  have hmul : (2 ^ 64 - 1) / base < res.toNat ↔ 2 ^ 64 ≤ base * res.toNat := by
    rw [Nat.div_lt_iff_lt_mul (by omega), Nat.mul_comm res.toNat]
    omega
  have hover : overflows ↔ 2 ^ 64 ≤ base * res.toNat ∨ (base * res.toNat + d) % 2 ^ 64 < d := by
    rw [← hmul, ← hthreshold, ← hnext, ← hd', ← lt_def, ← lt_def]
  rw [hover]
  omega

theorem parseDigits_eq {base : Nat} (hbase : 2 ≤ base ∧ base ≤ 16) (p : Bytes) (res : Uintnat) :
    parseDigits base ((-1 : Uintnat) / ofNat 64 base) p res =
      let digits := p.takeWhile (isDigitOrUnderscore base)
      if magnitude base res.toNat digits < 2 ^ 64 then
        some (p.dropWhile (isDigitOrUnderscore base),
          ofNat 64 (magnitude base res.toNat digits))
      else none := by
  induction p generalizing res with
  | nil => simp [parseDigits, magnitude, res.isLt]
  | cons c p ih =>
    rw [parseDigits]
    by_cases hc : c = byte '_'
    · have hok : isDigitOrUnderscore base c = true := by simp [isDigitOrUnderscore, hc]
      simp only [if_pos hc, ih, List.takeWhile_cons_of_pos hok, List.dropWhile_cons_of_pos hok,
        magnitude]
    rw [if_neg hc]
    cases hd : digitOf base c with
    | none =>
      have hok : ¬ isDigitOrUnderscore base c = true := by simp [isDigitOrUnderscore, hc, hd]
      simp [List.takeWhile_cons_of_neg hok, List.dropWhile_cons_of_neg hok, magnitude, res.isLt]
    | some d =>
      have hok : isDigitOrUnderscore base c = true := by simp [isDigitOrUnderscore, hd]
      obtain ⟨hover, hnext⟩ := step_overflow hbase (digitOf_lt hd) res
      simp only [List.takeWhile_cons_of_pos hok, List.dropWhile_cons_of_pos hok, magnitude,
        if_neg hc, hd, Option.getD_some]
      have hle := le_magnitude (by omega : 0 < base) (p.takeWhile (isDigitOrUnderscore base))
        (base * res.toNat + d)
      by_cases h : 2 ^ 64 ≤ base * res.toNat + d
      · have hbig := Nat.not_lt.2 (Nat.le_trans h hle)
        rw [if_neg hbig]
        rcases hover.2 h with h1 | h2
        · rw [if_pos h1]
        · rw [if_pos h2, ite_self]
      · have hno := not_or.1 (mt hover.1 h)
        rw [if_neg hno.1, if_neg hno.2, ih, hnext (mt hover.1 h)]

/-! ## §2 Literals -/

/-- The base that a letter after a zero selects. -/
def letterBase (c : UInt8) : Option Nat :=
  if c = byte 'x' ∨ c = byte 'X' then some 16
  else if c = byte 'o' ∨ c = byte 'O' then some 8
  else if c = byte 'b' ∨ c = byte 'B' then some 2
  else if c = byte 'u' ∨ c = byte 'U' then some 10
  else none

/-- An optional sign. -/
inductive Sign
  | absent
  | plus
  | minus
  deriving DecidableEq

def Sign.bytes : Sign → Bytes
  | absent => []
  | plus => [byte '+']
  | minus => [byte '-']

/-- An optional base letter. -/
inductive Letter
  | absent
  | present (c : UInt8) (base : Nat) (h : letterBase c = some base)

def Letter.bytes : Letter → Bytes
  | absent => []
  | present c _ _ => [byte '0', c]

def Letter.base : Letter → Nat
  | absent => 10
  | present _ base _ => base

/-- An integer literal. -/
structure Literal where
  sign : Sign
  letter : Letter
  digit : UInt8
  rest : Bytes
  digit_ok : (digitOf letter.base digit).isSome = true
  rest_ok : rest.all (isDigitOrUnderscore letter.base) = true

namespace Literal

def bytes (l : Literal) : Bytes := l.sign.bytes ++ l.letter.bytes ++ l.digit :: l.rest

/-- The magnitude denoted, with underscores ignored. -/
def magnitude (l : Literal) : Nat := Ints.magnitude l.letter.base 0 (l.digit :: l.rest)

/-- The largest magnitude at a width. -/
def bound (l : Literal) (nbits : Nat) : Nat :=
  match l.letter, l.sign with
  | .present _ _ _, _ => 2 ^ nbits - 1
  | .absent, .minus => 2 ^ (nbits - 1)
  | .absent, _ => 2 ^ (nbits - 1) - 1

def value (l : Literal) : Int := if l.sign = .minus then -l.magnitude else l.magnitude

end Literal

theorem letterBase_bounds {base : Nat} (h : letterBase c = some base) : 2 ≤ base ∧ base ≤ 16 := by
  unfold letterBase at h
  split at h
  · cases h; omega
  split at h
  · cases h; omega
  split at h
  · cases h; omega
  split at h
  · cases h; omega
  · cases h

theorem Letter.base_bounds (l : Letter) : 2 ≤ l.base ∧ l.base ≤ 16 := by
  cases l with
  | absent => exact ⟨by decide, by decide⟩
  | present c base h => exact letterBase_bounds h

/-- `parse_base` in terms of `letterBase`. -/
theorem parseBase_eq (p : Bytes) : parseBase p =
      if deref p = byte '0' then
        match letterBase (deref p.tail) with
        | some base => (p.drop 2, base, false)
        | none => (p, 10, true)
      else (p, 10, true) := by
  unfold parseBase letterBase
  split
  · dsimp only
    split
    · rfl
    split
    · rfl
    split
    · rfl
    split
    · rfl
    · rfl
  · rfl

theorem letterBase_digit (h : isDigitOrUnderscore 10 c = true) : letterBase c = none := by
  unfold letterBase
  split
  · rename_i hc; rcases hc with rfl | rfl <;> cases h
  split
  · rename_i hc; rcases hc with rfl | rfl <;> cases h
  split
  · rename_i hc; rcases hc with rfl | rfl <;> cases h
  split
  · rename_i hc; rcases hc with rfl | rfl <;> cases h
  · rfl

theorem digit_ne_sign {base : Nat} (h : (digitOf base c).isSome = true) :
    c ≠ byte '-' ∧ c ≠ byte '+' := by
  constructor <;> rintro rfl <;> cases h

/-- What `parse_sign_and_base` returns for a literal. -/
def Literal.signAndBase (l : Literal) : SignAndBase where
  base := l.letter.base
  signedness := match l.letter with | .absent => true | .present _ _ _ => false
  negative := decide (l.sign = .minus)

theorem parseSign_bytes (l : Literal) :
    parseSign l.bytes = (l.letter.bytes ++ l.digit :: l.rest, decide (l.sign = .minus)) := by
  obtain ⟨sign, letter, digit, rest, hdigit, hrest⟩ := l
  cases sign with
  | minus | plus => rfl
  | absent =>
    cases letter with
    | present c base h => rfl
    | absent =>
      obtain ⟨h1, h2⟩ := digit_ne_sign hdigit
      have hbytes : Literal.bytes ⟨.absent, .absent, digit, rest, hdigit, hrest⟩ =
        digit :: rest := rfl
      rw [hbytes, parseSign]
      simp [deref, h1, h2, Letter.bytes]

theorem parseSignAndBase_bytes (l : Literal) :
    parseSignAndBase l.bytes = (l.digit :: l.rest, l.signAndBase) := by
  rw [parseSignAndBase, parseSign_bytes]
  obtain ⟨sign, letter, digit, rest, hdigit, hrest⟩ := l
  dsimp only
  cases letter with
  | present c base h =>
    rw [parseBase_eq]
    simp [Letter.bytes, deref, h, Literal.signAndBase, Letter.base]
  | absent =>
    have hletter : letterBase (deref rest) = none := by
      cases rest with
      | nil => rfl
      | cons c rest =>
        rw [List.all_cons, Bool.and_eq_true] at hrest
        exact letterBase_digit hrest.1
    have hbase : parseBase (digit :: rest) = (digit :: rest, 10, true) := by
      rw [parseBase_eq, List.tail_cons, hletter]
      split <;> rfl
    simp only [Letter.bytes, List.nil_append, hbase]
    rfl

theorem magnitude_cons {base d : Nat} (h : digitOf base c = some d) (p : Bytes) :
    magnitude base 0 (c :: p) = magnitude base d p := by
  have hc : c ≠ byte '_' := by
    rintro rfl
    cases h
  simp [magnitude, hc, h]

/-- The last test of `parse_intnat` compares with the bound of the literal. -/
theorem fits_iff (l : Literal) {nbits : Nat} (h1 : 1 ≤ nbits) (h64 : nbits ≤ 64) {n : Nat}
    (hn : n < 2 ^ 64) :
    fits nbits l.signAndBase (ofNat 64 n) = true ↔ n ≤ l.bound nbits := by
  have hn' : (ofNat 64 n).toNat = n := by rw [toNat_ofNat, Nat.mod_eq_of_lt hn]
  have hshift : ∀ k : ℕ, k < 64 → ((1 : Uintnat) <<< k).toNat = 2 ^ k := fun k hk => by
    rw [BitVec.toNat_shiftLeft, Nat.shiftLeft_eq, show (1 : Uintnat).toNat = 1 from rfl,
      Nat.one_mul, Nat.mod_eq_of_lt (Nat.pow_lt_pow_right (by omega) hk)]
  have hpos : ∀ k, 0 < 2 ^ k := Nat.two_pow_pos
  have hpred := hpos (nbits - 1)
  have hbits := hpos nbits
  obtain ⟨sign, letter, digit, rest, hdigit, hrest⟩ := l
  simp only [fits, Literal.signAndBase, Literal.bound]
  cases letter with
  | present c base h =>
    simp only [Bool.false_eq_true, if_false, Bool.not_eq_true', Bool.and_eq_false_iff,
      decide_eq_false_iff_not]
    rcases Nat.lt_or_ge nbits 64 with hlt | hge
    · rw [BitVec.le_def, hshift nbits hlt]; omega
    · obtain rfl : nbits = 64 := by omega
      omega
  | absent =>
    cases sign <;>
      simp only [if_true, decide_true, reduceCtorEq, decide_false, if_false,
        Bool.not_eq_true', decide_eq_false_iff_not, BitVec.le_def, lt_def,
        hshift (nbits - 1) (by omega)] <;> lia

theorem value_word (l : Literal) : (if l.signAndBase.negative then -ofNat 64 l.magnitude
      else ofNat 64 l.magnitude) = ofInt 64 l.value := by
  simp only [Literal.signAndBase, Literal.value, decide_eq_true_eq]
  split
  · rw [BitVec.ofInt_neg, BitVec.ofInt_natCast]
  · rw [BitVec.ofInt_natCast]

theorem parseIntnat_literal (l : Literal) {nbits : Nat} (h1 : 1 ≤ nbits) (h64 : nbits ≤ 64) :
    parseIntnat l.bytes nbits =
      if l.magnitude ≤ l.bound nbits then some (ofInt 64 l.value) else none := by
  obtain ⟨d, hd⟩ := Option.isSome_iff_exists.1 l.digit_ok
  have hbase := l.letter.base_bounds
  have hdlt := digitOf_lt hd
  have hdnat : (ofNat 64 d).toNat = d := by
    rw [toNat_ofNat, Nat.mod_eq_of_lt (by omega)]
  have hmag : l.magnitude = magnitude l.letter.base d l.rest := magnitude_cons hd l.rest
  have htake : l.rest.takeWhile (isDigitOrUnderscore l.letter.base) = l.rest :=
    List.takeWhile_eq_self_iff.2 (List.all_eq_true.1 l.rest_ok)
  have hdrop : l.rest.dropWhile (isDigitOrUnderscore l.letter.base) = [] :=
    List.dropWhile_eq_nil_iff.2 (List.all_eq_true.1 l.rest_ok)
  have hdigits := parseDigits_eq hbase l.rest (ofNat 64 d)
  dsimp only at hdigits
  rw [htake, hdrop, hdnat, ← hmag] at hdigits
  have hbound : l.bound nbits < 2 ^ 64 := by
    have hle : 2 ^ nbits ≤ 2 ^ 64 := Nat.pow_le_pow_right (by omega) h64
    have hle' : 2 ^ (nbits - 1) ≤ 2 ^ 63 := Nat.pow_le_pow_right (by omega) (by omega)
    unfold Literal.bound
    split <;> lia
  have hbase' : l.signAndBase.base = l.letter.base := rfl
  rw [parseIntnat, parseSignAndBase_bytes]
  simp only [hbase', deref, List.headD_cons, List.tail_cons, hd, Option.bind_eq_bind,
    Option.bind_some, hdigits]
  by_cases hlt : l.magnitude < 2 ^ 64
  · have hfits := fits_iff l h1 h64 hlt
    simp only [if_pos hlt, Option.bind_some, ne_eq, not_true_eq_false, if_false]
    by_cases hle : l.magnitude ≤ l.bound nbits
    · rw [if_pos hle, if_pos (hfits.2 hle)]; exact congrArg some (value_word l)
    · rw [if_neg hle, if_neg (mt hfits.1 hle)]
  · rw [if_neg hlt, if_neg (by omega)]; rfl

theorem parseSign_spec (s : Bytes) :
    ∃ sign : Sign, ∃ p, s = sign.bytes ++ p ∧ parseSign s = (p, decide (sign = .minus)) := by
  unfold parseSign
  cases s with
  | nil => exact ⟨.absent, [], rfl, rfl⟩
  | cons c s =>
    split
    · rename_i h
      exact ⟨.minus, s, congrArg (· :: s) h, rfl⟩
    split
    · rename_i h
      exact ⟨.plus, s, congrArg (· :: s) h, rfl⟩
    · exact ⟨.absent, c :: s, rfl, rfl⟩

theorem parseBase_spec (s : Bytes) :
    ∃ letter : Letter, ∃ p, s = letter.bytes ++ p ∧ (parseBase s).1 = p ∧
      (parseBase s).2.1 = letter.base := by
  rw [parseBase_eq]
  split
  · rename_i h0
    cases hbase : letterBase (deref s.tail) with
    | none => exact ⟨.absent, s, rfl, rfl, rfl⟩
    | some base =>
      match s, h0, hbase with
      | [], h0, _ => cases h0
      | [c], _, hbase => cases hbase
      | c :: c' :: s, h0, hbase =>
        refine ⟨.present c' base hbase, s, ?_, rfl, rfl⟩
        rw [show c = byte '0' from h0]
        rfl
  · exact ⟨.absent, s, rfl, rfl, rfl⟩

/-- What is accepted is a literal. -/
theorem parseIntnat_isLiteral {s : Bytes} {nbits : Nat} {v : Uintnat}
    (h : parseIntnat s nbits = some v) : ∃ l : Literal, l.bytes = s := by
  obtain ⟨sign, t, hs, hsign⟩ := parseSign_spec s
  obtain ⟨letter, p, ht, hp, hbase⟩ := parseBase_spec t
  have hparse : parseSignAndBase s =
      (p, ⟨letter.base, (parseBase t).2.2, decide (sign = .minus)⟩) := by
    rw [parseSignAndBase, hsign, ← hp, ← hbase]
  rw [parseIntnat, hparse] at h
  simp only [Option.bind_eq_bind, Option.bind_eq_some_iff, Prod.exists] at h
  obtain ⟨d, hd, p', res, hdigits, h⟩ := h
  split at h
  · cases h
  rename_i hp'
  rw [parseDigits_eq letter.base_bounds] at hdigits
  dsimp only at hdigits
  split at hdigits
  · cases hdigits
    cases p with
    | nil => cases hd
    | cons digit rest =>
      have hrest := List.dropWhile_eq_nil_iff.1 (not_not.1 hp')
      refine ⟨⟨sign, letter, digit, rest, ?_, List.all_eq_true.2 hrest⟩, ?_⟩
      · rw [show digitOf letter.base digit = some d from hd]; rfl
      · rw [hs, ht, Literal.bytes, List.append_assoc]
  · cases hdigits

theorem setWidth_ofInt {nbits : Nat} (h : nbits ≤ 64) (i : Int) :
    (ofInt 64 i).setWidth nbits = ofInt nbits i := by
  have hdvd : ((2 ^ nbits : Nat) : Int) ∣ ((2 ^ 64 : Nat) : Int) :=
    Int.natCast_dvd_natCast.2 (Nat.pow_dvd_pow 2 h)
  have hpos : (0 : Int) < ((2 ^ 64 : Nat) : Int) := by decide
  apply BitVec.eq_of_toNat_eq
  have hnonneg := Int.emod_nonneg i (Int.ne_of_gt hpos)
  rw [BitVec.toNat_setWidth, BitVec.toNat_ofInt, BitVec.toNat_ofInt,
    ← Int.emod_emod_of_dvd i hdvd, Int.toNat_emod hnonneg (Int.natCast_nonneg _), Int.toNat_natCast]

/-- `parse_intnat` accepts the literals whose magnitude fits the width, and
returns the value that they denote. The callers truncate it to the width. -/
theorem parseIntnat_exact (s : Bytes) (nbits : Nat) (hnbits : nbits ∈ [8, 16, 32, 63, 64])
    (v : Uintnat) :
    (parseIntnat s nbits = some v ↔ ∃ l : Literal, l.bytes = s ∧ l.magnitude ≤ l.bound nbits ∧
        v = ofInt 64 l.value) ∧
    ∀ l : Literal, (ofInt 64 l.value).setWidth nbits = ofInt nbits l.value := by
  have h1 : 1 ≤ nbits ∧ nbits ≤ 64 := by
    simp only [List.mem_cons, List.not_mem_nil, or_false] at hnbits
    omega
  refine ⟨⟨fun h => ?_, ?_⟩, fun l => setWidth_ofInt h1.2 l.value⟩
  · obtain ⟨l, rfl⟩ := parseIntnat_isLiteral h
    rw [parseIntnat_literal l h1.1 h1.2] at h
    split at h
    · rename_i hle
      exact ⟨l, rfl, hle, (Option.some.inj h).symm⟩
    · cases h
  · rintro ⟨l, rfl, hle, rfl⟩; rw [parseIntnat_literal l h1.1 h1.2, if_pos hle]

theorem parseIntnat_exact_minus_one : 63 ∈ [8, 16, 32, 63, 64] ∧
      (parseIntnat [byte '-', byte '1'] 63 = some (-1) ↔
        ∃ l : Literal, l.bytes = [byte '-', byte '1'] ∧ l.magnitude ≤ l.bound 63 ∧
          (-1 : Uintnat) = ofInt 64 l.value) :=
  ⟨by decide, (parseIntnat_exact _ 63 (by decide) _).1⟩

/-! ## §3 Decimal numerals -/

theorem digitOf_digitChar {d : Nat} (h : d < 10) : digitOf 10 (byte d.digitChar) = some d := by
  interval_cases d <;> rfl

theorem byte_digitChar_ne {d : Nat} (h : d < 10) : byte d.digitChar ≠ byte '_' := by
  interval_cases d <;> decide

theorem digits_eq (n : Nat) : digits n = if n < 10 then [byte n.digitChar]
      else digits (n / 10) ++ [byte (n % 10).digitChar] := by
  rw [digits, Nat.toDigits_eq_if (by decide)]
  split
  · rfl
  · rw [List.map_append]; rfl

theorem magnitude_append (base n : Nat) (p q : Bytes) :
    magnitude base n (p ++ q) = magnitude base (magnitude base n p) q := by
  induction p generalizing n with
  | nil => rfl
  | cons c p ih => exact ih _

theorem magnitude_digitChar (n : Nat) {d : Nat} (h : d < 10) :
    magnitude 10 n [byte d.digitChar] = 10 * n + d := by
  simp [magnitude, byte_digitChar_ne h, digitOf_digitChar h]

theorem magnitude_digits (n : Nat) : magnitude 10 0 (digits n) = n := by
  induction n using Nat.strongRecOn with | ind n ih =>
rw [digits_eq]
split
· rename_i hlt
  rw [magnitude_digitChar 0 hlt]
  omega
· rw [magnitude_append, ih (n / 10) (by omega), magnitude_digitChar _ (by omega)]; omega

/-- The bytes that `'0' .. '9'` matches. -/
def isDigit (c : UInt8) : Bool := byte '0' ≤ c && c ≤ byte '9'

theorem digits_ne_nil (n : Nat) : digits n ≠ [] := by
  rw [digits_eq]
  split <;> simp

theorem digitChar_isDigit {d : Nat} (h : d < 10) : isDigit (byte d.digitChar) = true := by
  interval_cases d <;> decide

theorem digits_isDigit {n : Nat} (hc : c ∈ digits n) : isDigit c = true := by
  induction n using Nat.strongRecOn with | ind n ih =>
rw [digits_eq] at hc
split at hc
· rename_i hlt
  rw [List.mem_singleton.1 hc]
  exact digitChar_isDigit hlt
rcases List.mem_append.1 hc with hc | hc
· exact ih (n / 10) (by omega) hc
· rw [List.mem_singleton.1 hc]; exact digitChar_isDigit (by omega)

theorem digitOf_of_isDigit (h : isDigit c = true) : (digitOf 10 c).isSome = true := by
  simp only [isDigit, Bool.and_eq_true, decide_eq_true_eq] at h
  have hle : c.toNat ≤ 57 := UInt8.le_iff_toNat_le.1 h.2
  simp only [digitOf, parseDigit, if_pos h, Option.isSome_filter, Option.any_some,
    decide_eq_true_eq]
  show c.toNat - 48 < 10
  omega

/-- A decimal numeral, as a literal. -/
theorem exists_decimal (negative : Bool) (n : Nat) :
    ∃ l : Literal, l.letter = .absent ∧ l.sign = (if negative then .minus else .absent) ∧
      l.magnitude = n ∧ l.bytes = (if negative then [byte '-'] else []) ++ digits n := by
  obtain ⟨digit, rest, hdigits⟩ := List.exists_cons_of_ne_nil (digits_ne_nil n)
  have hall : ∀ c ∈ digit :: rest, (digitOf 10 c).isSome = true := fun c hc =>
    digitOf_of_isDigit (digits_isDigit (hdigits ▸ hc))
  refine ⟨⟨if negative then .minus else .absent, .absent, digit, rest, hall digit (by simp), ?_⟩,
    rfl, rfl, ?_, ?_⟩
  · refine List.all_eq_true.2 fun c hc => ?_
    rw [isDigitOrUnderscore, Bool.or_eq_true]
    exact .inr (hall c (List.mem_cons_of_mem _ hc))
  · rw [Literal.magnitude]
    show magnitude 10 0 (digit :: rest) = n
    rw [← hdigits, magnitude_digits]
  · rw [hdigits]; cases negative <;> rfl

theorem intOfStringOpt_digits {n : Nat} (h : n < 2 ^ 62) :
    intOfStringOpt (digits n) = some (ofNat 63 n) := by
  obtain ⟨l, hletter, hsign, hmag, hbytes⟩ := exists_decimal false n
  have hbound : l.bound 63 = 2 ^ 62 - 1 := by
    rw [Literal.bound, hletter, hsign]
    rfl
  have hvalue : l.value = n := by
    rw [Literal.value, hsign, if_neg (by decide), hmag]
  have hparse := parseIntnat_literal l (show 1 ≤ 63 by decide) (by decide)
  have hdigits : l.bytes = digits n := hbytes
  have hle : l.magnitude ≤ l.bound 63 := by omega
  rw [hdigits, if_pos hle, hvalue] at hparse
  rw [intOfStringOpt, hparse, Option.map_some, setWidth_ofInt (by decide), BitVec.ofInt_natCast]

/-- What `%d` prints is read back. -/
theorem intOfStringOpt_formatInt (n : BitVec 63) : intOfStringOpt (formatInt n) = some n := by
  have hlt := BitVec.toInt_lt (x := n)
  have hle := BitVec.le_toInt n
  obtain ⟨l, hletter, hsign, hmag, hbytes⟩ := exists_decimal (n.toInt < 0) n.toInt.natAbs
  have hformat : l.bytes = formatInt n := by
    rw [hbytes, formatInt]
    by_cases h : n.toInt < 0 <;> simp [h]
  have hvalue : l.value = n.toInt := by
    rw [Literal.value, hsign]
    by_cases h : n.toInt < 0
    · simp only [h, decide_true, if_true]; omega
    · simp only [h, decide_false, if_false, reduceCtorEq]; omega
  have hbound : l.magnitude ≤ l.bound 63 := by
    rw [Literal.bound, hletter, hsign]
    by_cases h : n.toInt < 0
    · simp only [h, decide_true, if_true]; omega
    · simp only [h, decide_false, Bool.false_eq_true, if_false]; omega
  rw [intOfStringOpt, ← hformat, parseIntnat_literal l (by decide) (by decide), if_pos hbound,
    Option.map_some, setWidth_ofInt (by decide), hvalue, BitVec.ofInt_toInt]

end Oxcaml.Runtime.Ints
