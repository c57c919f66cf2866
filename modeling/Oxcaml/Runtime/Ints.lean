/-
Oxcaml.Runtime.Ints — conversion of strings to integers in `runtime/ints.c`.

A string is the list of its bytes; a pointer into it is the list of the bytes
that follow. `String_val` ends every string with a zero byte, so reading at the
end gives zero. `caml_failwith` is `none`.
-/
import Mathlib.Data.List.Basic

namespace Oxcaml.Runtime.Ints

open BitVec (ofNat)

abbrev Bytes := List UInt8

abbrev Uintnat := BitVec 64

/-- A character constant of the source. -/
def byte (c : Char) : UInt8 := UInt8.ofNat c.toNat

/-- `*p`. -/
def deref (p : Bytes) : UInt8 := p.headD 0

/-- The out-parameters of `parse_sign_and_base`. -/
structure SignAndBase where
  base : Nat
  signedness : Bool
  /-- `sign < 0`. -/
  negative : Bool
  deriving DecidableEq, Repr

def parseSign (p : Bytes) : Bytes × Bool :=
  if deref p = byte '-' then (p.tail, true)
  else if deref p = byte '+' then (p.tail, false)
  else (p, false)

def parseBase (p : Bytes) : Bytes × Nat × Bool :=
  if deref p = byte '0' then
    let c := deref p.tail
    if c = byte 'x' ∨ c = byte 'X' then (p.drop 2, 16, false)
    else if c = byte 'o' ∨ c = byte 'O' then (p.drop 2, 8, false)
    else if c = byte 'b' ∨ c = byte 'B' then (p.drop 2, 2, false)
    else if c = byte 'u' ∨ c = byte 'U' then (p.drop 2, 10, false)
    else (p, 10, true)
  else (p, 10, true)

def parseSignAndBase (p : Bytes) : Bytes × SignAndBase :=
  let (p, negative) := parseSign p
  let (p, base, signedness) := parseBase p
  (p, { base, signedness, negative })

/-- The source returns -1 for `none`. -/
def parseDigit (c : UInt8) : Option Nat :=
  if byte '0' ≤ c ∧ c ≤ byte '9' then some (c.toNat - (byte '0').toNat)
  else if byte 'A' ≤ c ∧ c ≤ byte 'F' then some (c.toNat - (byte 'A').toNat + 10)
  else if byte 'a' ≤ c ∧ c ≤ byte 'f' then some (c.toNat - (byte 'a').toNat + 10)
  else none

/-- `d = parse_digit(c)`, and not `d < 0 || d >= base`. -/
def digitOf (base : Nat) (c : UInt8) : Option Nat :=
  (parseDigit c).filter (· < base)

/-- The loop of `parse_intnat`. -/
def parseDigits (base : Nat) (threshold : Uintnat) : Bytes → Uintnat → Option (Bytes × Uintnat)
  | [], res => some ([], res)
  | c :: p, res =>
    if c = byte '_' then parseDigits base threshold p res
    else
      match digitOf base c with
      | none => some (c :: p, res)
      | some d =>
        if threshold < res then none
        else
          let res := ofNat 64 base * res + ofNat 64 d
          if res < ofNat 64 d then none else parseDigits base threshold p res

/-- The tests of `parse_intnat` against the width: signed representations allow
`-2^(nbits-1)` to `2^(nbits-1) - 1`, unsigned ones `0` to `2^nbits - 1`. -/
def fits (nbits : Nat) (signAndBase : SignAndBase) (res : Uintnat) : Bool :=
  if signAndBase.signedness then
    if signAndBase.negative then !decide ((1 : Uintnat) <<< (nbits - 1) < res)
    else !decide ((1 : Uintnat) <<< (nbits - 1) ≤ res)
  else !(decide (nbits < 64) && decide ((1 : Uintnat) <<< nbits ≤ res))

def parseIntnat (s : Bytes) (nbits : Nat) : Option Uintnat := do
  let (p, signAndBase) := parseSignAndBase s
  let threshold := (-1 : Uintnat) / ofNat 64 signAndBase.base
  let d ← digitOf signAndBase.base (deref p)
  let (p, res) ← parseDigits signAndBase.base threshold p.tail (ofNat 64 d)
  if p ≠ [] then none
  else if fits nbits signAndBase res then some (if signAndBase.negative then -res else res)
  else none

/-- `int_of_string_opt`: `caml_int_of_string`, where `Failure` is `none`. -/
def intOfStringOpt (s : Bytes) : Option (BitVec 63) :=
  (parseIntnat s 63).map (BitVec.setWidth 63)

/-- The digits of a natural number, in base 10. -/
def digits (n : Nat) : Bytes := (Nat.toDigits 10 n).map byte

/-- The format `%d`. -/
def formatInt (n : BitVec 63) : Bytes :=
  if n.toInt < 0 then byte '-' :: digits n.toInt.natAbs else digits n.toInt.natAbs

end Oxcaml.Runtime.Ints
