/-
Oxcaml.Utils.StructuredMangling — `utils/structured_mangling.ml`.

A path of named and anonymous items becomes a symbol over `[0-9A-Za-z_]`, and
`Parse.parse` reads it back. Strings are lists of bytes and buffers are the
bytes added so far. A compilation unit contributes its linkage name, which
`Compilation_unit.mangle_for_linkage_name` computes: it is a parameter.

Lengths that are written by the encoder are natural numbers. The parser reads
numbers into 63-bit integers, which can wrap on symbols that no encoder writes,
so its arithmetic is on words; `String.sub` and `Buffer.add_substring` then
raise `Invalid_argument`.
-/
import Mathlib
import Oxcaml.Runtime.Ints

set_option linter.all false

namespace Oxcaml.Utils.StructuredMangling

open Runtime.Ints

abbrev OcamlInt := BitVec 63

/-- `Sys.max_string_length`: no string or buffer is longer. -/
def maxStringLength : Nat := 2 ^ 57 - 9

/-- The bytes of a string constant. -/
def literal (s : String) : Bytes := s.toList.map byte

/-- The pattern `lo .. hi`. -/
def inRange (lo hi : Char) (c : UInt8) : Bool := byte lo ≤ c && c ≤ byte hi

/-! ## §1 Identifier encoding -/

def isOutChar (c : UInt8) : Bool :=
  inRange '0' '9' c || inRange 'A' 'Z' c || inRange 'a' 'z' c || c == byte '_'

/-- A digit of `base26`, with `A` standing for 0. -/
def upper (r : Nat) : UInt8 := UInt8.ofNat ((byte 'A').toNat + r)

def base26 (n : Nat) : Bytes :=
  let r := n % 26
  let q := n / 26
  if 0 < q then base26 q ++ [upper r] else [upper r]
termination_by n

/-- A digit of `hex`. -/
def hexChar (d : Nat) : UInt8 :=
  if d < 10 then UInt8.ofNat ((byte '0').toNat + d) else UInt8.ofNat ((byte 'a').toNat + (d - 10))

def hex (c : UInt8) : Bytes := [hexChar (c.toNat / 16), hexChar (c.toNat % 16)]

inductive EncodeState
  | raw
  | esc
  deriving DecidableEq

def requireEscaping : Bytes → Bool
  | [] => false
  | c :: str => inRange '0' '9' c || !(c :: str).all isOutChar

/-- The buffers `raw` and `escaped`. -/
def encodeSplitParts : Bytes → EncodeState → Nat → Bytes × Bytes → Bytes × Bytes
  | [], _, _, bufs => bufs
  | c :: str, .raw, insPos, (raw, escaped) =>
    if isOutChar c then encodeSplitParts str .raw (insPos + 1) (raw ++ [c], escaped)
    else encodeSplitParts str .esc insPos (raw, escaped ++ base26 insPos ++ hex c)
  | c :: str, .esc, insPos, (raw, escaped) =>
    if isOutChar c then encodeSplitParts str .raw 1 (raw ++ [c], escaped)
    else encodeSplitParts str .esc insPos (raw, escaped ++ hex c)

def encode (str : Bytes) : Bytes :=
  if !requireEscaping str then digits str.length ++ str
  else
    let (raw, escaped) := encodeSplitParts str .raw 0 ([], [])
    byte 'u' :: digits (escaped.length + raw.length + 1) ++ escaped ++ byte '_' :: raw

/-! ## §2 Path mangling -/

def ocamlPrefix : Bytes := literal "_Caml"

inductive PathItem (cu : Type)
  | compilationUnit (cu : cu)
  | inlineMarker
  | module (sym : Bytes)
  | anonymousModule (line col : OcamlInt) (fileOpt : Option Bytes)
  | class (sym : Bytes)
  | function (sym : Bytes)
  | anonymousFunction (line col : OcamlInt) (fileOpt : Option Bytes)
  | partialFunction (line col : OcamlInt) (fileOpt : Option Bytes)
  deriving DecidableEq

section

variable {cu : Type} (linkageName : cu → Bytes)

def tagPrefixed (tag : Char) (sym : Bytes) : Bytes := byte tag :: encode sym

/-- The text `file_line_col`. -/
def location (line col : OcamlInt) (fileOpt : Option Bytes) : Bytes :=
  fileOpt.getD [] ++ byte '_' :: formatInt line ++ byte '_' :: formatInt col

def manglePathItem : PathItem cu → Bytes
  | .compilationUnit cu => tagPrefixed 'U' (linkageName cu)
  | .inlineMarker => [byte 'I']
  | .module sym => tagPrefixed 'M' sym
  | .anonymousModule line col fileOpt => tagPrefixed 'S' (location line col fileOpt)
  | .class sym => tagPrefixed 'O' sym
  | .function sym => tagPrefixed 'F' sym
  | .anonymousFunction line col fileOpt => tagPrefixed 'L' (location line col fileOpt)
  | .partialFunction line col fileOpt => tagPrefixed 'P' (location line col fileOpt)

def manglePath (path : List (PathItem cu)) : Bytes := path.flatMap (manglePathItem linkageName)

/-- The path with its own compilation unit first, and a marker where the code comes from
another one. -/
def identPath [DecidableEq cu] (unit : cu) (path : List (PathItem cu)) : List (PathItem cu) :=
  .compilationUnit unit ::
    match path with
    | .compilationUnit unit' :: path' =>
      if unit = unit' then path' else .inlineMarker :: path
    | _ => path

def mangleIdent [DecidableEq cu] (unit : cu) (path : List (PathItem cu)) : Bytes :=
  ocamlPrefix ++ manglePath linkageName (identPath unit path)

end

/-! ## §3 Parsing -/

namespace Parse

inductive Exn
  | invalidArgument

def unbase26Digits (n : OcamlInt) : Bytes → Except Exn (OcamlInt × Nat)
  | [] => .error .invalidArgument
  | c :: str =>
    if inRange 'A' 'Z' c then
      match unbase26Digits (n * 26 + BitVec.ofNat 63 (c.toNat - (byte 'A').toNat)) str with
      | .ok (n, l) => .ok (n, l + 1)
      | .error e => .error e
    else .ok (n, 0)

def unbase26 (str : Bytes) : Except Exn (Option (OcamlInt × Nat)) :=
  match str with
  | [] => .error .invalidArgument
  | c :: _ =>
    if c = byte '_' then .ok none
    else if inRange 'A' 'Z' c then (unbase26Digits 0 str).map some
    else .error .invalidArgument

/-- The local `value` of `unhex`. -/
def hexValue (c : UInt8) : Option Nat :=
  if inRange '0' '9' c then some (c.toNat - (byte '0').toNat)
  else if inRange 'a' 'f' c then some (c.toNat - (byte 'a').toNat + 10)
  else none

def unhexes : Bytes → Except Exn (Bytes × Nat)
  | [] => .error .invalidArgument
  | [c] =>
    if (hexValue c).isSome then .error .invalidArgument else .ok ([], 0)
  | c1 :: c2 :: str =>
    match hexValue c1 with
    | none => .ok ([], 0)
    | some v1 =>
      match hexValue c2 with
      | none => .error .invalidArgument
      | some v2 =>
        match unhexes str with
        | .ok (bytes, n) => .ok (UInt8.ofNat (v1 * 16 + v2) :: bytes, n + 2)
        | .error e => .error e

def undecimal (str : Bytes) : Option (OcamlInt × Nat) :=
  let len := (str.takeWhile (inRange '0' '9')).length
  if len = 0 then none else (intOfStringOpt (str.take len)).map fun n => (n, len)

theorem unbase26_length {str : Bytes} {nb : OcamlInt} {l : Nat}
    (h : unbase26 str = .ok (some (nb, l))) : 0 < l ∧ str ≠ [] := by
  unfold unbase26 at h
  split at h
  · cases h
  split at h
  · cases h
  split at h
  · rename_i hupper
    refine ⟨?_, List.cons_ne_nil _ _⟩
    rw [unbase26Digits, if_pos hupper] at h
    split at h
    · cases h; exact Nat.succ_pos _
    · cases h
  · cases h

/-- The local `loop` of `decode_split_parts`. -/
def decodeLoop (sym : Bytes) (escaped : Bytes) (rawPos : Nat) (res : Bytes) :
    Except Exn (Option Bytes) :=
  match _h : unbase26 escaped with
  | .error _ => .ok none
  | .ok none => .ok (some (res ++ sym.drop rawPos))
  | .ok (some (nb, l)) =>
    if (sym.length : Int) < (BitVec.ofNat 63 rawPos + nb).toInt then .ok none
    else if 0 < nb.toInt ∧ sym.length < rawPos + nb.toNat then .error .invalidArgument
    else
      let len := if 0 < nb.toInt then nb.toNat else 0
      match unhexes (escaped.drop l) with
      | .error _ => .ok none
      | .ok (bytes, n) =>
        decodeLoop sym (escaped.drop (l + n)) (rawPos + len)
          (res ++ (sym.drop rawPos).take len ++ bytes)
termination_by escaped.length
decreasing_by
  obtain ⟨hl, hne⟩ := unbase26_length _h
  have := List.length_pos_of_ne_nil hne
  simp only [List.length_drop]
  omega

def decodeSplitParts (sym : Bytes) : Except Exn (Option Bytes) :=
  match sym.idxOf? (byte '_') with
  | none => .ok none
  | some i => decodeLoop sym sym (i + 1) []

/-- The identifier at `pos` and the number of bytes consumed. -/
def decode (str : Bytes) (pos : Nat) : Except Exn (Option (Bytes × Nat)) :=
  let isEscaped := (str.drop pos).head? == some (byte 'u')
  let flagLen := if isEscaped then 1 else 0
  match undecimal (str.drop (pos + flagLen)) with
  | none => .ok none
  | some (payloadLen, lengthLen) =>
    let fullLen := BitVec.ofNat 63 (flagLen + lengthLen) + payloadLen
    if payloadLen.toInt ≤ 0 ∨ (str.length : Int) < (BitVec.ofNat 63 pos + fullLen).toInt then
      .ok none
    else if str.length < pos + flagLen + lengthLen + payloadLen.toNat then
      .error .invalidArgument
    else
      let payload := (str.drop (pos + flagLen + lengthLen)).take payloadLen.toNat
      let fullLen := flagLen + lengthLen + payloadLen.toNat
      if isEscaped then
        match decodeSplitParts payload with
        | .ok p => .ok (p.map fun p => (p, fullLen))
        | .error e => .error e
      else .ok (some (payload, fullLen))

/-- The bytes before and after the last underscore. -/
def rsplit : Bytes → Option (Bytes × Bytes)
  | [] => none
  | c :: loc =>
    match rsplit loc with
    | some (before, after) => some (c :: before, after)
    | none => if c = byte '_' then some ([], loc) else none

def parseLocation (loc : Bytes) : Option (OcamlInt × OcamlInt × Option Bytes) := do
  let (before, colStr) ← rsplit loc
  let (file, lineStr) ← rsplit before
  let line ← intOfStringOpt lineStr
  let col ← intOfStringOpt colStr
  pure (line, col, if file = [] then none else some file)

def alternatePrefix : Bytes := byte '_' :: ocamlPrefix

def matchedPrefixLen (sym : Bytes) : Option Nat :=
  if ocamlPrefix.isPrefixOf sym then some ocamlPrefix.length
  else if alternatePrefix.isPrefixOf sym then some alternatePrefix.length
  else none

def parseLoc (sym : Bytes) (pos : Nat)
    (tagConstructor : OcamlInt → OcamlInt → Option Bytes → PathItem Bytes) :
    Except Exn (Option (PathItem Bytes × Nat)) :=
  match decode sym pos with
  | .error e => .error e
  | .ok none => .ok none
  | .ok (some (decoded, l)) =>
    .ok ((parseLocation decoded).map fun (line, col, fileOpt) =>
      (tagConstructor line col fileOpt, l))

def parseNamed (sym : Bytes) (pos : Nat) (tagConstructor : Bytes → PathItem Bytes) :
    Except Exn (Option (PathItem Bytes × Nat)) :=
  match decode sym pos with
  | .error e => .error e
  | .ok decoded => .ok (decoded.map fun (decoded, l) => (tagConstructor decoded, l))

/-- The item whose tag is at `pos`, and the length of its encoding. `none` is a byte
that is no tag. -/
def parseItem (sym : Bytes) (pos : Nat) (tag : UInt8) :
    Option (Except Exn (Option (PathItem Bytes × Nat))) :=
  if tag = byte 'U' then some (parseNamed sym (pos + 1) .compilationUnit)
  else if tag = byte 'M' then some (parseNamed sym (pos + 1) .module)
  else if tag = byte 'O' then some (parseNamed sym (pos + 1) .class)
  else if tag = byte 'F' then some (parseNamed sym (pos + 1) .function)
  else if tag = byte 'L' then some (parseLoc sym (pos + 1) .anonymousFunction)
  else if tag = byte 'S' then some (parseLoc sym (pos + 1) .anonymousModule)
  else if tag = byte 'P' then some (parseLoc sym (pos + 1) .partialFunction)
  else if tag = byte 'I' then some (.ok (some (.inlineMarker, 0)))
  else none

/-- The local `loop` of `parse`; `path` is in reverse. -/
def parseLoop (sym : Bytes) (startPos : Nat) (path : List (PathItem Bytes)) (pos : Nat) :
    Except Exn (Option (List (PathItem Bytes) × Bytes)) :=
  let buildResult := if pos = startPos then none else some (path.reverse, sym.drop pos)
  if h : pos < sym.length then
    let tag := sym[pos]
    match parseItem sym pos tag with
    | some (.error e) => .error e
    | some (.ok none) => .ok none
    | some (.ok (some (item, l))) => parseLoop sym startPos (item :: path) (pos + 1 + l)
    | none => .ok (if tag = byte '_' then buildResult else none)
  else .ok buildResult
termination_by sym.length - pos

def parse (sym : Bytes) : Except Exn (Option (List (PathItem Bytes) × Bytes)) :=
  match matchedPrefixLen sym with
  | none => .ok none
  | some startPos => parseLoop sym startPos [] startPos

end Parse

end Oxcaml.Utils.StructuredMangling
