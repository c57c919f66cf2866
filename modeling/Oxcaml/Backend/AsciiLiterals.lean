/-
Oxcaml.Backend.AsciiLiterals — the string literals of
`backend/asm_targets/asm_directives.ml`.

A `string` is the list of its bytes. The loop over the chunks takes fuel, since it does not
end when the chunks are empty. `readGas` (§2) is not in the source: it is what GAS makes of
the text.
-/
import Oxcaml.Lib.Fuel

set_option linter.all false

namespace Oxcaml.Backend.AsciiLiterals

open Oxcaml.Lib

abbrev Str := List UInt8

inductive Exn
  | outOfFuel
  /-- `range %d..<%d goes beyond the string %S of length %d`. -/
  | substringTooLong (k last : ℕ) (s : Str) (length : ℕ)

/-! ## §1 Printing -/

def between (x low high : UInt8) : Bool := decide (low ≤ x) && decide (x ≤ high)

def digit (n : ℕ) : UInt8 := .ofNat (48 + n)

/-- `%o`, of a byte. -/
def octal (n : ℕ) : Str :=
  if n < 8 then [digit n]
  else if n < 64 then [digit (n / 8), digit (n % 8)]
  else [digit (n / 64), digit (n / 8 % 8), digit (n % 8)]

/-- The text of one character, and the next `last_was_escape`. -/
def literalChar (lastWasEscape : Bool) (c : UInt8) : Str × Bool :=
  if between c 48 57 then
    if lastWasEscape then (92 :: octal c.toNat, lastWasEscape) else ([c], lastWasEscape)
  else if between c 32 126 && c != 34 && c != 92 then ([c], false)
  else (92 :: octal c.toNat, true)

def literalLoop : Bool → Str → Str
  | _, [] => []
  | lastWasEscape, c :: cs =>
    (literalChar lastWasEscape c).1 ++ literalLoop (literalChar lastWasEscape c).2 cs

attribute [local grind =] literalLoop

def stringOfSubstringLiteral (start length : ℕ) (s : Str) : Except Exn Str :=
  if start + length > s.length then
    .error (.substringTooLong start (start + length) s s.length)
  else .ok (literalLoop false ((s.drop start).take length))

/-- `\t.ascii\t"`. -/
def asciiHeader : Str := [9, 46, 97, 115, 99, 105, 105, 9, 34]

def asciiLine (literal : Str) : Str := asciiHeader ++ literal ++ [34]

def printLoop (chunkSize : ℕ) (s : Str) : ℕ → ℕ → Str → Except Exn Str
  | 0, _, _ => .error .outOfFuel
  | fuel + 1, i, buf =>
    if s.length - i > chunkSize then do
      let literal ← stringOfSubstringLiteral i chunkSize s
      printLoop chunkSize s fuel (i + chunkSize) (buf ++ asciiLine literal ++ [10])
    else do
      let literal ← stringOfSubstringLiteral i (s.length - i) s
      pure (buf ++ asciiLine literal)

def printAsciiStringGas (fuel chunkSize : ℕ) (s : Str) : Except Exn Str :=
  if s.length = 0 then pure [] else printLoop chunkSize s fuel 0 []

/-! ## §2 Reading -/

def isOctal (c : UInt8) : Bool := between c 48 55

def octalValue (digits : Str) : ℕ := digits.foldl (fun v d => 8 * v + (d.toNat - 48)) 0

/-- A backslash and the one to three octal digits after it are a byte. -/
def decode : Str → Str
  | [] => []
  | c :: cs =>
    let digits := (cs.take 3).takeWhile isOctal
    if c = 92 ∧ digits ≠ [] then .ofNat (octalValue digits) :: decode (cs.drop digits.length)
    else c :: decode cs
termination_by s => s.length
decreasing_by all_goals simp only [List.length_drop, List.length_cons]; omega

/-- A literal ends at its first quote. -/
def readLine (line : Str) : Option Str :=
  let body := (line.drop asciiHeader.length).takeWhile (· != 34)
  if line = asciiLine body then some (decode body) else none

def readGas (text : Str) : Option Str :=
  if text = [] then some [] else ((text.splitOn 10).mapM readLine).map List.flatten

/-- Printable characters, with quotes and backslashes in escapes only. -/
inductive Clean : Str → Prop
  | nil : Clean []
  | char {c : UInt8} {cs : Str} : 32 ≤ c → c ≤ 126 → c ≠ 34 → c ≠ 92 → Clean cs → Clean (c :: cs)
  | escape {ds cs : Str} : ds ≠ [] → (∀ d ∈ ds, isOctal d = true) → Clean cs →
    Clean (92 :: ds ++ cs)

/-! ## §3 One literal -/

variable {c : UInt8} {cs ds rest : Str} {lastWasEscape : Bool}

theorem between_iff {x low high : UInt8} : between x low high = true ↔ low ≤ x ∧ x ≤ high := by
  simp [between]

theorem toNat_digit {d : ℕ} (hd : d < 8) : (digit d).toNat = 48 + d := by
  simp only [digit, UInt8.toNat_ofNat']
  omega

/-- `%o` writes one to three octal digits, whose value is the byte. -/
theorem octal_digits (c : UInt8) : (∀ d ∈ octal c.toNat, isOctal d = true) ∧
    octal c.toNat ≠ [] ∧ (octal c.toNat).length ≤ 3 ∧ octalValue (octal c.toNat) = c.toNat := by
  have hc := c.toNat_lt
  have hdigits : ∃ ds : List ℕ, octal c.toNat = ds.map digit ∧ (∀ d ∈ ds, d < 8) ∧ ds ≠ [] ∧
      ds.length ≤ 3 ∧ ds.foldl (fun v d => 8 * v + d) 0 = c.toNat := by
    unfold octal
    split_ifs with h1 h2
    · exact ⟨[c.toNat], rfl, by simp [h1], by simp, by simp, by simp⟩
    · refine ⟨[c.toNat / 8, c.toNat % 8], rfl, ?_, by simp, by simp, ?_⟩
      · simp only [List.forall_mem_cons]
        exact ⟨by omega, by omega, by simp⟩
      · simp only [List.foldl_cons, List.foldl_nil]
        omega
    refine ⟨[c.toNat / 64, c.toNat / 8 % 8, c.toNat % 8], rfl, ?_, by simp, by simp, ?_⟩
    · simp only [List.forall_mem_cons]
      exact ⟨by omega, by omega, by omega, by simp⟩
    · simp only [List.foldl_cons, List.foldl_nil]
      omega
  obtain ⟨ds, hds, hlt, hne, hlen, hvalue⟩ := hdigits
  rw [hds]
  refine ⟨?_, by simpa using hne, by simpa using hlen, ?_⟩
  · rw [List.forall_mem_map]
    intro d hd
    have := hlt d hd
    rw [isOctal, between_iff, UInt8.le_iff_toNat_le, UInt8.le_iff_toNat_le, toNat_digit this]
    exact ⟨Nat.le_add_right 48 d, by simp only [UInt8.reduceToNat]; omega⟩
  rw [← hvalue, octalValue, List.foldl_map]
  refine List.foldl_ext _ _ _ fun v d hd => ?_
  rw [toNat_digit (hlt d hd), Nat.add_sub_cancel_left]

theorem ne_of_digit (h : between c 48 57 = true) : c ≠ 92 ∧ c ≠ 34 := by
  constructor <;> rintro rfl <;> exact absurd h (by decide)

/-- The text does not go on with an octal digit. -/
def NoDigit (text : Str) : Prop := ∀ d ∈ text.head?, isOctal d = false

theorem decode_cons (h : c ≠ 92) : decode (c :: cs) = c :: decode cs := by
  rw [decode, if_neg fun h' => h h'.1]

theorem decode_escape (hrest : NoDigit rest) :
    decode (92 :: octal c.toNat ++ rest) = c :: decode rest := by
  obtain ⟨hoct, hne, hlen, hvalue⟩ := octal_digits c
  have htake : ((octal c.toNat ++ rest).take 3).takeWhile isOctal = octal c.toNat := by
    rw [List.take_append, List.take_of_length_le hlen, List.takeWhile_append_of_pos hoct]
    cases rest with
    | nil => simp
    | cons d rest =>
      cases 3 - (octal c.toNat).length with
      | zero => simp
      | succ k => simp [hrest d (by simp)]
  rw [List.cons_append, decode]
  simp [htake, hne, hvalue]

theorem literalLoop_true_noDigit (cs : Str) : NoDigit (literalLoop true cs) := by
  cases cs with
  | nil => simp [NoDigit, literalLoop]
  | cons c cs =>
    intro d hd
    have hslash : isOctal 92 = false := by decide
    simp only [literalLoop, literalChar] at hd
    split_ifs at hd with h1 h2
    · simp only [List.cons_append, List.head?_cons, Option.mem_some_iff] at hd
      exact hd ▸ hslash
    · simp only [List.cons_append, List.head?_cons, Option.mem_some_iff] at hd
      rw [← hd, ← Bool.not_eq_true, isOctal, between_iff]
      rw [between_iff] at h1
      exact fun h => h1 ⟨h.1, UInt8.le_trans h.2 (by decide)⟩
    · simp only [List.cons_append, List.head?_cons, Option.mem_some_iff] at hd
      exact hd ▸ hslash

/-- Reading what is printed. -/
theorem decode_literalLoop (cs : Str) : ∀ b, decode (literalLoop b cs) = cs := by
  induction cs with
  | nil => intro b; rw [literalLoop, decode]
  | cons c cs ih =>
    intro b
    have hescape : decode (92 :: octal c.toNat ++ literalLoop true cs) = c :: cs := by
      rw [decode_escape (literalLoop_true_noDigit cs), ih]
    simp only [literalLoop, literalChar]
    split_ifs with h1 h2 h3
    · rwa [h2]
    · rw [List.singleton_append, decode_cons (ne_of_digit h1).1, ih]
    · simp only [Bool.and_eq_true, bne_iff_ne] at h3
      rw [List.singleton_append, decode_cons h3.2, ih]
    · exact hescape

theorem literalLoop_clean (cs : Str) : ∀ b, Clean (literalLoop b cs) := by
  induction cs with
  | nil => exact fun _ => .nil
  | cons c cs ih =>
    intro b
    obtain ⟨hoct, hne, -, -⟩ := octal_digits c
    simp only [literalLoop, literalChar]
    split_ifs with h1 h2 h3
    · exact .escape hne hoct (ih _)
    · obtain ⟨hlow, hhigh⟩ := between_iff.1 h1
      exact .char (UInt8.le_trans (by decide) hlow) (UInt8.le_trans hhigh (by decide))
        (ne_of_digit h1).2 (ne_of_digit h1).1 (ih _)
    · simp only [Bool.and_eq_true, bne_iff_ne, between_iff] at h3
      exact .char h3.1.1.1 h3.1.1.2 h3.1.2 h3.2 (ih _)
    · exact .escape hne hoct (ih _)

theorem Clean.plain {literal : Str} (h : Clean literal) :
    ∀ c ∈ literal, (c != 34) = true ∧ c ≠ 10 := by
  induction h with
  | nil => simp
  | @char c cs hlow _ hquote _ _ ih =>
    rw [List.forall_mem_cons]
    refine ⟨⟨bne_iff_ne.2 hquote, ?_⟩, ih⟩
    rintro rfl
    exact absurd hlow (by decide)
  | @escape ds cs _ hds _ ih =>
    rw [List.cons_append, List.forall_mem_cons, List.forall_mem_append]
    refine ⟨⟨rfl, by decide⟩, fun d hd => ⟨?_, ?_⟩, ih⟩
    · rw [bne_iff_ne]
      rintro rfl
      exact absurd (hds _ hd) (by decide)
    · rintro rfl
      exact absurd (hds _ hd) (by decide)

/-! ## §4 The chunks -/

theorem readLine_asciiLine {literal : Str} (h : Clean literal) :
    readLine (asciiLine literal) = some (decode literal) := by
  have htake : ((asciiLine literal).drop asciiHeader.length).takeWhile (· != 34) = literal := by
    rw [asciiLine, List.append_assoc, List.drop_left,
      List.takeWhile_append_of_pos fun c hc => (h.plain c hc).1]
    simp
  simp [readLine, htake]

/-- The lines of clean literals read as what the literals stand for. -/
theorem readGas_lines {literals : List Str} (hne : literals ≠ []) (h : ∀ l ∈ literals, Clean l) :
    readGas ([10].intercalate (literals.map asciiLine)) = some (literals.map decode).flatten := by
  have hread : (literals.map asciiLine).mapM readLine = some (literals.map decode) := by
    clear hne
    induction literals with
    | nil => rfl
    | cons l ls ih =>
      rw [List.forall_mem_cons] at h
      rw [List.map_cons, List.mapM_cons, readLine_asciiLine h.1, ih h.2]
      rfl
  have hnl : ∀ line ∈ literals.map asciiLine, (10 : UInt8) ∉ line := by
    rw [List.forall_mem_map]
    intro l hl hmem
    rcases List.mem_append.1 hmem with hmem | hmem
    · rcases List.mem_append.1 hmem with hmem | hmem
      · exact absurd hmem (by decide)
      · exact ((h l hl).plain 10 hmem).2 rfl
    · exact absurd hmem (by decide)
  have htext : [10].intercalate (literals.map asciiLine) ≠ [] := by
    obtain ⟨l, ls, rfl⟩ := List.exists_cons_of_ne_nil hne
    cases ls <;> simp [asciiLine, asciiHeader]
  rw [readGas, if_neg htext, List.splitOn_intercalate 10 hnl (by simpa using hne), hread]
  rfl

theorem stringOfSubstringLiteral_ok {start length : ℕ} {s : Str} (h : start + length ≤ s.length) :
    stringOfSubstringLiteral start length s
      = .ok (literalLoop false ((s.drop start).take length)) :=
  if_neg (by omega)

/-- What is printed from position `i` on: literals of the rest of the string. -/
theorem printLoop_lines {chunkSize : ℕ} {s : Str} (hchunk : 0 < chunkSize) (k : ℕ) :
    ∀ i buf, k = s.length - i → i ≤ s.length → Halts (fun fuel => printLoop chunkSize s fuel i buf)
      fun text => ∃ literals, literals ≠ [] ∧ (∀ l ∈ literals, Clean l) ∧
        text = buf ++ [10].intercalate (literals.map asciiLine) ∧
        (literals.map decode).flatten = s.drop i := by
  induction k using Nat.strong_induction_on with | _ k ih =>
intro i buf hk hi
refine .of_succ ?_
simp only [printLoop]
by_cases hmore : s.length - i > chunkSize
· simp only [if_pos hmore, stringOfSubstringLiteral_ok (show i + chunkSize ≤ s.length by omega)]
  refine (ih _ (by omega) (i + chunkSize) _ rfl (by omega)).mono ?_
  rintro text ⟨literals, hne, hclean, rfl, hdecode⟩
  refine ⟨literalLoop false ((s.drop i).take chunkSize) :: literals, by simp, ?_, ?_, ?_⟩
  · exact List.forall_mem_cons.2 ⟨literalLoop_clean _ _, hclean⟩
  · obtain ⟨l, ls, rfl⟩ := List.exists_cons_of_ne_nil hne
    simp [List.intercalate]
  · rw [List.map_cons, List.flatten_cons, decode_literalLoop, hdecode, ← List.drop_drop,
      List.take_append_drop]
simp only [if_neg hmore, stringOfSubstringLiteral_ok (show i + (s.length - i) ≤ s.length by omega)]
refine .pure ⟨[literalLoop false (s.drop i)], by simp, ?_, ?_, ?_⟩
· simpa using literalLoop_clean _ _
· rw [List.take_of_length_le (by simp)]
  simp [List.intercalate]
· simp [decode_literalLoop]

/-- The text that is printed reads back as the string, and its literals are clean. -/
theorem printAsciiStringGas_reads (s : Str) {chunkSize : ℕ} (hchunk : 0 < chunkSize) :
    Halts (fun fuel => printAsciiStringGas fuel chunkSize s) fun text =>
      readGas text = some s ∧ ∃ literals : List Str, (∀ l ∈ literals, Clean l) ∧
        text = [10].intercalate (literals.map asciiLine) := by
  rcases eq_or_ne s [] with rfl | hs
  · exact .pure ⟨rfl, [], by simp, rfl⟩
  simp only [printAsciiStringGas, if_neg (show s.length ≠ 0 by simpa using hs)]
  refine (printLoop_lines hchunk _ 0 [] rfl (by omega)).mono ?_
  rintro _ ⟨literals, hne, hclean, rfl, hdecode⟩
  refine ⟨?_, literals, hclean, rfl⟩
  rw [List.nil_append, readGas_lines hne hclean, hdecode, List.drop_zero]

/-- `"\t1"` in chunks of one. -/
theorem printAsciiStringGas_reads_tab : Halts (fun fuel => printAsciiStringGas fuel 1 [9, 49])
    fun text => readGas text = some [9, 49] ∧ ∃ literals : List Str, (∀ l ∈ literals, Clean l) ∧
      text = [10].intercalate (literals.map asciiLine) :=
  printAsciiStringGas_reads [9, 49] (by decide)

end Oxcaml.Backend.AsciiLiterals
