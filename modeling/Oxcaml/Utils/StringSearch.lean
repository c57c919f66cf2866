/-
Oxcaml.Utils.StringSearch — the string search helpers of `utils/misc.ml`.

A `string` is the list of its bytes. `helper` of `begins_with` counts down to `-1` in the
source and to `0` here, and that of `split_on_string` takes fuel, since it loops on an empty
separator. `begins_with` and `split_on_string` are exact (§2, §3); `is_substring` misses the
occurrence that ends the string (§4).
-/
import Oxcaml.Lib.Fuel

set_option linter.all false

namespace Oxcaml.Utils.StringSearch

open Oxcaml.Lib

abbrev Str := List UInt8

inductive Exn
  | outOfFuel

/-! ## §1 The helpers -/

def sub (s : Str) (pos len : ℕ) : Str := (s.drop pos).take len

/-- `helper` of `begins_with`, at the index below `idx`. -/
def beginsWithHelper (str pre : Str) (start : ℕ) : ℕ → Bool
  | 0 => true
  | idx + 1 => str[start + idx]? == pre[idx]? && beginsWithHelper str pre start idx

def beginsWith (start : ℕ) (str pre : Str) : Bool :=
  let n := str.length
  let m := pre.length
  if n ≥ start + m then beginsWithHelper str pre start m else false

/-- `helper` of `split_on_string`. -/
def splitOnStringHelper (str splitOn : Str) : ℕ → List Str → ℕ → ℕ → Except Exn (List Str)
  | 0, _, _, _ => .error .outOfFuel
  | fuel + 1, acc, lastIdx, idx =>
    if idx = str.length then .ok (sub str lastIdx (idx - lastIdx) :: acc).reverse
    else if beginsWith idx str splitOn then
      splitOnStringHelper str splitOn fuel (sub str lastIdx (idx - lastIdx) :: acc)
        (idx + splitOn.length) (idx + splitOn.length)
    else splitOnStringHelper str splitOn fuel acc lastIdx (idx + 1)

def splitOnString (fuel : ℕ) (str splitOn : Str) : Except Exn (List Str) :=
  splitOnStringHelper str splitOn fuel [] 0 0

def isSubstring (string substring : Str) : Bool :=
  let len := substring.length
  ((List.range string.length).filterMap fun i =>
    if i + len < string.length then some (sub string i len) else none).any (substring == ·)

variable {s t : Str} {i : ℕ}

/-! ## §2 Occurrences -/

/-- `t` occurs in `s` at offset `i`. -/
def OccursAt (t s : Str) (i : ℕ) : Prop := ∃ a b, s = a ++ t ++ b ∧ a.length = i

theorem occursAt_iff_drop (hi : i ≤ s.length) : OccursAt t s i ↔ t <+: s.drop i := by
  constructor
  · rintro ⟨a, b, rfl, rfl⟩
    simp
  rintro ⟨b, hb⟩
  refine ⟨s.take i, b, ?_, by simp [hi]⟩
  rw [List.append_assoc, hb, List.take_append_drop]

theorem occursAt_drop {k : ℕ} (h : OccursAt t (s.drop k) i) (hk : k ≤ s.length) :
    OccursAt t s (k + i) := by
  obtain ⟨a, b, hs, ha⟩ := h
  refine ⟨s.take k ++ a, b, ?_, by simp [hk, ha]⟩
  rw [List.append_assoc, List.append_assoc, ← List.append_assoc a, ← hs, List.take_append_drop]

theorem beginsWithHelper_iff (m : ℕ) :
    beginsWithHelper s t i m = true ↔ ∀ j < m, s[i + j]? = t[j]? := by
  induction m with
  | zero => simp [beginsWithHelper]
  | succ m ih =>
    rw [beginsWithHelper, Bool.and_eq_true, beq_iff_eq, ih, Nat.forall_lt_succ_right, and_comm]

theorem beginsWith_iff (hi : i ≤ s.length) : beginsWith i s t = true ↔ OccursAt t s i := by
  rw [occursAt_iff_drop hi, List.prefix_iff_getElem?]
  simp only [beginsWith, Bool.if_false_right, Bool.and_eq_true, decide_eq_true_eq,
    beginsWithHelper_iff, List.getElem?_drop]
  constructor
  · rintro ⟨-, h⟩ j hj
    rw [h j hj, List.getElem?_eq_getElem hj]
  intro h
  refine ⟨?_, fun j hj => by rw [h j hj, List.getElem?_eq_getElem hj]⟩
  rcases Nat.eq_zero_or_pos t.length with h0 | h0
  · omega
  · obtain ⟨hlt, -⟩ := List.getElem?_eq_some_iff.1 (h (t.length - 1) (by omega))
    omega

/-! ## §3 Splitting -/

/-- The pieces between the leftmost occurrences of `t` that do not overlap. -/
inductive Cuts (t : Str) : Str → List Str → Prop
  | last {s : Str} : (∀ i, ¬ OccursAt t s i) → Cuts t s [s]
  | cut {p rest : Str} {ps : List Str} : (∀ i < p.length, ¬ OccursAt t (p ++ t ++ rest) i) →
    Cuts t rest ps → Cuts t (p ++ t ++ rest) (p :: ps)

theorem Cuts.ne_nil {ps : List Str} (h : Cuts t s ps) : ps ≠ [] := by
  cases h <;> simp

/-- With the separator between them, the pieces are the string. -/
theorem Cuts.intercalate {ps : List Str} (h : Cuts t s ps) : t.intercalate ps = s := by
  induction h with
  | last _ => simp [List.intercalate]
  | @cut p rest ps _ hps ih =>
    obtain ⟨q, qs, rfl⟩ := List.exists_cons_of_ne_nil hps.ne_nil
    simpa [List.intercalate] using ih

theorem Cuts.no_occurrence {ps : List Str} (h : Cuts t s ps) (ht : t ≠ []) :
    ∀ p ∈ ps, ∀ i, ¬ OccursAt t p i := by
  induction h with
  | last h => simpa using h
  | @cut p rest ps hleft _ ih =>
    rw [List.forall_mem_cons]
    refine ⟨?_, ih⟩
    rintro i ⟨a, b, rfl, rfl⟩
    have hpos := List.length_pos_iff.2 ht
    exact hleft a.length (by simp only [List.length_append]; omega)
      ⟨a, b ++ t ++ rest, by simp, rfl⟩

theorem Cuts.unique {ps : List Str} (h : Cuts t s ps) : ∀ {qs}, Cuts t s qs → qs = ps := by
  induction h with
  | last hno =>
    intro qs hq
    cases hq with
    | last _ => rfl
    | @cut p rest _ _ _ => exact absurd ⟨p, rest, rfl, rfl⟩ (hno p.length)
  | @cut p rest ps hleft _ ih =>
    intro qs hq
    generalize hs : p ++ t ++ rest = s at hq hleft
    cases hq with
    | last hno => exact absurd ⟨p, rest, hs.symm, rfl⟩ (hno p.length)
    | @cut p' rest' ps' hleft' hps' =>
      have hlen : p.length = p'.length := by
        refine Nat.le_antisymm ?_ ?_ <;> refine Nat.le_of_not_lt fun hlt => ?_
        · exact hleft _ hlt ⟨p', rest', rfl, rfl⟩
        · exact hleft' _ hlt ⟨p, rest, hs.symm, rfl⟩
      rw [List.append_assoc, List.append_assoc] at hs
      obtain ⟨rfl, htail⟩ := List.append_inj hs hlen
      obtain rfl := List.append_cancel_left htail
      rw [ih hps']

/-- The loop returns the pieces of what follows `lastIdx`, when `t` occurs nowhere between
`lastIdx` and `idx`. -/
theorem splitOnStringHelper_cuts (ht : t ≠ []) (k : ℕ) : ∀ (acc : List Str) (lastIdx idx : ℕ),
    k = s.length - idx → lastIdx ≤ idx → idx ≤ s.length →
    (∀ j, lastIdx ≤ j → j < idx → ¬ OccursAt t s j) →
    Halts (fun fuel => splitOnStringHelper s t fuel acc lastIdx idx)
      fun r => ∃ ps, r = acc.reverse ++ ps ∧ Cuts t (s.drop lastIdx) ps := by
  have hpos := List.length_pos_iff.2 ht
  induction k using Nat.strong_induction_on with | _ k ih =>
intro acc lastIdx idx hk hle hidx hno
refine .of_succ ?_
simp only [splitOnStringHelper]
by_cases hend : idx = s.length
· simp only [if_pos hend]
  refine .pure ⟨[s.drop lastIdx], ?_, .last ?_⟩
  · rw [List.reverse_cons, sub, List.take_of_length_le (by simp; omega)]
  rintro i hocc
  refine hno (lastIdx + i) (by omega) ?_ (occursAt_drop hocc (by omega))
  obtain ⟨a, b, hs, rfl⟩ := hocc
  have := congrArg List.length hs
  simp only [List.length_drop, List.length_append] at this
  omega
simp only [if_neg hend]
cases hb : beginsWith idx s t with
| false =>
  refine ih _ (by omega) acc lastIdx (idx + 1) rfl (by omega) (by omega) fun j hj hlt => ?_
  rcases Nat.lt_succ_iff_lt_or_eq.1 hlt with hlt | rfl
  · exact hno j hj hlt
  · rw [← beginsWith_iff hidx, hb]
    simp
| true =>
  obtain ⟨rest, hrest⟩ := (occursAt_iff_drop hidx).1 ((beginsWith_iff hidx).1 hb)
  have hlen := congrArg List.length hrest
  simp only [List.length_drop, List.length_append] at hlen
  have hdrop : s.drop (idx + t.length) = rest := by
    rw [← List.drop_drop, ← hrest, List.drop_left]
  have hs : s.drop lastIdx = sub s lastIdx (idx - lastIdx) ++ t ++ rest := by
    rw [List.append_assoc, hrest, sub, ← Nat.add_sub_cancel' hle, ← List.drop_drop,
      Nat.add_sub_cancel_left, List.take_append_drop]
  refine (ih _ (by omega) (sub s lastIdx (idx - lastIdx) :: acc) _ _ rfl le_rfl (by omega)
    fun j hj hlt => by omega).mono ?_
  rintro r ⟨ps, rfl, hps⟩
  refine ⟨sub s lastIdx (idx - lastIdx) :: ps, by simp, ?_⟩
  rw [hs]
  refine .cut (fun i hi hocc => ?_) (hdrop ▸ hps)
  rw [← hs] at hocc
  refine hno (lastIdx + i) (by omega) ?_ (occursAt_drop hocc (by omega))
  have := List.length_take_le (idx - lastIdx) (s.drop lastIdx)
  simp only [sub] at hi
  omega

/-! ## §4 Substrings -/

theorem isSubstring_iff : isSubstring s t = true ↔ ∃ a b, s = a ++ t ++ b ∧ b ≠ [] := by
  simp only [isSubstring, List.any_eq_true, List.mem_filterMap, List.mem_range, beq_iff_eq, sub]
  constructor
  · rintro ⟨x, ⟨i, -, hx⟩, rfl⟩
    by_cases hlt : i + t.length < s.length
    · rw [if_pos hlt, Option.some.injEq] at hx
      obtain ⟨a, b, rfl, rfl⟩ := (occursAt_iff_drop (by omega)).2 (hx ▸ List.take_prefix t.length _)
      refine ⟨a, b, rfl, ?_⟩
      rintro rfl
      simp at hlt
    · simp [if_neg hlt] at hx
  rintro ⟨a, b, rfl, hb⟩
  have hpos := List.length_pos_iff.2 hb
  refine ⟨t, ⟨a.length, ?_, ?_⟩, rfl⟩
  · simp only [List.length_append]
    omega
  · rw [if_pos (by simp only [List.length_append]; omega)]
    simp

/-- What the helpers are for, on `s` and `t`. -/
structure Exact (s t : Str) : Prop where
  substring : isSubstring s t = true ↔ ∃ a b, s = a ++ t ++ b
  begins : ∀ i ≤ s.length, beginsWith i s t = true ↔ OccursAt t s i
  split : t ≠ [] → Halts (fun fuel => splitOnString fuel s t) fun ps =>
    Cuts t s ps ∧ t.intercalate ps = s ∧ (∀ p ∈ ps, ∀ i, ¬ OccursAt t p i) ∧
      ∀ qs, Cuts t s qs → qs = ps

/-- The helpers are exact when `t` is no suffix of `s`, or occurs elsewhere in `s` too. -/
theorem stringSearch_exact_iff (s t : Str) :
    Exact s t ↔ (t <:+ s → ∃ a b, s = a ++ t ++ b ∧ b ≠ []) := by
  constructor
  · rintro h ⟨a, rfl⟩
    exact isSubstring_iff.1 (h.substring.2 ⟨a, [], by simp⟩)
  intro h
  refine ⟨?_, fun i hi => beginsWith_iff hi, fun ht => ?_⟩
  · rw [isSubstring_iff]
    constructor
    · rintro ⟨a, b, hs, -⟩
      exact ⟨a, b, hs⟩
    rintro ⟨a, b, hs⟩
    rcases eq_or_ne b [] with rfl | hb
    · exact h ⟨a, by simp [hs]⟩
    · exact ⟨a, b, hs, hb⟩
  refine (splitOnStringHelper_cuts ht _ [] 0 0 rfl le_rfl (by omega) (by simp)).mono ?_
  rintro _ ⟨ps, rfl, hps⟩
  exact ⟨hps, hps.intercalate, hps.no_occurrence ht, fun _ => hps.unique⟩

/-- `is_substring "ab" ~substring:"b"` is `false`. -/
theorem stringSearch_misses_suffix : ¬ Exact [97, 98] [98] := by
  intro h
  have hfound : isSubstring [97, 98] [98] = true := h.substring.2 ⟨[97], [], rfl⟩
  exact absurd hfound (by decide)

end Oxcaml.Utils.StringSearch
