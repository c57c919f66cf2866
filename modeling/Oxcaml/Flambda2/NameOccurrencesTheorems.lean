/-
Oxcaml.Flambda2.NameOccurrencesTheorems — what the counters of free names count.

The meaning of a run of additions, unions and downgrades is, for each name, the number of
its occurrences at each mode. Additions and unions keep it. A downgrade to `Phantom`
forgets what is `In_types` and a downgrade to `In_types` forgets what is `Phantom`, and
`max_name_mode_opt` looks at `In_types` before `Phantom`, which is the greater of the two:
the run is counted exactly when no step meets one of these mixtures.
-/
import Oxcaml.Flambda2.NameOccurrences
import Oxcaml.Lib.PackedFields

set_option linter.all false

namespace Oxcaml.Flambda2.NameOccurrences

open Aliases (NameMode)
open Lib (Outcome)
open Lib.PackedFields

/-- A number of occurrences for each mode. -/
abbrev Counts := NameMode → ℕ

/-! ## §1 The packed counters -/

namespace ForOneName

/-- The position of the counter of a mode. -/
def position : NameMode → ℕ
  | .normal => 0
  | .inTypes => 20
  | .phantom => 40

def counter (t : T) (m : NameMode) : T := field 20 (position m) t

def counts (t : T) : Counts := fun m => (counter t m).toNat

theorem numOccurrencesNormal_eq (t : T) : numOccurrencesNormal t = counter t .normal := by
  simp [numOccurrencesNormal, counter, position]
  rfl

theorem numOccurrencesInTypes_eq (t : T) : numOccurrencesInTypes t = counter t .inTypes := rfl

theorem numOccurrencesPhantom_eq (t : T) : numOccurrencesPhantom t = counter t .phantom := rfl

theorem counts_lt (t : T) (m : NameMode) : counts t m < 2 ^ 20 := fits_field

theorem position_apart {m m' : NameMode} (h : m ≠ m') : Apart 20 (position m) (position m') := by
  cases m <;> cases m' <;> simp [position, Apart] at h ⊢

/-- The word with one number in the counter of `m`. -/
def put (m : NameMode) (num : T) : T := num <<< position m

/-- The word without its counter of `m`. -/
def clear (m : NameMode) (t : T) : T := t &&& ~~~(mask 63 20 <<< position m)

variable {num x y : T}

theorem counter_put (h : Fits 20 num) (m m' : NameMode) :
    counter (put m num) m' = if m' = m then num else 0#63 := by
  by_cases hm : m' = m
  · subst hm
    rw [if_pos rfl]
    exact field_shiftLeft h (by cases m' <;> simp [position])
  · rw [if_neg hm]; exact field_shiftLeft_apart h (position_apart (Ne.symm hm))

theorem counter_clear (t : T) (m m' : NameMode) :
    counter (clear m t) m' = if m' = m then 0#63 else counter t m' := by
  by_cases hm : m' = m
  · subst hm
    rw [if_pos rfl]
    exact field_clear
  · rw [if_neg hm]; exact field_clear_apart (position_apart (Ne.symm hm))

theorem counter_or (t t' : T) (m : NameMode) :
    counter (t ||| t') m = counter t m ||| counter t' m := field_or

section

variable (h : Fits 20 num)
include h

theorem assertCount_eq : assertCount num = .ok () := by
  have hlt : num.toNat < 2 ^ 20 := h
  have hint : num.toInt = num.toNat := BitVec.toInt_eq_toNat_of_lt (by omega)
  refine if_pos ⟨by omega, by omega⟩

theorem encodeNormalOccurrences_eq :
    encodeNormalOccurrences num = .ok (put .normal num) := by
  rw [encodeNormalOccurrences, assertCount_eq h, put, position, BitVec.shiftLeft_zero]
  rfl

theorem encodeInTypesOccurrences_eq :
    encodeInTypesOccurrences num = .ok (put .inTypes num) := by
  rw [encodeInTypesOccurrences, assertCount_eq h]
  rfl

theorem encodePhantomOccurrences_eq :
    encodePhantomOccurrences num = .ok (put .phantom num) := by
  rw [encodePhantomOccurrences, assertCount_eq h]
  rfl

end

theorem toNat_add (h : x.toNat + y.toNat < 2 ^ 20) : (x + y).toNat = x.toNat + y.toNat := by
  rw [BitVec.toNat_add, Nat.mod_eq_of_lt (by omega)]

theorem fits_add (h : x.toNat + y.toNat < 2 ^ 20) : Fits 20 (x + y) := by
  rw [Fits, toNat_add h]
  exact h

theorem counts_put (h : Fits 20 num) (m : NameMode) :
    counts (put m num) = Pi.single m num.toNat := by
  funext m'
  rw [counts, counter_put h, Pi.single_apply]
  split <;> rfl

theorem fits_one : Fits 20 (1 : T) := by
  unfold Fits
  decide

theorem oneOccurrence_eq (m : NameMode) : oneOccurrence m = .ok (put m 1) := by
  cases m with
  | normal => exact encodeNormalOccurrences_eq fits_one
  | phantom => exact encodePhantomOccurrences_eq fits_one
  | inTypes => exact encodeInTypesOccurrences_eq fits_one

theorem add_eq (t : T) (m : NameMode) (h : counts t m + 1 < 2 ^ 20) :
    add t m = .ok (put m (1 + counter t m) ||| clear m t) := by
  have hfits : Fits 20 (1 + counter t m) := fits_add (by
    rw [Nat.add_comm]
    exact h)
  cases m with
  | normal =>
    rw [add, numOccurrencesNormal_eq, encodeNormalOccurrences_eq hfits]
    simp [clear, withoutNormalOccurrences, Bind.bind]
    rfl
  | phantom => rw [add, numOccurrencesPhantom_eq, encodePhantomOccurrences_eq hfits]; rfl
  | inTypes => rw [add, numOccurrencesInTypes_eq, encodeInTypesOccurrences_eq hfits]; rfl

theorem add_counts (t : T) (m : NameMode) (h : counts t m + 1 < 2 ^ 20) :
    ∃ t', add t m = .ok t' ∧ counts t' = counts t + Pi.single m 1 := by
  refine ⟨_, add_eq t m h, funext fun m' => ?_⟩
  have hsum : (1 : T).toNat + (counter t m).toNat < 2 ^ 20 := by
    rw [Nat.add_comm]
    exact h
  rw [counts, counter_or, counter_put (fits_add hsum), counter_clear, Pi.add_apply, Pi.single_apply]
  by_cases hm : m' = m
  · subst hm
    rw [if_pos rfl, if_pos rfl, if_pos rfl, BitVec.or_zero, toNat_add hsum, Nat.add_comm]
    rfl
  · rw [if_neg hm, if_neg hm, if_neg hm, BitVec.zero_or]; rfl

theorem union_counts (t1 t2 : T) (h : ∀ m, counts t1 m + counts t2 m < 2 ^ 20) :
    ∃ t, union t1 t2 = .ok t ∧ counts t = counts t1 + counts t2 := by
  have hfits : ∀ m, Fits 20 (counter t1 m + counter t2 m) := fun m => fits_add (h m)
  refine ⟨put .normal (counter t1 .normal + counter t2 .normal) |||
    put .inTypes (counter t1 .inTypes + counter t2 .inTypes) |||
    put .phantom (counter t1 .phantom + counter t2 .phantom), ?_, funext fun m => ?_⟩
  · rw [union, numOccurrencesNormal_eq, numOccurrencesNormal_eq, numOccurrencesInTypes_eq,
      numOccurrencesInTypes_eq, numOccurrencesPhantom_eq, numOccurrencesPhantom_eq,
      encodeNormalOccurrences_eq (hfits _), encodeInTypesOccurrences_eq (hfits _),
      encodePhantomOccurrences_eq (hfits _)]
    rfl
  rw [counts, counter_or, counter_or, counter_put (hfits _), counter_put (hfits _),
    counter_put (hfits _)]
  cases m with
  | normal => simp [toNat_add (h .normal), counts]
  | phantom => simp [toNat_add (h .phantom), counts]
  | inTypes => simp [toNat_add (h .inTypes), counts]

/-- What the source makes of a downgrade: only the counter of the target is kept. -/
def narrowed (c : Counts) (m : NameMode) : Counts :=
  match m with
  | .normal => c
  | m => Pi.single m (c m + c .normal)

theorem downgrade_counts (t : T) (m : NameMode) (h : ∀ m', narrowed (counts t) m m' < 2 ^ 20) :
    ∃ t', downgradeOccurrencesAtStrictlyGreaterNameMode t m = .ok t' ∧
      counts t' = narrowed (counts t) m := by
  cases m with
  | normal => exact ⟨t, rfl, rfl⟩
  | phantom =>
    have hsum : counts t .phantom + counts t .normal < 2 ^ 20 := by
      simpa [narrowed] using h .phantom
    refine ⟨put .phantom (counter t .phantom + counter t .normal), ?_, ?_⟩
    · exact encodePhantomOccurrences_eq (fits_add hsum)
    · rw [counts_put (fits_add hsum), toNat_add hsum]; rfl
  | inTypes =>
    have hsum : counts t .inTypes + counts t .normal < 2 ^ 20 := by
      simpa [narrowed] using h .inTypes
    refine ⟨put .inTypes (counter t .inTypes + counter t .normal), ?_, ?_⟩
    · exact encodeInTypesOccurrences_eq (fits_add hsum)
    · rw [counts_put (fits_add hsum), toNat_add hsum]; rfl

/-- The mode that `max_name_mode_opt` finds in three counts. -/
def found (c : Counts) : Option NameMode :=
  if 0 < c .normal then some .normal
  else if 0 < c .inTypes then some .inTypes
  else if 0 < c .phantom then some .phantom
  else none

theorem toInt_counter (t : T) (m : NameMode) : (counter t m).toInt = counts t m :=
  BitVec.toInt_eq_toNat_of_lt (by
    have hlt := counts_lt t m
    change 2 * counts t m < _
    omega)

theorem maxNameModeOpt_eq (t : T) : maxNameModeOpt t = found (counts t) := by
  rw [maxNameModeOpt, numOccurrencesNormal_eq, numOccurrencesInTypes_eq,
    numOccurrencesPhantom_eq, toInt_counter, toInt_counter, toInt_counter, found]
  simp

end ForOneName

/-! ## §2 All names -/

variable {ν : Type} [LinearOrder ν]

def countsOf (t : T ν) (name : ν) : Counts :=
  match t[name]? with
  | none => 0
  | some forOneName => ForOneName.counts forOneName

variable {t : T ν}

theorem countsOf_none {name : ν} (h : t[name]? = none) : countsOf t name = 0 := by
  rw [countsOf, h]

theorem countsOf_some {name : ν} {w : ForOneName.T} (h : t[name]? = some w) :
    countsOf t name = ForOneName.counts w := by
  rw [countsOf, h]

theorem countsOf_insert (t : T ν) (name name' : ν) (w : ForOneName.T) :
    countsOf (t.insert name w) name' =
      if name = name' then ForOneName.counts w else countsOf t name' := by
  rw [countsOf, Lib.getElem?_insert]
  by_cases h : name = name'
  · rw [if_pos h, if_pos h]
  · rw [if_neg h, if_neg h]; rfl

theorem countsOf_empty (name : ν) : countsOf (empty : T ν) name = 0 :=
  countsOf_none Std.ExtTreeMap.getElem?_empty

theorem counts_one (m : NameMode) : ForOneName.counts (ForOneName.put m 1) = Pi.single m 1 :=
  ForOneName.counts_put ForOneName.fits_one m

theorem add_counts (t : T ν) (name : ν) (m : NameMode) (h : countsOf t name m + 1 < 2 ^ 20) :
    ∃ t', add t name m = .ok t' ∧
      ∀ n, countsOf t' n = if name = n then countsOf t n + Pi.single m 1 else countsOf t n := by
  unfold add
  cases hw : t[name]? with
  | none =>
    rw [ForOneName.oneOccurrence_eq]
    refine ⟨_, rfl, fun n => ?_⟩
    rw [countsOf_insert, counts_one]
    split
    · next heq => rw [← heq, countsOf_none hw, zero_add]
    · rfl
  | some w =>
    rw [countsOf_some hw] at h
    obtain ⟨w', hadd, hcounts⟩ := ForOneName.add_counts w m h
    dsimp only
    rw [hadd]
    refine ⟨_, rfl, fun n => ?_⟩
    rw [countsOf_insert, hcounts]
    split
    · next heq => rw [← heq, countsOf_some hw]
    · rfl

theorem singleton_counts (name : ν) (m : NameMode) :
    ∃ t, singleton name m = .ok t ∧ ∀ n, countsOf t n = if name = n then Pi.single m 1 else 0 := by
  rw [singleton, ForOneName.oneOccurrence_eq]
  refine ⟨_, rfl, fun n => ?_⟩
  rw [countsOf_insert, counts_one, countsOf_empty]

theorem union_counts (t1 t2 : T ν) (h : ∀ n m, countsOf t1 n m + countsOf t2 n m < 2 ^ 20) :
    ∃ t, union t1 t2 = .ok t ∧ ∀ n, countsOf t n = countsOf t1 n + countsOf t2 n := by
  have hfold : Outcome (fun _ => False) (union t1 t2) fun t =>
      (∀ p ∈ t2.toList, countsOf t p.1 = countsOf t1 p.1 + ForOneName.counts p.2) ∧
        ∀ n, (∀ p ∈ t2.toList, p.1 ≠ n) → t[n]? = t1[n]? := by
    refine Outcome.foldlM (I := fun (done : List (ν × ForOneName.T)) (t : T ν) =>
      (∀ p ∈ done, countsOf t p.1 = countsOf t1 p.1 + ForOneName.counts p.2) ∧
        ∀ n, (∀ p ∈ done, p.1 ≠ n) → t[n]? = t1[n]?) ?_ ?_
    · exact ⟨fun _ hp => (nomatch hp), fun _ _ => rfl⟩
    intro done p rest t hl hinv
    obtain ⟨hdone, hother⟩ := hinv
    have hp : t2[p.1]? = some p.2 := Lib.mem_toList.1 (hl ▸ by simp)
    have hsame : t[p.1]? = t1[p.1]? := hother p.1 (Lib.not_mem_done hl)
    have hinsert : ∀ w, ForOneName.counts w = countsOf t1 p.1 + ForOneName.counts p.2 →
        (∀ q ∈ done ++ [p], countsOf (t.insert p.1 w) q.1 =
          countsOf t1 q.1 + ForOneName.counts q.2) ∧
        ∀ n, (∀ q ∈ done ++ [p], q.1 ≠ n) → (t.insert p.1 w)[n]? = t1[n]? := by
      intro w hw
      constructor
      · intro q hq
        rw [List.mem_append, List.mem_singleton] at hq
        rcases hq with hq | rfl
        · rw [countsOf_insert, if_neg (Ne.symm (Lib.not_mem_done hl q hq)), hdone q hq]
        · rw [countsOf_insert, if_pos rfl, hw]
      intro n hn
      rw [Lib.getElem?_insert, if_neg (hn p (by simp))]
      exact hother n fun q hq => hn q (by simp [hq])
    cases hw : t1[p.1]? with
    | none =>
      rw [hsame, hw]
      exact Outcome.pure (hinsert p.2 (by rw [countsOf_none hw, zero_add]))
    | some w1 =>
      have hsmall := h p.1
      rw [countsOf_some hw, countsOf_some hp] at hsmall
      obtain ⟨w, hunion, hcounts⟩ := ForOneName.union_counts w1 p.2 hsmall
      rw [hsame, hw]
      dsimp only
      rw [hunion]
      exact Outcome.pure (hinsert w (by rw [countsOf_some hw, hcounts]))
  obtain ⟨t, ht, hin, hout⟩ := hfold.exists_ok
  refine ⟨t, ht, fun n => ?_⟩
  cases hn : t2[n]? with
  | none =>
    have hnone : t[n]? = t1[n]? := by
      refine hout n fun p hp heq => ?_
      rw [← heq, Lib.mem_toList.1 (show (p.1, p.2) ∈ t2.toList from hp)] at hn
      cases hn
    rw [countsOf_none hn, add_zero, countsOf, countsOf, hnone]
  | some w => rw [hin (n, w) (Lib.mem_toList.2 hn), countsOf_some hn]

theorem mapSharing_counts (t : T ν) (m : NameMode)
    (h : ∀ n m', ForOneName.narrowed (countsOf t n) m m' < 2 ^ 20) :
    ∃ t', mapSharing (ForOneName.downgradeOccurrencesAtStrictlyGreaterNameMode · m) t = .ok t' ∧
      ∀ n, countsOf t' n = ForOneName.narrowed (countsOf t n) m := by
  have hnarrow : ForOneName.narrowed 0 m = 0 := by
    cases m <;> simp [ForOneName.narrowed]
  have hfold : Outcome (fun _ => False) _ _ := Lib.foldlM_insert
    (f := fun p => ForOneName.downgradeOccurrencesAtStrictlyGreaterNameMode p.2 m)
    (Q := fun p w => ForOneName.counts w = ForOneName.narrowed (ForOneName.counts p.2) m) t
    (by
      intro p hp
      have hp' := h p.1
      rw [countsOf_some (Lib.mem_toList.1 (show (p.1, p.2) ∈ t.toList from hp))] at hp'
      obtain ⟨w, hw, hcounts⟩ := ForOneName.downgrade_counts p.2 m hp'
      rw [hw]
      exact Outcome.pure hcounts) ∅
  obtain ⟨t', ht', hin, hout⟩ := hfold.exists_ok
  refine ⟨t', ht', fun n => ?_⟩
  cases hn : t[n]? with
  | none =>
    rw [countsOf_none hn, hnarrow, countsOf_none]
    rw [hout n hn, Std.ExtTreeMap.getElem?_empty]
  | some w =>
    obtain ⟨w', hw', hcounts⟩ := hin n w hn
    rw [countsOf_some hn, countsOf_some hw', hcounts]

theorem downgrade_counts (t : T ν) (m : NameMode)
    (h : ∀ n m', ForOneName.narrowed (countsOf t n) m m' < 2 ^ 20) :
    ∃ t', downgradeOccurrencesAtStrictlyGreaterNameMode t m = .ok t' ∧
      ∀ n, countsOf t' n = ForOneName.narrowed (countsOf t n) m := by
  cases m with
  | normal => exact ⟨t, rfl, fun _ => rfl⟩
  | phantom => exact mapSharing_counts t .phantom h
  | inTypes => exact mapSharing_counts t .inTypes h

theorem greatestNameMode_eq (t : T ν) (name : ν) : greatestNameMode t name =
    match ForOneName.found (countsOf t name) with
    | none => .absent
    | some nameMode => .present nameMode := by
  unfold greatestNameMode
  cases hw : t[name]? with
  | none => rw [countsOf_none hw]; rfl
  | some w =>
    dsimp only
    rw [countsOf_some hw]
    cases hf : ForOneName.found (ForOneName.counts w) <;> simp [ForOneName.maxNameModeOpt_eq, hf]

/-- The modes with which `fold_with_mode` meets the names. -/
def reportedModes (t : T ν) : List (ν × NameMode) :=
  foldWithMode t [] fun acc name nameMode => (name, nameMode) :: acc

theorem mem_foldl_reported (name : ν) (m : NameMode) (l : List (ν × ForOneName.T))
    (acc : List (ν × NameMode)) :
    (name, m) ∈ l.foldl (fun acc p =>
      match ForOneName.maxNameModeOpt p.2 with
      | some nameMode => (p.1, nameMode) :: acc
      | none => acc) acc ↔
    (name, m) ∈ acc ∨ ∃ p ∈ l, p.1 = name ∧ ForOneName.maxNameModeOpt p.2 = some m := by
  induction l generalizing acc with
  | nil => simp
  | cons p l ih =>
    rw [List.foldl_cons, ih]
    cases hp : ForOneName.maxNameModeOpt p.2 with
    | none => simp [hp]
    | some nameMode =>
      simp only [List.mem_cons, Prod.mk.injEq, exists_eq_or_imp, hp, Option.some.injEq]
      constructor
      · rintro ((⟨h1, h2⟩ | h) | h)
        · exact .inr (.inl ⟨h1.symm, h2.symm⟩)
        · exact .inl h
        · exact .inr (.inr h)
      rintro (h | ⟨h1, h2⟩ | h)
      · exact .inl (.inr h)
      · exact .inl (.inl ⟨h1.symm, h2.symm⟩)
      · exact .inr h

theorem mem_reportedModes (t : T ν) (name : ν) (m : NameMode) :
    (name, m) ∈ reportedModes t ↔ ForOneName.found (countsOf t name) = some m := by
  refine (mem_foldl_reported name m t.toList []).trans ?_
  constructor
  · rintro (h | ⟨p, hp, rfl, hm⟩)
    · cases h
    · rw [countsOf_some (Lib.mem_toList.1 (show (p.1, p.2) ∈ t.toList from hp)),
        ← ForOneName.maxNameModeOpt_eq, hm]
  intro h
  cases hw : t[name]? with
  | none => rw [countsOf_none hw] at h; cases h
  | some w =>
    rw [countsOf_some hw, ← ForOneName.maxNameModeOpt_eq] at h
    exact .inr ⟨(name, w), Lib.mem_toList.2 hw, rfl, h⟩

/-! ## §3 What is to be counted -/

def modes : List NameMode := [.normal, .phantom, .inTypes]

def total (c : Counts) : ℕ := (modes.map c).sum

/-- The occurrences at a mode that is strictly greater than `m` are moved to `m`. -/
def downgraded (c : Counts) (m : NameMode) : Counts := fun m' =>
  if comparePartialOrder m' m = some 1 then 0
  else if m' = m then c m + ((modes.filter (comparePartialOrder · m = some 1)).map c).sum
  else c m'

theorem downgraded_normal (c : Counts) : downgraded c .normal = c := by
  funext m
  cases m <;> simp [downgraded, comparePartialOrder, modes]

theorem downgraded_phantom (c : Counts) : downgraded c .phantom = fun
    | .normal => 0
    | .phantom => c .phantom + c .normal
    | .inTypes => c .inTypes := by
  funext m
  cases m <;> simp [downgraded, comparePartialOrder, modes]

theorem downgraded_inTypes (c : Counts) : downgraded c .inTypes = fun
    | .inTypes => c .inTypes + (c .normal + c .phantom)
    | _ => 0 := by
  funext m
  cases m <;> simp [downgraded, comparePartialOrder, modes]

/-- The mode to report for a name: the greatest one at which it occurs. -/
def IsGreatest (c : Counts) : OrAbsent → Prop
  | .absent => ∀ m, c m = 0
  | .present m => c m ≠ 0 ∧ ∀ m', c m' ≠ 0 → m' = m ∨ comparePartialOrder m m' = some 1

/-- A sequence of additions, unions and downgrades. -/
inductive Run (ν : Type)
  | empty
  | singleton (name : ν) (nameMode : NameMode)
  | add (r : Run ν) (name : ν) (nameMode : NameMode)
  | union (r1 r2 : Run ν)
  | downgrade (r : Run ν) (maxNameMode : NameMode)

namespace Run

def eval : Run ν → Except Exn (T ν)
  | empty => pure NameOccurrences.empty
  | singleton name nameMode => NameOccurrences.singleton name nameMode
  | add r name nameMode => do NameOccurrences.add (← r.eval) name nameMode
  | union r1 r2 => do NameOccurrences.union (← r1.eval) (← r2.eval)
  | downgrade r maxNameMode => do
    downgradeOccurrencesAtStrictlyGreaterNameMode (← r.eval) maxNameMode

/-- The occurrences of a name in a run. -/
def meaning (name : ν) : Run ν → Counts
  | empty => 0
  | singleton name' nameMode => if name' = name then Pi.single nameMode 1 else 0
  | add r name' nameMode =>
    if name' = name then r.meaning name + Pi.single nameMode 1 else r.meaning name
  | union r1 r2 => r1.meaning name + r2.meaning name
  | downgrade r maxNameMode => downgraded (r.meaning name) maxNameMode

attribute [local grind =] meaning

/-- `P` after every step of the run. -/
def Throughout (P : Run ν → Prop) : Run ν → Prop
  | empty => P empty
  | singleton name nameMode => P (singleton name nameMode)
  | add r name nameMode => r.Throughout P ∧ P (add r name nameMode)
  | union r1 r2 => r1.Throughout P ∧ r2.Throughout P ∧ P (union r1 r2)
  | downgrade r maxNameMode => r.Throughout P ∧ P (downgrade r maxNameMode)

/-- No count reaches 2^20. -/
def Small (r : Run ν) : Prop := ∀ name m, r.meaning name m < 2 ^ 20

/-- The value of the run counts what it should, and reports the greatest modes. -/
def Counted (r : Run ν) : Prop :=
  ∃ t, r.eval = .ok t ∧ (∀ name, countsOf t name = r.meaning name) ∧
    (∀ name, IsGreatest (r.meaning name) (greatestNameMode t name)) ∧
      ∀ name m, (name, m) ∈ reportedModes t ↔ IsGreatest (r.meaning name) (.present m)

end Run

/-! ## §4 When it is counted -/

/-- A downgrade to `m` forgets nothing of `c`. -/
def Forgetless (c : Counts) (m : NameMode) : Prop :=
  match m with
  | .normal => True
  | .phantom => c .inTypes = 0
  | .inTypes => c .phantom = 0

/-- Of a name that does not occur at `Normal`, one other mode at most. -/
def Unmixed (c : Counts) : Prop := c .normal = 0 → c .inTypes = 0 ∨ c .phantom = 0

/-- The last step of a run downgrades no mixture, and leaves none whose mode is misread. -/
def Run.Plain (r : Run ν) : Prop :=
  (match r with
    | .downgrade r m => ∀ name, Forgetless (r.meaning name) m
    | _ => True) ∧ ∀ name, Unmixed (r.meaning name)

theorem narrowed_le (c : Counts) (m : NameMode) : ForOneName.narrowed c m ≤ downgraded c m := by
  intro m'
  cases m with
  | normal => rw [downgraded_normal, ForOneName.narrowed]
  | phantom => rw [downgraded_phantom]; cases m' <;> simp [ForOneName.narrowed]
  | inTypes => rw [downgraded_inTypes]; cases m' <;> simp [ForOneName.narrowed]

theorem narrowed_eq_iff (c : Counts) (m : NameMode) :
    ForOneName.narrowed c m = downgraded c m ↔ Forgetless c m := by
  cases m with
  | normal => simp [downgraded_normal, ForOneName.narrowed, Forgetless]
  | phantom =>
    rw [downgraded_phantom, Forgetless]
    constructor
    · intro h; simpa [ForOneName.narrowed] using (congrFun h .inTypes).symm
    intro h
    funext m'
    cases m' <;> simp [ForOneName.narrowed, h]
  | inTypes =>
    rw [downgraded_inTypes, Forgetless]
    constructor
    · intro h; simpa [ForOneName.narrowed] using congrFun h .inTypes
    intro h
    funext m'
    cases m' <;> simp [ForOneName.narrowed, h]

/-- `max_name_mode_opt` finds the greatest mode of every name that is not mixed. -/
theorem isGreatest_found_iff (c : Counts) :
    IsGreatest c (match ForOneName.found c with
      | none => .absent
      | some nameMode => .present nameMode) ↔ Unmixed c := by
  unfold ForOneName.found Unmixed
  by_cases hn : 0 < c .normal
  · rw [if_pos hn]
    refine iff_of_true ⟨by omega, fun m' _ => ?_⟩ (fun h => by omega)
    cases m' <;> simp [comparePartialOrder]
  by_cases hi : 0 < c .inTypes
  · rw [if_neg hn, if_pos hi]
    constructor
    · intro h _
      refine .inr (by_contra fun hp => ?_)
      have hgreater := h.2 .phantom hp
      simp [comparePartialOrder] at hgreater
    intro h
    refine ⟨by omega, fun m' hm' => ?_⟩
    cases m' with
    | normal => exact absurd hm' (by omega)
    | phantom =>
      rcases h (by omega) with h | h
      · omega
      · exact absurd h hm'
    | inTypes => exact .inl rfl
  by_cases hp : 0 < c .phantom
  · rw [if_neg hn, if_neg hi, if_pos hp]
    refine iff_of_true ⟨by omega, fun m' hm' => ?_⟩ (fun _ => .inl (by omega))
    cases m' with
    | normal => exact absurd hm' (by omega)
    | phantom => exact .inl rfl
    | inTypes => exact .inr rfl
  rw [if_neg hn, if_neg hi, if_neg hp]
  refine iff_of_true (fun m => ?_) (fun _ => .inl (by omega))
  cases m <;> lia

theorem IsGreatest.unique {c : Counts} {r r' : OrAbsent} (h : IsGreatest c r)
    (h' : IsGreatest c r') : r = r' := by
  cases r with
  | absent =>
    cases r' with
    | absent => rfl
    | present m' => exact absurd (h m') h'.1
  | present m =>
    cases r' with
    | absent => exact absurd (h' m) h.1
    | present m' =>
      rcases h.2 m' h'.1 with heq | hgt
      · rw [heq]
      rcases h'.2 m h.1 with heq | hgt'
      · rw [heq]
      · cases m <;> cases m' <;> simp [comparePartialOrder] at hgt hgt'

theorem isGreatest_present_iff {c : Counts} (h : Unmixed c) (m : NameMode) :
    IsGreatest c (.present m) ↔ ForOneName.found c = some m := by
  have hfound := (isGreatest_found_iff c).2 h
  constructor
  · intro hm
    have heq := hfound.unique hm
    cases hc : ForOneName.found c with
    | none => rw [hc] at heq; cases heq
    | some m' =>
      rw [hc] at heq
      cases heq
      rfl
  intro hm
  rw [hm] at hfound
  exact hfound

/-! ## §5 Runs -/

namespace Run

omit [LinearOrder ν] in
theorem Throughout.last {P : Run ν → Prop} {r : Run ν} (h : r.Throughout P) : P r := by
  cases r with
  | empty | singleton name m => exact h
  | add r name m => exact h.2
  | union r1 r2 => exact h.2.2
  | downgrade r m => exact h.2

variable {r : Run ν}

/-- Once the counts are right, the modes are when no name is mixed. -/
theorem counted_iff (heval : r.eval = .ok t) (hcounts : ∀ name, countsOf t name = r.meaning name) :
    r.Counted ↔ ∀ name, Unmixed (r.meaning name) := by
  constructor
  · intro h name
    obtain ⟨t', heval', -, hgreatest, -⟩ := h
    rw [heval] at heval'
    cases heval'
    have hname := hgreatest name
    rw [greatestNameMode_eq, hcounts] at hname
    exact (isGreatest_found_iff _).1 hname
  intro h
  refine ⟨t, heval, hcounts, fun name => ?_, fun name m => ?_⟩
  · rw [greatestNameMode_eq, hcounts]; exact (isGreatest_found_iff _).2 (h name)
  · rw [mem_reportedModes, hcounts]; exact (isGreatest_present_iff (h name) m).symm

theorem eval_downgrade (heval : r.eval = .ok t)
    (hcounts : ∀ name, countsOf t name = r.meaning name) {m : NameMode}
    (hsmall : (downgrade r m).Small) :
    ∃ t', (downgrade r m).eval = .ok t' ∧
      ∀ name, countsOf t' name = ForOneName.narrowed (r.meaning name) m := by
  obtain ⟨t', ht', hcounts'⟩ := NameOccurrences.downgrade_counts t m fun name m' => by
    rw [hcounts]
    exact lt_of_le_of_lt (narrowed_le _ _ m') (hsmall name m')
  refine ⟨t', ?_, fun name => ?_⟩
  · rw [eval, heval]; exact ht'
  · rw [hcounts', hcounts]

/-- What one step does to exact counts, by the kind of the step. -/
theorem eval_exact (hsmall : r.Throughout Small) (hplain : r.Throughout Plain) :
    ∃ t, r.eval = .ok t ∧ ∀ name, countsOf t name = r.meaning name := by
  induction r with
  | empty => exact ⟨_, rfl, countsOf_empty⟩
  | singleton name m =>
    obtain ⟨t, ht, hcounts⟩ := singleton_counts name m
    exact ⟨t, ht, hcounts⟩
  | add r name m ih =>
    obtain ⟨t, ht, hcounts⟩ := ih hsmall.1 hplain.1
    have hlt := hsmall.2 name m
    rw [meaning, if_pos rfl, Pi.add_apply, Pi.single_eq_same, ← hcounts] at hlt
    obtain ⟨t', ht', hcounts'⟩ := NameOccurrences.add_counts t name m hlt
    refine ⟨t', ?_, fun n => ?_⟩
    · rw [eval, ht]; exact ht'
    · rw [hcounts', hcounts, meaning]
  | union r1 r2 ih1 ih2 =>
    obtain ⟨t1, ht1, hcounts1⟩ := ih1 hsmall.1 hplain.1
    obtain ⟨t2, ht2, hcounts2⟩ := ih2 hsmall.2.1 hplain.2.1
    obtain ⟨t, ht, hcounts⟩ := NameOccurrences.union_counts t1 t2 fun n m => by
      rw [hcounts1, hcounts2]
      exact hsmall.2.2 n m
    refine ⟨t, ?_, fun n => ?_⟩
    · rw [eval, ht1, ht2]; exact ht
    · rw [hcounts, hcounts1, hcounts2, meaning]
  | downgrade r m ih =>
    obtain ⟨t, ht, hcounts⟩ := ih hsmall.1 hplain.1
    obtain ⟨t', ht', hcounts'⟩ := eval_downgrade ht hcounts hsmall.2
    refine ⟨t', ht', fun name => ?_⟩
    rw [hcounts', meaning, (narrowed_eq_iff _ _).2 (hplain.2.1 name)]

theorem counted_of_plain (hsmall : r.Throughout Small) (hplain : r.Throughout Plain) :
    r.Counted := by
  obtain ⟨t, heval, hcounts⟩ := eval_exact hsmall hplain
  exact (counted_iff heval hcounts).2 hplain.last.2

theorem unmixed_of_counted (h : r.Counted) (name : ν) : Unmixed (r.meaning name) := by
  obtain ⟨t, heval, hcounts, hrest⟩ := h
  exact (counted_iff heval hcounts).1 ⟨t, heval, hcounts, hrest⟩ name

theorem forgetless_of_counted {m : NameMode} (hr : r.Counted)
    (hsmall : (downgrade r m).Small) (h : (downgrade r m).Counted) (name : ν) :
    Forgetless (r.meaning name) m := by
  obtain ⟨t, heval, hcounts, -⟩ := hr
  obtain ⟨t', heval', hcounts'⟩ := eval_downgrade heval hcounts hsmall
  obtain ⟨t'', heval'', hcounts'', -⟩ := h
  rw [heval'] at heval''
  cases heval''
  rw [← narrowed_eq_iff, ← hcounts', hcounts'', meaning]

/-- **A run is counted exactly** after each of its steps, and its modes reported as they
are, if and only if no step downgrades occurrences at a mode that it forgets and no name
is left with occurrences at `In_types` and `Phantom` alone. -/
theorem counted_throughout_iff (r : Run ν) (hsmall : r.Throughout Small) :
    r.Throughout Counted ↔ r.Throughout Plain := by
  induction r with
  | empty =>
    exact ⟨fun h => ⟨trivial, unmixed_of_counted h⟩, fun h => counted_of_plain hsmall h⟩
  | singleton name m =>
    exact ⟨fun h => ⟨trivial, unmixed_of_counted h⟩, fun h => counted_of_plain hsmall h⟩
  | add r name m ih =>
    constructor
    · intro h; exact ⟨(ih hsmall.1).1 h.1, trivial, unmixed_of_counted h.2⟩
    · intro h; exact ⟨(ih hsmall.1).2 h.1, counted_of_plain hsmall h⟩
  | union r1 r2 ih1 ih2 =>
    constructor
    · intro h
      exact ⟨(ih1 hsmall.1).1 h.1, (ih2 hsmall.2.1).1 h.2.1, trivial, unmixed_of_counted h.2.2⟩
    · intro h; exact ⟨(ih1 hsmall.1).2 h.1, (ih2 hsmall.2.1).2 h.2.1, counted_of_plain hsmall h⟩
  | downgrade r m ih =>
    constructor
    · intro h
      have hforget := forgetless_of_counted h.1.last hsmall.2 h.2
      exact ⟨(ih hsmall.1).1 h.1, hforget, unmixed_of_counted h.2⟩
    · intro h; exact ⟨(ih hsmall.1).2 h.1, counted_of_plain hsmall h⟩

/-- One occurrence in a term and one in a type. -/
def termAndType : Run ℕ := add (singleton 0 .normal) 0 .inTypes

theorem small_termAndType (m : NameMode) : (downgrade termAndType m).Throughout Small := by
  refine ⟨⟨?_, ?_⟩, ?_⟩
  · intro name k; rcases eq_or_ne (0 : ℕ) name with rfl | h <;> cases k <;> simp_all [meaning]
  · intro name k; rcases eq_or_ne (0 : ℕ) name with rfl | h <;> cases k <;> simp_all [meaning]
  intro name k
  rcases eq_or_ne (0 : ℕ) name with rfl | h <;> cases k <;> cases m <;>
    simp_all [meaning, termAndType, downgraded_normal, downgraded_phantom, downgraded_inTypes]

theorem counted_throughout_iff_termAndType : (downgrade termAndType .inTypes).Throughout Small ∧
      ((downgrade termAndType .inTypes).Throughout Counted ↔
        (downgrade termAndType .inTypes).Throughout Plain) :=
  ⟨small_termAndType _, counted_throughout_iff _ (small_termAndType _)⟩

/-- The downgrade to `Phantom` forgets the occurrence in the type, and of a name that
occurs once in a type and once as a phantom the lesser mode is reported. -/
theorem termAndType_not_counted : (downgrade termAndType .phantom).Throughout Small ∧
      ¬ (downgrade termAndType .phantom).Counted ∧
        ¬ (add (singleton (0 : ℕ) .inTypes) 0 .phantom).Counted := by
  refine ⟨small_termAndType _, fun h => ?_, fun h => ?_⟩
  · have hplain : termAndType.Throughout Plain := by
      refine ⟨⟨trivial, fun name => ?_⟩, trivial, fun name => ?_⟩
      · rcases eq_or_ne (0 : ℕ) name with rfl | h <;> simp_all [meaning, Unmixed]
      · rcases eq_or_ne (0 : ℕ) name with rfl | h <;> simp_all [meaning, Unmixed]
    have hcounted := counted_of_plain (small_termAndType .phantom).1 hplain
    have hforget := forgetless_of_counted hcounted (small_termAndType .phantom).2 h 0
    simp [Forgetless, meaning, termAndType] at hforget
  · have hunmixed := unmixed_of_counted h 0; simp [Unmixed, meaning] at hunmixed

end Run

end Oxcaml.Flambda2.NameOccurrences
