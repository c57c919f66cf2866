/-
Oxcaml.Lib.Outcome — what a computation with errors returns.

`Outcome allowed r Q` says that the result `r` satisfies `Q`, or is one of the
`allowed` errors: all others are excluded. The rules follow `pure`, `bind` and
`foldlM`. §2 has the folds that build a map from a map, key by key.
-/
import Oxcaml.Lib.Orders
import Mathlib.Order.Compare

namespace Oxcaml.Lib

variable {ε α β : Type}

/-! ## §1 Rules -/

/-- A result that satisfies `Q`, or an allowed error. -/
def Outcome (allowed : ε → Prop) (r : Except ε α) (Q : α → Prop) : Prop :=
  match r with
  | .ok a => Q a
  | .error e => allowed e

namespace Outcome

variable {allowed : ε → Prop} {r : Except ε α} {Q : α → Prop} {R : β → Prop} {a : α}

theorem pure (h : Q a) : Outcome allowed (Pure.pure a) Q := h

variable {f : α → Except ε β}

theorem bind (h : Outcome allowed r Q)
    (hf : ∀ a, Q a → Outcome allowed (f a) R) : Outcome allowed (r >>= f) R := by
  cases r with
  | ok a => exact hf a h
  | error e => exact h

theorem unbind (h : Outcome allowed (r >>= f) R) :
    Outcome allowed r fun a => Outcome allowed (f a) R := by
  cases r with
  | ok a | error e => exact h

section

variable (h : Outcome allowed r Q)
include h

theorem mono {Q' : α → Prop} (hQ : ∀ a, Q a → Q' a) :
    Outcome allowed r Q' := by
  cases r with
  | ok a => exact hQ a h
  | error e => exact h

theorem of_ok (ha : r = .ok a) : Q a := by
  subst ha
  exact h

/-- Whatever the errors are. -/
theorem anyError : Outcome (fun _ => True) r Q := by
  cases r with
  | ok a => exact h
  | error e => trivial

end

/-- A computation that is allowed no error returns a value. -/
theorem exists_ok (h : Outcome (fun _ => False) r Q) : ∃ a, r = .ok a ∧ Q a := by
  cases r with
  | ok a => exact ⟨a, rfl, h⟩
  | error e => exact h.elim

/-- An invariant of a fold, indexed by the elements that are done. -/
theorem foldlM {f : α → β → Except ε α} {l : List β} {I : List β → α → Prop}
    (ha : I [] a) (hstep : ∀ done x rest a, l = done ++ x :: rest → I done a →
      Outcome allowed (f a x) (I (done ++ [x]))) : Outcome allowed (l.foldlM f a) (I l) := by
  have hrun : ∀ rest done a, l = done ++ rest → I done a →
      Outcome allowed (rest.foldlM f a) (I l) := by
    intro rest
    induction rest with
    | nil =>
      intro done a hl ha
      rw [List.append_nil] at hl
      exact .pure (hl ▸ ha)
    | cons x rest ih =>
      intro done a hl ha
      refine (hstep done x rest a hl ha).bind fun b hb => ih (done ++ [x]) b ?_ hb
      rw [hl]
      simp
  exact hrun l [] a rfl ha

end Outcome

/-! ## §2 Maps -/

section

variable {κ V W : Type} [LinearOrder κ]

theorem getElem?_insert (m : Std.ExtTreeMap κ V) (k k' : κ) (v : V) :
    (m.insert k v)[k']? = if k = k' then some v else m[k']? := by
  have hcompare : (compare k k' = .eq) = (k = k') := propext compare_eq_iff_eq
  rw [Std.ExtTreeMap.getElem?_insert]
  simp

theorem getElem?_erase (m : Std.ExtTreeMap κ V) (k k' : κ) :
    (m.erase k)[k']? = if k = k' then none else m[k']? := by
  have hcompare : (compare k k' = .eq) = (k = k') := propext compare_eq_iff_eq
  rw [Std.ExtTreeMap.getElem?_erase]
  simp

variable {m : Std.ExtTreeMap κ V}

theorem mem_toList {k : κ} {v : V} : (k, v) ∈ m.toList ↔ m[k]? = some v :=
  Std.ExtTreeMap.mem_toList_iff_getElem?_eq_some

theorem distinct_toList (m : Std.ExtTreeMap κ V) : m.toList.Pairwise fun p q => p.1 ≠ q.1 :=
  Std.ExtTreeMap.distinct_keys_toList.imp fun h heq => h (compare_eq_iff_eq.2 heq)

/-- The binding that a fold is at has not been seen. -/
theorem not_mem_done {done rest : List (κ × V)} {p : κ × V}
    (hl : m.toList = done ++ p :: rest) : ∀ q ∈ done, q.1 ≠ p.1 := fun q hq =>
  (List.pairwise_append.1 (hl ▸ distinct_toList m)).2.2 q hq p (by simp)

/-- A fold that inserts an image of every binding of `m` into `acc`. -/
theorem foldlM_insert {allowed : ε → Prop} {f : κ × V → Except ε W} {Q : κ × V → W → Prop}
    (m : Std.ExtTreeMap κ V) (hf : ∀ p ∈ m.toList, Outcome allowed (f p) (Q p))
    (acc : Std.ExtTreeMap κ W) :
    Outcome allowed (m.toList.foldlM (fun acc p => do pure (acc.insert p.1 (← f p))) acc) fun r =>
      (∀ (k : κ) (v : V), m[k]? = some v → ∃ w, r[k]? = some w ∧ Q (k, v) w) ∧
        ∀ k : κ, m[k]? = none → r[k]? = acc[k]? := by
  have hfold : Outcome allowed
      (m.toList.foldlM (fun acc p => do pure (acc.insert p.1 (← f p))) acc) fun r =>
        (∀ p : κ × V, p ∈ m.toList → ∃ w, r[p.1]? = some w ∧ Q p w) ∧
          ∀ k : κ, (∀ p ∈ m.toList, p.1 ≠ k) → r[k]? = acc[k]? := by
    refine Outcome.foldlM (I := fun done (r : Std.ExtTreeMap κ W) =>
      (∀ p : κ × V, p ∈ done → ∃ w, r[p.1]? = some w ∧ Q p w) ∧
        ∀ k : κ, (∀ p ∈ done, p.1 ≠ k) → r[k]? = acc[k]?) ?_ ?_
    · exact ⟨fun _ h => (nomatch h), fun _ _ => rfl⟩
    rintro done p rest r hl ⟨hdone, hother⟩
    refine (hf p (hl ▸ by simp)).bind fun w hw => .pure ⟨?_, ?_⟩
    · intro q hq
      simp only [List.mem_append, List.mem_singleton] at hq
      rcases hq with hq | rfl
      · obtain ⟨w', hw', hQ⟩ := hdone q hq
        refine ⟨w', ?_, hQ⟩
        rw [getElem?_insert, if_neg (Ne.symm (not_mem_done hl q hq)), hw']
      · exact ⟨w, by rw [getElem?_insert, if_pos rfl], hw⟩
    intro k hk
    rw [getElem?_insert, if_neg (hk p (by simp))]
    exact hother k fun q hq => hk q (by simp [hq])
  refine hfold.mono fun r ⟨hdone, hother⟩ => ⟨?_, ?_⟩
  · intro k v hkv; exact hdone (k, v) (mem_toList.2 hkv)
  intro k hk
  refine hother k fun p hp heq => ?_
  rw [← heq, mem_toList.1 (show (p.1, p.2) ∈ m.toList from hp)] at hk
  cases hk

end

end Oxcaml.Lib
