/-
Oxcaml.Lib.Layout — elements that are laid out one after the other.

`Occupies` says which units of the space an element has. The elements of a segment of the
list have the units of an interval.
-/
import Mathlib.Tactic

namespace Oxcaml.Lib.Layout

variable {α : Type} (size : α → ℕ)

def total (l : List α) : ℕ := (l.map size).sum

/-- Where the element at an index starts. -/
def start (l : List α) (i : ℕ) : ℕ := total size (l.take i)

/-- The unit `b` belongs to the element at the index `i`. -/
def Occupies (l : List α) (i b : ℕ) : Prop :=
  ∃ x, l[i]? = some x ∧ start size l i ≤ b ∧ b < start size l i + size x

variable {size} {l : List α} {a : α} {b i : ℕ}

@[simp] theorem total_nil : total size [] = 0 := rfl

@[simp] theorem total_cons : total size (a :: l) = size a + total size l := by simp [total]

@[simp] theorem total_append (l l' : List α) :
    total size (l ++ l') = total size l + total size l' := by simp [total]

@[simp] theorem start_zero : start size l 0 = 0 := rfl

@[simp] theorem start_succ : start size (a :: l) (i + 1) = size a + start size l i := by
  simp [start]

theorem occupies_zero : Occupies size (a :: l) 0 b ↔ b < size a := by simp [Occupies]

theorem occupies_succ :
    Occupies size (a :: l) (i + 1) b ↔ size a ≤ b ∧ Occupies size l i (b - size a) := by
  unfold Occupies
  simp only [start_succ]
  constructor
  · intro h
    obtain ⟨x, hx, h1, h2⟩ := h
    exact ⟨by omega, x, hx, by omega, by omega⟩
  intro h
  obtain ⟨h0, x, hx, h1, h2⟩ := h
  exact ⟨x, hx, by omega, by omega⟩

theorem exists_occupies_initial (seg post : List α) :
    (∃ i, i < seg.length ∧ Occupies size (seg ++ post) i b) ↔ b < total size seg := by
  induction seg generalizing b with
  | nil => simp
  | cons a seg ih =>
    rw [total_cons]
    constructor
    · intro h
      obtain ⟨i, hi, hocc⟩ := h
      cases i with
      | zero => have hlt := occupies_zero.1 hocc; omega
      | succ i =>
        obtain ⟨hle, hocc⟩ := occupies_succ.1 hocc
        have hlt := ih.1 ⟨i, by simpa using hi, hocc⟩
        omega
    intro h
    by_cases hlt : b < size a
    · exact ⟨0, by simp, occupies_zero.2 hlt⟩
    · obtain ⟨i, hi, hocc⟩ := (ih (b := b - size a)).2 (by omega)
      exact ⟨i + 1, by simpa using hi, occupies_succ.2 ⟨by omega, hocc⟩⟩

theorem exists_occupies_between (pre seg post : List α) :
    (∃ i, pre.length ≤ i ∧ i < pre.length + seg.length ∧ Occupies size (pre ++ (seg ++ post)) i b) ↔
      total size pre ≤ b ∧ b < total size pre + total size seg := by
  induction pre generalizing b with
  | nil => simpa using exists_occupies_initial seg post
  | cons a pre ih =>
    rw [total_cons]
    constructor
    · intro h
      obtain ⟨i, hle, hlt, hocc⟩ := h
      cases i with
      | zero => simp at hle
      | succ i =>
        rw [List.length_cons] at hle hlt
        obtain ⟨hsize, hocc⟩ := occupies_succ.1 hocc
        have hrest := ih.1 ⟨i, by omega, by omega, hocc⟩
        omega
    intro h
    obtain ⟨i, hle, hlt, hocc⟩ := (ih (b := b - size a)).2 (by omega)
    refine ⟨i + 1, ?_, ?_, occupies_succ.2 ⟨by omega, hocc⟩⟩
    · rw [List.length_cons]; omega
    · rw [List.length_cons]; omega

/-- The elements of a segment have the units of an interval. -/
theorem exists_occupies_segment {pre seg post : List α} (hnodup : (pre ++ (seg ++ post)).Nodup) :
    (∃ i, ∃ x ∈ seg, (pre ++ (seg ++ post))[i]? = some x ∧
      Occupies size (pre ++ (seg ++ post)) i b) ↔
      total size pre ≤ b ∧ b < total size pre + total size seg := by
  rw [← exists_occupies_between pre seg post]
  refine exists_congr fun i => ?_
  constructor
  · intro h
    obtain ⟨x, hx, hget, hocc⟩ := h
    obtain ⟨j, hj⟩ := List.mem_iff_getElem?.1 hx
    have hjlt := (List.getElem?_eq_some_iff.1 hj).1
    have hget' : (pre ++ (seg ++ post))[pre.length + j]? = some x := by
      rw [List.getElem?_append_right (by omega), Nat.add_sub_cancel_left,
        List.getElem?_append_left hjlt, hj]
    have heq : i = pre.length + j :=
      (List.getElem?_inj (List.getElem?_eq_some_iff.1 hget).1 hnodup).1 (hget.trans hget'.symm)
    exact ⟨by omega, by omega, hocc⟩
  intro h
  obtain ⟨hle, hlt, hocc⟩ := h
  have hseg : i - pre.length < seg.length := by omega
  refine ⟨seg[i - pre.length], List.getElem_mem hseg, ?_, hocc⟩
  rw [List.getElem?_append_right hle, List.getElem?_append_left hseg,
    List.getElem?_eq_getElem hseg]

end Oxcaml.Lib.Layout
