/-
Oxcaml.Lib.Arrays — lists as arrays, whose accesses can be out of bounds.

`read` and `write` are the accesses, with the error that they throw; `foldlM_ok` is the
rule of a loop that throws no error.
-/
import Mathlib.Tactic

namespace Oxcaml.Lib

variable {ε α β : Type}

/-- `a.(i)`. -/
def read (e : ε) (a : List α) (i : ℕ) : Except ε α :=
  match a[i]? with
  | some x => .ok x
  | none => .error e

/-- `a.(i) <- x`. -/
def write (e : ε) (a : List α) (i : ℕ) (x : α) : Except ε (List α) :=
  if i < a.length then .ok (a.set i x) else .error e

variable {e : ε} {a : List α} {i : ℕ} {x : α}

theorem read_eq (h : a[i]? = some x) : read e a i = .ok x := by
  simp [read, h]

theorem read_eq_iff : read e a i = .ok x ↔ a[i]? = some x := by
  unfold read
  cases h : a[i]? with
  | none | some y => simp

theorem write_eq (h : i < a.length) (x : α) : write e a i x = .ok (a.set i x) := if_pos h

theorem read_getD {d : α} (h : i < a.length) : read e a i = .ok (a.getD i d) :=
  read_eq (by simp [h])

theorem getD_set {d : α} (h : i < a.length) (x : α) (j : ℕ) :
    (a.set i x).getD j d = if j = i then x else a.getD j d := by
  unfold List.getD
  rcases eq_or_ne j i with rfl | hne
  · rw [List.getElem?_set_self h, if_pos rfl]; rfl
  · rw [List.getElem?_set_ne (Ne.symm hne), if_neg hne]

variable {f : α → Except ε β}

theorem bind_eq_ok {r : Except ε α} {b : β} : (r >>= f) = .ok b ↔ ∃ a, r = .ok a ∧ f a = .ok b := by
  cases r with
  | error e | ok a => simp [bind, Except.bind]

/-- A map that throws no error. -/
theorem mapM_ok {P : α → β → Prop} {l : List α}
    (h : ∀ x ∈ l, ∃ y, f x = .ok y ∧ P x y) : ∃ ys, l.mapM f = .ok ys ∧ List.Forall₂ P l ys := by
  induction l with
  | nil => exact ⟨[], rfl, .nil⟩
  | cons x l ih =>
    obtain ⟨y, hy, hP⟩ := h x List.mem_cons_self
    obtain ⟨ys, hys, hall⟩ := ih fun z hz => h z (List.mem_cons_of_mem _ hz)
    refine ⟨y :: ys, ?_, .cons hP hall⟩
    rw [List.mapM_cons, hy, hys]
    rfl

/-- An invariant of a loop, indexed by the elements that are done. -/
theorem foldlM_ok {f : β → α → Except ε β} {l : List α} {I : List α → β → Prop} {b : β}
    (hb : I [] b) (hstep : ∀ done x rest b, l = done ++ x :: rest → I done b →
      ∃ b', f b x = .ok b' ∧ I (done ++ [x]) b') :
    ∃ b', l.foldlM f b = .ok b' ∧ I l b' := by
  have hrun : ∀ rest done b, l = done ++ rest → I done b →
      ∃ b', rest.foldlM f b = .ok b' ∧ I l b' := by
    intro rest
    induction rest with
    | nil =>
      intro done b hl hb
      rw [List.append_nil] at hl
      exact ⟨b, rfl, hl ▸ hb⟩
    | cons x rest ih =>
      intro done b hl hb
      obtain ⟨b', hf, hb'⟩ := hstep done x rest b hl hb
      obtain ⟨b'', hrest, hb''⟩ := ih (done ++ [x]) b' (by simp [hl]) hb'
      refine ⟨b'', ?_, hb''⟩
      rw [List.foldlM_cons, hf]
      exact hrest
  exact hrun l [] b rfl hb

end Oxcaml.Lib
