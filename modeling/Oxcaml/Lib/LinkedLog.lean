/-
Oxcaml.Lib.LinkedLog — a log kept as a linked list of mutable cells.

A cell holds an entry and the address of the next cell, or it is the open
end of a log, or it has been given up. Whoever holds the address of a cell
holds a point of the log: the entries from there to the open end are those
written since. `Path m r cs r'` says that the cells of the memory `m` from
`r` to `r'` hold the entries `cs`, oldest first.

Addresses are handed out in increasing order, so links go upwards
(`Upward`), and what happens below or above a stretch of the log does not
touch it.
-/
import Mathlib.Tactic
import Mathlib.Logic.Function.Basic

namespace Oxcaml.Lib

/-- The contents of a cell of a log. -/
inductive Cell (χ : Type*)
  | change (entry : χ) (next : Nat)
  | unchanged
  | invalid
  deriving DecidableEq

variable {χ : Type*} {m m' : Nat → Cell χ} {r r' r'' n : Nat} {c : χ} {cs ds : List χ}

/-- The cells from `r` to `r'` hold the entries `cs`. -/
inductive Path (m : Nat → Cell χ) : Nat → List χ → Nat → Prop
  | nil {r : Nat} : Path m r [] r
  | cons {r n r' : Nat} {c : χ} {cs : List χ} :
    m r = .change c n → Path m n cs r' → Path m r (c :: cs) r'

/-- Links lead to younger cells. -/
def Upward (m : Nat → Cell χ) : Prop := ∀ r c n, m r = .change c n → r < n

namespace Path

theorem append (h : Path m r cs r') (h' : Path m r' ds r'') : Path m r (cs ++ ds) r'' := by
  induction h with
  | nil => exact h'
  | cons hr h ih => exact .cons hr (ih h')

theorem snoc (h : Path m r cs r') (hr : m r' = .change c n) : Path m r (cs ++ [c]) n :=
  h.append (.cons hr .nil)

theorem eq_nil (h : Path m r cs r') (hr : m r = .unchanged) : cs = [] ∧ r' = r := by
  cases h with
  | nil => exact ⟨rfl, rfl⟩
  | cons hc => simp [hr] at hc

theorem le (hm : Upward m) (h : Path m r cs r') : r ≤ r' := by
  induction h with
  | nil => exact le_rfl
  | cons hr h ih => exact (hm _ _ _ hr).le.trans ih

theorem lt (hm : Upward m) (h : Path m r cs r') (hne : cs ≠ []) : r < r' := by
  cases h with
  | nil => exact absurd rfl hne
  | cons hr h => exact (hm _ _ _ hr).trans_le (h.le hm)

/-- A path depends only on the cells that it goes through. -/
theorem congr (hm : Upward m) (h : Path m r cs r') (heq : ∀ x, r ≤ x → x < r' → m' x = m x) :
    Path m' r cs r' := by
  induction h with
  | nil => exact .nil
  | @cons r n r' c cs hr h ih =>
    have hlt : r < n := hm _ _ _ hr
    refine .cons ((heq r le_rfl (hlt.trans_le (h.le hm))).trans hr) (ih ?_)
    intro x hx hx'
    exact heq x (hlt.le.trans hx) hx'

/-- A log that can be read to its open end starts in no given-up cell. -/
theorem ne_invalid (h : Path m r cs r') (hr' : m r' = .unchanged) : m r ≠ .invalid := by
  cases h with
  | nil => simp [hr']
  | cons hr => simp [hr]

end Path

end Oxcaml.Lib
