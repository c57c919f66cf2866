/-
Oxcaml.Lib.Fuel — computations that end when they have enough fuel.

`Halts f Q`: with enough fuel `f` always returns the same value, without an error,
and the value satisfies `Q`. The rules follow `pure`, `bind`, a call with one unit of
fuel less, and `foldlM`. A loop whose rounds raise a bounded measure halts (§2).
-/
import Mathlib.Tactic

namespace Oxcaml.Lib

variable {ε α β : Type}

/-! ## §1 Rules -/

/-- With enough fuel, the computation returns a value with `Q`. -/
def Halts (f : ℕ → Except ε α) (Q : α → Prop) : Prop :=
  ∃ N a, Q a ∧ ∀ fuel, N ≤ fuel → f fuel = .ok a

namespace Halts

variable {f : ℕ → Except ε α} {Q : α → Prop} {R : β → Prop} {a : α}

theorem pure (h : Q a) : Halts (fun _ => (Pure.pure a : Except ε α)) Q :=
  ⟨0, a, h, fun _ _ => rfl⟩

/-- A computation without fuel. -/
theorem of_ok {r : Except ε α} (hr : r = .ok a) (h : Q a) : Halts (fun _ => r) Q :=
  ⟨0, a, h, fun _ _ => hr⟩

theorem mono {Q' : α → Prop} (h : Halts f Q) (hQ : ∀ a, Q a → Q' a) : Halts f Q' := by
  obtain ⟨N, a, ha, hf⟩ := h
  exact ⟨N, a, hQ a ha, hf⟩

theorem bind {g : ℕ → α → Except ε β} (h : Halts f Q)
    (hg : ∀ a, Q a → Halts (fun fuel => g fuel a) R) :
    Halts (fun fuel => f fuel >>= g fuel) R := by
  obtain ⟨N, a, ha, hf⟩ := h
  obtain ⟨M, b, hb, hg⟩ := hg a ha
  refine ⟨max N M, b, hb, fun fuel hfuel => ?_⟩
  dsimp only
  rw [hf fuel (by omega)]
  exact hg fuel (by omega)

/-- A function that uses one unit of its fuel. -/
theorem of_succ (h : Halts (fun fuel => f (fuel + 1)) Q) : Halts f Q := by
  obtain ⟨N, a, ha, hf⟩ := h
  refine ⟨N + 1, a, ha, fun fuel hfuel => ?_⟩
  obtain ⟨n, rfl⟩ := Nat.exists_eq_succ_of_ne_zero (show fuel ≠ 0 by omega)
  exact hf n (by omega)

/-- An invariant of a fold, indexed by the elements that are left. -/
theorem foldlM {g : ℕ → β → α → Except ε β} {I : List α → β → Prop} {l : List α} {b : β}
    (hb : I l b) (hstep : ∀ x rest b, x ∈ l → I (x :: rest) b →
      Halts (fun fuel => g fuel b x) (I rest)) :
    Halts (fun fuel => l.foldlM (g fuel) b) (I []) := by
  have hrun : ∀ rest b, (∀ x ∈ rest, x ∈ l) → I rest b →
      Halts (fun fuel => rest.foldlM (g fuel) b) (I []) := by
    intro rest
    induction rest with
    | nil => intro b _ hb; exact .pure hb
    | cons x rest ih =>
      intro b hsub hb
      refine (hstep x rest b (hsub x (by simp)) hb).bind fun b' hb' => ih b' ?_ hb'
      intro y hy
      exact hsub y (by simp [hy])
  exact hrun l b (fun _ h => h) hb

end Halts

/-! ## §2 Loops with a bounded measure -/

/-- A loop that ends when its round changes nothing, and else raises a bounded measure. -/
theorem halts_loop (loop : ℕ → α → Except ε α) (round : α → Except ε Bool) (next : α → α)
    (hloop : ∀ fuel a, loop (fuel + 1) a = (do
      let changed ← round a
      if changed then loop fuel (next a) else pure (next a)))
    (I : α → Prop) (measure : α → ℕ) (bound : ℕ)
    (hround : ∀ a, I a → ∃ changed, round a = .ok changed ∧ I (next a) ∧
      (changed = true → measure a < measure (next a)))
    (hbound : ∀ a, I a → measure a ≤ bound) {a : α} (ha : I a) :
    Halts (fun fuel => loop fuel a) fun b => ∃ a, I a ∧ round a = .ok false ∧ b = next a := by
  induction hm : bound - measure a using Nat.strong_induction_on generalizing a with | _ m ih =>
refine .of_succ ?_
simp only [hloop]
obtain ⟨changed, hchanged, hnext, hlt⟩ := hround a ha
rw [hchanged]
cases changed with
| false => exact .pure ⟨a, ha, hchanged, rfl⟩
| true =>
  refine ih (bound - measure (next a)) ?_ hnext rfl
  have h2 := hbound (next a) hnext
  have h3 := hlt rfl
  omega

end Oxcaml.Lib
