/-
Oxcaml.Lib.StateRules — computations with a state that keep an invariant of it.

`Returns I x Q`: from every state with `I` the computation `x` returns, without an
error, a value with `Q`, and the state that it leaves has `I` again. The rules follow
`pure`, `bind`, the access to the state, a computation that has no state, and `foldlM`.
-/
import Mathlib.Tactic

namespace Oxcaml.Lib

variable {σ ε α β ι : Type}

/-- The computation keeps the invariant and returns a value with `Q`. -/
def Returns (I : σ → Prop) (x : StateT σ (Except ε) α) (Q : α → Prop) : Prop :=
  ∀ s, I s → ∃ a s', x s = .ok (a, s') ∧ I s' ∧ Q a

namespace Returns

variable {I : σ → Prop} {x : StateT σ (Except ε) α} {Q : α → Prop} {R : β → Prop} {a : α}

theorem pure (h : Q a) : Returns I (Pure.pure a : StateT σ (Except ε) α) Q :=
  fun s hs => ⟨a, s, rfl, hs, h⟩

theorem bind {f : α → StateT σ (Except ε) β} (hx : Returns I x Q)
    (hf : ∀ a, Q a → Returns I (f a) R) : Returns I (x >>= f) R := by
  intro s hs
  obtain ⟨a, s1, h1, hs1, ha⟩ := hx s hs
  obtain ⟨b, s2, h2, hs2, hb⟩ := hf a ha s1 hs1
  refine ⟨b, s2, ?_, hs2, hb⟩
  show (x s >>= fun p => f p.1 p.2) = _
  rw [h1]
  exact h2

theorem mono {Q' : α → Prop} (h : Returns I x Q) (hQ : ∀ a, Q a → Q' a) : Returns I x Q' := by
  intro s hs
  obtain ⟨a, s', hx, hs', ha⟩ := h s hs
  exact ⟨a, s', hx, hs', hQ a ha⟩

/-- A computation without state. -/
theorem lift {r : Except ε α} (hr : r = .ok a) (h : Q a) :
    Returns I (liftM r : StateT σ (Except ε) α) Q := by
  subst hr
  exact fun s hs => ⟨a, s, rfl, hs, h⟩

theorem get : Returns (ε := ε) I (getThe σ) I :=
  fun s hs => ⟨s, s, rfl, hs, hs⟩

theorem modify {f : σ → σ} (h : ∀ s, I s → I (f s)) :
    Returns (ε := ε) I (modifyThe σ f) fun _ => True :=
  fun s hs => ⟨(), f s, rfl, h s hs, trivial⟩

/-- The value is the same for all that is said of it. -/
theorem all {Q : ι → α → Prop} (hx : Returns I x fun _ => True) (h : ∀ i, Returns I x (Q i)) :
    Returns I x fun a => ∀ i, Q i a := by
  intro s hs
  obtain ⟨a, s', ha, hs', -⟩ := hx s hs
  refine ⟨a, s', ha, hs', fun i => ?_⟩
  obtain ⟨a', s'', ha', -, hQ⟩ := h i s hs
  have heq := ha.symm.trans ha'
  simp only [Except.ok.injEq, Prod.mk.injEq] at heq
  exact heq.1 ▸ hQ

/-- An invariant of a fold, indexed by the elements that are left. -/
theorem foldlM {f : β → α → StateT σ (Except ε) β} {J : List α → β → Prop} {l : List α} {b : β}
    (hb : J l b) (hstep : ∀ a rest b, a ∈ l → J (a :: rest) b → Returns I (f b a) (J rest)) :
    Returns I (l.foldlM f b) (J []) := by
  induction l generalizing b with
  | nil => exact pure hb
  | cons a rest ih =>
    refine bind (hstep a rest b List.mem_cons_self hb) fun b' hb' => ?_
    exact ih hb' fun a' rest' b'' ha' => hstep a' rest' b'' (List.mem_cons_of_mem _ ha')

end Returns

end Oxcaml.Lib
