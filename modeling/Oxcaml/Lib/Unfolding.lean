/-
Oxcaml.Lib.Unfolding — the sequence that a step function yields.

`Unfolds next s l` says that stepping from the state `s` yields the elements
of `l` and then stops. `Unfolds.of_view` is the usual way to show it: the
states have a list as view, which every step shortens by its head.
-/
import Mathlib.Init

namespace Oxcaml.Lib

variable {σ β : Type} {next : σ → Option (β × σ)}

/-- `next`, repeated from a state, yields exactly this list. -/
inductive Unfolds (next : σ → Option (β × σ)) : σ → List β → Prop
  | done {s : σ} : next s = none → Unfolds next s []
  | step {s s' : σ} {b : β} {l : List β} : next s = some (b, s') → Unfolds next s' l →
    Unfolds next s (b :: l)

/-- A view of the states in `I` as lists, which a step takes apart. -/
structure View (next : σ → Option (β × σ)) (I : σ → Prop) (view : σ → List β) : Prop where
  done : ∀ s, I s → view s = [] → next s = none
  step : ∀ s b l, I s → view s = b :: l → ∃ s', next s = some (b, s') ∧ I s' ∧ view s' = l

theorem Unfolds.of_view {I : σ → Prop} {view : σ → List β} (h : View next I view) {s : σ}
    (hs : I s) : Unfolds next s (view s) := by
  induction hl : view s generalizing s with
  | nil => exact .done (h.done s hs hl)
  | cons b l ih =>
    obtain ⟨s', heq, hs', hview⟩ := h.step s b l hs hl
    exact .step heq (ih hs' hview)

end Oxcaml.Lib
