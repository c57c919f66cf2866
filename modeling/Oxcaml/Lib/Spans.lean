/-
Oxcaml.Lib.Spans — labelled intervals of integers, in increasing order.

A list of spans is a partial function: `Picks l x a` says that `x` is in a span with
the label `a`. Cutting an ascending list at a span separates what it picks by
comparing with the lower end of that span (§2). Spans may be widened over gaps and
over spans that are taken away, as long as the list stays ascending: `Widens` keeps
what the old list picks (§3).
-/
import Mathlib.Tactic
import Mathlib.Data.List.Pairwise

namespace Oxcaml.Lib

open List (mem_append mem_append_left mem_cons pairwise_cons)

/-! ## §1 Spans -/

structure Span (α : Type) where
  low : ℤ
  high : ℤ
  act : α
  deriving DecidableEq

variable {α : Type}

namespace Span

def Contains (s : Span α) (x : ℤ) : Prop := s.low ≤ x ∧ x ≤ s.high

/-- The spans are not empty, and each is below the next. -/
structure Ascending (l : List (Span α)) : Prop where
  nonempty : ∀ s ∈ l, s.low ≤ s.high
  below : l.Pairwise fun s t => s.high < t.low

/-- The label of the span that has `x`. -/
def Picks (l : List (Span α)) (x : ℤ) (a : α) : Prop := ∃ s ∈ l, s.Contains x ∧ s.act = a

/-- All spans are between the bounds. -/
def Within (l : List (Span α)) (low high : ℤ) : Prop := ∀ s ∈ l, low ≤ s.low ∧ s.high ≤ high

variable {low high x : ℤ} {a : α} {l l' : List (Span α)}

theorem Picks.within (h : Picks l x a) (hl : Within l low high) : low ≤ x ∧ x ≤ high := by
  obtain ⟨s, hs, ⟨h1, h2⟩, -⟩ := h
  obtain ⟨h3, h4⟩ := hl s hs
  exact ⟨h3.trans h1, h2.trans h4⟩

theorem picks_append : Picks (l ++ l') x a ↔ Picks l x a ∨ Picks l' x a := by
  constructor
  · rintro ⟨s, hs, hx⟩
    rcases mem_append.1 hs with hs | hs
    · exact .inl ⟨s, hs, hx⟩
    · exact .inr ⟨s, hs, hx⟩
  rintro (⟨s, hs, hx⟩ | ⟨s, hs, hx⟩)
  · exact ⟨s, mem_append_left _ hs, hx⟩
  · exact ⟨s, List.mem_append_right _ hs, hx⟩

theorem Within.sublist (h : Within l low high) (hsub : l'.Sublist l) : Within l' low high :=
  fun s hs => h s (hsub.subset hs)

/-! ## §2 Cutting -/

theorem Ascending.sublist (h : Ascending l) (hsub : l'.Sublist l) : Ascending l' :=
  ⟨fun s hs => h.nonempty s (hsub.subset hs), h.below.sublist hsub⟩

theorem Ascending.append_iff :
    Ascending (l ++ l') ↔ Ascending l ∧ Ascending l' ∧ ∀ s ∈ l, ∀ t ∈ l', s.high < t.low := by
  constructor
  · intro h
    obtain ⟨h1, h2, h3⟩ := List.pairwise_append.1 h.below
    exact ⟨⟨fun s hs => h.nonempty s (mem_append_left _ hs), h1⟩,
      ⟨fun s hs => h.nonempty s (List.mem_append_right _ hs), h2⟩, h3⟩
  rintro ⟨h1, h2, h3⟩
  refine ⟨fun s hs => ?_, List.pairwise_append.2 ⟨h1.below, h2.below, h3⟩⟩
  rcases mem_append.1 hs with hs | hs
  · exact h1.nonempty s hs
  · exact h2.nonempty s hs

variable {l rest : List (Span α)} {s : Span α}

/-- What is picked before a span is less than its lower end. -/
theorem Ascending.lt_of_picks (h : Ascending (l ++ s :: rest)) (hx : Picks l x a) : x < s.low := by
  obtain ⟨t, ht, ⟨-, hhigh⟩, -⟩ := hx
  have hlt := (append_iff.1 h).2.2 t ht s List.mem_cons_self
  omega

/-- What is picked from a span on is at least its lower end. -/
theorem Ascending.le_of_picks {rest : List (Span α)} (h : Ascending (s :: rest))
    (hx : Picks (s :: rest) x a) : s.low ≤ x := by
  obtain ⟨t, ht, ⟨hlow, -⟩, -⟩ := hx
  rcases mem_cons.1 ht with rfl | ht
  · exact hlow
  have hlt := (pairwise_cons.1 h.below).1 t ht
  have hs := h.nonempty s List.mem_cons_self
  omega

/-- What is picked up to a span is at most its upper end. -/
theorem Ascending.le_high_of_picks (h : Ascending (l ++ [s])) (hx : Picks (l ++ [s]) x a) : x ≤
    s.high := by
  rcases picks_append.1 hx with hx | ⟨t, ht, ⟨-, hhigh⟩, -⟩
  · have hlt := h.lt_of_picks hx
    have hs := h.nonempty s (by simp)
    omega
  · rw [List.mem_singleton] at ht; exact ht ▸ hhigh

/-- What is picked after a span is more than its upper end. -/
theorem Ascending.high_lt_of_picks
    (h : Ascending ((l ++ [s]) ++ rest)) (hx : Picks rest x a) : s.high < x := by
  obtain ⟨t, ht, ⟨hlow, -⟩, -⟩ := hx
  have hlt := (append_iff.1 h).2.2 s (by simp) t ht
  omega

/-! ## §3 Widening -/

/-- An ascending list that picks all that the old one picks, between the same ends. -/
structure Widens (l l' : List (Span α)) : Prop where
  ascending : Ascending l'
  picks : ∀ x a, Picks l x a → Picks l' x a
  within : ∀ low high, Within l low high → Within l' low high
  acts : ∀ s' ∈ l', ∃ s ∈ l, s'.act = s.act

theorem Widens.refl {l : List (Span α)} (h : Ascending l) : Widens l l :=
  ⟨h, fun _ _ hx => hx, fun _ _ hl => hl, fun s hs => ⟨s, hs, rfl⟩⟩

/-- One span is widened, to the left and to the right, between its neighbours. -/
theorem widens_of_replace (s' : Span α)
    (h : Ascending (l ++ s :: rest)) (hact : s'.act = s.act) (hlow : s'.low ≤ s.low)
    (hhigh : s.high ≤ s'.high) (hleft : ∀ t ∈ l, t.high < s'.low)
    (hright : ∀ t ∈ rest, s'.high < t.low)
    (hwithin : ∀ low high, Within (l ++ s :: rest) low high → low ≤ s'.low ∧ s'.high ≤ high) :
    Widens (l ++ s :: rest) (l ++ s' :: rest) := by
  obtain ⟨h1, h2, h3⟩ := Ascending.append_iff.1 h
  have hs := h2.nonempty s List.mem_cons_self
  refine ⟨Ascending.append_iff.2 ⟨h1, ⟨?_, ?_⟩, ?_⟩, ?_, ?_, ?_⟩
  · intro t ht
    rcases mem_cons.1 ht with rfl | ht
    · omega
    · exact h2.nonempty t (List.mem_cons_of_mem _ ht)
  · exact pairwise_cons.2 ⟨hright, (pairwise_cons.1 h2.below).2⟩
  · intro t ht u hu
    rcases mem_cons.1 hu with rfl | hu
    · exact hleft t ht
    · exact h3 t ht u (List.mem_cons_of_mem _ hu)
  · rintro x a ⟨t, ht, ⟨hx1, hx2⟩, ha⟩
    rcases mem_append.1 ht with ht | ht
    · exact ⟨t, mem_append_left _ ht, ⟨hx1, hx2⟩, ha⟩
    rcases mem_cons.1 ht with rfl | ht
    · exact ⟨s', by simp, ⟨by omega, by omega⟩, hact.trans ha⟩
    · exact ⟨t, by simp [ht], ⟨hx1, hx2⟩, ha⟩
  · intro low high hl t ht
    rcases mem_append.1 ht with ht | ht
    · exact hl t (mem_append_left _ ht)
    rcases mem_cons.1 ht with rfl | ht
    · exact hwithin low high hl
    · exact hl t (by simp [ht])
  intro t ht
  rcases mem_append.1 ht with ht | ht
  · exact ⟨t, mem_append_left _ ht, rfl⟩
  rcases mem_cons.1 ht with rfl | ht
  · exact ⟨s, by simp, hact⟩
  · exact ⟨t, by simp [ht], rfl⟩

/-- Two spans with one label become one span, which covers both. -/
theorem widens_of_merge {t s' : Span α}
    (h : Ascending (l ++ s :: t :: rest)) (hacts : s.act = t.act) (hact : s'.act = s.act)
    (hlow : s'.low ≤ s.low) (hhigh : t.high ≤ s'.high) (hleft : ∀ u ∈ l, u.high < s'.low)
    (hright : ∀ u ∈ rest, s'.high < u.low)
    (hwithin : ∀ low high, Within (l ++ s :: t :: rest) low high → low ≤ s'.low ∧ s'.high ≤ high) :
    Widens (l ++ s :: t :: rest) (l ++ s' :: rest) := by
  obtain ⟨h1, h2, h3⟩ := Ascending.append_iff.1 h
  have hs := h2.nonempty s (by simp)
  have ht := h2.nonempty t (by simp)
  have hst := (pairwise_cons.1 h2.below).1 t (by simp)
  refine ⟨Ascending.append_iff.2 ⟨h1, ⟨?_, ?_⟩, ?_⟩, ?_, ?_, ?_⟩
  · intro u hu
    rcases mem_cons.1 hu with rfl | hu
    · omega
    · exact h2.nonempty u (by simp [hu])
  · refine pairwise_cons.2 ⟨hright, ?_⟩; exact (pairwise_cons.1 (pairwise_cons.1 h2.below).2).2
  · intro u hu v hv
    rcases mem_cons.1 hv with rfl | hv
    · exact hleft u hu
    · exact h3 u hu v (by simp [hv])
  · rintro x a ⟨u, hu, ⟨hx1, hx2⟩, ha⟩
    rcases mem_append.1 hu with hu | hu
    · exact ⟨u, mem_append_left _ hu, ⟨hx1, hx2⟩, ha⟩
    rcases mem_cons.1 hu with rfl | hu
    · exact ⟨s', by simp, ⟨by omega, by omega⟩, hact.trans ha⟩
    rcases mem_cons.1 hu with rfl | hu
    · exact ⟨s', by simp, ⟨by omega, by omega⟩, (hact.trans hacts).trans ha⟩
    · exact ⟨u, by simp [hu], ⟨hx1, hx2⟩, ha⟩
  · intro low high hl u hu
    rcases mem_append.1 hu with hu | hu
    · exact hl u (mem_append_left _ hu)
    rcases mem_cons.1 hu with rfl | hu
    · exact hwithin low high hl
    · exact hl u (by simp [hu])
  intro u hu
  rcases mem_append.1 hu with hu | hu
  · exact ⟨u, mem_append_left _ hu, rfl⟩
  rcases mem_cons.1 hu with rfl | hu
  · exact ⟨s, by simp, hact⟩
  · exact ⟨u, by simp [hu], rfl⟩

end Span

end Oxcaml.Lib
