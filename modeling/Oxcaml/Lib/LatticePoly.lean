/-
Oxcaml.Lib.LatticePoly — polynomial functions over a distributive lattice.

A function of an assignment of lattice values to variables is a polynomial
here when it is monotone and, in each variable `v`, has the form
`f₀ ⊔ (v ⊓ f₁)` where `f₀` and `f₁` are its values at `v := ⊥` and
`v := ⊤`. Two such functions are therefore compared at these two values of
any variable (`le_iff_restrict`), which is the only way the lemmas below
compare functions.

`IsSub d h l` says that `d` is the co-Heyting subtraction `h \ l` among
polynomials. It is not the pointwise subtraction, which is not monotone in
`l`. `Apart h l` says that subtracting `l` leaves `h` unchanged. `IsImp r a b`
says that `r` is the Heyting implication `a ⇨ b` among polynomials, which again
is not the pointwise one.
-/
import Mathlib.Order.Lattice
import Mathlib.Order.BoundedOrder.Lattice
import Mathlib.Order.BoundedOrder.Monotone
import Mathlib.Logic.Function.Basic

set_option linter.all false

namespace Oxcaml.Lib

open Function

variable {ι L : Type} [DecidableEq ι] [DistribLattice L] [BoundedOrder L]
  {f g lo hi : (ι → L) → L} {v w : ι}

/-! ## Restriction and dependence -/

/-- `f` with the variable `v` fixed. -/
def restrict (f : (ι → L) → L) (v : ι) (x : L) : (ι → L) → L := fun ρ => f (update ρ v x)

/-- `f` does not depend on `v`. -/
def Indep (v : ι) (f : (ι → L) → L) : Prop := ∀ ρ x, f (update ρ v x) = f ρ

/-- The value of a decision on `v`: `lo ⊔ (v ⊓ hi)`. -/
def decide₂ (v : ι) (lo hi : (ι → L) → L) : (ι → L) → L := fun ρ => lo ρ ⊔ (ρ v ⊓ hi ρ)

omit [DistribLattice L] [BoundedOrder L] in
theorem Indep.restrict (h : Indep v f) (x : L) : restrict f v x = f := funext fun ρ => h ρ x

omit [BoundedOrder L] in
theorem restrict_sup (f g : (ι → L) → L) (v : ι) (x : L) :
    restrict (f ⊔ g) v x = restrict f v x ⊔ restrict g v x := rfl

theorem restrict_decide₂_bot (hlo : Indep v lo) : restrict (decide₂ v lo hi) v ⊥ = lo := by
  funext ρ
  simp [restrict, decide₂, hlo ρ ⊥]

theorem restrict_decide₂_top (hlo : Indep v lo) (hhi : Indep v hi) :
    restrict (decide₂ v lo hi) v ⊤ = lo ⊔ hi := by
  funext ρ
  simp [restrict, decide₂, hlo ρ ⊤, hhi ρ ⊤]

/-! ## Polynomials -/

structure IsPoly (f : (ι → L) → L) : Prop where
  mono : Monotone f
  expand : ∀ ρ v x, f (update ρ v x) = f (update ρ v ⊥) ⊔ (x ⊓ f (update ρ v ⊤))

theorem isPoly_const (c : L) : IsPoly fun _ : ι → L => c := by
  refine ⟨monotone_const, fun ρ v x => ?_⟩
  simp

theorem IsPoly.sup (hf : IsPoly f) (hg : IsPoly g) : IsPoly (f ⊔ g) := by
  refine ⟨hf.mono.sup hg.mono, fun ρ v x => ?_⟩
  simp only [Pi.sup_apply]
  rw [hf.expand ρ v x, hg.expand ρ v x, inf_sup_left, sup_sup_sup_comm]

theorem IsPoly.restrict (hf : IsPoly f) (v : ι) (y : L) : IsPoly (restrict f v y) := by
  refine ⟨fun ρ ρ' h => hf.mono (update_le_update_iff.2 ⟨le_rfl, fun w _ => h w⟩), fun ρ w x => ?_⟩
  simp only [Lib.restrict]
  by_cases hvw : w = v
  · subst hvw; simp
  · simp only [update_comm hvw]; exact hf.expand _ _ _

theorem IsPoly.restrict_le (hf : IsPoly f) (v : ι) : Lib.restrict f v ⊥ ≤ Lib.restrict f v ⊤ :=
  fun _ => hf.mono (update_le_update_iff.2 ⟨bot_le, fun _ _ => le_rfl⟩)

theorem IsPoly.decide₂ (hlo : IsPoly lo) (hhi : IsPoly hi) (v : ι) : IsPoly (decide₂ v lo hi) := by
  refine ⟨fun ρ ρ' h => sup_le_sup (hlo.mono h) (inf_le_inf (h v) (hhi.mono h)), fun ρ w x => ?_⟩
  simp only [Lib.decide₂]
  rw [hlo.expand ρ w x, hhi.expand ρ w x]
  by_cases hvw : v = w
  · subst hvw
    have hle : hi (update ρ v ⊥) ≤ hi (update ρ v ⊤) := hhi.restrict_le v ρ
    simp only [update_self, bot_inf_eq, sup_bot_eq, top_inf_eq, inf_sup_left, ← inf_assoc,
      inf_idem, sup_assoc]
    rw [sup_eq_right.2 (inf_le_inf_left x hle)]
  · simp only [update_of_ne hvw, inf_sup_left, inf_left_comm (ρ v) x]; rw [sup_sup_sup_comm]

/-- Polynomials are compared at the two values of a variable. -/
theorem le_iff_restrict (hf : IsPoly f) (hg : IsPoly g) (v : ι) :
    f ≤ g ↔ restrict f v ⊥ ≤ restrict g v ⊥ ∧ restrict f v ⊤ ≤ restrict g v ⊤ := by
  refine ⟨fun h => ⟨fun ρ => h _, fun ρ => h _⟩, fun ⟨h₀, h₁⟩ ρ => ?_⟩
  have hf' := hf.expand ρ v (ρ v)
  have hg' := hg.expand ρ v (ρ v)
  rw [update_eq_self] at hf' hg'
  rw [hf', hg']
  exact sup_le_sup (h₀ ρ) (inf_le_inf_left _ (h₁ ρ))

/-- A decision lies below `g` when its parts do. -/
theorem decide₂_le_iff (hlo : IsPoly lo) (hhi : IsPoly hi) (hlov : Indep v lo) (hhiv : Indep v hi)
    (hg : IsPoly g) :
    decide₂ v lo hi ≤ g ↔ lo ≤ restrict g v ⊥ ∧ hi ≤ restrict g v ⊤ := by
  rw [le_iff_restrict (hlo.decide₂ hhi v) hg v, restrict_decide₂_bot hlov,
    restrict_decide₂_top hlov hhiv, sup_le_iff]
  exact ⟨fun ⟨h₀, _, h₁⟩ => ⟨h₀, h₁⟩, fun ⟨h₀, h₁⟩ => ⟨h₀, h₀.trans (hg.restrict_le v), h₁⟩⟩

/-- A function that does not depend on `v` is compared at `v := ⊥`. -/
theorem le_iff_restrict_bot (hf : IsPoly f) (hg : IsPoly g) (hfv : Indep v f) :
    f ≤ g ↔ f ≤ restrict g v ⊥ := by
  rw [le_iff_restrict hf hg v, hfv.restrict, hfv.restrict]
  exact ⟨And.left, fun h => ⟨h, h.trans (hg.restrict_le v)⟩⟩

/-! ## Subtraction -/

/-- `d` is the least polynomial with `h ≤ l ⊔ d`. -/
def IsSub (d h l : (ι → L) → L) : Prop := ∀ ⦃X⦄, IsPoly X → (d ≤ X ↔ h ≤ l ⊔ X)

/-- Subtracting `l` leaves `h` as it is. -/
def Apart (h l : (ι → L) → L) : Prop := ∀ ⦃X⦄, IsPoly X → h ≤ l ⊔ X → h ≤ X

section Sub

variable {d h l l' : (ι → L) → L}

theorem IsSub.le (hd : IsSub d h l) (hh : IsPoly h) : d ≤ h := (hd hh).2 le_sup_right

theorem IsSub.le_sup (hd : IsSub d h l) (hp : IsPoly d) : h ≤ l ⊔ d := (hd hp).1 le_rfl

theorem isSub_bot (hle : h ≤ l) : IsSub (fun _ => ⊥) h l :=
  fun _ _ => ⟨fun _ => hle.trans le_sup_left, fun _ _ => bot_le⟩

theorem isSub_self_of_bot (hl : ∀ ρ, l ρ = ⊥) : IsSub h h l := by
  intro X _
  have hsup : l ⊔ X = X := funext fun ρ => by simp [hl ρ]
  rw [hsup]

/-- Subtracting twice subtracts the join. -/
theorem IsSub.trans {e : (ι → L) → L} (hd : IsSub d h l) (he : IsSub e d l') (hl' : IsPoly l') :
    IsSub e h (l' ⊔ l) := by
  intro X hX
  rw [he hX, hd (hl'.sup hX), ← sup_assoc, sup_comm l l']

/-- Being apart, in terms of a subtraction. -/
theorem Apart.le_of_isSub (ha : Apart h l) (hd : IsSub d h l) (hp : IsPoly d) : h ≤ d :=
  ha hp (hd.le_sup hp)

theorem apart_of_le (hd : IsSub d h l) (hle : h ≤ d) : Apart h l :=
  fun _ hX hX' => hle.trans ((hd hX).2 hX')

omit [DecidableEq ι] [BoundedOrder L] in
theorem sup_shuffle (a b c : (ι → L) → L) : a ⊔ (b ⊔ (a ⊔ c)) ≤ b ⊔ (a ⊔ c) :=
  sup_le (le_sup_left.trans le_sup_right) le_rfl

theorem Apart.mono (ha : Apart h l) (hle : l' ≤ l) : Apart h l' :=
  fun _ hX hX' => ha hX (hX'.trans (sup_le_sup_right hle _))

theorem Apart.sup {h' : (ι → L) → L} (ha : Apart h l) (ha' : Apart h' l) : Apart (h ⊔ h') l := by
  intro X hX hle
  rw [sup_le_iff] at hle ⊢
  exact ⟨ha hX hle.1, ha' hX hle.2⟩

/-- A subtraction is apart from what was subtracted, and stays apart from
what `h` was apart from. -/
theorem Apart.sub (ha : Apart h l) (hd : IsSub d h l') (hl : IsPoly l) (hl' : IsPoly l') :
    Apart d (l ⊔ l') := by
  intro X hX hle
  have hh : h ≤ l' ⊔ ((l ⊔ l') ⊔ X) := (hd ((hl.sup hl').sup hX)).1 hle
  have hle' : h ≤ l ⊔ (l' ⊔ X) := by
    refine hh.trans ?_
    rw [sup_assoc]
    exact sup_shuffle l' l X
  exact (hd hX).2 (ha (hl'.sup hX) hle')

theorem IsSub.apart (hd : IsSub d h l) (hp : IsPoly d) : Apart d l := by
  intro X hX hle
  refine (hd hX).2 ((hd.le_sup hp).trans ?_)
  exact sup_le le_sup_left hle

/-- Above `l`, a subtraction weighs as much as what it was taken from. -/
theorem IsSub.sup_inf (hd : IsSub d h l) (hp : IsPoly d) (hh : IsPoly h) (ρ : ι → L) (x : L) :
    l ρ ⊔ (x ⊓ d ρ) = l ρ ⊔ (x ⊓ h ρ) := by
  apply le_antisymm
  · exact sup_le_sup_left (inf_le_inf_left x (hd.le hh ρ)) _
  refine sup_le le_sup_left ?_
  calc x ⊓ h ρ ≤ x ⊓ (l ρ ⊔ d ρ) := inf_le_inf_left x (hd.le_sup hp ρ)
    _ = (x ⊓ l ρ) ⊔ (x ⊓ d ρ) := inf_sup_left _ _ _
    _ ≤ l ρ ⊔ (x ⊓ d ρ) := sup_le_sup_right inf_le_right _

/-- Subtraction from a constant is decided at the least assignment. -/
theorem isSub_const {c e : L} (hl : IsPoly l) (he : ∀ x, e ≤ x ↔ c ≤ l ⊥ ⊔ x) :
    IsSub (fun _ => e) (fun _ => c) l := by
  intro X hX
  have hconst : ∀ (a : L) {Y : (ι → L) → L}, IsPoly Y → ((fun _ => a) ≤ Y ↔ a ≤ Y ⊥) :=
    fun a Y hY => ⟨fun hle => hle ⊥, fun hle ρ => hle.trans (hY.mono bot_le)⟩
  rw [hconst e hX, hconst c (hl.sup hX), he]
  rfl

/-- Subtraction from a decision, given what is subtracted on its sides. -/
theorem isSub_decide₂ {lo' hi' l₀ l₁ : (ι → L) → L} (hlo : IsPoly lo) (hhi : IsPoly hi)
    (hlov : Indep v lo) (hhiv : Indep v hi) (hlo' : IsPoly lo') (hhi' : IsPoly hi')
    (hlov' : Indep v lo') (hhiv' : Indep v hi') (hl : IsPoly l) (hl₀ : restrict l v ⊥ = l₀)
    (hl₁ : restrict l v ⊤ = l₁) (h₀ : IsSub lo' lo l₀) (h₁ : IsSub hi' hi l₁) :
    IsSub (decide₂ v lo' hi') (decide₂ v lo hi) l := by
  intro X hX
  rw [decide₂_le_iff hlo' hhi' hlov' hhiv' hX, decide₂_le_iff hlo hhi hlov hhiv (hl.sup hX),
    restrict_sup, restrict_sup, hl₀, hl₁, h₀ (hX.restrict v ⊥), h₁ (hX.restrict v ⊤)]

/-- What does not depend on `v` is only affected by the low side of a
decision on `v`. -/
theorem isSub_of_indep (hh : IsPoly h) (hhv : Indep v h) (hp : IsPoly d) (hdv : Indep v d)
    (hlo : IsPoly lo) (hhi : IsPoly hi) (hlov : Indep v lo) (hd : IsSub d h lo) :
    IsSub d h (decide₂ v lo hi) := by
  intro X hX
  rw [le_iff_restrict_bot hp hX hdv, le_iff_restrict_bot hh ((hlo.decide₂ hhi v).sup hX) hhv,
    restrict_sup, restrict_decide₂_bot hlov, hd (hX.restrict v ⊥)]

end Sub

/-! ## Values of joins and meets of decisions -/

section Values

omit [DecidableEq ι] [BoundedOrder L]

theorem inf_decisions (x a₀ a₁ b₀ b₁ : L) :
    (a₀ ⊔ (x ⊓ a₁)) ⊓ (b₀ ⊔ (x ⊓ b₁)) = (a₀ ⊓ b₀) ⊔ (x ⊓ ((a₁ ⊔ a₀) ⊓ (b₁ ⊔ b₀))) := by
  apply le_antisymm
  · rw [inf_sup_right, inf_sup_left, inf_sup_left]
    refine sup_le (sup_le le_sup_left ?_) (sup_le ?_ ?_)
    · refine le_sup_of_le_right (le_inf (inf_le_right.trans inf_le_left) (le_inf ?_ ?_))
      · exact inf_le_left.trans le_sup_right
      · exact (inf_le_right.trans inf_le_right).trans le_sup_left
    · refine le_sup_of_le_right (le_inf (inf_le_left.trans inf_le_left) (le_inf ?_ ?_))
      · exact (inf_le_left.trans inf_le_right).trans le_sup_left
      · exact inf_le_right.trans le_sup_right
    refine le_sup_of_le_right (le_inf (inf_le_left.trans inf_le_left) (le_inf ?_ ?_))
    · exact (inf_le_left.trans inf_le_right).trans le_sup_left
    · exact (inf_le_right.trans inf_le_right).trans le_sup_left
  refine sup_le (inf_le_inf le_sup_left le_sup_left) (le_inf ?_ ?_)
  · calc x ⊓ ((a₁ ⊔ a₀) ⊓ (b₁ ⊔ b₀)) ≤ x ⊓ (a₁ ⊔ a₀) := inf_le_inf_left x inf_le_left
      _ = (x ⊓ a₁) ⊔ (x ⊓ a₀) := inf_sup_left _ _ _
      _ ≤ a₀ ⊔ (x ⊓ a₁) := sup_le le_sup_right (inf_le_right.trans le_sup_left)
  calc x ⊓ ((a₁ ⊔ a₀) ⊓ (b₁ ⊔ b₀)) ≤ x ⊓ (b₁ ⊔ b₀) := inf_le_inf_left x inf_le_right
    _ = (x ⊓ b₁) ⊔ (x ⊓ b₀) := inf_sup_left _ _ _
    _ ≤ b₀ ⊔ (x ⊓ b₁) := sup_le le_sup_right (inf_le_right.trans le_sup_left)

end Values

/-! ## Implication -/

/-- `r` is the greatest polynomial with `r ⊓ a ≤ b`. -/
def IsImp (r a b : (ι → L) → L) : Prop := ∀ ⦃X⦄, IsPoly X → (X ≤ r ↔ X ⊓ a ≤ b)

section Imp

variable {r a b : (ι → L) → L}

theorem IsPoly.inf (hf : IsPoly f) (hg : IsPoly g) : IsPoly (f ⊓ g) := by
  refine ⟨hf.mono.inf hg.mono, fun ρ v x => ?_⟩
  have hf' : f (update ρ v ⊥) ≤ f (update ρ v ⊤) := hf.restrict_le v ρ
  have hg' : g (update ρ v ⊥) ≤ g (update ρ v ⊤) := hg.restrict_le v ρ
  simp only [Pi.inf_apply]
  rw [hf.expand ρ v x, hg.expand ρ v x, inf_decisions, sup_eq_left.2 hf', sup_eq_left.2 hg']

omit [BoundedOrder L] in
theorem restrict_inf (f g : (ι → L) → L) (v : ι) (x : L) :
    restrict (f ⊓ g) v x = restrict f v x ⊓ restrict g v x := rfl

theorem isImp_top (hle : a ≤ b) : IsImp (fun _ => ⊤) a b :=
  fun _ _ => ⟨fun _ => inf_le_right.trans hle, fun _ _ => le_top⟩

/-- The implication of constants is pointwise. -/
theorem isImp_const {c d e : L} (he : ∀ x, x ≤ e ↔ x ⊓ c ≤ d) :
    IsImp (fun _ : ι → L => e) (fun _ => c) fun _ => d :=
  fun X _ => ⟨fun h ρ => (he (X ρ)).1 (h ρ), fun h ρ => (he (X ρ)).2 (h ρ)⟩

/-- The implication from its two restrictions. The low one also has to imply at the top:
a polynomial is monotone. -/
theorem isImp_decide₂ {r₀ r₁ a₀ a₁ b₀ b₁ : (ι → L) → L} (hr₀ : IsPoly r₀) (hr₁ : IsPoly r₁)
    (hr₀v : Indep v r₀) (hr₁v : Indep v r₁) (ha : IsPoly a) (hb : IsPoly b)
    (ha₀ : restrict a v ⊥ = a₀) (ha₁ : restrict a v ⊤ = a₁) (hb₀ : restrict b v ⊥ = b₀)
    (hb₁ : restrict b v ⊤ = b₁) (h₀ : IsImp r₀ a₀ b₀) (h₁ : IsImp r₁ a₁ b₁) :
    IsImp (decide₂ v (r₀ ⊓ r₁) r₁) a b := by
  intro X hX
  have hlov : Indep v (r₀ ⊓ r₁) := fun ρ x => by
    simp [hr₀v ρ x, hr₁v ρ x]
  rw [le_iff_restrict hX ((hr₀.inf hr₁).decide₂ hr₁ v) v, le_iff_restrict (hX.inf ha) hb v,
    restrict_decide₂_bot hlov, restrict_decide₂_top hlov hr₁v, restrict_inf, restrict_inf, ha₀,
    ha₁, hb₀, hb₁, ← h₀ (hX.restrict v ⊥), ← h₁ (hX.restrict v ⊤), sup_eq_right.2 inf_le_right,
    le_inf_iff]
  constructor
  · intro h; exact ⟨h.1.1, h.2⟩
  · intro h; exact ⟨⟨h.1, (hX.restrict_le v).trans h.2⟩, h.2⟩

end Imp

end Oxcaml.Lib
