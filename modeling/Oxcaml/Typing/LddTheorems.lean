/-
Oxcaml.Typing.LddTheorems — the diagrams are canonical.

A node denotes the polynomial function that evaluates a block as
`lo ⊔ (v ⊓ hi)` (`den`). The invariant of the source, `hi = hi - lo`, is a
statement about what `canonicalize` returns; the proofs use what it means,
that `den hi` is apart from `den lo` (`Canonical`), and §7 shows that the two
are the same.

§3 proves that a canonical node is determined by its function. §4 to §6 give
one lemma for each operation: on canonical nodes it returns a canonical node
for the function it stands for, whatever physical equality answers.
-/
import Oxcaml.Lib.LatticePoly
import Oxcaml.Typing.Ldd

set_option linter.all false

namespace Oxcaml.Typing.Ldd

open Oxcaml.Lib

variable {V L : Type} [Ordered V] [CoheytingAlgebra L] [DecidableEq L] [DecidableLE L]

/-! ## §1 Denotation -/

/-- The value of a node under an assignment of its variables. -/
def den : Node V L → (Var V → L) → L
  | .leaf c => fun _ => c
  | .block v lo hi _ _ => decide₂ v (den lo) (den hi)

/-- All variables of a node satisfy `P`. -/
def Node.All (P : Var V → Prop) : Node V L → Prop
  | .leaf _ => True
  | .block v lo hi _ _ => P v ∧ lo.All P ∧ hi.All P

variable {n : Node V L} {P Q : Var V → Prop}

theorem Node.All.mono (h : ∀ v, P v → Q v) (hn : n.All P) : n.All Q := by
  induction n with
  | leaf c => trivial
  | block v lo hi d u ihlo ihhi => exact ⟨h v hn.1, ihlo hn.2.1, ihhi hn.2.2⟩

theorem Node.All.and (hp : n.All P) (hq : n.All Q) : n.All fun v => P v ∧ Q v := by
  induction n with
  | leaf c => trivial
  | block v lo hi d u ihlo ihhi => exact ⟨⟨hp.1, hq.1⟩, ihlo hp.2.1 hq.2.1, ihhi hp.2.2 hq.2.2⟩

theorem Node.all_true (n : Node V L) : n.All fun _ => True := by
  induction n with
  | leaf c => trivial
  | block v lo hi d u ihlo ihhi => exact ⟨trivial, ihlo, ihhi⟩

theorem den_isPoly (n : Node V L) : IsPoly (den n) := by
  induction n with
  | leaf c => exact isPoly_const c
  | block v lo hi d u ihlo ihhi => exact ihlo.decide₂ ihhi v

/-- The value depends on the variables of the node only. -/
theorem den_congr {ρ ρ' : Var V → L} (h : n.All fun v => ρ v = ρ' v) : den n ρ = den n ρ' := by
  induction n with
  | leaf c => rfl
  | block v lo hi d u ihlo ihhi => simp only [den, decide₂, h.1, ihlo h.2.1, ihhi h.2.2]

variable {v : Var V}

theorem indep_of_all (h : n.All (· ≠ v)) : Indep v (den n) :=
  fun _ _ => den_congr (h.mono fun _ hw => Function.update_of_ne hw _ _)

theorem indep_of_below (h : n.All (v < ·)) : Indep v (den n) :=
  indep_of_all (h.mono fun _ hw => hw.ne')

/-! ## §2 Canonical nodes -/

/-- What a canonical node requires of one block. -/
structure BlockOk (v : Var V) (lo hi : Node V L) (d u : L) : Prop where
  lo_above : lo.All (v < ·)
  hi_above : hi.All (v < ·)
  hi_ne : hi ≠ bot
  apart : Apart (den hi) (den lo)
  down0_eq : d = den lo ⊥
  up0_eq : u = den lo ⊤ ⊔ den hi ⊤

def Node.Canonical : Node V L → Prop
  | .leaf _ => True
  | .block v lo hi d u => BlockOk v lo hi d u ∧ lo.Canonical ∧ hi.Canonical

section

variable (h : n.Canonical)
include h

theorem down0_eq : down0 n = den n ⊥ := by
  cases n with
  | leaf c => rfl
  | block v lo hi d u => simp [down0, den, decide₂, h.1.down0_eq]

theorem up0_eq : up0 n = den n ⊤ := by
  cases n with
  | leaf c => rfl
  | block v lo hi d u => simp [up0, den, decide₂, h.1.up0_eq]

/-- `down0` and `up0` bound the node. -/
theorem down0_le_den (ρ : Var V → L) : down0 n ≤ den n ρ := by
  rw [down0_eq h]
  exact (den_isPoly n).mono bot_le

theorem den_le_up0 (ρ : Var V → L) : den n ρ ≤ up0 n := by
  rw [up0_eq h]
  exact (den_isPoly n).mono le_top

end

/-- A node built from canonical sides. -/
structure Built (v : Var V) (lo hi n : Node V L) : Prop where
  canonical : n.Canonical
  den_eq : den n = decide₂ v (den lo) (den hi)

theorem decide₂_bot (v : Var V) (f : (Var V → L) → L) : decide₂ v f (fun _ => ⊥) = f := by
  funext ρ
  simp [decide₂]

variable {lo hi : Node V L}

theorem built_nodeRaw (hlo : lo.Canonical) (hhi : hi.Canonical)
    (hlov : lo.All (v < ·)) (hhiv : hi.All (v < ·)) (hap : Apart (den hi) (den lo)) :
    Built v lo hi (nodeRaw v lo hi) := by
  rw [nodeRaw]
  split
  case isTrue h => rw [eq_bot_of_isBotNode h]; exact ⟨hlo, (decide₂_bot v _).symm⟩
  case isFalse h =>
    refine ⟨⟨⟨hlov, hhiv, ?_, hap, down0_eq hlo, ?_⟩, hlo, hhi⟩, rfl⟩
    · rintro rfl; exact h (by simp [isBotNode, bot])
    · rw [up0_eq hlo, up0_eq hhi]

variable {d u : L}

theorem nodeRaw_eq_block
    (h : (Node.block v lo hi d u).Canonical) : nodeRaw v lo hi = .block v lo hi d u := by
  obtain ⟨hok, hlo, hhi⟩ := h
  have hbot : ¬ isBotNode hi = true := fun hb => hok.hi_ne (eq_bot_of_isBotNode hb)
  rw [nodeRaw, if_neg hbot, makeNode, down0_eq hlo, up0_eq hlo, up0_eq hhi, hok.down0_eq,
    hok.up0_eq]

/-- Sharing an unchanged block changes nothing. -/
theorem rebuild_eq (peq : PhysEq V L)
    (h : (Node.block v lo hi d u).Canonical) (lo' hi' : Node V L) :
    rebuild peq v lo hi d u lo' hi' = nodeRaw v lo' hi' := by
  rw [rebuild]
  split
  case isTrue heq =>
    rw [Bool.and_eq_true] at heq
    rw [← peq.eq_sound heq.1, ← peq.eq_sound heq.2, nodeRaw_eq_block h]
  case isFalse => rfl

/-! ## §3 Canonicity -/

theorem restrict_block_bot (h : BlockOk v lo hi d u) :
    restrict (den (.block v lo hi d u)) v ⊥ = den lo :=
  restrict_decide₂_bot (indep_of_below h.lo_above)

theorem restrict_block_top (h : BlockOk v lo hi d u) :
    restrict (den (.block v lo hi d u)) v ⊤ = den lo ⊔ den hi :=
  restrict_decide₂_top (indep_of_below h.lo_above) (indep_of_below h.hi_above)

theorem eq_bot_of_den (hn : n.Canonical) (h : ∀ ρ, den n ρ = ⊥) : n = bot := by
  induction n with
  | leaf c => have hc : c = ⊥ := h fun _ => ⊥; rw [hc, bot]
  | block v lo hi d u _ ihhi =>
    refine absurd (ihhi hn.2.2 fun ρ => ?_) hn.1.hi_ne
    have htop : restrict (den (.block v lo hi d u)) v ⊤ ρ = ⊥ := h _
    rw [restrict_block_top hn.1, Pi.sup_apply, sup_eq_bot_iff] at htop
    exact htop.2

/-- A canonical node depends on its top variable. -/
theorem not_indep
    (h : (Node.block v lo hi d u).Canonical) : ¬ Indep v (den (.block v lo hi d u)) := by
  intro hind
  have hsides := (hind.restrict ⊤).trans (hind.restrict ⊥).symm
  rw [restrict_block_top h.1, restrict_block_bot h.1] at hsides
  have hle : den hi ≤ den lo ⊔ fun _ => ⊥ := by
    refine le_sup_right.trans (hsides.le.trans ?_)
    exact le_sup_left
  exact h.1.hi_ne (eq_bot_of_den h.2.2 fun ρ => le_bot_iff.1 (h.1.apart (isPoly_const ⊥) hle ρ))

theorem block_above {v w : Var V} (h : BlockOk w lo hi d u)
    (hvw : v < w) : (Node.block w lo hi d u).All (v < ·) :=
  ⟨hvw, h.lo_above.mono fun _ hx => hvw.trans hx, h.hi_above.mono fun _ hx => hvw.trans hx⟩

variable {lo hi hi' a b lo' : Node V L}

theorem BlockOk.hi_le {d u d' u' : L} (h : BlockOk v lo hi d u) (h' : BlockOk v lo hi' d' u')
    (heq : den (.block v lo hi d u) = den (.block v lo hi' d' u')) : den hi ≤ den hi' := by
  have htop := congrArg (restrict · v ⊤) heq
  simp only [restrict_block_top h, restrict_block_top h'] at htop
  exact h.apart (den_isPoly hi') (le_sup_right.trans htop.le)

/-- Canonical nodes with the same function are equal. -/
theorem eq_of_den_eq (ha : a.Canonical) (hb : b.Canonical) (h : den a = den b) : a = b := by
  induction a generalizing b with
  | leaf c =>
    cases b with
    | leaf c' => have hc : c = c' := congrFun h fun _ => ⊥; rw [hc]
    | block w lo hi d u => exact absurd (h ▸ fun _ _ => rfl) (not_indep hb)
  | block v lo hi d u ihlo ihhi =>
    cases b with
    | leaf c' => exact absurd (h ▸ fun _ _ => rfl) (not_indep ha)
    | block w lo' hi' d' u' =>
      rcases lt_trichotomy v w with hlt | rfl | hgt
      · exact absurd (h ▸ indep_of_below (block_above hb.1 hlt)) (not_indep ha)
      · have hbot := congrArg (restrict · v ⊥) h
        simp only [restrict_block_bot ha.1, restrict_block_bot hb.1] at hbot
        obtain rfl := ihlo ha.2.1 hb.2.1 hbot
        obtain rfl := ihhi ha.2.2 hb.2.2 (le_antisymm (ha.1.hi_le hb.1 h) (hb.1.hi_le ha.1 h.symm))
        rw [ha.1.down0_eq, ha.1.up0_eq, hb.1.down0_eq, hb.1.up0_eq]
      · exact absurd (h ▸ indep_of_below (block_above ha.1 hgt)) (not_indep hb)

/-! ## §4 Subtraction -/

section Operations

variable (peq : PhysEq V L)

variable {P : Var V → Prop}

theorem nodeRaw_all (hv : P v) (hlo : lo.All P) (hhi : hi.All P) : (nodeRaw v lo hi).All P := by
  rw [nodeRaw]
  split
  · exact hlo
  · exact ⟨hv, hlo, hhi⟩

variable {lo hi lo' hi' : Node V L}

theorem rebuild_all (h : (Node.block v lo hi d u).All P) (hlo : lo'.All P) (hhi : hi'.All P) :
    (rebuild peq v lo hi d u lo' hi').All P := by
  rw [rebuild]
  split
  · exact h
  · exact nodeRaw_all h.1 hlo hhi

theorem canonicalizeRightLeafAux_all (l : L) (h : n.All P) :
    (canonicalizeRightLeafAux peq l n).All P := by
  induction n with
  | leaf c => trivial
  | block v lo hi d u ihlo ihhi => exact rebuild_all peq h (ihlo h.2.1) (ihhi h.2.2)

theorem canonicalizeRightLeaf_all (l : L) (h : n.All P) :
    (canonicalizeRightLeaf peq n l).All P := by
  rw [canonicalizeRightLeaf]
  split
  · exact h
  split
  · trivial
  · exact canonicalizeRightLeafAux_all peq l h

/-- What subtracting `l` from `n` has to return. -/
structure SubSpec (n r : Node V L) (l : (Var V → L) → L) : Prop where
  canonical : r.Canonical
  isSub : IsSub (den r) (den n) l

/-- The sides of a block have been subtracted from. -/
theorem subSpec_rebuild {l l₀ l₁ : (Var V → L) → L}
    (h : (Node.block v lo hi d u).Canonical) (hl : IsPoly l) (hl₀ : restrict l v ⊥ = l₀)
    (hl₁ : restrict l v ⊤ = l₁) (h₀ : SubSpec lo lo' l₀) (h₁ : SubSpec hi hi' l₁)
    (hlo' : lo'.All (v < ·)) (hhi' : hi'.All (v < ·)) :
    SubSpec (.block v lo hi d u) (rebuild peq v lo hi d u lo' hi') l := by
  have hl₁' : IsPoly l₁ := hl₁ ▸ hl.restrict v ⊤
  have hap : Apart (den hi') (den lo') :=
    (h.1.apart.sub h₁.isSub (den_isPoly lo) hl₁').mono
      ((h₀.isSub.le (den_isPoly lo)).trans le_sup_left)
  have hbuilt := built_nodeRaw h₀.canonical h₁.canonical hlo' hhi' hap
  rw [rebuild_eq peq h]
  refine ⟨hbuilt.canonical, ?_⟩
  rw [hbuilt.den_eq]
  exact isSub_decide₂ (den_isPoly lo) (den_isPoly hi) (indep_of_below h.1.lo_above)
    (indep_of_below h.1.hi_above) (den_isPoly lo') (den_isPoly hi') (indep_of_below hlo')
    (indep_of_below hhi') hl hl₀ hl₁ h₀.isSub h₁.isSub

theorem canonicalizeRightLeafAux_spec (l : L) (h : n.Canonical) :
    SubSpec n (canonicalizeRightLeafAux peq l n) fun _ => l := by
  induction n with
  | leaf c => exact ⟨trivial, isSub_const (isPoly_const l) fun x => sdiff_le_iff⟩
  | block v lo hi d u ihlo ihhi =>
    exact subSpec_rebuild peq h (isPoly_const l) rfl rfl (ihlo h.2.1) (ihhi h.2.2)
      (canonicalizeRightLeafAux_all peq l h.1.lo_above)
      (canonicalizeRightLeafAux_all peq l h.1.hi_above)

theorem canonicalizeRightLeaf_spec (l : L) (h : n.Canonical) :
    SubSpec n (canonicalizeRightLeaf peq n l) fun _ => l := by
  rw [canonicalizeRightLeaf]
  split
  case isTrue hl => exact ⟨h, isSub_self_of_bot fun _ => hl⟩
  case isFalse =>
  split
  case isTrue hle => exact ⟨trivial, isSub_bot fun ρ => (den_le_up0 h ρ).trans hle⟩
  case isFalse => exact canonicalizeRightLeafAux_spec peq l h

/-- A call of `canonicalize` keeps to the variables of `hi` and, on canonical
nodes, subtracts. -/
theorem canonicalize_correct (hi lo : Node V L) : (∀ P, hi.All P → (canonicalize peq hi lo).All P) ∧
      (hi.Canonical → lo.Canonical → SubSpec hi (canonicalize peq hi lo) (den lo)) := by
  apply canonicalize_induction peq (P := fun hi lo r =>
    (∀ P, hi.All P → r.All P) ∧ (hi.Canonical → lo.Canonical → SubSpec hi r (den lo)))
  case same => exact fun n => ⟨fun _ _ => trivial, fun _ _ => ⟨trivial, isSub_bot le_rfl⟩⟩
  case lo_bot => exact fun n => ⟨fun _ h => h, fun h _ => ⟨h, isSub_self_of_bot fun _ => rfl⟩⟩
  case hi_leaf =>
    refine fun dh lo => ⟨fun _ _ => trivial, fun _ hlo => ⟨trivial, ?_⟩⟩
    rw [down0_eq hlo]
    exact isSub_const (den_isPoly lo) fun x => sdiff_le_iff
  case lo_leaf =>
    exact fun n l => ⟨fun _ h => canonicalizeRightLeaf_all peq l h,
      fun h _ => canonicalizeRightLeaf_spec peq l h⟩
  case eq =>
    intro v hlo hhi hd hu llo lhi ld lu lo' hi1 hi' h0 h1 h2
    have hall : ∀ P, hhi.All P → hi'.All P := fun P h => h2.1 P (h1.1 P h)
    refine ⟨fun P h => rebuild_all peq h (h0.1 P h.2.1) (hall P h.2.2), fun hh hl => ?_⟩
    have hs1 := h1.2 hh.2.2 hl.2.2
    have hs2 := h2.2 hs1.canonical hl.2.1
    refine subSpec_rebuild peq hh (den_isPoly _) (restrict_block_bot hl.1) (restrict_block_top hl.1)
      (h0.2 hh.2.1 hl.2.1) ⟨hs2.canonical, ?_⟩ (h0.1 _ hh.1.lo_above) (hall _ hh.1.hi_above)
    exact hs1.isSub.trans hs2.isSub (den_isPoly llo)
  case lt =>
    intro hv hlo hhi hd hu lv llo lhi ld lu lo' hi' hlt h0 h1
    refine ⟨fun P h => rebuild_all peq h (h0.1 P h.2.1) (h1.1 P h.2.2), fun hh hl => ?_⟩
    have hind := indep_of_below (block_above hl.1 hlt)
    exact subSpec_rebuild peq hh (den_isPoly _) (hind.restrict ⊥) (hind.restrict ⊤)
      (h0.2 hh.2.1 hl) (h1.2 hh.2.2 hl) (h0.1 _ hh.1.lo_above) (h1.1 _ hh.1.hi_above)
  case gt =>
    intro hv hlo hhi hd hu lv llo lhi ld lu r hgt h
    refine ⟨h.1, fun hh hl => ⟨(h.2 hh hl.2.1).canonical, ?_⟩⟩
    have habove := block_above hh.1 hgt
    exact isSub_of_indep (den_isPoly _) (indep_of_below habove) (den_isPoly r)
      (indep_of_below (h.1 _ habove)) (den_isPoly llo) (den_isPoly lhi)
      (indep_of_below hl.1.lo_above) (h.2 hh hl.2.1).isSub

theorem canonicalize_all (h : hi.All P) (lo : Node V L) : (canonicalize peq hi lo).All P :=
  (canonicalize_correct peq hi lo).1 P h

theorem canonicalize_spec (hhi : hi.Canonical) (hlo : lo.Canonical) :
    SubSpec hi (canonicalize peq hi lo) (den lo) :=
  (canonicalize_correct peq hi lo).2 hhi hlo

/-- Subtracting what is already apart changes nothing. -/
theorem canonicalize_eq_self_iff (hhi : hi.Canonical) (hlo : lo.Canonical) :
    canonicalize peq hi lo = hi ↔ Apart (den hi) (den lo) := by
  have hspec := canonicalize_spec peq hhi hlo
  constructor
  · intro heq; exact apart_of_le hspec.isSub (by rw [heq])
  intro hap
  refine eq_of_den_eq hspec.canonical hhi (le_antisymm (hspec.isSub.le (den_isPoly hi)) ?_)
  exact hap.le_of_isSub hspec.isSub (den_isPoly _)

theorem node_eq_nodeRaw (hlo : lo.Canonical) (hhi : hi.Canonical) (v : Var V) :
    ∃ hi', node peq v lo hi = nodeRaw v lo hi' ∧ SubSpec hi hi' (den lo) ∧
      ∀ P, hi.All P → hi'.All P := by
  rw [node]
  split
  case isTrue h =>
    rw [eq_bot_of_isBotNode h]
    exact ⟨hi, rfl, ⟨hhi, isSub_self_of_bot fun _ => rfl⟩, fun _ h => h⟩
  case isFalse =>
    exact ⟨_, rfl, canonicalize_spec peq hhi hlo, fun _ h => canonicalize_all peq h lo⟩

theorem built_node (hlo : lo.Canonical) (hhi : hi.Canonical)
    (hlov : lo.All (v < ·)) (hhiv : hi.All (v < ·)) : Built v lo hi (node peq v lo hi) := by
  obtain ⟨hi', heq, hspec, hall⟩ := node_eq_nodeRaw peq hlo hhi v
  have hbuilt := built_nodeRaw hlo hspec.canonical hlov (hall _ hhiv)
    (hspec.isSub.apart (den_isPoly hi'))
  rw [heq]
  refine ⟨hbuilt.canonical, hbuilt.den_eq.trans ?_⟩
  funext ρ
  exact hspec.isSub.sup_inf (den_isPoly hi') (den_isPoly hi) ρ (ρ v)

theorem node_all (hv : P v) (hlo : lo.All P) (hhi : hi.All P) : (node peq v lo hi).All P := by
  rw [node]
  split
  · exact nodeRaw_all hv hlo hhi
  · exact nodeRaw_all hv hlo (canonicalize_all peq hhi lo)

theorem rebuildCanonical_eq (h : (Node.block v lo hi d u).Canonical) (lo' hi' : Node V L) :
    rebuildCanonical peq v lo hi d u lo' hi' = node peq v lo' hi' := by
  rw [rebuildCanonical]
  split
  case isTrue heq =>
    rw [Bool.and_eq_true] at heq
    rw [peq.eq_sound heq.1, peq.eq_sound heq.2, node,
      (canonicalize_eq_self_iff peq h.2.2 h.2.1).2 h.1.apart, nodeRaw_eq_block h, ite_self]
  case isFalse => rfl

theorem rebuildCanonical_all
    (h : (Node.block v lo hi d u).All P) (hlo : lo'.All P) (hhi : hi'.All P) :
    (rebuildCanonical peq v lo hi d u lo' hi').All P := by
  rw [rebuildCanonical]
  split
  · exact h
  · exact node_all peq h.1 hlo hhi

/-! ## §5 Join and meet -/

/-- `n` is the canonical node of the function `f`. -/
structure Denotes (n : Node V L) (f : (Var V → L) → L) : Prop where
  canonical : n.Canonical
  den_eq : den n = f

theorem Built.denotes {n : Node V L} (h : Built v lo hi n) :
    Denotes n (decide₂ v (den lo) (den hi)) :=
  ⟨h.canonical, h.den_eq⟩

theorem Node.Canonical.denotes (h : n.Canonical) : Denotes n (den n) := ⟨h, rfl⟩

theorem Denotes.congr {f g : (Var V → L) → L} (h : Denotes n f)
    (hfg : ∀ ρ, f ρ = g ρ) : Denotes n g :=
  ⟨h.canonical, h.den_eq.trans (funext hfg)⟩

theorem denotes_leaf (c : L) : Denotes (.leaf c : Node V L) fun _ => c := ⟨trivial, rfl⟩

theorem joinWithLeafAux_all (x : L) (h : n.All P) : (joinWithLeafAux peq x n).All P := by
  induction n with
  | leaf c => trivial
  | block v lo hi d u ihlo _ =>
    exact rebuild_all peq h (ihlo h.2.1) (canonicalizeRightLeaf_all peq x h.2.2)

theorem joinWithLeafAux_denotes (x : L) (h : n.Canonical) :
    Denotes (joinWithLeafAux peq x n) fun ρ => x ⊔ den n ρ := by
  induction n with
  | leaf c => exact denotes_leaf _
  | block v lo hi d u ihlo _ =>
    have hlo := ihlo h.2.1
    have hsub := canonicalizeRightLeaf_spec peq x h.2.2
    have hap : Apart (den (canonicalizeRightLeaf peq hi x)) (den (joinWithLeafAux peq x lo)) := by
      rw [hlo.den_eq]
      refine (h.1.apart.sub hsub.isSub (den_isPoly lo) (isPoly_const x)).mono fun ρ => ?_
      exact (sup_comm _ _).le
    rw [joinWithLeafAux, rebuild_eq peq h]
    refine (built_nodeRaw hlo.canonical hsub.canonical (joinWithLeafAux_all peq x h.1.lo_above)
      (canonicalizeRightLeaf_all peq x h.1.hi_above) hap).denotes.congr fun ρ => ?_
    have hweight := hsub.isSub.sup_inf (den_isPoly _) (den_isPoly hi) ρ (ρ v)
    simp only [hlo.den_eq, den, decide₂]
    rw [sup_right_comm, hweight, sup_right_comm, sup_assoc]

theorem joinWithLeaf_denotes (x : L) (h : n.Canonical) :
    Denotes (joinWithLeaf peq x n) fun ρ => x ⊔ den n ρ := by
  rw [joinWithLeaf]
  split
  case isTrue hx => exact (denotes_leaf ⊤).congr fun ρ => by rw [hx, top_sup_eq]
  case isFalse =>
  split
  case isTrue hx =>
    exact h.denotes.congr fun ρ => (sup_eq_right.2 (hx.trans (down0_le_den h ρ))).symm
  case isFalse =>
  split
  case isTrue hx =>
    exact (denotes_leaf x).congr fun ρ => (sup_eq_left.2 ((den_le_up0 h ρ).trans hx)).symm
  case isFalse => exact joinWithLeafAux_denotes peq x h

theorem joinWithLeaf_all (x : L) (h : n.All P) : (joinWithLeaf peq x n).All P := by
  rw [joinWithLeaf]
  split
  · trivial
  split
  · exact h
  split
  · trivial
  · exact joinWithLeafAux_all peq x h

/-- The block that `join'` builds when `a` has the smaller variable. -/
theorem denotes_join_lt (h : (Node.block v lo hi d u).Canonical) (hb : b.Canonical)
    (hlo : Denotes lo' (den lo ⊔ den b)) (hlov : lo'.All (v < ·)) :
    Denotes (nodeRaw v lo' (canonicalize peq hi b)) (den (.block v lo hi d u) ⊔ den b) := by
  have hsub := canonicalize_spec peq h.2.2 hb
  have hap : Apart (den (canonicalize peq hi b)) (den lo') := by
    rw [hlo.den_eq]
    exact h.1.apart.sub hsub.isSub (den_isPoly lo) (den_isPoly b)
  refine (built_nodeRaw hlo.canonical hsub.canonical hlov (canonicalize_all peq h.1.hi_above b)
    hap).denotes.congr fun ρ => ?_
  have hweight := hsub.isSub.sup_inf (den_isPoly _) (den_isPoly hi) ρ (ρ v)
  simp only [hlo.den_eq, den, decide₂, Pi.sup_apply]
  rw [sup_assoc, hweight, sup_assoc, sup_comm (ρ v ⊓ den hi ρ)]

theorem join_correct (a b : Node V L) : (∀ P, a.All P → b.All P → (join peq a b).All P) ∧
      (a.Canonical → b.Canonical → Denotes (join peq a b) (den a ⊔ den b)) := by
  apply join_induction peq (P := fun a b r =>
    (∀ P, a.All P → b.All P → r.All P) ∧ (a.Canonical → b.Canonical → Denotes r (den a ⊔ den b)))
  case same =>
    exact fun n => ⟨fun _ h _ => h, fun h _ => h.denotes.congr fun ρ => (sup_idem _).symm⟩
  case leaf_leaf => exact fun x y => ⟨fun _ _ _ => trivial, fun _ _ => denotes_leaf _⟩
  case leaf_left =>
    exact fun x b => ⟨fun _ _ h => joinWithLeaf_all peq x h,
      fun _ h => joinWithLeaf_denotes peq x h⟩
  case leaf_right =>
    exact fun a y => ⟨fun _ h _ => joinWithLeaf_all peq y h,
      fun h _ => (joinWithLeaf_denotes peq y h).congr fun ρ => sup_comm _ _⟩
  case eq =>
    intro v alo ahi ad au blo bhi bd bu lo' hi' h0 h1
    have hall : ∀ P, ahi.All P → bhi.All P → hi'.All P := fun P ha hb =>
      h1.1 P (canonicalize_all peq ha blo) (canonicalize_all peq hb alo)
    refine ⟨fun P ha hb => nodeRaw_all ha.1 (h0.1 P ha.2.1 hb.2.1) (hall P ha.2.2 hb.2.2),
      fun ha hb => ?_⟩
    have hsa := canonicalize_spec peq ha.2.2 hb.2.1
    have hsb := canonicalize_spec peq hb.2.2 ha.2.1
    have hlo := h0.2 ha.2.1 hb.2.1
    have hhi := h1.2 hsa.canonical hsb.canonical
    have hap : Apart (den hi') (den lo') := by
      rw [hlo.den_eq, hhi.den_eq]
      refine (ha.1.apart.sub hsa.isSub (den_isPoly alo) (den_isPoly blo)).sup ?_
      exact (hb.1.apart.sub hsb.isSub (den_isPoly blo) (den_isPoly alo)).mono (sup_comm _ _).le
    refine (built_nodeRaw hlo.canonical hhi.canonical (h0.1 _ ha.1.lo_above hb.1.lo_above)
      (hall _ ha.1.hi_above hb.1.hi_above) hap).denotes.congr fun ρ => ?_
    have hwa := hsa.isSub.sup_inf (den_isPoly _) (den_isPoly ahi) ρ (ρ v)
    have hwb := hsb.isSub.sup_inf (den_isPoly _) (den_isPoly bhi) ρ (ρ v)
    simp only [hlo.den_eq, hhi.den_eq, den, decide₂, Pi.sup_apply, inf_sup_left]
    rw [sup_comm (den alo ρ), sup_sup_sup_comm, hwa, hwb, sup_sup_sup_comm, sup_comm (den blo ρ),
      sup_sup_sup_comm]
  case lt =>
    intro av alo ahi ad au bv blo bhi bd bu lo' hlt h0
    refine ⟨fun P ha hb => nodeRaw_all ha.1 (h0.1 P ha.2.1 hb) (canonicalize_all peq ha.2.2 _),
      fun ha hb => ?_⟩
    have hbv := block_above hb.1 hlt
    exact denotes_join_lt peq ha hb (h0.2 ha.2.1 hb) (h0.1 _ ha.1.lo_above hbv)
  case gt =>
    intro av alo ahi ad au bv blo bhi bd bu lo' hgt h0
    refine ⟨fun P ha hb => nodeRaw_all hb.1 (h0.1 P ha hb.2.1) (canonicalize_all peq hb.2.2 _),
      fun ha hb => ?_⟩
    have hav := block_above ha.1 hgt
    have hlo := (h0.2 ha hb.2.1).congr fun ρ => sup_comm _ _
    exact (denotes_join_lt peq hb ha hlo (h0.1 _ hav hb.1.lo_above)).congr fun ρ => sup_comm _ _

theorem join_all (ha : a.All P) (hb : b.All P) : (join peq a b).All P :=
  (join_correct peq a b).1 P ha hb

theorem join_denotes (ha : a.Canonical) (hb : b.Canonical) :
    Denotes (join peq a b) (den a ⊔ den b) :=
  (join_correct peq a b).2 ha hb

theorem meetWithLeafAux_all (x : L) (h : n.All P) : (meetWithLeafAux peq x n).All P := by
  induction n with
  | leaf c => trivial
  | block v lo hi d u ihlo ihhi => exact rebuildCanonical_all peq h (ihlo h.2.1) (ihhi h.2.2)

theorem meetWithLeafAux_denotes (x : L) (h : n.Canonical) :
    Denotes (meetWithLeafAux peq x n) fun ρ => x ⊓ den n ρ := by
  induction n with
  | leaf c => exact denotes_leaf _
  | block v lo hi d u ihlo ihhi =>
    have hlo := ihlo h.2.1
    have hhi := ihhi h.2.2
    rw [meetWithLeafAux, rebuildCanonical_eq peq h]
    refine (built_node peq hlo.canonical hhi.canonical (meetWithLeafAux_all peq x h.1.lo_above)
      (meetWithLeafAux_all peq x h.1.hi_above)).denotes.congr fun ρ => ?_
    simp only [hlo.den_eq, hhi.den_eq, den, decide₂, inf_sup_left, inf_left_comm]

theorem meetWithLeaf_denotes (x : L) (h : n.Canonical) :
    Denotes (meetWithLeaf peq x n) fun ρ => x ⊓ den n ρ := by
  rw [meetWithLeaf]
  split
  case isTrue hx => exact h.denotes.congr fun ρ => by rw [hx, top_inf_eq]
  case isFalse =>
  split
  case isTrue hx => exact (denotes_leaf ⊥).congr fun ρ => by rw [hx, bot_inf_eq]
  case isFalse =>
  split
  case isTrue hx => exact h.denotes.congr fun ρ => (inf_eq_right.2 ((den_le_up0 h ρ).trans hx)).symm
  case isFalse => exact meetWithLeafAux_denotes peq x h

theorem meetWithLeaf_all (x : L) (h : n.All P) : (meetWithLeaf peq x n).All P := by
  rw [meetWithLeaf]
  split
  · exact h
  split
  · trivial
  split
  · exact h
  · exact meetWithLeafAux_all peq x h

/-- The block that `meet'` builds when `a` has the smaller variable. -/
theorem denotes_meet_lt (hlo : Denotes lo' (den lo ⊓ den b)) (hhi : Denotes hi' (den hi ⊓ den b))
    (hlov : lo'.All (v < ·)) (hhiv : hi'.All (v < ·)) :
    Denotes (node peq v lo' hi') (den (.block v lo hi d u) ⊓ den b) := by
  refine (built_node peq hlo.canonical hhi.canonical hlov hhiv).denotes.congr fun ρ => ?_
  simp only [hlo.den_eq, hhi.den_eq, den, decide₂, Pi.inf_apply, inf_sup_right, inf_assoc]

theorem meet_correct (a b : Node V L) : (∀ P, a.All P → b.All P → (meet peq a b).All P) ∧
      (a.Canonical → b.Canonical → Denotes (meet peq a b) (den a ⊓ den b)) := by
  apply meet_induction peq (P := fun a b r =>
    (∀ P, a.All P → b.All P → r.All P) ∧ (a.Canonical → b.Canonical → Denotes r (den a ⊓ den b)))
  case same =>
    exact fun n => ⟨fun _ h _ => h, fun h _ => h.denotes.congr fun ρ => (inf_idem _).symm⟩
  case leaf_leaf => exact fun x y => ⟨fun _ _ _ => trivial, fun _ _ => denotes_leaf _⟩
  case leaf_left =>
    exact fun x b => ⟨fun _ _ h => meetWithLeaf_all peq x h,
      fun _ h => meetWithLeaf_denotes peq x h⟩
  case leaf_right =>
    exact fun a y => ⟨fun _ h _ => meetWithLeaf_all peq y h,
      fun h _ => (meetWithLeaf_denotes peq y h).congr fun ρ => inf_comm _ _⟩
  case eq =>
    intro v alo ahi ad au blo bhi bd bu lo' hi' h0 h1
    have hall : ∀ P, (Node.block v alo ahi ad au).All P → (Node.block v blo bhi bd bu).All P →
        hi'.All P := fun P ha hb =>
      h1.1 P (join_all peq ha.2.2 ha.2.1) (join_all peq hb.2.2 hb.2.1)
    refine ⟨fun P ha hb => node_all peq ha.1 (h0.1 P ha.2.1 hb.2.1) (hall P ha hb), fun ha hb => ?_⟩
    have hja := join_denotes peq ha.2.2 ha.2.1
    have hjb := join_denotes peq hb.2.2 hb.2.1
    have hlo := h0.2 ha.2.1 hb.2.1
    have hhi := h1.2 hja.canonical hjb.canonical
    have hhiv : hi'.All (v < ·) := h1.1 _ (join_all peq ha.1.hi_above ha.1.lo_above)
      (join_all peq hb.1.hi_above hb.1.lo_above)
    refine (built_node peq hlo.canonical hhi.canonical (h0.1 _ ha.1.lo_above hb.1.lo_above)
      hhiv).denotes.congr fun ρ => ?_
    simp only [hlo.den_eq, hhi.den_eq, hja.den_eq, hjb.den_eq, Pi.inf_apply]
    exact (inf_decisions (ρ v) (den alo ρ) (den ahi ρ) (den blo ρ) (den bhi ρ)).symm
  case lt =>
    intro av alo ahi ad au bv blo bhi bd bu lo' hi' hlt h0 h1
    refine ⟨fun P ha hb => node_all peq ha.1 (h0.1 P ha.2.1 hb) (h1.1 P ha.2.2 hb), fun ha hb => ?_⟩
    have hbv := block_above hb.1 hlt
    exact denotes_meet_lt peq (h0.2 ha.2.1 hb) (h1.2 ha.2.2 hb) (h0.1 _ ha.1.lo_above hbv)
      (h1.1 _ ha.1.hi_above hbv)
  case gt =>
    intro av alo ahi ad au bv blo bhi bd bu lo' hi' hgt h0 h1
    refine ⟨fun P ha hb => node_all peq hb.1 (h0.1 P ha hb.2.1) (h1.1 P ha hb.2.2), fun ha hb => ?_⟩
    have hav := block_above ha.1 hgt
    have hlo := (h0.2 ha hb.2.1).congr fun ρ => inf_comm _ _
    have hhi := (h1.2 ha hb.2.2).congr fun ρ => inf_comm _ _
    exact (denotes_meet_lt peq hlo hhi (h0.1 _ hav hb.1.lo_above)
      (h1.1 _ hav hb.1.hi_above)).congr fun ρ => inf_comm _ _

theorem meet_all (ha : a.All P) (hb : b.All P) : (meet peq a b).All P :=
  (meet_correct peq a b).1 P ha hb

theorem meet_denotes (ha : a.Canonical) (hb : b.Canonical) :
    Denotes (meet peq a b) (den a ⊓ den b) :=
  (meet_correct peq a b).2 ha hb

/-! ## §6 Assignments -/

theorem assignBot_all (var : Var V) (h : n.All P) : (assignBot peq var n).All P := by
  induction n with
  | leaf c => trivial
  | block v lo hi d u ihlo ihhi =>
    rw [assignBot]
    split
    · exact h
    · exact h.2.1
    · exact rebuildCanonical_all peq h (ihlo h.2.1) (ihhi h.2.2)

theorem assignTop_all (var : Var V) (h : n.All P) : (assignTop peq var n).All P := by
  induction n with
  | leaf c => trivial
  | block v lo hi d u ihlo ihhi =>
    rw [assignTop]
    split
    · exact h
    · exact join_all peq h.2.1 h.2.2
    · exact rebuildCanonical_all peq h (ihlo h.2.1) (ihhi h.2.2)

/-- Both assignments descend to the blocks on `var` and rebuild the blocks
above them. -/
theorem denotes_rebuild_restrict {var v : Var V} {d u x : L}
    (h : (Node.block v lo hi d u).Canonical) (hlt : v < var)
    (hlo : Denotes lo' (restrict (den lo) var x)) (hhi : Denotes hi' (restrict (den hi) var x))
    (hlov : lo'.All (v < ·)) (hhiv : hi'.All (v < ·)) :
    Denotes (rebuildCanonical peq v lo hi d u lo' hi')
      (restrict (den (.block v lo hi d u)) var x) := by
  rw [rebuildCanonical_eq peq h]
  refine (built_node peq hlo.canonical hhi.canonical hlov hhiv).denotes.congr fun ρ => ?_
  simp only [hlo.den_eq, hhi.den_eq, den, decide₂, restrict, Function.update_of_ne hlt.ne]

section

variable (var : Var V)

theorem assignBot_denotes (h : n.Canonical) :
    Denotes (assignBot peq var n) (restrict (den n) var ⊥) := by
  induction n with
  | leaf c => exact denotes_leaf c
  | block v lo hi d u ihlo ihhi =>
    rw [assignBot]
    split
    case h_1 hcmp =>
      rw [(indep_of_below (block_above h.1 (compareVar_lt_iff.1 hcmp))).restrict]
      exact h.denotes
    case h_2 hcmp => rw [compareVar_eq_iff.1 hcmp, restrict_block_bot h.1]; exact h.2.1.denotes
    case h_3 hcmp =>
      exact denotes_rebuild_restrict peq h (compareVar_gt_iff.1 hcmp) (ihlo h.2.1) (ihhi h.2.2)
        (assignBot_all peq var h.1.lo_above) (assignBot_all peq var h.1.hi_above)

theorem assignTop_denotes (h : n.Canonical) :
    Denotes (assignTop peq var n) (restrict (den n) var ⊤) := by
  induction n with
  | leaf c => exact denotes_leaf c
  | block v lo hi d u ihlo ihhi =>
    rw [assignTop]
    split
    case h_1 hcmp =>
      rw [(indep_of_below (block_above h.1 (compareVar_lt_iff.1 hcmp))).restrict]
      exact h.denotes
    case h_2 hcmp =>
      rw [compareVar_eq_iff.1 hcmp, restrict_block_top h.1]
      exact join_denotes peq h.2.1 h.2.2
    case h_3 hcmp =>
      exact denotes_rebuild_restrict peq h (compareVar_gt_iff.1 hcmp) (ihlo h.2.1) (ihhi h.2.2)
        (assignTop_all peq var h.1.lo_above) (assignTop_all peq var h.1.hi_above)

/-- What has been assigned is gone. -/
theorem assignBot_ne (h : n.Canonical) : (assignBot peq var n).All (· ≠ var) := by
  induction n with
  | leaf c => trivial
  | block v lo hi d u ihlo ihhi =>
    rw [assignBot]
    split
    case h_1 hcmp => exact (block_above h.1 (compareVar_lt_iff.1 hcmp)).mono fun _ hw => hw.ne'
    case h_2 hcmp => rw [compareVar_eq_iff.1 hcmp]; exact h.1.lo_above.mono fun _ hw => hw.ne'
    case h_3 hcmp =>
      rw [rebuildCanonical_eq peq h]
      exact node_all peq (compareVar_gt_iff.1 hcmp).ne (ihlo h.2.1) (ihhi h.2.2)

theorem assignTop_ne (h : n.Canonical) : (assignTop peq var n).All (· ≠ var) := by
  induction n with
  | leaf c => trivial
  | block v lo hi d u ihlo ihhi =>
    rw [assignTop]
    split
    case h_1 hcmp => exact (block_above h.1 (compareVar_lt_iff.1 hcmp)).mono fun _ hw => hw.ne'
    case h_2 hcmp =>
      rw [compareVar_eq_iff.1 hcmp]
      exact join_all peq (h.1.lo_above.mono fun _ hw => hw.ne')
        (h.1.hi_above.mono fun _ hw => hw.ne')
    case h_3 hcmp =>
      rw [rebuildCanonical_eq peq h]
      exact node_all peq (compareVar_gt_iff.1 hcmp).ne (ihlo h.2.1) (ihhi h.2.2)

end

end Operations

theorem nodeOfVar_denotes (v : Var V) : Denotes (nodeOfVar v : Node V L) fun ρ => ρ v := by
  have hap : Apart (den (top : Node V L)) (den (bot : Node V L)) := by
    intro X _ hle ρ
    have hbot : den (bot : Node V L) ρ = ⊥ := rfl
    exact (hle ρ).trans (by rw [Pi.sup_apply, hbot, bot_sup_eq])
  have hbuilt : Built v bot top (nodeOfVar v : Node V L) :=
    built_nodeRaw trivial trivial trivial trivial hap
  refine hbuilt.denotes.congr fun ρ => ?_
  simp [decide₂, den, bot, top]

theorem nodeOfVar_all (h : P v) : (nodeOfVar v : Node V L).All P :=
  nodeRaw_all h trivial trivial

/-! ## §7 Well-formed nodes -/

/-- The invariant of the source for one block. -/
structure BlockWF (peq : PhysEq V L) (v : Var V) (lo hi : Node V L) (d u : L) : Prop where
  lo_above : lo.All fun w => compareVar v w = .lt
  hi_above : hi.All fun w => compareVar v w = .lt
  hi_ne : hi ≠ bot
  canonicalize_eq : canonicalize peq hi lo = hi
  down0_eq : d = den (.block v lo hi d u) fun _ => ⊥
  up0_eq : u = den (.block v lo hi d u) fun _ => ⊤

def Node.WF (peq : PhysEq V L) : Node V L → Prop
  | .leaf _ => True
  | .block v lo hi d u => BlockWF peq v lo hi d u ∧ lo.WF peq ∧ hi.WF peq

theorem wf_iff_canonical (peq : PhysEq V L) : n.WF peq ↔ n.Canonical := by
  induction n with
  | leaf c => exact Iff.rfl
  | block v lo hi d u ihlo ihhi =>
    have hdown : den (.block v lo hi d u) (fun _ => ⊥) = den lo ⊥ := by
      simp only [den, decide₂, bot_inf_eq, sup_bot_eq]
      rfl
    have hup : den (.block v lo hi d u) (fun _ => ⊤) = den lo ⊤ ⊔ den hi ⊤ := by
      simp only [den, decide₂, top_inf_eq]
      rfl
    constructor
    · rintro ⟨hwf, hlo, hhi⟩
      have hlo' := ihlo.1 hlo
      have hhi' := ihhi.1 hhi
      exact ⟨⟨hwf.lo_above.mono fun _ => compareVar_lt_iff.1,
        hwf.hi_above.mono fun _ => compareVar_lt_iff.1, hwf.hi_ne,
        (canonicalize_eq_self_iff peq hhi' hlo').1 hwf.canonicalize_eq, hwf.down0_eq.trans hdown,
        hwf.up0_eq.trans hup⟩, hlo', hhi'⟩
    rintro ⟨hok, hlo, hhi⟩
    exact ⟨⟨hok.lo_above.mono fun _ => compareVar_lt_iff.2,
      hok.hi_above.mono fun _ => compareVar_lt_iff.2, hok.hi_ne,
      (canonicalize_eq_self_iff peq hhi hlo).2 hok.apart, hok.down0_eq.trans hdown.symm,
      hok.up0_eq.trans hup.symm⟩, ihlo.2 hlo, ihhi.2 hhi⟩

end Oxcaml.Typing.Ldd
