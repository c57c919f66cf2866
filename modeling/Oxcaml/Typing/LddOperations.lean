/-
Oxcaml.Typing.LddOperations — implication, linear terms, and the operations on kinds.

  §1 Implication  — `imply_rec` is the Heyting implication among polynomials.
  §2 Linear terms — the coefficients of `decompose_into_linear_terms`.
  §3 Kinds        — join, meet, implication, substitution and decomposition for
                    `Axis_lattice.t`, as statements about all assignments.
-/
import Oxcaml.Typing.LddRuns
import Mathlib.Data.List.Forall2

set_option linter.all false

namespace Oxcaml.Typing.Ldd

open Oxcaml.Lib

variable {V L : Type} [Ordered V] [CoheytingAlgebra L] [DecidableEq L] [DecidableLE L]

section Implication

variable (peq : PhysEq V L)

/-! ## §1 Implication -/

/-- One side of a split node. -/
structure SplitSpec (v : Var V) (x : L) (n r : Node V L) : Prop where
  denotes : Denotes r (restrict (den n) v x)
  above : r.All (v < ·)
  all : ∀ P, n.All P → r.All P

variable {n a b : Node V L}

theorem splitOnVar_spec {v : Var V} (hn : n.Canonical) (h : StartsFrom v n) :
    SplitSpec v ⊥ n (splitOnVar peq v n).1 ∧ SplitSpec v ⊤ n (splitOnVar peq v n).2 := by
  cases n with
  | leaf c =>
    exact ⟨⟨denotes_leaf c, trivial, fun _ h => h⟩, ⟨denotes_leaf c, trivial, fun _ h => h⟩⟩
  | block w lo hi d u =>
    rw [splitOnVar]
    split
    case h_1 hcmp =>
      have habove := block_above hn.1 (compareVar_lt_iff.1 hcmp)
      have hind := indep_of_below habove
      have hside : ∀ x, SplitSpec v x (.block w lo hi d u) (.block w lo hi d u) := by
        intro x
        refine ⟨?_, habove, fun _ h => h⟩
        rw [hind.restrict x]
        exact hn.denotes
      exact ⟨hside ⊥, hside ⊤⟩
    case h_2 hcmp =>
      obtain rfl := compareVar_eq_iff.1 hcmp
      refine ⟨⟨?_, hn.1.lo_above, fun _ h => h.2.1⟩, ⟨?_, ?_, fun _ h => ?_⟩⟩
      · rw [restrict_block_bot hn.1]; exact hn.2.1.denotes
      · rw [restrict_block_top hn.1]; exact join_denotes peq hn.2.1 hn.2.2
      · exact join_all peq hn.1.lo_above hn.1.hi_above
      · exact join_all peq h.2.1 h.2.2
    case h_3 hcmp => exact absurd (compareVar_gt_iff.1 hcmp) (h w rfl).not_gt

variable [HImp L]

/-- What `imply_rec` has to return. -/
structure ImplySpec (a b r : Node V L) : Prop where
  canonical : r.Canonical
  all : ∀ P, a.All P → b.All P → r.All P
  isImp : IsImp (den r) (den a) (den b)

theorem eq_top_of_isTopNode (h : isTopNode n = true) : n = top := by
  cases n with
  | leaf c => rw [isTopNode, beq_iff_eq] at h; rw [h, top]
  | block => cases h

/-- The last case of `imply_rec`. -/
theorem implyRec_step {v : Var V} (hshort : ¬ (peq.eq a b || isBotNode a || isTopNode b) = true)
    (hv : minTopVar a b = .ok v) :
    implyRec peq a b = (do
      let hTop ← implyRec peq (splitOnVar peq v a).2 (splitOnVar peq v b).2
      let hBot ← implyRec peq (splitOnVar peq v a).1 (splitOnVar peq v b).1
      pure (node peq v (meet peq hBot hTop) hTop)) := by
  rw [implyRec.eq_def, if_neg hshort]
  cases a with
  | leaf x =>
    cases b with
    | leaf y => cases hv
    | block w lo hi d u =>
      dsimp only
      split
      case h_1 he => cases he
      case h_2 w' hw =>
        rw [hv] at hw
        cases hw
        rfl
  | block w lo hi d u =>
    dsimp only
    split
    case h_1 he => rw [hv] at he; cases he
    case h_2 w' hw =>
      rw [hv] at hw
      cases hw
      rfl

/-- `imply_rec` returns, and its result is the greatest node below the implication. -/
theorem implyRec_spec (himp : ∀ x y z : L, x ≤ y ⇨ z ↔ x ⊓ y ≤ z)
    (ha : a.Canonical) (hb : b.Canonical) :
    ∃ r, implyRec peq a b = .ok r ∧ ImplySpec a b r := by
  induction hk : a.size + b.size using Nat.strongRecOn generalizing a b with
  | ind k ih =>
  subst hk
  by_cases hshort : (peq.eq a b || isBotNode a || isTopNode b) = true
  · have hle : den a ≤ den b := by
      rw [Bool.or_eq_true, Bool.or_eq_true] at hshort
      rcases hshort with (heq | hbot) | htop
      · rw [peq.eq_sound heq]
      · rw [eq_bot_of_isBotNode hbot]; exact fun ρ => bot_le
      · rw [eq_top_of_isTopNode htop]; exact fun ρ => le_top
    refine ⟨top, ?_, trivial, fun _ _ _ => trivial, isImp_top hle⟩
    rw [implyRec.eq_def, if_pos hshort]
  cases hv : minTopVar a b with
  | error e =>
    -- Both nodes are leaves.
    cases a with
    | leaf x =>
      cases b with
      | leaf y =>
        refine ⟨.leaf (x ⇨ y), ?_, trivial, fun _ _ _ => trivial, isImp_const fun z => himp z x y⟩
        rw [implyRec.eq_def, if_neg hshort]
      | block => cases hv
    | block => cases b <;> cases hv
  | ok v =>
    obtain ⟨hsa, hsb, htop⟩ := minTopVar_ok hv
    obtain ⟨ha₀, ha₁⟩ := splitOnVar_spec peq ha hsa
    obtain ⟨hb₀, hb₁⟩ := splitOnVar_spec peq hb hsb
    have hsize : (splitOnVar peq v a).2.size + (splitOnVar peq v b).2.size < a.size + b.size ∧
        (splitOnVar peq v a).1.size + (splitOnVar peq v b).1.size < a.size + b.size := by
      have hza := size_splitOnVar peq hsa
      have hzb := size_splitOnVar peq hsb
      rcases htop with htop | htop
      · have := hza.2.2 htop; omega
      · have := hzb.2.2 htop; omega
    obtain ⟨r₁, hr₁, h₁⟩ := ih _ hsize.1 ha₁.denotes.canonical hb₁.denotes.canonical rfl
    obtain ⟨r₀, hr₀, h₀⟩ := ih _ hsize.2 ha₀.denotes.canonical hb₀.denotes.canonical rfl
    have hv₁ : r₁.All (v < ·) := h₁.all _ ha₁.above hb₁.above
    have hv₀ : r₀.All (v < ·) := h₀.all _ ha₀.above hb₀.above
    have hmeet := meet_denotes peq h₀.canonical h₁.canonical
    have hbuilt := built_node peq hmeet.canonical h₁.canonical (meet_all peq hv₀ hv₁) hv₁
    refine ⟨node peq v (meet peq r₀ r₁) r₁, ?_, hbuilt.canonical, fun P hPa hPb => ?_, ?_⟩
    · rw [implyRec_step peq hshort hv, hr₁, hr₀]; rfl
    · have hP₁ := h₁.all P (ha₁.all P hPa) (hb₁.all P hPb)
      have hP₀ := h₀.all P (ha₀.all P hPa) (hb₀.all P hPb)
      refine node_all peq ?_ (meet_all peq hP₀ hP₁) hP₁
      -- The variable is at the top of one of the two nodes.
      rcases htop with htop | htop
      · cases a with
        | leaf x => cases htop
        | block w lo hi d u => exact Option.some.inj htop ▸ hPa.1
      cases b with
      | leaf x => cases htop
      | block w lo hi d u => exact Option.some.inj htop ▸ hPb.1
    rw [hbuilt.den_eq, hmeet.den_eq]
    exact isImp_decide₂ (den_isPoly r₀) (den_isPoly r₁) (indep_of_below hv₀)
      (indep_of_below hv₁) (den_isPoly a) (den_isPoly b) ha₀.denotes.den_eq.symm
      ha₁.denotes.den_eq.symm hb₀.denotes.den_eq.symm hb₁.denotes.den_eq.symm h₀.isImp h₁.isImp

end Implication

section Linear

variable (peq : PhysEq V L)

/-! ## §2 Linear terms -/

/-- The assignment with all of `vs` at bottom. -/
def lower (vs : List (Var V)) (ρ : Var V → L) : Var V → L := fun w => if w ∈ vs then ⊥ else ρ w

/-- The variable `v` at top, and the others of `vs` at bottom. -/
def single (vs : List (Var V)) (v : Var V) (ρ : Var V → L) : Var V → L :=
  Function.update (lower vs ρ) v ⊤

/-- All of `vs` assigned to bottom, from the left. -/
def assignBots (vs : List (Var V)) (n : Node V L) : Node V L :=
  vs.foldl (fun n v => assignBot peq v n) n

/-- The coefficients in the order of the variables. -/
def linearCoeffs : List (Var V) → Node V L → List (Node V L)
  | [], _ => []
  | v :: rest, n => assignBots peq rest (assignTop peq v n) :: linearCoeffs rest (assignBot peq v n)

theorem assignBots_nil : assignBots peq [] = id := rfl

theorem linearTerms_eq (vs : List (Var V)) (n : Node V L) (coeffs : List (Node V L)) :
    linearTerms peq vs n coeffs =
      (assignBots peq vs n, (linearCoeffs peq vs n).reverse ++ coeffs.map (assignBots peq vs)) := by
  induction vs generalizing n coeffs with
  | nil => simp [linearTerms, linearCoeffs, assignBots_nil]
  | cons v rest ih => simp [linearTerms, linearCoeffs, ih, assignBots]

theorem lower_nil (ρ : Var V → L) : lower [] ρ = ρ := by
  funext w
  simp [lower]

theorem lower_cons (v : Var V) (vs : List (Var V)) (ρ : Var V → L) :
    lower (v :: vs) ρ = Function.update (lower vs ρ) v ⊥ := by
  funext w
  by_cases hw : w = v
  · simp [lower, hw]
  · simp [lower, hw]

variable {n : Node V L}

theorem assignBots_denotes (vs : List (Var V)) (h : n.Canonical) :
    Denotes (assignBots peq vs n) fun ρ => den n (lower vs ρ) := by
  induction vs generalizing n with
  | nil => exact h.denotes.congr fun ρ => by rw [lower_nil]
  | cons v rest ih =>
    have hbot := assignBot_denotes peq v h
    refine (ih hbot.canonical).congr fun ρ => ?_
    rw [hbot.den_eq, lower_cons]
    rfl

variable {P : Var V → Prop}

section

variable (vs : List (Var V))

theorem assignBots_all (h : n.All P) : (assignBots peq vs n).All P := by
  induction vs generalizing n with
  | nil => exact h
  | cons v rest ih => exact ih (assignBot_all peq v h)

theorem assignBots_ne (h : n.Canonical) :
    (assignBots peq vs n).All (· ∉ vs) := by
  induction vs generalizing n with
  | nil => exact n.all_true.mono fun w _ => List.not_mem_nil
  | cons v rest ih =>
    have hrest := ih (assignBot_denotes peq v h).canonical
    have hv : (assignBots peq (v :: rest) n).All (· ≠ v) :=
      assignBots_all peq rest (assignBot_ne peq v h)
    exact (hrest.and hv).mono fun w hw => by simp [hw.1, hw.2]

theorem linearCoeffs_all (h : n.All P) :
    ∀ c ∈ linearCoeffs peq vs n, c.All P := by
  induction vs generalizing n with
  | nil => simp [linearCoeffs]
  | cons v rest ih =>
    intro c hc
    rcases List.mem_cons.1 hc with rfl | hc
    · exact assignBots_all peq rest (assignTop_all peq v h)
    · exact ih (assignBot_all peq v h) c hc

end

variable {vs : List (Var V)}

/-- The coefficient of each variable. -/
theorem linearCoeffs_denote (hnodup : vs.Nodup) (h : n.Canonical) :
    List.Forall₂ (fun v c => Denotes c fun ρ => den n (single vs v ρ)) vs
      (linearCoeffs peq vs n) := by
  induction vs generalizing n with
  | nil => exact .nil
  | cons v rest ih =>
    obtain ⟨hv, hrest⟩ := List.nodup_cons.1 hnodup
    have hbot := assignBot_denotes peq v h
    have htop := assignTop_denotes peq v h
    refine .cons ((assignBots_denotes peq rest htop.canonical).congr fun ρ => ?_) ?_
    · rw [htop.den_eq, single, lower_cons, Function.update_idem]; rfl
    have hcoeffs := (List.forall₂_and_left rest _).2 ⟨fun w hw => hw, ih hrest hbot.canonical⟩
    refine hcoeffs.imp fun w c hc => hc.2.congr fun ρ => ?_
    have hne : v ≠ w := fun heq => hv (heq ▸ hc.1)
    rw [hbot.den_eq, single, single, lower_cons, Function.update_comm hne]
    rfl

theorem linearCoeffs_ne (vs : List (Var V)) (h : n.Canonical) :
    ∀ c ∈ linearCoeffs peq vs n, c.All (· ∉ vs) := by
  induction vs generalizing n with
  | nil => simp [linearCoeffs]
  | cons v rest ih =>
    have hsplit : ∀ {c : Node V L}, c.All (· ∉ rest) → c.All (· ≠ v) → c.All (· ∉ v :: rest) :=
      fun hrest hv => (hrest.and hv).mono fun w hw => by simp [hw.1, hw.2]
    have hbot := (assignBot_denotes peq v h).canonical
    have htop := (assignTop_denotes peq v h).canonical
    intro c hc
    rcases List.mem_cons.1 hc with rfl | hc
    · exact hsplit (assignBots_ne peq rest htop) (assignBots_all peq rest (assignTop_ne peq v h))
    · exact hsplit (ih hbot c hc) (linearCoeffs_all peq rest (assignBot_ne peq v h) c hc)

/-- `base`, joined with each variable met with its coefficient. -/
def linearValue (base : Node V L) (vs : List (Var V)) (cs : List (Node V L)) (ρ : Var V → L) : L :=
  (vs.zip cs).foldl (fun acc x => acc ⊔ (ρ x.1 ⊓ den x.2 ρ)) (den base ρ)

variable {y d u : L} {ρ : Var V → L}

theorem linearValue_le_iff {base : Node V L} {cs : List (Node V L)} :
    linearValue base vs cs ρ ≤ y ↔ den base ρ ≤ y ∧ ∀ x ∈ vs.zip cs, ρ x.1 ⊓ den x.2 ρ ≤ y := by
  have hfold : ∀ (l : List (Var V × Node V L)) (a : L),
      l.foldl (fun acc x => acc ⊔ (ρ x.1 ⊓ den x.2 ρ)) a ≤ y ↔
        a ≤ y ∧ ∀ x ∈ l, ρ x.1 ⊓ den x.2 ρ ≤ y := by
    intro l
    induction l with
    | nil => simp
    | cons x l ih =>
      intro a
      simp only [List.foldl_cons, ih, sup_le_iff, List.forall_mem_cons, and_assoc]
  exact hfold _ _

/-- A value at one variable is below the function. -/
theorem inf_single_le {f : (Var V → L) → L} (hf : IsPoly f) (vs : List (Var V)) (v : Var V)
    (ρ : Var V → L) : ρ v ⊓ f (single vs v ρ) ≤ f ρ := by
  have hexpand := hf.expand (lower vs ρ) v (ρ v)
  have hle : Function.update (lower vs ρ) v (ρ v) ≤ ρ := by
    refine update_le_iff.2 ⟨le_rfl, fun w _ => ?_⟩
    rw [lower]
    split
    · exact bot_le
    · exact le_rfl
  calc ρ v ⊓ f (single vs v ρ) ≤ f (Function.update (lower vs ρ) v (ρ v)) := by
        rw [hexpand]
        exact le_sup_right
    _ ≤ f ρ := hf.mono hle

/-- A path from the root to a leaf: the blocks, and whether it takes their `hi` edge. -/
inductive Node.Path : Node V L → List (Var V × Bool) → Prop
  | leaf {c : L} : Path (.leaf c) []
  | lo {v : Var V} {lo hi : Node V L} {d u : L} {p : List (Var V × Bool)} :
    Path lo p → Path (.block v lo hi d u) ((v, false) :: p)
  | hi {v : Var V} {lo hi : Node V L} {d u : L} {p : List (Var V × Bool)} :
    Path hi p → Path (.block v lo hi d u) ((v, true) :: p)

/-- No path goes through the `hi` edges of two of the variables. -/
def Node.Linear (vs : List (Var V)) (n : Node V L) : Prop :=
  ∀ p, n.Path p → ∀ v ∈ vs, ∀ w ∈ vs, (v, true) ∈ p → (w, true) ∈ p → v = w

theorem Node.exists_path (n : Node V L) : ∃ p, n.Path p := by
  induction n with
  | leaf c => exact ⟨[], .leaf⟩
  | block v lo hi d u ihlo _ => obtain ⟨p, hp⟩ := ihlo; exact ⟨_, .lo hp⟩

theorem Node.Path.of_all {p : List (Var V × Bool)}
    (hp : n.Path p) (h : n.All P) : ∀ x ∈ p, P x.1 := by
  induction hp with
  | leaf => simp
  | lo _ ih => exact List.forall_mem_cons.2 ⟨h.1, ih h.2.1⟩
  | hi _ ih => exact List.forall_mem_cons.2 ⟨h.1, ih h.2.2⟩

/-- If no path takes a `hi` edge of these variables, the node does not mention them. -/
theorem Node.all_of_paths (h : ∀ p, n.Path p → ∀ v, (v, true) ∈ p → P v) : n.All P := by
  induction n with
  | leaf c => trivial
  | block v lo hi d u ihlo ihhi =>
    obtain ⟨p, hp⟩ := hi.exists_path
    refine ⟨h _ (.hi hp) v (by simp), ihlo fun p hp w hw => ?_, ihhi fun p hp w hw => ?_⟩
    · exact h _ (.lo hp) w (List.mem_cons_of_mem _ hw)
    · exact h _ (.hi hp) w (List.mem_cons_of_mem _ hw)

variable {v : Var V}

theorem Node.Linear.lo {lo hi : Node V L}
    (h : (Node.block v lo hi d u).Linear vs) : lo.Linear vs := by
  intro p hp v hv w hw hvp hwp
  exact h _ (.lo hp) v hv w hw (List.mem_cons_of_mem _ hvp) (List.mem_cons_of_mem _ hwp)

theorem Node.Linear.hi {lo hi : Node V L}
    (h : (Node.block v lo hi d u).Linear vs) : hi.Linear vs := by
  intro p hp v hv w hw hvp hwp
  exact h _ (.hi hp) v hv w hw (List.mem_cons_of_mem _ hvp) (List.mem_cons_of_mem _ hwp)

/-- Under the `hi` edge of one of the variables there is no other. -/
theorem Node.Linear.hi_free {lo hi : Node V L}
    (h : (Node.block v lo hi d u).Linear vs) (hv : v ∈ vs) (habove : hi.All (v < ·)) :
    hi.All (· ∉ vs) := by
  refine Node.all_of_paths fun p hp w hwp hw => ?_
  have heq := h _ (.hi hp) v hv w hw (by simp) (List.mem_cons_of_mem _ hwp)
  have hlt : v < w := hp.of_all habove _ hwp
  exact hlt.ne heq

/-- A linear node is below what bounds its value at bottom and its coefficients. -/
theorem den_le_of_linear (hn : n.Canonical)
    (hlin : n.Linear vs) {z : L} (hbase : z ⊓ den n (lower vs ρ) ≤ y)
    (hcoeff : ∀ v ∈ vs, z ⊓ (ρ v ⊓ den n (single vs v ρ)) ≤ y) : z ⊓ den n ρ ≤ y := by
  induction n generalizing z with
  | leaf c => exact hbase
  | block w lo hi d u ihlo ihhi =>
    have hlole : ∀ σ : Var V → L, den lo σ ≤ den (.block w lo hi d u) σ := fun σ => le_sup_left
    have hhile : ∀ σ : Var V → L, σ w ⊓ den hi σ ≤ den (.block w lo hi d u) σ :=
      fun σ => le_sup_right
    have hlo : z ⊓ den lo ρ ≤ y := by
      refine ihlo hn.2.1 hlin.lo ((inf_le_inf_left z (hlole _)).trans hbase) fun v hv => ?_
      exact (inf_le_inf_left z (inf_le_inf_left _ (hlole _))).trans (hcoeff v hv)
    have hhi : z ⊓ (ρ w ⊓ den hi ρ) ≤ y := by
      by_cases hw : w ∈ vs
      · -- The coefficient of `w` has the `hi` side.
        have hfree := hlin.hi_free hw hn.1.hi_above
        have hsame : den hi ρ = den hi (single vs w ρ) := by
          refine den_congr ((hfree.and hn.1.hi_above).mono fun x hx => ?_)
          rw [single, Function.update_of_ne hx.2.ne', lower, if_neg hx.1]
        have htop : single vs w ρ w = ⊤ := Function.update_self ..
        have hle := hhile (single vs w ρ)
        rw [htop, top_inf_eq, ← hsame] at hle
        exact (inf_le_inf_left z (inf_le_inf_left _ hle)).trans (hcoeff w hw)
      have hsame : lower vs ρ w = ρ w := if_neg hw
      rw [← inf_assoc]
      refine ihhi hn.2.2 hlin.hi ?_ fun v hv => ?_
      · have hle := hhile (lower vs ρ)
        rw [hsame] at hle
        rw [inf_assoc]
        exact (inf_le_inf_left z hle).trans hbase
      have hne : w ≠ v := fun heq => hw (heq ▸ hv)
      have hle := hhile (single vs v ρ)
      rw [single, Function.update_of_ne hne, hsame] at hle
      refine le_trans ?_ (hcoeff v hv)
      calc z ⊓ ρ w ⊓ (ρ v ⊓ den hi (single vs v ρ))
          = z ⊓ (ρ v ⊓ (ρ w ⊓ den hi (single vs v ρ))) := by
            rw [inf_assoc, inf_left_comm (ρ w)]
        _ ≤ z ⊓ (ρ v ⊓ den (.block w lo hi d u) (single vs v ρ)) :=
            inf_le_inf_left z (inf_le_inf_left _ hle)
    simp only [den, decide₂, inf_sup_left]
    exact sup_le hlo hhi

end Linear

/-! ## §3 Kinds -/

section Kinds

open AxisLattice (T)

/-- Join and meet are the bitwise operations under every assignment, and do not depend
on sharing. -/
theorem join_meet_pointwise (peq : PhysEq V T) {a b : Node V T} (ha : a.WF peq) (hb : b.WF peq) :
    (∀ ρ, (den (join peq a b) ρ).bits = (den a ρ).bits ||| (den b ρ).bits ∧
      (den (meet peq a b) ρ).bits = (den a ρ).bits &&& (den b ρ).bits) ∧
    ∀ peq' : PhysEq V T, join peq' a b = join peq a b ∧ meet peq' a b = meet peq a b := by
  rw [wf_iff_canonical] at ha hb
  have hjoin := fun peq : PhysEq V T => join_denotes peq ha hb
  have hmeet := fun peq : PhysEq V T => meet_denotes peq ha hb
  refine ⟨fun ρ => ⟨?_, ?_⟩, fun peq' => ⟨?_, ?_⟩⟩
  · rw [(hjoin peq).den_eq]; rfl
  · rw [(hmeet peq).den_eq]; rfl
  · have hden := (hjoin peq').den_eq.trans (hjoin peq).den_eq.symm
    exact eq_of_den_eq (hjoin peq').canonical (hjoin peq).canonical hden
  · have hden := (hmeet peq').den_eq.trans (hmeet peq).den_eq.symm
    exact eq_of_den_eq (hmeet peq').canonical (hmeet peq).canonical hden

theorem nodeOfVar_wf (peq : PhysEq V L) (v : Var V) : (nodeOfVar v : Node V L).WF peq :=
  (wf_iff_canonical peq).2 (nodeOfVar_denotes v).canonical

theorem join_meet_pointwise_rigid :
    (∀ ρ, (den (join .never (nodeOfVar (.rigid 0)) (nodeOfVar (.rigid 1) : Node Nat T)) ρ).bits =
        (den (nodeOfVar (.rigid 0)) ρ).bits ||| (den (nodeOfVar (.rigid 1)) ρ).bits ∧
      (den (meet .never (nodeOfVar (.rigid 0)) (nodeOfVar (.rigid 1) : Node Nat T)) ρ).bits =
        (den (nodeOfVar (.rigid 0)) ρ).bits &&& (den (nodeOfVar (.rigid 1)) ρ).bits) ∧
    ∀ peq', join peq' (nodeOfVar (.rigid 0)) (nodeOfVar (.rigid 1) : Node Nat T) =
        join .never (nodeOfVar (.rigid 0)) (nodeOfVar (.rigid 1)) ∧
      meet peq' (nodeOfVar (.rigid 0)) (nodeOfVar (.rigid 1) : Node Nat T) =
        meet .never (nodeOfVar (.rigid 0)) (nodeOfVar (.rigid 1)) :=
  join_meet_pointwise .never (nodeOfVar_wf _ _) (nodeOfVar_wf _ _)

/-- `imply_rec` is the residual of meet. -/
theorem implyRec_residual (peq : PhysEq V T) {a b : Node V T} (ha : a.WF peq) (hb : b.WF peq) :
    ∃ r, implyRec peq a b = .ok r ∧ r.WF peq ∧ ∀ c : Node V T, c.WF peq →
      ((∀ ρ, den c ρ ≤ den r ρ) ↔ ∀ ρ, den (meet peq c a) ρ ≤ den b ρ) := by
  rw [wf_iff_canonical] at ha hb
  obtain ⟨r, hr, hspec⟩ := implyRec_spec peq (fun x y z => AxisLattice.le_imply_iff y z x) ha hb
  refine ⟨r, hr, (wf_iff_canonical peq).2 hspec.canonical, fun c hc => ?_⟩
  have hmeet := meet_denotes peq ((wf_iff_canonical peq).1 hc) ha
  rw [hmeet.den_eq]
  exact hspec.isImp (den_isPoly c)

theorem implyRec_residual_rigid :
    ∃ r, implyRec .never (nodeOfVar (.rigid 0)) (bot : Node Nat T) = .ok r ∧ r.WF .never ∧
      ∀ c : Node Nat T, c.WF .never → ((∀ ρ, den c ρ ≤ den r ρ) ↔
        ∀ ρ, den (meet .never c (nodeOfVar (.rigid 0))) ρ ≤ den (bot : Node Nat T) ρ) :=
  implyRec_residual .never (nodeOfVar_wf _ _) trivial

/-- Inlining changes no node that mentions no solved variable. -/
theorem InlineSpec.eq_self {rank : Var V → Nat} {s s' : State V L} {n n' : Node V L}
    (hs : Ranked s rank) (h : InlineSpec rank s n n' s') (hn : n.Canonical)
    (hfree : n.All (¬ s.IsSolved ·)) : n' = n :=
  h.unique hs (Forced.refl hs) ⟨Forced.refl hs, hn, hfree, fun _ _ => rfl⟩

/-- Replacing rigid variables is simultaneous substitution. The assignments that give the
solved variables the values of their solutions are determined by the others. -/
theorem mapRigid_substitutes (peq : PhysEq V T) {s : State V T} (hs : Reachable peq s)
    {f : V → Node V T} (hf : ∀ name, (f name).WF peq) {n : Node V T} (hn : n.WF peq) :
    ∃ n' s', mapRigid peq f n s = returned (n', s') ∧ n'.WF peq ∧
      (∀ ρ ρ', Sat s ρ → Sat s ρ' → (∀ name, ρ' (.rigid name) = den (f name) ρ) →
        (∀ v, s.varState v = .unsolved → ρ' v = ρ v) → den n' ρ = den n ρ') ∧
      (n.All (¬ s.IsSolved ·) → (∀ name, (f name).All (¬ s.IsSolved ·)) →
        ∀ ρ, den n' ρ = den n (substRigid f ρ)) := by
  rw [wf_iff_canonical] at hn
  simp only [wf_iff_canonical] at hf
  obtain ⟨rank, hrank⟩ := hs.good.ranked
  obtain ⟨n₁, s₁, hn₁, hinline⟩ := inlineSolvedVars_returns peq hrank hn
  obtain ⟨n₂, s₂, n', s', hn₂, heq, hspec⟩ := mapRigid_returns peq hf hrank hn
  rw [hn₁] at hn₂
  cases hn₂
  refine ⟨n', s', heq, (wf_iff_canonical peq).2 hspec.canonical, ?_, ?_⟩
  · intro ρ ρ' hρ hρ' hrigid hunsolved
    rw [hspec.den_eq ρ hρ, ← hinline.den_eq ρ' hρ']
    refine den_congr (hinline.free.mono fun w hw => ?_)
    cases hw' : s.varState w with
    | solved d => exact absurd ⟨d, hw'⟩ hw
    | rigid name => obtain rfl := eq_rigid_of_varState hw'; exact (hrigid name).symm
    | unsolved =>
      rw [hunsolved w hw']
      cases w with
      | rigid name => cases hw'
      | nonRigid id h => rfl
  intro hfree hffree ρ
  obtain rfl := hinline.eq_self hrank hn hfree
  obtain ⟨ρ₁, hρ₁, hagree⟩ := exists_sat hrank ρ
  have hsubst : n₁.All fun w => substRigid f ρ₁ w = substRigid f ρ w := by
    refine hfree.mono fun w hw => ?_
    cases w with
    | rigid name => exact den_congr ((hffree name).mono fun w hw => hagree w hw)
    | nonRigid id h => exact hagree _ hw
  calc den n' ρ = den n' ρ₁ := den_congr (hspec.free.mono fun w hw => (hagree w hw).symm)
    _ = den n₁ (substRigid f ρ₁) := hspec.den_eq ρ₁ hρ₁
    _ = den n₁ (substRigid f ρ) := den_congr hsubst

/-- Two rigid names are exchanged, and not one after the other. -/
theorem mapRigid_substitutes_swap :
    let f : Nat → Node Nat T := fun name => nodeOfVar (.rigid (1 - name))
    ∃ n' s', mapRigid .never f (nodeOfVar (.rigid 0)) .fresh = returned (n', s') ∧ n'.WF .never ∧
      (∀ ρ ρ', Sat .fresh ρ → Sat .fresh ρ' → (∀ name, ρ' (.rigid name) = den (f name) ρ) →
        (∀ v, State.fresh.varState v = (.unsolved : VarState Nat T) → ρ' v = ρ v) →
        den n' ρ = den (nodeOfVar (.rigid 0)) ρ') ∧
      ((nodeOfVar (.rigid 0) : Node Nat T).All (¬ (State.fresh : State Nat T).IsSolved ·) →
        (∀ name, (f name).All (¬ (State.fresh : State Nat T).IsSolved ·)) →
        ∀ ρ, den n' ρ = den (nodeOfVar (.rigid 0)) (substRigid f ρ)) :=
  mapRigid_substitutes .never .fresh (fun _ => nodeOfVar_wf _ _) (nodeOfVar_wf _ _)

/-- The linear terms of a node in which all solved variables are inlined. -/
structure LinearTerms (vs : List (Var V)) (n base : Node V L) (cs : List (Node V L)) : Prop where
  base_free : base.All (· ∉ vs)
  coeffs_free : ∀ c ∈ cs, c.All (· ∉ vs)
  base_eq : ∀ ρ, den base ρ = den n (lower vs ρ)
  coeffs_eq : List.Forall₂ (fun v c => ∀ ρ, den c ρ = den n (single vs v ρ)) vs cs
  le : ∀ ρ, linearValue base vs cs ρ ≤ den n ρ
  eq_of_linear : n.Linear vs → ∀ ρ, linearValue base vs cs ρ = den n ρ

theorem linearTerms_spec (peq : PhysEq V L) {vs : List (Var V)} (hnodup : vs.Nodup) {n : Node V L}
    (hn : n.Canonical) : LinearTerms vs n (assignBots peq vs n) (linearCoeffs peq vs n) := by
  have hbase : ∀ ρ, den (assignBots peq vs n) ρ = den n (lower vs ρ) :=
    congrFun (assignBots_denotes peq vs hn).den_eq
  have hcoeffs := (linearCoeffs_denote peq hnodup hn).imp fun v c hc => congrFun hc.den_eq
  have hzip : ∀ x ∈ vs.zip (linearCoeffs peq vs n), ∀ ρ, den x.2 ρ = den n (single vs x.1 ρ) :=
    fun x hx => (List.forall₂_iff_zip.1 hcoeffs).2 hx
  have hle : ∀ ρ, linearValue (assignBots peq vs n) vs (linearCoeffs peq vs n) ρ ≤ den n ρ := by
    intro ρ
    refine linearValue_le_iff.2 ⟨?_, fun x hx => ?_⟩
    · rw [hbase]
      refine (den_isPoly n).mono fun w => ?_
      rw [lower]
      split
      · exact bot_le
      · exact le_rfl
    · rw [hzip x hx]; exact inf_single_le (den_isPoly n) vs x.1 ρ
  refine ⟨assignBots_ne peq vs hn, linearCoeffs_ne peq vs hn, hbase, hcoeffs, hle, ?_⟩
  intro hlin ρ
  refine le_antisymm (hle ρ) ?_
  obtain ⟨hb, hc⟩ := linearValue_le_iff.1
    (le_refl (linearValue (assignBots peq vs n) vs (linearCoeffs peq vs n) ρ))
  rw [← top_inf_eq (den n ρ)]
  refine den_le_of_linear hn hlin ?_ fun v hv => ?_
  · rw [top_inf_eq, ← hbase]; exact hb
  obtain ⟨i, hi, rfl⟩ := List.getElem_of_mem hv
  have hlen := hcoeffs.length_eq
  have hmem : (vs[i], (linearCoeffs peq vs n)[i]) ∈ vs.zip (linearCoeffs peq vs n) :=
    List.mem_iff_getElem.2 ⟨i, by simp [hi, ← hlen], by simp⟩
  rw [top_inf_eq, ← hzip _ hmem]
  exact hc _ hmem

/-- `decompose_into_linear_terms` in a reachable state: `n₁` is the node that it decomposes. -/
theorem decomposeIntoLinearTerms_exact (peq : PhysEq V T) {s : State V T}
    (hs : Reachable peq s) {vs : List (Var V)} (hnodup : vs.Nodup) {n : Node V T}
    (hn : n.WF peq) :
    ∃ n₁ s₁ base cs, inlineSolvedVars peq n s = some (n₁, s₁) ∧
      decomposeIntoLinearTerms peq vs n s = some ((base, cs), s₁) ∧ LinearTerms vs n₁ base cs ∧
      n₁.All (¬ s.IsSolved ·) ∧ (∀ ρ, Sat s ρ → den n₁ ρ = den n ρ) ∧
      (n.All (¬ s.IsSolved ·) → n₁ = n) := by
  rw [wf_iff_canonical] at hn
  obtain ⟨rank, hrank⟩ := hs.good.ranked
  obtain ⟨n₁, s₁, heq, hinline⟩ := inlineSolvedVars_returns peq hrank hn
  refine ⟨n₁, s₁, assignBots peq vs n₁, linearCoeffs peq vs n₁, heq, ?_,
    linearTerms_spec peq hnodup hinline.canonical, hinline.free, hinline.den_eq,
    hinline.eq_self hrank hn⟩
  simp [decomposeIntoLinearTerms, heq, linearTerms_eq]

theorem decomposeIntoLinearTerms_exact_rigid :
    ∃ n₁ s₁ base cs, inlineSolvedVars .never (nodeOfVar (.rigid 0) : Node Nat T) .fresh =
        some (n₁, s₁) ∧
      decomposeIntoLinearTerms .never [.rigid 0, .rigid 1] (nodeOfVar (.rigid 0) : Node Nat T)
        .fresh = some ((base, cs), s₁) ∧
      LinearTerms [.rigid 0, .rigid 1] n₁ base cs ∧
      n₁.All (¬ (State.fresh : State Nat T).IsSolved ·) ∧
      (∀ ρ, Sat .fresh ρ → den n₁ ρ = den (nodeOfVar (.rigid 0)) ρ) ∧
      ((nodeOfVar (.rigid 0) : Node Nat T).All (¬ (State.fresh : State Nat T).IsSolved ·) →
        n₁ = nodeOfVar (.rigid 0)) :=
  decomposeIntoLinearTerms_exact .never .fresh (by decide) (nodeOfVar_wf _ _)

/-- A product of two rigid variables. -/
def rigidProduct : Node Nat T := meet .never (nodeOfVar (.rigid 0)) (nodeOfVar (.rigid 1))

/-- The variable that is solved to `rigidProduct`. -/
def productVar : Var Nat := .nonRigid 0 (by decide)

def productState : State Nat T := State.fresh.setSolved productVar rigidProduct

/-- The calls that take `rigidProduct` apart. -/
theorem rigidProduct_calls :
    rigidProduct = .block (.rigid 0) bot (nodeOfVar (.rigid 1)) ⊥ ⊤ ∧
      join .never bot (meet .never top rigidProduct) = rigidProduct ∧
      linearTerms .never [.rigid 0, .rigid 1] rigidProduct [] = (bot, [bot, bot]) := by
  decide +kernel

theorem rigidProduct_eq : rigidProduct = .block (.rigid 0) bot (nodeOfVar (.rigid 1)) ⊥ ⊤ :=
  (rigidProduct_calls).1

theorem productState_varState : productState.varState productVar = .solved rigidProduct :=
  varState_setSolved_self _ (fun name => by simp [productVar]) _

theorem productState_reachable : Reachable .never productState := by
  have hwf : rigidProduct.WF .never :=
    (wf_iff_canonical _).2 (meet_denotes _ (nodeOfVar_denotes _).canonical
      (nodeOfVar_denotes _).canonical).canonical
  have hkeep : assignBotInline .never productVar rigidProduct .fresh =
      some (rigidProduct, .fresh) := by
    rw [rigidProduct_eq, assignBotInline]
    rfl
  refine .solveLfp .fresh hwf (?_ : solveLfp .never productVar rigidProduct .fresh = _)
  simp only [solveLfp, State.fresh] at hkeep ⊢
  rw [hkeep]
  rfl

theorem inline_productVar : inlineSolvedVars .never (nodeOfVar productVar) productState =
      some (rigidProduct, productState.setSolved productVar rigidProduct) := by
  have hprod : ∀ s, inlineSolvedVars .never rigidProduct s = some (rigidProduct, s) := by
    intro s
    rw [rigidProduct_eq, inlineSolvedVars]
    rfl
  have hleaf : ∀ (c : T) s, inlineSolvedVars .never (.leaf c : Node Nat T) s =
      some (.leaf c, s) := by
    intro c s
    rw [inlineSolvedVars]
  have hvar : (nodeOfVar productVar : Node Nat T) =
      .block productVar (.leaf ⊥) (.leaf ⊤) ⊥ ⊤ := by decide
  rw [hvar, inlineSolvedVars.eq_def]
  simp only [productState_varState, hleaf, hprod, Option.bind_eq_bind]
  exact congrArg (fun n => some (n, _)) (rigidProduct_calls).2.1

theorem productState_sat : Sat productState fun _ => ⊤ := by
  intro v d hd
  have hden : den rigidProduct (fun _ => ⊤) = ⊤ := by rw [rigidProduct_eq]; decide
  by_cases hv : v = productVar
  · subst hv
    cases hd
    exact hden.symm
  · rw [productState, varState_setSolved_of_ne _ hv] at hd; cases v <;> cases hd

/-- The paths of a solved variable say nothing about its solution: all terms of
`productVar` are bottom. -/
theorem decomposeIntoLinearTerms_solved :
    ∃ (s : State Nat T) (n : Node Nat T) (vs : List (Var Nat)) (base : Node Nat T)
      (cs : List (Node Nat T)) (s₁ : State Nat T) (ρ : Var Nat → T),
      Reachable .never s ∧ n.WF .never ∧ vs.Nodup ∧ n.Linear vs ∧
      decomposeIntoLinearTerms .never vs n s = some ((base, cs), s₁) ∧ Sat s ρ ∧
      linearValue base vs cs ρ ≠ den n ρ := by
  have hall : (nodeOfVar productVar : Node Nat T).All (· = productVar) := nodeOfVar_all rfl
  have hlinear : (nodeOfVar productVar : Node Nat T).Linear [.rigid 0, .rigid 1] := by
    intro p hp v _ w _ hvp hwp
    exact (hp.of_all hall _ hvp).trans (hp.of_all hall _ hwp).symm
  refine ⟨productState, nodeOfVar productVar, [.rigid 0, .rigid 1], bot, [bot, bot],
    productState.setSolved productVar rigidProduct, fun _ => ⊤, productState_reachable,
    nodeOfVar_wf _ _, by decide, hlinear, ?_, productState_sat, by decide⟩
  simp only [decomposeIntoLinearTerms, inline_productVar, Option.bind_eq_bind, Option.bind_some,
    (rigidProduct_calls).2.2]
  rfl

end Kinds

end Oxcaml.Typing.Ldd
