/-
Oxcaml.Flambda2.PatriciaTreeMaps — Patricia trees refine finite maps.

§9 is `split`, the one operation that looks at the order of keys. Keys are
compared as signed integers, while a branch on the sign bit has the
negative keys on its right: such a branch can only be the root, and `split`
treats it apart. Below it all keys have one sign (`SameSign`) and the
order of keys is that of their bits. §10 is `of_list`, and §11 states what
all the operations do as one structure.
-/
import Mathlib
import Oxcaml.Flambda2.PatriciaTreeOperations

set_option linter.all false

namespace Oxcaml.Flambda2.PatriciaTree

open Option (or_none)

open Oxcaml.Lib

variable {α β γ : Type}

/-! ## §9 `split` -/

variable {i k pb : Key}

theorem slt_asymm (h : i.slt k = true) : k.slt i = false := by
  rw [BitVec.slt_eq_decide, decide_eq_true_iff] at h
  rw [BitVec.slt_eq_decide, decide_eq_false_iff_not]
  omega

theorem ne_of_slt (h : i.slt k = true) : i ≠ k := by
  rintro rfl
  simp [BitVec.slt_eq_decide] at h

theorem slt_of_not_slt (hne : i ≠ k) (h : ¬ k.slt i = true) : i.slt k = true := by
  rw [BitVec.slt_eq_decide, decide_eq_true_iff] at h ⊢
  have := BitVec.toInt_ne.2 hne
  omega

/-- What splitting the map `f` at `i` has to return. -/
structure SplitSpec (found : α → β) (notFound : β) (i : Key) (f : Key → Option α)
    (r : T α × β × T α) : Prop where
  lt : Refines r.1 fun k => if k.slt i then f k else none
  mem : r.2.1 = (f i).elim notFound found
  gt : Refines r.2.2 fun k => if i.slt k then f k else none

section Split

variable {found : α → β} {notFound : β} {i : Key} {f f0 f1 : Key → Option α}

/-- A map all of whose keys are larger. -/
theorem splitSpec_gt {t : T α} (ht : Refines t f) (hgt : ∀ k, f k ≠ none → i.slt k = true) :
    SplitSpec found notFound i f (.empty, notFound, t) := by
  refine ⟨refines_empty.congr fun k => ?_, ?_, ht.congr fun k => ?_⟩
  · split
    case isTrue hlt => exact (by_contra fun hk => by simp [slt_asymm (hgt k (Ne.symm hk))] at hlt)
    case isFalse => rfl
  · have hi : f i = none := by_contra fun hi => ne_of_slt (hgt i hi) rfl
    rw [hi]
    rfl
  split
  case isTrue => rfl
  case isFalse hle => exact by_contra fun hk => hle (hgt k hk)

/-- A map all of whose keys are smaller. -/
theorem splitSpec_lt {t : T α} (ht : Refines t f) (hlt : ∀ k, f k ≠ none → k.slt i = true) :
    SplitSpec found notFound i f (t, notFound, .empty) := by
  refine ⟨ht.congr fun k => ?_, ?_, refines_empty.congr fun k => ?_⟩
  · split
    case isTrue => rfl
    case isFalse hle => exact by_contra fun hk => hle (hlt k hk)
  · have hi : f i = none := by_contra fun hi => ne_of_slt (hlt i hi) rfl
    rw [hi]
    rfl
  split
  case isTrue hgt => exact (by_contra fun hk => by simp [slt_asymm (hlt k (Ne.symm hk))] at hgt)
  case isFalse => rfl

/-- Adding larger keys to a map that has been split. -/
theorem SplitSpec.or_gt {lt gt gt' : T α} {mem : β}
    (h : SplitSpec found notFound i f0 (lt, mem, gt)) (hf : ∀ k, f k = (f0 k).or (f1 k))
    (hgt : ∀ k, f1 k ≠ none → i.slt k = true)
    (ht : Refines gt' fun k => (if i.slt k then f0 k else none).or (f1 k)) :
    SplitSpec found notFound i f (lt, mem, gt') := by
  have hnone : ∀ k, ¬ i.slt k = true → f1 k = none :=
    fun k hk => by_contra fun h1 => hk (hgt k h1)
  refine ⟨h.lt.congr fun k => ?_, ?_, ht.congr fun k => ?_⟩
  · split
    case isTrue hlt => rw [hf, hnone k (by simp [slt_asymm hlt]), or_none]
    case isFalse => rfl
  · have hi : f1 i = none := by_contra fun hi => ne_of_slt (hgt i hi) rfl
    rw [hf, hi, or_none]
    exact h.mem
  split
  case isTrue => exact (hf k).symm
  case isFalse hle => rw [hnone k hle, or_none]

/-- Adding smaller keys to a map that has been split. -/
theorem SplitSpec.or_lt {lt lt' gt : T α} {mem : β}
    (h : SplitSpec found notFound i f0 (lt, mem, gt)) (hf : ∀ k, f k = (f0 k).or (f1 k))
    (hlt : ∀ k, f1 k ≠ none → k.slt i = true)
    (ht : Refines lt' fun k => (if k.slt i then f0 k else none).or (f1 k)) :
    SplitSpec found notFound i f (lt', mem, gt) := by
  have hnone : ∀ k, ¬ k.slt i = true → f1 k = none :=
    fun k hk => by_contra fun h1 => hk (hlt k h1)
  refine ⟨ht.congr fun k => ?_, ?_, h.gt.congr fun k => ?_⟩
  · split
    case isTrue => exact (hf k).symm
    case isFalse hge => rw [hnone k hge, or_none]
  · have hi : f1 i = none := by_contra fun hi => ne_of_slt (hlt i hi) rfl
    rw [hf, hi, or_none]
    exact h.mem
  split
  case isTrue hgt => rw [hf, hnone k (by simp [slt_asymm hgt]), or_none]
  case isFalse => rfl

end Split

/-- No key is on both sides of a branch. -/
theorem Tree.WF.disjoint {t0 t1 : Tree α} (h : (Tree.branch pb t0 t1).WF) (k : Key) :
    findTree k t0 = none ∨ findTree k t1 = none := by
  by_contra hboth
  obtain ⟨hk0, hk1⟩ := not_or.1 hboth
  exact (h.side1 hk1).false_of_true (h.side0 hk0)

/-- All keys of `t` have the same sign. -/
def SameSign (t : Tree α) : Prop := ∃ s, ∀ k, findTree k t ≠ none → k.getLsbD 62 = s

/-- The branches of a tree whose keys have one sign are not on the sign bit. -/
theorem SameSign.isLowest_ne {t0 t1 : Tree α} (h : (Tree.branch pb t0 t1).WF)
    (hsign : SameSign (.branch pb t0 t1)) {n : Nat} (hn : IsLowest pb n) : n ≠ 62 := by
  rintro rfl
  obtain ⟨s, hs⟩ := hsign
  obtain ⟨k0, hk0⟩ := h.2.2.2.1.exists_find
  obtain ⟨k1, hk1⟩ := h.2.2.2.2.exists_find
  have hbit0 := ((side_iff hn).1 (h.side0 hk0)).2
  have hbit1 := ((side_iff hn).1 (h.side1 hk1)).2
  have hs0 := hs k0 (by rwa [find_of_side_false (h.side0 hk0)])
  have hs1 := hs k1 (by rwa [find_of_side_true (h.side1 hk1)])
  rw [hbit0] at hs0
  rw [hbit1] at hs1
  exact absurd (hs0.trans hs1.symm) (by decide)

section Sides

variable {pb i k : Key} {n : Nat}

/-- Keys on the two sides of a branch are ordered as the sides. -/
theorem slt_of_sides (hn : IsLowest pb n) (hne : n ≠ 62) (hi : Side pb false i)
    (hk : Side pb true k) : i.slt k = true := by
  have hi' := (side_iff hn).1 hi
  have hk' := (side_iff hn).1 hk
  rw [slt_of_difference hn.lt (by simp [hi'.2, hk'.2]) (hi'.1.trans hk'.1.symm), if_neg hne]
  exact hk'.2

/-- A branch on the sign bit has its smaller keys on the right. -/
theorem slt_of_sign_sides (hn : IsLowest pb 62) (hi : Side pb false i) (hk : Side pb true k) :
    k.slt i = true := by
  have hi' := (side_iff hn).1 hi
  have hk' := (side_iff hn).1 hk
  have hne : k.getLsbD 62 ≠ i.getLsbD 62 := by
    rw [hi'.2, hk'.2]
    decide
  rw [slt_of_difference hn.lt hne (hk'.1.trans hi'.1.symm)]
  exact hk'.2

/-- A key that does not match a prefix compares with the keys below it as
with the prefix. -/
theorem slt_iff_slt_prefix (hn : IsLowest pb n)
    (hi : ¬ matchPrefix i (unpack pb).1 (unpack pb).2 = true) {b : Bool} (hk : Side pb b k) :
    i ≠ (unpack pb).1 ∧ i.slt k = i.slt (unpack pb).1 ∧ k.slt i = (unpack pb).1.slt i := by
  have hpre : AgreeFrom (n + 1) k (unpack pb).1 := by
    intro m hm
    rw [((side_iff hn).1 hk).1 m hm, unpack_fst_getLsbD hn]
    simp [show n < m from hm]
  have hdiff : ¬ AgreeFrom (n + 1) i (unpack pb).1 := by
    intro hag
    refine hi ((matchPrefix_iff hn i).2 fun m hm => ?_)
    rw [hag m hm, ← hpre m hm, ((side_iff hn).1 hk).1 m hm]
  have hne : i ≠ (unpack pb).1 := by
    intro heq
    exact hdiff (heq ▸ AgreeFrom.refl _ _)
  obtain ⟨m, hm, hbit, hag, -⟩ := exists_highest_difference hne
  have hnm : n < m := by
    by_contra hle
    exact hdiff (hag.mono (by omega))
  have hkm := hpre m hnm
  have hagk : AgreeFrom (m + 1) k (unpack pb).1 := hpre.mono (by omega)
  refine ⟨hne, ?_, ?_⟩
  · rw [slt_of_difference hm hbit hag, slt_of_difference hm (hkm ▸ hbit) (hag.trans hagk.symm), hkm]
  · rw [slt_of_difference hm hbit.symm hag.symm,
      slt_of_difference hm (hkm ▸ hbit.symm) (hagk.trans hag.symm), hkm]

end Sides

theorem sameSignSplit_spec (found : α → β) (notFound : β) (i : Key) {t : Tree α} (h : t.WF)
    (hsign : SameSign t) :
    SplitSpec found notFound i (findTree · t) (sameSignSplit found notFound i t) := by
  induction t with
  | leaf j d =>
    simp only [sameSignSplit]
    have hkey : ∀ k, findTree k (.leaf j d) ≠ none → k = j := fun _ => eq_of_ite_ne_none
    split
    case isTrue heq =>
      subst heq
      have hnone : ∀ k, i ≠ k → findTree k (.leaf i d) = none := fun k hk => if_neg hk
      refine ⟨refines_empty.congr fun k => ?_, ?_, refines_empty.congr fun k => ?_⟩
      · split
        case isTrue hlt => exact (hnone k (ne_of_slt hlt).symm).symm
        case isFalse => rfl
      · simp [findTree]
      split
      case isTrue hgt => exact (hnone k (ne_of_slt hgt)).symm
      case isFalse => rfl
    case isFalse hne =>
      split
      case isTrue hlt => exact splitSpec_lt h.refines fun k hk => hkey k hk ▸ hlt
      case isFalse hle =>
        exact splitSpec_gt h.refines fun k hk => hkey k hk ▸ slt_of_not_slt hne hle
  | branch pb t0 t1 ih0 ih1 =>
    obtain ⟨n, hn⟩ := exists_isLowest h.1
    have hne62 := hsign.isLowest_ne h hn
    obtain ⟨s, hs⟩ := hsign
    have hsign0 : SameSign t0 := ⟨s, fun k hk => hs k (by rwa [find_of_side_false (h.side0 hk)])⟩
    have hsign1 : SameSign t1 := ⟨s, fun k hk => hs k (by rwa [find_of_side_true (h.side1 hk)])⟩
    have hspec0 := ih0 h.2.2.2.1 hsign0
    have hspec1 := ih1 h.2.2.2.2 hsign1
    simp only [sameSignSplit]
    split
    case isTrue hmatch =>
      split
      case isTrue hz =>
        have hi := side_false hmatch hz
        refine hspec0.or_gt h.find_branch (fun k hk => slt_of_sides hn hne62 hi (h.side1 hk)) ?_
        rw [tree_branchRightNonempty]
        refine refines_branch h.1 hspec0.gt h.2.2.2.2.refines (fun k hk => ?_) fun _ => h.side1
        exact h.side0 fun hnone => hk (by simp [hnone])
      case isFalse hz =>
        have hi := side_true hmatch hz
        refine hspec1.or_lt (fun k => (h.find_branch k).trans ?_)
          (fun k hk => slt_of_sides hn hne62 (h.side0 hk) hi) ?_
        · exact or_comm_of_disjoint (h.disjoint k)
        rw [tree_branchLeftNonempty]
        refine (refines_branch h.1 h.2.2.2.1.refines hspec1.lt (fun _ => h.side0)
          fun k hk => ?_).congr fun k => or_comm_of_disjoint ?_
        · exact h.side1 fun hnone => hk (by simp [hnone])
        · exact (h.disjoint k).imp_right fun hnone => by simp [hnone]
    case isFalse hmatch =>
      have hcmp : ∀ k, findTree k (.branch pb t0 t1) ≠ none →
          i ≠ (unpack pb).1 ∧ i.slt k = i.slt (unpack pb).1 ∧ k.slt i = (unpack pb).1.slt i := by
        intro k hk
        obtain ⟨b, hb⟩ := exists_side hk
        exact slt_iff_slt_prefix hn hmatch hb
      split
      case isTrue hlt => exact splitSpec_gt h.refines fun k hk => (hcmp k hk).2.1.trans hlt
      case isFalse hge =>
        refine splitSpec_lt h.refines fun k hk => ?_
        obtain ⟨hne, -, hkt⟩ := hcmp k hk
        exact hkt.trans (slt_of_not_slt hne.symm hge)

/-- The test for a branch on the sign bit. -/
theorem shiftLeft_one_eq_zero_iff {n : Nat} (hn : IsLowest pb n) : pb <<< 1 = 0 ↔ n = 62 := by
  have hlt := hn.lt
  constructor
  · intro hzero
    by_contra hne
    have hbit : (pb <<< 1).getLsbD (n + 1) = true := by
      simp [hn.1, show n + 1 < 63 by omega]
    simp [hzero] at hbit
  rintro rfl
  refine BitVec.eq_of_getLsbD_eq fun m hm => ?_
  rcases Nat.eq_zero_or_pos m with rfl | hpos
  · simp
  · simp [hn.2 (m - 1) (by omega)]

variable {t t0 : T α}

theorem split_spec (found : α → β) (notFound : β) (i : Key) (h : t.WF) :
    SplitSpec found notFound i (findOpt · t) (split found notFound i t) := by
  match t with
  | .empty => exact ⟨refines_empty.congr fun k => (ite_self _).symm, rfl,
      refines_empty.congr fun k => (ite_self _).symm⟩
  | .tree (.leaf j d) =>
    exact sameSignSplit_spec found notFound i h ⟨j.getLsbD 62, fun k hk => by
      rw [eq_of_ite_ne_none hk]⟩
  | .tree (.branch pb t0 t1) =>
    obtain ⟨n, hn⟩ := exists_isLowest h.1
    simp only [split, shiftLeft_one_eq_zero_iff hn]
    split
    case isTrue htop =>
      subst htop
      have hsign0 : SameSign t0 := ⟨false, fun k hk => ((side_iff hn).1 (h.side0 hk)).2⟩
      have hsign1 : SameSign t1 := ⟨true, fun k hk => ((side_iff hn).1 (h.side1 hk)).2⟩
      have hspec0 := sameSignSplit_spec found notFound i h.2.2.2.1 hsign0
      have hspec1 := sameSignSplit_spec found notFound i h.2.2.2.2 hsign1
      have hside : Side pb (i.slt 0) i := by
        refine (side_iff hn).2 ⟨fun m hm => ?_, ?_⟩
        · rw [BitVec.getLsbD_of_ge _ _ hm, BitVec.getLsbD_of_ge _ _ hm]
        · exact (BitVec.msb_eq_getLsbD_last i).symm.trans BitVec.slt_zero_eq_msb.symm
      split
      case isTrue hneg =>
        rw [hneg] at hside
        refine hspec1.or_gt (fun k => (h.find_branch k).trans (or_comm_of_disjoint (h.disjoint k)))
          (fun k hk => slt_of_sign_sides hn (h.side0 hk) hside) ?_
        rw [tree_branchLeftNonempty]
        refine (refines_branch h.1 h.2.2.2.1.refines hspec1.gt (fun _ => h.side0)
          fun k hk => ?_).congr fun k => or_comm_of_disjoint ?_
        · exact h.side1 fun hnone => hk (by simp [hnone])
        · exact (h.disjoint k).imp_right fun hnone => by simp [hnone]
      case isFalse hpos =>
        rw [Bool.eq_false_iff.2 hpos] at hside
        refine hspec0.or_lt h.find_branch (fun k hk => slt_of_sign_sides hn hside (h.side1 hk)) ?_
        rw [tree_branchRightNonempty]
        refine refines_branch h.1 hspec0.lt h.2.2.2.2.refines (fun k hk => ?_) fun _ => h.side1
        exact h.side0 fun hnone => hk (by simp [hnone])
    case isFalse htop =>
      refine sameSignSplit_spec found notFound i h ⟨pb.getLsbD 62, fun k hk => ?_⟩
      obtain ⟨b, hb⟩ := exists_side hk
      have hlt := hn.lt
      exact ((side_iff hn).1 hb).1 62 (by omega)

/-! ## §10 `of_list` -/

/-- Later bindings replace earlier ones. -/
theorem foldl_add_refines (l : List (Key × α)) (h : t.WF) :
    Refines (l.foldl (fun map b => add b.1 b.2 map) t)
      fun k => (l.reverse.lookup k).or (findOpt k t) := by
  induction l generalizing t with
  | nil => exact ⟨h, fun k => rfl⟩
  | cons b l ih =>
    have hadd := add_refines b.1 b.2 h
    refine (ih hadd.wf).congr fun k => ?_
    rw [hadd.find, List.reverse_cons, List.lookup_append]
    by_cases hk : k = b.1
    · simp [List.lookup, hk]
    · simp [List.lookup, hk, beq_false_of_ne hk]

theorem ofList_refines (l : List (Key × α)) : Refines (ofList l) fun k => l.reverse.lookup k :=
  (foldl_add_refines l (t := .empty) trivial).congr fun _ => or_none

/-! ## §11 All operations -/

/-- The operations on one tree: from a well-formed tree each of them builds
a well-formed tree for the finite map that the field gives. -/
structure OneTree (t : T α) : Prop where
  add : ∀ i d, Refines (add i d t) fun k => if k = i then some d else findOpt k t
  replace : ∀ i f, Refines (replace i f t)
    fun k => if k = i then (findOpt i t).map f else findOpt k t
  update : ∀ i f, Refines (update i f t) fun k => if k = i then f (findOpt i t) else findOpt k t
  remove : ∀ i, Refines (remove i t) fun k => if k = i then none else findOpt k t
  filter : ∀ p, Refines (filter p t) fun k => (findOpt k t).filter (p k)
  partition : ∀ p, Refines (partition p t).1 (fun k => (findOpt k t).filter (p k)) ∧
    Refines (partition p t).2 fun k => (findOpt k t).filter fun d => !p k d
  filterMap : ∀ {β : Type} (f : Key → α → Option β),
    Refines (filterMap f t) fun k => (findOpt k t).bind (f k)
  filterMapSharing : ∀ (peq : PhysEq α) f,
    Refines (filterMapSharing peq f t) fun k => (findOpt k t).bind (f k)
  map : ∀ {β : Type} (f : α → β), Refines (map f t) fun k => (findOpt k t).map f
  mapSharing : ∀ (peq : PhysEq α) f, Refines (mapSharing peq f t) fun k => (findOpt k t).map f
  split : ∀ {β : Type} (found : α → β) notFound i,
    SplitSpec found notFound i (findOpt · t) (split found notFound i t)

/-- The operations on two trees with data of one type. The fast paths of the
`shared` operations need that equal trees merge to themselves. -/
structure TwoTrees (t0 t1 : T α) : Prop where
  union : ∀ f, Refines (union f t0 t1) fun k => unionAt f k (findOpt k t0) (findOpt k t1)
  unionSharing : ∀ (peq : PhysEq α) f,
    Refines (unionSharing peq f t0 t1) fun k => unionAt f k (findOpt k t0) (findOpt k t1)
  unionShared : ∀ (peq : PhysEq α) f, (∀ k x, f k x x = some x) →
    Refines (unionShared peq f t0 t1) fun k => unionAt f k (findOpt k t0) (findOpt k t1)
  unionTotal : ∀ f, ∃ t, unionTotal f t0 t1 = some t ∧
    Refines t fun k => unionTotalAt f k (findOpt k t0) (findOpt k t1)
  unionTotalShared : ∀ (peq : PhysEq α) f, (∀ k x, f k x x = x) →
    ∃ t, unionTotalShared peq f t0 t1 = some t ∧
      Refines t fun k => unionTotalAt f k (findOpt k t0) (findOpt k t1)
  unionLeftBiased : ∀ peq : PhysEq α, ∃ t, unionLeftBiased peq t0 t1 = some t ∧
    Refines t fun k => (findOpt k t0).or (findOpt k t1)
  unionRightBiased : ∀ peq : PhysEq α, ∃ t, unionRightBiased peq t0 t1 = some t ∧
    Refines t fun k => (findOpt k t1).or (findOpt k t0)
  diffShared : ∀ (peq : PhysEq α) f, (∀ k x, f k x x = none) →
    Refines (diffShared peq f t0 t1) fun k => diffAt f k (findOpt k t0) (findOpt k t1)

/-- The operations on two trees with data of two types. -/
structure TwoTreesHet (t0 : T α) (t1 : T β) : Prop where
  diff : ∀ f, Refines (diff f t0 t1) fun k => diffAt f k (findOpt k t0) (findOpt k t1)
  diffSharing : ∀ (peq : PhysEq α) f,
    Refines (diffSharing peq f t0 t1) fun k => diffAt f k (findOpt k t0) (findOpt k t1)
  diffDomains : Refines (diffDomains t0 t1) fun k => diffDomainsAt (findOpt k t0) (findOpt k t1)
  inter : ∀ {γ : Type} (f : Key → α → β → γ),
    Refines (inter f t0 t1) fun k => interAt f k (findOpt k t0) (findOpt k t1)
  merge : ∀ {γ : Type} (f : Key → Option α → Option β → Option γ),
    Refines (merge f t0 t1) fun k => mergeFun f k (findOpt k t0) (findOpt k t1)
  updateMany : ∀ f,
    Refines (updateMany f t0 t1) fun k => updateManyAt f k (findOpt k t0) (findOpt k t1)

theorem oneTree (h : t.WF) : OneTree t where
  add i d := add_refines i d h
  replace i f := replace_refines i f h
  update i f := update_refines i f h
  remove i := remove_refines i h
  filter p := filter_refines p h
  partition p := by
    rw [partition_eq]
    exact ⟨filter_refines p h, filter_refines (fun k d => !p k d) h⟩
  filterMap f := filterMap_refines f h
  filterMapSharing peq f := by
    rw [filterMapSharing_eq]
    exact filterMap_refines f h
  map f := map_refines f h
  mapSharing peq f := by
    rw [mapSharing_eq]
    exact map_refines f h
  split found notFound i := split_spec found notFound i h

theorem twoTrees {t1 : T α} (h0 : t0.WF) (h1 : t1.WF) : TwoTrees t0 t1 where
  union f := union_refines f h0 h1
  unionSharing peq f := unionSharing_refines peq f h0 h1
  unionShared peq _ hf := unionShared_refines peq hf h0 h1
  unionTotal f := unionTotal_refines f h0 h1
  unionTotalShared peq _ hf := unionTotalShared_refines peq hf h0 h1
  unionLeftBiased peq := unionLeftBiased_refines peq h0 h1
  unionRightBiased peq := unionRightBiased_refines peq h0 h1
  diffShared peq _ hf := diffShared_refines peq hf h0 h1

theorem twoTreesHet {t1 : T β} (h0 : t0.WF) (h1 : t1.WF) : TwoTreesHet t0 t1 where
  diff f := diff_refines f h0 h1
  diffSharing peq f := diffSharing_refines peq f h0 h1
  diffDomains := diffDomains_refines h0 h1
  inter f := inter_refines f h0 h1
  merge f := merge_refines_mergeFun f h0 h1
  updateMany f := updateMany_refines f h0 h1

/-- Patricia trees refine finite maps. -/
theorem patricia_trees_refine_maps : (∀ (α : Type) (t : T α), t.WF → OneTree t) ∧
    (∀ (α : Type) (t0 t1 : T α), t0.WF → t1.WF → TwoTrees t0 t1) ∧
    (∀ (α β : Type) (t0 : T α) (t1 : T β), t0.WF → t1.WF → TwoTreesHet t0 t1) ∧
    ∀ (α : Type) (l : List (Key × α)), Refines (ofList l) fun k => l.reverse.lookup k :=
  ⟨fun _ _ => oneTree, fun _ _ _ => twoTrees, fun _ _ _ _ => twoTreesHet, fun _ => ofList_refines⟩

/-- All the operations on trees with keys of both signs. -/
theorem patricia_trees_refine_maps_signed :
    OneTree (ofList [(5, true), (-1, false), (BitVec.intMin 63, true)]) :=
  patricia_trees_refine_maps.1 Bool _ (patricia_trees_refine_maps.2.2.2 Bool _).wf

end Oxcaml.Flambda2.PatriciaTree
