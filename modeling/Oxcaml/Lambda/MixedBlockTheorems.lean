/-
Oxcaml.Lambda.MixedBlockTheorems — block indices agree with the layout of mixed blocks.

A shape is resolved to a tree, in which a vector that is split is a node. §2 says what the
functions of both modules compute in terms of the leaves of the tree: the flattened shape,
the bytes of an element, the bytes beside a path, and the tree of new indexes. §3 is the
reordering, §4 the places of the elements in the block.
-/
import Oxcaml.Lambda.MixedBlockShape
import Oxcaml.Lib.RoseTree
import Oxcaml.Lib.Layout

set_option linter.all false

namespace Oxcaml.Lambda.MixedBlockShape

open List (Forall₂ map_cons mem_cons_of_mem mem_cons_self)
open Prod (fst snd)

open Lib Lib.RoseTree MixedProductBytes

variable {κ α σ : Type} {splitVectors : Bool} {el sub : MixedBlockElement κ α σ}
  {subs : MixedBlockShape κ α σ}

/-! ## §1 Resolution -/

/-- The tree of an element. -/
inductive Resolves (splitVectors : Bool) :
    MixedBlockElement κ α σ → RoseTree (SingletonMixedBlockElement κ α) → Prop
  | singleton {el : MixedBlockElement κ α σ} {e : SingletonMixedBlockElement κ α} :
      singletonOrProductOfMixedBlockElement splitVectors el = .ok (.singleton e) →
      Resolves splitVectors el (.leaf e)
  | product {el : MixedBlockElement κ α σ} {subs : MixedBlockShape κ α σ}
      {children : List (RoseTree (SingletonMixedBlockElement κ α))} :
      singletonOrProductOfMixedBlockElement splitVectors el = .ok (.product subs) →
      Forall₂ (Resolves splitVectors) subs children →
      Resolves splitVectors el (.node children)

mutual

/-- No layout is left to a variable. -/
def concrete : MixedBlockElement κ α σ → Bool
  | .product shape => concreteShape shape
  | .spliceVariable _ => false
  | _ => true

def concreteShape : MixedBlockShape κ α σ → Bool
  | [] => true
  | el :: shape => concrete el && concreteShape shape

end

theorem concreteShape_iff : concreteShape subs ↔ ∀ el ∈ subs, concrete el := by
  induction subs with
  | nil => simp [concreteShape]
  | cons el subs ih => simp [concreteShape, ih]

theorem weight_lt_of_mem (h : el ∈ subs) : weight el < weightShape subs := by
  induction subs with
  | nil => simp at h
  | cons el' subs ih =>
    rw [weightShape]
    rcases List.mem_cons.1 h with rfl | h
    · omega
    · have hlt := ih h; omega

variable {β γ : Type}

theorem exists_forall₂ {R : β → γ → Prop} {l : List β} (h : ∀ a ∈ l, ∃ b, R a b) :
    ∃ l', Forall₂ R l l' := by
  induction l with
  | nil => exact ⟨[], .nil⟩
  | cons a l ih =>
    obtain ⟨b, hb⟩ := h a mem_cons_self
    obtain ⟨l', hl'⟩ := ih fun x hx => h x (mem_cons_of_mem _ hx)
    exact ⟨b :: l', .cons hb hl'⟩

theorem forall₂_imp_mem {R S : β → γ → Prop} {l : List β} {l' : List γ}
    (h : Forall₂ R l l') (himp : ∀ a, ∀ b ∈ l', R a b → S a b) : Forall₂ S l l' := by
  induction h with
  | nil => exact .nil
  | cons hab _ ih =>
    exact .cons (himp _ _ mem_cons_self hab)
      (ih fun a b hb => himp a b (mem_cons_of_mem _ hb))

theorem concrete_cases (splitVectors : Bool) (h : concrete el) :
    (∃ e, singletonOrProductOfMixedBlockElement splitVectors el = .ok (.singleton e)) ∨
      ∃ subs, singletonOrProductOfMixedBlockElement splitVectors el = .ok (.product subs) ∧
        concreteShape subs := by
  cases el with
  | product shape => exact .inr ⟨shape, rfl, h⟩
  | spliceVariable id => simp [concrete] at h
  | vec256 =>
    cases splitVectors with
    | false => exact .inl ⟨_, rfl⟩
    | true => exact .inr ⟨_, rfl, rfl⟩
  | _ => exact .inl ⟨_, rfl⟩

/-- An element that leaves nothing to a variable has a tree. -/
theorem exists_resolves (h : concrete el) : ∃ t, Resolves splitVectors el t := by
  induction hn : weight el using Nat.strong_induction_on generalizing el with | _ n ih =>
rcases concrete_cases splitVectors h with ⟨e, he⟩ | ⟨subs, hsubs, hconcrete⟩
· exact ⟨.leaf e, .singleton he⟩
have hweight := weightShape_lt hsubs
obtain ⟨children, hall⟩ := exists_forall₂ (R := Resolves splitVectors) (l := subs)
  fun s hs => by
    have hlt := weight_lt_of_mem hs
    exact ih (weight s) (by omega) (concreteShape_iff.1 hconcrete s hs) rfl
exact ⟨.node children, .product hsubs hall⟩

theorem exists_resolves_shape (splitVectors : Bool) (h : concreteShape subs) :
    ∃ children, Forall₂ (Resolves splitVectors) subs children :=
  exists_forall₂ fun el hel => exists_resolves (concreteShape_iff.1 h el hel)

/-! ## §2 Leaves -/

variable {t s : RoseTree (SingletonMixedBlockElement κ α)}
  {children : List (RoseTree (SingletonMixedBlockElement κ α))}

variable {index i pos newIndex : ℕ} {e : SingletonMixedBlockElement κ α}

theorem flattenOne_singleton
    (h : singletonOrProductOfMixedBlockElement splitVectors el = .ok (.singleton e)) :
    flattenOne splitVectors index el = .ok [(e, [index])] := by
  rw [flattenOne]
  split <;> simp_all [pure, Except.pure]

theorem flattenOne_product
    (h : singletonOrProductOfMixedBlockElement splitVectors el = .ok (.product subs)) :
    flattenOne splitVectors index el =
      (flattenFrom splitVectors 0 subs >>= fun flattened => pure (under [index] flattened)) := by
  rw [flattenOne]
  split <;> simp_all [under]

theorem flattenFrom_eq (h : Forall₂ (fun el t =>
      ∀ index, flattenOne splitVectors index el = .ok (under [index] (leaves t))) subs children)
    (index : ℕ) : flattenFrom splitVectors index subs = .ok (leavesFrom index children) := by
  induction h generalizing index with
  | nil => rw [flattenFrom]; rfl
  | cons hel _ ih => rw [flattenFrom, hel, ih]; rfl

/-- Flattening lists the leaves. -/
theorem flattenOne_eq (h : Resolves splitVectors el t) (index : ℕ) :
    flattenOne splitVectors index el = .ok (under [index] (leaves t)) := by
  induction t using ind generalizing el index with
  | hleaf e =>
    cases h with
    | singleton he => rw [flattenOne_singleton he]; rfl
  | hnode children ih =>
    cases h with
    | product hsubs hall =>
      have hfrom := flattenFrom_eq (forall₂_imp_mem hall fun el c hc hel => ih c hc hel) 0
      rw [flattenOne_product hsubs,  hfrom]
      rfl

theorem flattenList_eq (h : Forall₂ (Resolves splitVectors) subs children) :
    flattenList splitVectors subs = .ok (leaves (.node children)) := by
  exact flattenFrom_eq (h.imp fun el t hel => flattenOne_eq hel) 0

/-! ### Bytes -/

/-- The words of an element in a block. -/
def SingletonMixedBlockElement.sizeInWords : SingletonMixedBlockElement κ α → ℕ
  | .vec128 => 2
  | .vec256 => 4
  | .vec512 => 8
  | _ => 1

/-- The words of a leaf. -/
def leafSize (leaf : SingletonMixedBlockElement κ α × Path) : ℕ := leaf.1.sizeInWords

/-- The value leaves. -/
def values (l : ShapeWithPaths κ α) : ShapeWithPaths κ α := l.filter fun leaf => leaf.1.isValue

/-- The flat leaves. -/
def flats (l : ShapeWithPaths κ α) : ShapeWithPaths κ α := l.filter fun leaf => !leaf.1.isValue

def bytes (l : ShapeWithPaths κ α) : Bytes :=
  ⟨8 * Layout.total leafSize (values l), 8 * Layout.total leafSize (flats l)⟩

@[simp] theorem values_append (l l' : ShapeWithPaths κ α) :
    values (l ++ l') = values l ++ values l' := List.filter_append l l'

@[simp] theorem flats_append (l l' : ShapeWithPaths κ α) :
    flats (l ++ l') = flats l ++ flats l' := List.filter_append l l'

@[simp] theorem bytes_nil : bytes ([] : ShapeWithPaths κ α) = zero := rfl

@[simp] theorem bytes_append (l l' : ShapeWithPaths κ α) :
    bytes (l ++ l') = add (bytes l) (bytes l') := by
  simp [bytes, add, Nat.mul_add]

/-- The bytes do not depend on the paths. -/
@[simp] theorem bytes_under (path : Path) (l : ShapeWithPaths κ α) :
    bytes (under path l) = bytes l := by
  have hsize : leafSize ∘ (fun leaf : SingletonMixedBlockElement κ α × Path =>
      (leaf.1, path ++ leaf.2)) = leafSize := rfl
  simp only [bytes, values, flats, Layout.total, under, List.filter_map, List.map_map, hsize,
    Function.comp_def]

theorem add_assoc (b c d : Bytes) : add (add b c) d = add b (add c d) := by
  simp [add, Nat.add_assoc]

@[simp] theorem add_zero (b : Bytes) : add b zero = b := rfl

@[simp] theorem zero_add (b : Bytes) : add zero b = b := by simp [add, zero]

theorem countFrom_eq (h : Forall₂ (fun el t => count el = .ok (bytes (leaves t))) subs children)
    (index : ℕ) (cts : Bytes) :
    countFrom cts subs = .ok (add cts (bytes (leavesFrom index children))) := by
  induction h generalizing index cts with
  | nil => rfl
  | cons hel _ ih =>
    rw [countFrom, hel, leavesFrom_cons, bytes_append, bytes_under, ← add_assoc]
    exact ih (index + 1) _

theorem count_singleton
    (h : singletonOrProductOfMixedBlockElement splitVectors el = .ok (.singleton e)) :
    count el = .ok (bytes [(e, [])]) := by
  cases el with
  | product shape => simp [singletonOrProductOfMixedBlockElement, pure, Except.pure] at h
  | vec256 =>
    cases splitVectors with
    | false => cases h; rfl
    | true => cases h
  | spliceVariable id => cases h
  | _ => cases h; rfl

theorem count_product
    (h : singletonOrProductOfMixedBlockElement splitVectors el = .ok (.product subs)) :
    count el = countFrom zero subs := by
  cases el with
  | product shape => cases h; rw [count]
  | vec256 =>
    cases splitVectors with
    | false => cases h
    | true => cases h; rfl
  | _ => cases h

/-- The bytes of an element are those of its leaves. -/
theorem count_eq (h : Resolves splitVectors el t) : count el = .ok (bytes (leaves t)) := by
  induction t using ind generalizing el with
  | hleaf e =>
    cases h with
    | singleton he => exact count_singleton he
  | hnode children ih =>
    cases h with
    | product hsubs hall =>
      have hfrom := countFrom_eq (forall₂_imp_mem hall fun el c hc hel => ih c hc hel) 0 zero
      rw [count_product hsubs, hfrom, zero_add, leaves]

/-! ### Bytes beside a path -/

/-- The part of an element at a path. -/
def subElement : Path → MixedBlockElement κ α σ → Option (MixedBlockElement κ α σ)
  | [], el => some el
  | i :: path, .product shape => shape[i]?.bind (subElement path)
  | _ :: _, _ => none

theorem forall₂_getElem? {R : β → γ → Prop} {l : List β} {l' : List γ} {a : β}
    (h : Forall₂ R l l') (ha : l[i]? = some a) : ∃ b, l'[i]? = some b ∧ R a b := by
  induction h generalizing i with
  | nil => simp at ha
  | cons hab _ ih =>
    cases i with
    | zero =>
      simp only [List.getElem?_cons_zero, Option.some.injEq] at ha
      subst ha
      exact ⟨_, rfl, hab⟩
    | succ i => exact ih (by simpa using ha)

variable {path : Path} {totals c : Counts}

open WrtPath in
/-- The elements to the right of the position. -/
theorem countShapeFrom_right
    (h : Forall₂ (Resolves splitVectors) subs children) (hpos : pos < index) :
    countShapeFrom pos path index totals subs =
      .ok (WrtPath.add totals ⟨zero, zero, bytes (leavesFrom index children)⟩) := by
  induction h generalizing index totals with
  | nil => rw [countShapeFrom, leavesFrom, bytes_nil]; rfl
  | cons hel _ ih =>
    rw [countShapeFrom, if_neg (by omega), if_neg (by omega), count_eq hel, leavesFrom_cons,
      bytes_append, bytes_under]
    refine (ih (by omega)).trans ?_
    simp [WrtPath.add, WrtPath.zero, add_assoc]

open WrtPath in
/-- The fold goes over the elements to the left, the one at the position, and the rest. -/
theorem countShapeFrom_eq {k : ℕ} {counts : Counts}
    (h : Forall₂ (Resolves splitVectors) subs children) (hpos : index + k = pos)
    (hel : subs[k]? = some el) (hcount : countWrtPath el path = .ok counts) :
    countShapeFrom pos path index totals subs = .ok (WrtPath.add totals ⟨counts.here,
      MixedProductBytes.add (bytes (leavesFrom index (children.take k))) counts.left,
      MixedProductBytes.add counts.right
        (bytes (leavesFrom (pos + 1) (children.drop (k + 1))))⟩) := by
  induction h generalizing index k totals with
  | nil => simp at hel
  | cons hres hall ih =>
    cases k with
    | zero =>
      simp only [List.getElem?_cons_zero, Option.some.injEq] at hel
      subst hel
      obtain rfl : index = pos := by omega
      rw [countShapeFrom, if_pos rfl, hcount]
      refine (countShapeFrom_right hall (Nat.lt_succ_self index)).trans ?_
      simp [WrtPath.add, leavesFrom, add_assoc]
    | succ k =>
      have hnext : index + 1 + k = pos := by omega
      rw [countShapeFrom, if_neg (by omega), if_pos (by omega), count_eq hres]
      refine (ih hnext (by simpa using hel)).trans ?_
      rw [List.take_succ_cons, List.drop_succ_cons, leavesFrom_cons, bytes_append, bytes_under]
      simp [WrtPath.add, WrtPath.zero, add_assoc]

open WrtPath in
/-- The bytes at a path are those of the leaves below it, to its left and to its right. -/
theorem countWrtPath_eq (h : Resolves splitVectors el t) (hsub : subElement path el = some sub) :
    ∃ s, at? path t = some s ∧ Resolves splitVectors sub s ∧ countWrtPath el path =
      .ok ⟨bytes (leaves s), bytes (before path t), bytes (after path t)⟩ := by
  induction path generalizing el t with
  | nil =>
    obtain rfl : el = sub := by simpa [subElement] using hsub
    refine ⟨t, rfl, h, ?_⟩
    rw [countWrtPath, count_eq h, before, after]
    rfl
  | cons i path ih =>
    cases el with
    | product shape =>
      cases h with
      | singleton he => cases he
      | @product _ subs children hsubs hall =>
        cases hsubs
        rw [subElement] at hsub
        obtain ⟨child, hchild, hsub⟩ := Option.bind_eq_some_iff.1 hsub
        obtain ⟨c, hc, hres⟩ := forall₂_getElem? hall hchild
        obtain ⟨s, hat, hs, hcount⟩ := ih hres hsub
        refine ⟨s, by simpa [at?, hc] using hat, hs, ?_⟩
        rw [countWrtPath, countShapeFrom_eq hall (Nat.zero_add i) hchild hcount]
        simp [WrtPath.add, WrtPath.zero, before, after, hc]
    | _ => simp [subElement] at hsub

/-! ### The tree of new indexes -/

mutual

/-- The tree whose leaves have the indexes of their paths. -/
def treeOf (newIndex : Path → ℕ) : RoseTree (SingletonMixedBlockElement κ α) → Tree κ α
  | .leaf e => .leaf e (newIndex [])
  | .node children => .node (treesFrom newIndex 0 children)

def treesFrom (newIndex : Path → ℕ) (index : ℕ) :
    List (RoseTree (SingletonMixedBlockElement κ α)) → List (Tree κ α)
  | [] => []
  | c :: children =>
    treeOf (fun path => newIndex (index :: path)) c :: treesFrom newIndex (index + 1) children

end

theorem flattenTreeArray_treesFrom (h : ∀ c ∈ children, ∀ newIndex : Path → ℕ,
      flattenTree (treeOf newIndex c) = (leaves c).map fun leaf => newIndex leaf.2)
    (newIndex : Path → ℕ) (index : ℕ) :
    flattenTreeArray (treesFrom newIndex index children) =
      (leavesFrom index children).map fun leaf => newIndex leaf.2 := by
  induction children generalizing index with
  | nil => simp [treesFrom, flattenTreeArray, leavesFrom]
  | cons c children ih =>
    rw [treesFrom, flattenTreeArray, h c mem_cons_self,
      ih (fun d hd => h d (mem_cons_of_mem _ hd)), leavesFrom_cons]
    simp [under]

section

variable (newIndex : Path → ℕ)

theorem flattenTree_treeOf (t : RoseTree (SingletonMixedBlockElement κ α)) :
    flattenTree (treeOf newIndex t) = (leaves t).map fun leaf => newIndex leaf.2 := by
  induction t using ind generalizing newIndex with
  | hleaf e => simp [treeOf, flattenTree, leaves]
  | hnode children ih =>
    exact flattenTreeArray_treesFrom (fun c hc newIndex => ih c hc newIndex) newIndex 0

theorem treesFrom_getElem? (index i : ℕ)
    (children : List (RoseTree (SingletonMixedBlockElement κ α))) :
    (treesFrom newIndex index children)[i]? =
      children[i]?.map (treeOf fun path => newIndex ((index + i) :: path)) := by
  induction children generalizing index i with
  | nil => simp [treesFrom]
  | cons c children ih =>
    cases i with
    | zero => simp [treesFrom]
    | succ i =>
      rw [treesFrom, List.getElem?_cons_succ, ih, List.getElem?_cons_succ,
        Nat.add_right_comm, Nat.add_assoc]

/-- The lookup gives the indexes of the leaves below the path. -/
theorem lookupTree_treeOf (h : at? path t = some s) :
    lookupTree path (treeOf newIndex t) =
      .ok ((leaves s).map fun leaf => newIndex (path ++ leaf.2)) := by
  induction path generalizing t newIndex with
  | nil =>
    obtain rfl : t = s := by simpa [at?] using h
    have hflatten := flattenTree_treeOf newIndex t
    cases t with
    | leaf e => rfl
    | node children =>
      simp only [treeOf, flattenTree] at hflatten
      rw [treeOf, lookupTree, hflatten]
      rfl
  | cons i path ih =>
    cases t with
    | leaf e => simp [at?] at h
    | node children =>
      obtain ⟨c, hc, h⟩ := Option.bind_eq_some_iff.1 h
      have hget := treesFrom_getElem? newIndex 0 i children
      rw [hc, Nat.zero_add] at hget
      rw [treeOf, lookupTree, read_eq hget]
      exact ih _ h

end

variable {table : Path → Option ℕ}

theorem buildTreeOne_singleton
    (h : singletonOrProductOfMixedBlockElement splitVectors el = .ok (.singleton e))
    (hindex : table (path.reverse ++ [index]) = some newIndex) :
    buildTreeOne splitVectors table path index el = .ok (.leaf e newIndex) := by
  rw [buildTreeOne]
  split <;> simp_all [pure, Except.pure]

theorem buildTreeOne_product
    (h : singletonOrProductOfMixedBlockElement splitVectors el = .ok (.product subs)) :
    buildTreeOne splitVectors table path index el =
      (buildTreesFrom splitVectors table (index :: path) 0 subs >>= fun children =>
        pure (.node children)) := by
  rw [buildTreeOne]
  split <;> simp_all

theorem buildTreesFrom_eq {newIndex : Path → ℕ} (h : Forall₂ (fun el t => ∀ index,
      (∀ leaf ∈ under [index] (leaves t), table (path.reverse ++ leaf.2) = some (newIndex leaf.2)) →
      buildTreeOne splitVectors table path index el =
        .ok (treeOf (fun p => newIndex (index :: p)) t)) subs children) (index : ℕ)
    (htable : ∀ leaf ∈ leavesFrom index children,
      table (path.reverse ++ leaf.2) = some (newIndex leaf.2)) :
    buildTreesFrom splitVectors table path index subs =
      .ok (treesFrom newIndex index children) := by
  induction h generalizing index with
  | nil => rw [buildTreesFrom]; rfl
  | cons hel _ ih =>
    rw [buildTreesFrom, hel index fun leaf hleaf => htable leaf (List.mem_append_left _ hleaf),
      ih (index + 1) fun leaf hleaf => htable leaf (List.mem_append_right _ hleaf)]
    rfl

/-- The tree is built from the indexes that the table has for the leaves. -/
theorem buildTreeOne_eq {newIndex : Path → ℕ} (h : Resolves splitVectors el t)
    (htable : ∀ leaf ∈ leaves t, table (path.reverse ++ index :: leaf.2) = some (newIndex leaf.2)) :
    buildTreeOne splitVectors table path index el = .ok (treeOf newIndex t) := by
  induction t using ind generalizing el path index newIndex with
  | hleaf e =>
    cases h with
    | singleton he =>
      have hindex := htable (e, []) (by simp [leaves])
      rw [buildTreeOne_singleton he hindex, treeOf]
  | hnode children ih =>
    cases h with
    | @product _ subs _ hsubs hall =>
      have hfrom : buildTreesFrom splitVectors table (index :: path) 0 subs =
          .ok (treesFrom newIndex 0 children) := by
        refine buildTreesFrom_eq (forall₂_imp_mem hall fun el c hc hel i hi => ?_) 0 ?_
        · refine ih c hc hel fun leaf hleaf => ?_
          exact hi (leaf.1, i :: leaf.2) (mem_under.2 ⟨leaf.2, rfl, hleaf⟩)
        · intro leaf hleaf; simpa using htable leaf hleaf
      rw [buildTreeOne_product hsubs,  hfrom]
      rfl

/-! ## §3 Reordering -/

variable {l : ShapeWithPaths κ α} {leaf : SingletonMixedBlockElement κ α × Path}

theorem partitionShape_eq (l : ShapeWithPaths κ α) : partitionShape l = (values l, flats l) := by
  induction l with
  | nil => rfl
  | cons leaf l ih =>
    rw [partitionShape, ih]
    cases h : leaf.1.isValue with
    | true | false => simp [values, flats, h]

theorem perm_reordered (l : ShapeWithPaths κ α) : (values l ++ flats l).Perm l :=
  List.filter_append_perm _ l

theorem indexPaths_of_not_mem
    (h : path ∉ l.map snd) : indexPaths newIndex l table path = table path := by
  induction l generalizing newIndex table with
  | nil => rfl
  | cons leaf l ih =>
    rw [map_cons, List.mem_cons, not_or] at h
    rw [indexPaths, ih h.2, if_neg h.1]

/-- The table has the index of every path. -/
theorem indexPaths_eq (hnodup : (l.map snd).Nodup) (h : l[i]? = some leaf) :
    indexPaths newIndex l table leaf.2 = some (newIndex + i) := by
  induction l generalizing newIndex i table with
  | nil => simp at h
  | cons first l ih =>
    rw [map_cons, List.nodup_cons] at hnodup
    cases i with
    | zero =>
      simp only [List.getElem?_cons_zero, Option.some.injEq] at h
      subst h
      rw [indexPaths, indexPaths_of_not_mem hnodup.1, if_pos rfl, Nat.add_zero]
    | succ i => rw [indexPaths, ih hnodup.2 (by simpa using h), Nat.add_assoc, Nat.add_comm 1 i]

/-- The new index of a leaf is its index in the reordered shape. -/
theorem ofMixedBlockElements_eq (h : Forall₂ (Resolves splitVectors) subs children)
    (hl : leaves (.node children) = l) :
    ∃ newIndex : Path → ℕ, ofMixedBlockElements splitVectors subs = .ok
        ⟨(values l).map fst, (flats l).map fst, values l ++ flats l,
          treesFrom newIndex 0 children⟩ ∧
      ∀ i leaf, (values l ++ flats l)[i]? = some leaf → newIndex leaf.2 = i := by
  have hnodup : ((values l ++ flats l).map snd).Nodup := by
    rw [((perm_reordered l).map snd).nodup_iff, ← hl]
    exact leaves_nodup _
  have htable : ∀ i leaf, (values l ++ flats l)[i]? = some leaf →
      indexPaths 0 (values l ++ flats l) (fun _ => none) leaf.2 = some i := by
    intro i leaf hget
    rw [indexPaths_eq hnodup hget, Nat.zero_add]
  refine ⟨fun path => (indexPaths 0 (values l ++ flats l) (fun _ => none) path).getD 0, ?_, ?_⟩
  · have htrees : buildTreeList splitVectors
        (indexPaths 0 (values l ++ flats l) fun _ => none) [] subs = .ok (treesFrom
          (fun path => (indexPaths 0 (values l ++ flats l) (fun _ => none) path).getD 0)
          0 children) := by
      refine buildTreesFrom_eq (h.imp fun el t hel index hindex => ?_) 0 ?_
      · refine buildTreeOne_eq hel fun leaf hleaf => ?_
        exact hindex (leaf.1, index :: leaf.2) (mem_under.2 ⟨leaf.2, rfl, hleaf⟩)
      intro leaf hleaf
      rw [← leaves, hl, ← (perm_reordered l).mem_iff] at hleaf
      obtain ⟨i, hi⟩ := List.mem_iff_getElem?.1 hleaf
      simp [htable i leaf hi]
    unfold ofMixedBlockElements
    rw [flattenList_eq h, hl]
    simp only [bind, Except.bind, partitionShape_eq, htrees]
    rfl
  · intro i leaf hget; simp [htable i leaf hget]

/-- Writing the old indexes at distinct new ones. -/
theorem writeOldIndexes_ok {newIndexes : List ℕ} {result : List ℤ} (oldIndex : ℕ)
    (hnodup : newIndexes.Nodup) (hlt : ∀ i ∈ newIndexes, i < result.length) :
    ∃ result', writeOldIndexes oldIndex newIndexes result = .ok result' ∧
      result'.length = result.length ∧
      (∀ k i, newIndexes[k]? = some i → result'[i]? = some ((oldIndex + k : ℕ) : ℤ)) ∧
      ∀ i, i ∉ newIndexes → result'[i]? = result[i]? := by
  induction newIndexes generalizing result oldIndex with
  | nil => exact ⟨result, rfl, rfl, by simp, by simp⟩
  | cons newIndex newIndexes ih =>
    rw [List.nodup_cons] at hnodup
    have hwrite := write_eq (e := Fatal.indexOutOfBounds) (hlt newIndex mem_cons_self)
      (oldIndex : ℤ)
    have hltSet : ∀ i ∈ newIndexes, i < (result.set newIndex (oldIndex : ℤ)).length := by
      intro i hi
      rw [List.length_set]
      exact hlt i (mem_cons_of_mem _ hi)
    obtain ⟨result', hok, hlen, hin, hout⟩ := ih (oldIndex + 1) hnodup.2 hltSet
    rw [List.length_set] at hlen
    refine ⟨result', ?_, hlen, ?_, ?_⟩
    · rw [writeOldIndexes, hwrite]; exact hok
    · intro k i hk
      cases k with
      | zero =>
        simp only [List.getElem?_cons_zero, Option.some.injEq] at hk
        subst hk
        rw [hout newIndex hnodup.1, List.getElem?_set_self (hlt newIndex mem_cons_self),
          Nat.add_zero]
      | succ k => rw [hin k i (by simpa using hk), Nat.add_assoc, Nat.add_comm 1 k]
    intro i hi
    rw [List.mem_cons, not_or] at hi
    rw [hout i hi.2, List.getElem?_set_ne (Ne.symm hi.1)]

/-- The array of old indexes inverts the reordering. -/
theorem newIndexesToOldIndexes_ok {t : T κ α} {newIndex : Path → ℕ}
    (hforest : flattenTreeArray t.forest = l.map fun leaf => newIndex leaf.2)
    (hnodup : (l.map snd).Nodup) (hperm : t.flattenedReorderedShape.Perm l)
    (hindex : ∀ i leaf, t.flattenedReorderedShape[i]? = some leaf → newIndex leaf.2 = i) :
    ∃ result, newIndexesToOldIndexes t = .ok result ∧
      result.length = t.flattenedReorderedShape.length ∧
      ∀ (oldIndex : ℕ) leaf, l[oldIndex]? = some leaf → ∃ i,
        (flattenTreeArray t.forest)[oldIndex]? = some i ∧
        t.flattenedReorderedShape[i]? = some leaf ∧ result[i]? = some (oldIndex : ℤ) := by
  have hplace : ∀ leaf ∈ l, t.flattenedReorderedShape[newIndex leaf.2]? = some leaf := by
    intro leaf hleaf
    obtain ⟨i, hi⟩ := List.mem_iff_getElem?.1 (hperm.mem_iff.2 hleaf)
    rw [hindex i leaf hi, hi]
  have hlt : ∀ i ∈ flattenTreeArray t.forest,
      i < (List.replicate (flattenTreeArray t.forest).length (-1 : ℤ)).length := by
    intro i hi
    rw [hforest] at hi
    obtain ⟨leaf, hleaf, rfl⟩ := List.mem_map.1 hi
    have hbound := (List.getElem?_eq_some_iff.1 (hplace leaf hleaf)).1
    rwa [List.length_replicate, hforest, List.length_map, ← hperm.length_eq]
  have hnodupIndexes : (flattenTreeArray t.forest).Nodup := by
    rw [hforest]
    refine (List.nodup_map_iff_inj_on (List.Nodup.of_map _ hnodup)).2 ?_
    intro leaf hleaf leaf' hleaf' heq
    have hget := hplace leaf hleaf
    rw [heq, hplace leaf' hleaf'] at hget
    simpa using hget.symm
  obtain ⟨result, hok, hlen, hin, -⟩ := writeOldIndexes_ok 0 hnodupIndexes hlt
  refine ⟨result, hok, ?_, ?_⟩
  · rw [hlen, List.length_replicate, hforest, List.length_map, hperm.length_eq]
  intro oldIndex leaf hleaf
  have hget : (flattenTreeArray t.forest)[oldIndex]? = some (newIndex leaf.2) := by
    rw [hforest, List.getElem?_map, hleaf]
    rfl
  refine ⟨newIndex leaf.2, hget, hplace leaf (List.mem_of_getElem? hleaf), ?_⟩
  rw [hin oldIndex _ hget, Nat.zero_add]

/-! ## §4 Places -/

theorem mapM_flatSizeInWords (h : ∀ leaf ∈ l, leaf.1.isValue = false) :
    (l.map fst).mapM flatSizeInWords = .ok (l.map leafSize) := by
  induction l with
  | nil => rfl
  | cons leaf l ih =>
    have hleaf : flatSizeInWords leaf.1 = .ok (leafSize leaf) := by
      have hflat := h leaf mem_cons_self
      obtain ⟨e, path⟩ := leaf
      cases e with
      | value kind => simp [SingletonMixedBlockElement.isValue] at hflat
      | _ => rfl
    rw [map_cons, List.mapM_cons, hleaf, ih fun x hx => h x (mem_cons_of_mem _ hx)]
    rfl

theorem leafSize_of_value (h : leaf.1.isValue) : leafSize leaf = 1 := by
  obtain ⟨e, path⟩ := leaf
  cases e with
  | value kind => rfl
  | _ => simp [SingletonMixedBlockElement.isValue] at h

theorem total_values (h : ∀ leaf ∈ l, leaf.1.isValue) : Layout.total leafSize l = l.length := by
  induction l with
  | nil => rfl
  | cons leaf l ih =>
    rw [Layout.total_cons, leafSize_of_value (h leaf mem_cons_self),
      ih fun x hx => h x (mem_cons_of_mem _ hx), List.length_cons, Nat.add_comm]

theorem addSizes_eq {n o : ℕ} (h : n ≤ l.length) :
    addSizes (l.map leafSize) n o = .ok (o + Layout.start leafSize l n) := by
  induction l generalizing n o with
  | nil =>
    obtain rfl : n = 0 := by simpa using h
    rfl
  | cons leaf l ih =>
    cases n with
    | zero => rfl
    | succ n => rw [map_cons, addSizes, ih (by simpa using h), Layout.start_succ, Nat.add_assoc]

/-- The offset of an element is the sum of the sizes before it. -/
theorem offsetInWords_eq (h : i ≤ (values l ++ flats l).length) :
    offsetInWords ⟨(values l).length, (flats l).map leafSize⟩ i =
      .ok (Layout.start leafSize (values l ++ flats l) i) := by
  have hvalues : ∀ leaf ∈ values l, leaf.1.isValue := fun leaf hleaf =>
    (List.mem_filter.1 hleaf).2
  unfold offsetInWords Layout.start
  split_ifs with hle
  · have htake : ∀ leaf ∈ (values l).take i, leaf.1.isValue := fun leaf hleaf =>
      hvalues leaf (List.mem_of_mem_take hleaf)
    rw [List.take_append_of_le_length hle, total_values htake, List.length_take_of_le hle]
    rfl
  rw [List.length_append] at h
  dsimp only at hle ⊢
  rw [addSizes_eq (by omega), List.take_append, List.take_of_length_le (by omega),
    Layout.total_append, total_values hvalues]
  rfl

/-- A byte belongs to an element at one of the indexes, a value or a flat one. -/
def Occupied (t : T κ α) (places : FlambdaShape) (indexes : List ℕ) (isValue : Bool) (b : ℕ) :
    Prop :=
  ∃ i ∈ indexes, ∃ leaf o, t.flattenedReorderedShape[i]? = some leaf ∧ leaf.1.isValue = isValue ∧
    offsetInWords places i = .ok o ∧ 8 * o ≤ b ∧ b < 8 * (o + leaf.1.sizeInWords)

/-- The elements of a segment of the block have the bytes of an interval. -/
theorem occupied_iff {t : T κ α} {places : FlambdaShape} {indexes : List ℕ} {isValue : Bool}
    {pre seg post : ShapeWithPaths κ α} {b : ℕ}
    (hshape : t.flattenedReorderedShape = pre ++ (seg ++ post))
    (hplaces : ∀ i ≤ t.flattenedReorderedShape.length, offsetInWords places i =
      .ok (Layout.start leafSize t.flattenedReorderedShape i))
    (hnodup : (pre ++ (seg ++ post)).Nodup)
    (hindexes : ∀ i leaf, t.flattenedReorderedShape[i]? = some leaf →
      (leaf ∈ seg ↔ i ∈ indexes ∧ leaf.1.isValue = isValue)) :
    Occupied t places indexes isValue b ↔ 8 * Layout.total leafSize pre ≤ b ∧
      b < 8 * Layout.total leafSize pre + 8 * Layout.total leafSize seg := by
  have hsegment : _ ↔ Layout.total leafSize pre ≤ b / 8 ∧ _ :=
    Layout.exists_occupies_segment hnodup
  rw [hshape] at hplaces hindexes
  unfold Occupied
  rw [hshape]
  constructor
  · intro h
    obtain ⟨i, hi, leaf, o, hget, hvalue, ho, hle, hlt⟩ := h
    have hlen := (List.getElem?_eq_some_iff.1 hget).1
    rw [hplaces i hlen.le, Except.ok.injEq] at ho
    have hsize : leafSize leaf = leaf.1.sizeInWords := rfl
    have hwords := hsegment.1 ⟨i, leaf, (hindexes i leaf hget).2 ⟨hi, hvalue⟩, hget, leaf, hget,
      by omega, by omega⟩
    omega
  intro h
  obtain ⟨i, leaf, hmem, hget, leaf', hget', hle, hlt⟩ := hsegment.2 (by omega)
  obtain rfl : leaf = leaf' := by
    rw [hget, Option.some.injEq] at hget'
    exact hget'
  obtain ⟨hi, hvalue⟩ := (hindexes i leaf hget).1 hmem
  have hsize : leafSize leaf = leaf.1.sizeInWords := rfl
  exact ⟨i, hi, leaf, _, hget, hvalue, hplaces i (List.getElem?_eq_some_iff.1 hget).1.le,
    by omega, by omega⟩

section Segment

variable {t : T κ α} {places : FlambdaShape} {newIndex : Path → ℕ} {A B C : ShapeWithPaths κ α}
  {b : ℕ}

/-- The new indexes of some of the leaves are those at which the block has them. -/
theorem mem_indexes_iff
    (hindex : ∀ i leaf, (values (A ++ B ++ C) ++ flats (A ++ B ++ C))[i]? = some leaf →
      newIndex leaf.2 = i)
    (hget : (values (A ++ B ++ C) ++ flats (A ++ B ++ C))[i]? = some leaf) :
    i ∈ B.map (fun leaf => newIndex leaf.2) ↔ leaf ∈ B := by
  constructor
  · intro h
    obtain ⟨leaf', hleaf', heq⟩ := List.mem_map.1 h
    have hmem' : leaf' ∈ values (A ++ B ++ C) ++ flats (A ++ B ++ C) :=
      (perm_reordered _).mem_iff.2 (by simp [hleaf'])
    obtain ⟨j, hj⟩ := List.mem_iff_getElem?.1 hmem'
    rw [← heq, hindex j leaf' hj, hj, Option.some.injEq] at hget
    exact hget ▸ hleaf'
  · intro h; exact List.mem_map.2 ⟨leaf, h, hindex i leaf hget⟩

section

variable (hshape : t.flattenedReorderedShape = values (A ++ B ++ C) ++ flats (A ++ B ++ C))
include hshape

theorem occupied_values_iff
    (hplaces : places = ⟨(values (A ++ B ++ C)).length, (flats (A ++ B ++ C)).map leafSize⟩)
    (hnodup : ((A ++ B ++ C).map snd).Nodup)
    (hindex : ∀ i leaf, (values (A ++ B ++ C) ++ flats (A ++ B ++ C))[i]? = some leaf →
      newIndex leaf.2 = i) :
    Occupied t places (B.map fun leaf => newIndex leaf.2) true b ↔
      (bytes A).value ≤ b ∧ b < (bytes A).value + (bytes B).value := by
  have hreordered : (values (A ++ B ++ C) ++ flats (A ++ B ++ C)).Nodup :=
    (perm_reordered _).nodup_iff.2 (List.Nodup.of_map _ hnodup)
  have hassoc : values (A ++ B ++ C) ++ flats (A ++ B ++ C) =
      values A ++ (values B ++ (values C ++ flats (A ++ B ++ C))) := by
    simp
  refine occupied_iff (hshape.trans hassoc) ?_ (hassoc ▸ hreordered) ?_
  · intro i hi
    rw [hshape] at hi ⊢
    rw [hplaces]
    exact offsetInWords_eq hi
  intro i leaf hget
  rw [hshape] at hget
  rw [mem_indexes_iff hindex hget]
  exact List.mem_filter

theorem occupied_flats_iff
    (hplaces : places = ⟨(values (A ++ B ++ C)).length, (flats (A ++ B ++ C)).map leafSize⟩)
    (hnodup : ((A ++ B ++ C).map snd).Nodup)
    (hindex : ∀ i leaf, (values (A ++ B ++ C) ++ flats (A ++ B ++ C))[i]? = some leaf →
      newIndex leaf.2 = i) :
    Occupied t places (B.map fun leaf => newIndex leaf.2) false b ↔
      (bytes (A ++ B ++ C)).value + (bytes A).flat ≤ b ∧
      b < (bytes (A ++ B ++ C)).value + (bytes A).flat + (bytes B).flat := by
  have hreordered : (values (A ++ B ++ C) ++ flats (A ++ B ++ C)).Nodup :=
    (perm_reordered _).nodup_iff.2 (List.Nodup.of_map _ hnodup)
  have hassoc : values (A ++ B ++ C) ++ flats (A ++ B ++ C) =
      values (A ++ B ++ C) ++ flats A ++ (flats B ++ flats C) := by
    simp
  have hbytes : (bytes (A ++ B ++ C)).value + (bytes A).flat =
      8 * Layout.total leafSize (values (A ++ B ++ C) ++ flats A) := by
    rw [Layout.total_append, Nat.mul_add]
    rfl
  rw [hbytes]
  refine occupied_iff (hshape.trans hassoc) ?_ (hassoc ▸ hreordered) ?_
  · intro i hi
    rw [hshape] at hi ⊢
    rw [hplaces]
    exact offsetInWords_eq hi
  intro i leaf hget
  rw [hshape] at hget
  rw [mem_indexes_iff hindex hget]
  simp [flats]

end

end Segment

variable {idx : OffsetAndGapBytes}

open WrtPath in
theorem offsetAndGap_eq_some (h : offsetAndGap c = some idx) :
    idx.offsetBytes = (if c.here.value = 0 then c.left.value + c.left.flat + c.right.value
      else c.left.value) ∧
    if 0 < c.here.value ∧ 0 < c.here.flat then idx.gapBytes = c.left.flat + c.right.value ∧
      idx.gapBytes + c.here.value + c.here.flat < 2 ^ 12
    else idx.gapBytes = 0 := by
  have hlimit : lowestInvalidGap = 2 ^ 12 := rfl
  unfold offsetAndGap at h
  simp only [hasValueAndFlat, Bool.and_eq_true, decide_eq_true_eq, hlimit] at h
  by_cases hboth : 0 < c.here.value ∧ 0 < c.here.flat
  · rw [if_pos hboth] at h ⊢
    by_cases hgap : c.left.flat + c.right.value + c.here.value + c.here.flat ≥ 2 ^ 12
    · rw [if_pos hgap] at h; cases h
    rw [if_neg hgap, Option.some.injEq] at h
    subst h
    exact ⟨rfl, rfl, Nat.lt_of_not_ge hgap⟩
  rw [if_neg hboth, Option.some.injEq] at h
  rw [if_neg hboth]
  subst h
  exact ⟨rfl, rfl⟩

open WrtPath in
theorem exists_offsetAndGap (h : 0 < c.here.value ∧ 0 < c.here.flat →
      c.left.flat + c.right.value + c.here.value + c.here.flat < 2 ^ 12) :
    ∃ idx, offsetAndGap c = some idx := by
  have hlimit : lowestInvalidGap = 2 ^ 12 := rfl
  unfold offsetAndGap
  simp only [hasValueAndFlat, Bool.and_eq_true, decide_eq_true_eq, hlimit]
  by_cases hboth : 0 < c.here.value ∧ 0 < c.here.flat
  · rw [if_pos hboth, if_neg (Nat.not_le_of_lt (h hboth))]; exact ⟨_, rfl⟩
  · rw [if_neg hboth]; exact ⟨_, rfl⟩

open WrtPath in
/-- An index that can be deepened has an offset and a gap below the limit. -/
theorem offsetAndGap_deepen {left right here' left' right' : Bytes}
    (h : offsetAndGap ⟨MixedProductBytes.add (MixedProductBytes.add left' here') right', left,
      right⟩ = some idx) :
    ∃ idx', offsetAndGap ⟨here', MixedProductBytes.add left left',
      MixedProductBytes.add right' right⟩ = some idx' ∧ idx'.gapBytes < 2 ^ 12 := by
  have hgap := (offsetAndGap_eq_some h).2
  have hbound : 0 < here'.value ∧ 0 < here'.flat → left.flat + left'.flat +
      (right'.value + right.value) + here'.value + here'.flat < 2 ^ 12 := by
    intro hboth
    have hsum : 0 < (MixedProductBytes.add (MixedProductBytes.add left' here') right').value ∧
        0 < (MixedProductBytes.add (MixedProductBytes.add left' here') right').flat := by
      simp only [MixedProductBytes.add]
      omega
    rw [if_pos hsum] at hgap
    simp only [MixedProductBytes.add] at hgap
    omega
  obtain ⟨idx', hidx'⟩ := exists_offsetAndGap (c := ⟨here', MixedProductBytes.add left left',
    MixedProductBytes.add right' right⟩) hbound
  refine ⟨idx', hidx', ?_⟩
  have hgap' := (offsetAndGap_eq_some hidx').2
  dsimp only at hgap'
  split_ifs at hgap'
  · omega
  · omega

open WrtPath in
/-- Block indices agree with the layout. -/
theorem blockIndex_agrees (splitVectors : Bool) (shape : MixedBlockShape κ α σ)
    (hconcrete : concreteShape shape) :
    ∃ flattened t oldIndexes places, flattenList splitVectors shape = .ok flattened ∧
      ofMixedBlockElements splitVectors shape = .ok t ∧
      newIndexesToOldIndexes t = .ok oldIndexes ∧
      fromMixedBlockShape t = .ok places ∧
      t.flattenedReorderedShape.Perm flattened ∧
      oldIndexes.length = t.flattenedReorderedShape.length ∧
      (∀ (oldIndex : ℕ) leaf, flattened[oldIndex]? = some leaf → ∃ newIndex,
        (flattenTreeArray t.forest)[oldIndex]? = some newIndex ∧
        t.flattenedReorderedShape[newIndex]? = some leaf ∧
        oldIndexes[newIndex]? = some (oldIndex : ℤ)) ∧
      ∀ pos path sub, subElement (pos :: path) (.product shape) = some sub →
        ∃ counts indexes, countShape shape pos path = .ok counts ∧
          lookupPathProducingNewIndexes t (pos :: path) = .ok indexes ∧
          indexes.map (t.flattenedReorderedShape[·]?) =
            (flattened.filter fun leaf => decide (pos :: path <+: leaf.2)).map some ∧
          ∀ idx, offsetAndGap counts = some idx → (∀ b, Occupied t places indexes true b ↔
              idx.offsetBytes ≤ b ∧ b < idx.offsetBytes + counts.here.value) ∧
            (∀ b, Occupied t places indexes false b ↔
              idx.offsetBytes + counts.here.value + idx.gapBytes ≤ b ∧
              b < idx.offsetBytes + counts.here.value + idx.gapBytes + counts.here.flat) ∧
            ∀ ext sub', subElement (pos :: (path ++ ext)) (.product shape) = some sub' →
              ∃ counts' idx', countShape shape pos (path ++ ext) = .ok counts' ∧
                offsetAndGap counts' = some idx' ∧ idx'.gapBytes < 2 ^ 12 := by
  obtain ⟨children, hall⟩ := exists_resolves_shape splitVectors hconcrete
  have hres : Resolves splitVectors (.product shape) (.node children) := .product rfl hall
  obtain ⟨l, hl⟩ : ∃ l, leaves (.node children) = l := ⟨_, rfl⟩
  have hnodup : (l.map snd).Nodup := hl ▸ leaves_nodup (.node children)
  obtain ⟨newIndex, hof, hindex⟩ := ofMixedBlockElements_eq hall hl
  have hforest : flattenTreeArray (treesFrom newIndex 0 children) =
      l.map fun leaf => newIndex leaf.2 := by
    have hflatten := flattenTree_treeOf newIndex (.node children)
    rwa [treeOf, flattenTree, hl] at hflatten
  obtain ⟨oldIndexes, hold, hlen, hinv⟩ := newIndexesToOldIndexes_ok
    (t := ⟨_, _, values l ++ flats l, treesFrom newIndex 0 children⟩) hforest hnodup
    (perm_reordered l) hindex
  refine ⟨l, _, oldIndexes, ⟨(values l).length, (flats l).map leafSize⟩, hl ▸ flattenList_eq hall,
    hof, hold, ?_, perm_reordered l, hlen, hinv, ?_⟩
  · have hflat : ∀ leaf ∈ flats l, leaf.1.isValue = false := fun leaf hleaf => by
      simpa using (List.mem_filter.1 hleaf).2
    unfold fromMixedBlockShape
    simp only [mapM_flatSizeInWords hflat, List.length_map]
    rfl
  intro pos path sub hsub
  obtain ⟨s, hat, hs, hcount⟩ := countWrtPath_eq hres hsub
  have hlookup := lookupTree_treeOf newIndex hat
  have hplace : ∀ leaf ∈ l, (values l ++ flats l)[newIndex leaf.2]? = some leaf := by
    intro leaf hleaf
    obtain ⟨i, hi⟩ := List.mem_iff_getElem?.1 ((perm_reordered l).mem_iff.2 hleaf)
    rw [hindex i leaf hi, hi]
  have hsplit := leaves_eq hat
  rw [hl] at hsplit
  refine ⟨_, _, hcount, hlookup, ?_, ?_⟩
  · rw [← hl, filter_leaves hat, hl, List.map_map, under, List.map_map]
    refine List.map_congr_left fun leaf hleaf => ?_
    refine hplace (leaf.1, pos :: path ++ leaf.2) ?_
    rw [hsplit]
    simp [mem_under, hleaf]
  intro idx hidx
  obtain ⟨hoffset, hgap⟩ := offsetAndGap_eq_some hidx
  have hindexes : (leaves s).map (fun leaf => newIndex (pos :: path ++ leaf.2)) =
      (under (pos :: path) (leaves s)).map fun leaf => newIndex leaf.2 := by
    simp [under]
  have hsum : bytes l = MixedProductBytes.add (MixedProductBytes.add
      (bytes (before (pos :: path) (.node children))) (bytes (leaves s)))
      (bytes (after (pos :: path) (.node children))) := by
    rw [hsplit, bytes_append, bytes_append, bytes_under]
  rw [hindexes]
  subst hsplit
  refine ⟨fun b => ?_, fun b => ?_, fun ext sub' hsub' => ?_⟩
  · rw [occupied_values_iff rfl rfl hnodup hindex, bytes_under, hoffset]
    dsimp only
    split_ifs
    · lia
    · rfl
  · rw [occupied_flats_iff rfl rfl hnodup hindex, bytes_under, hoffset, hsum]
    dsimp only [MixedProductBytes.add] at hgap ⊢
    split_ifs at hgap ⊢ <;> lia
  obtain ⟨s', hat', -, hcount'⟩ := countWrtPath_eq hres hsub'
  rw [← List.cons_append, at?_append, hat] at hat'
  have hbelow : at? ext s = some s' := hat'
  rw [leaves_eq hbelow, bytes_append, bytes_append, bytes_under] at hidx
  obtain ⟨idx', hidx', hlt⟩ := offsetAndGap_deepen hidx
  refine ⟨_, idx', hcount', ?_, hlt⟩
  rw [← List.cons_append, before_append ext hat, after_append ext hat, bytes_append,
    bytes_append, bytes_under, bytes_under]
  exact hidx'

/-- A product of a flat element and a value, before a vector. -/
theorem blockIndex_agrees_nested : ∃ (t : T Unit Unit) (places : FlambdaShape) (indexes : List ℕ),
      ofMixedBlockElements true ([.value (), .product [.float64, .value ()], .vec256] :
        MixedBlockShape Unit Unit Empty) = .ok t ∧
      lookupPathProducingNewIndexes t [1] = .ok indexes ∧
      (∀ b, Occupied t places indexes true b ↔ 8 ≤ b ∧ b < 16) ∧
      ∀ b, Occupied t places indexes false b ↔ 16 ≤ b ∧ b < 24 := by
  obtain ⟨flattened, t, oldIndexes, places, -, hof, -, -, -, -, -, hpaths⟩ :=
    blockIndex_agrees true ([.value (), .product [.float64, .value ()], .vec256] :
      MixedBlockShape Unit Unit Empty) rfl
  obtain ⟨counts, indexes, hcounts, hlookup, -, hagrees⟩ := hpaths 1 [] _ rfl
  obtain rfl : ⟨⟨8, 8⟩, ⟨8, 0⟩, ⟨0, 32⟩⟩ = counts := Except.ok.inj hcounts
  obtain ⟨hvalues, hflats, -⟩ := hagrees ⟨8, 0⟩ rfl
  exact ⟨t, places, indexes, hof, hlookup, hvalues, hflats⟩

end Oxcaml.Lambda.MixedBlockShape
