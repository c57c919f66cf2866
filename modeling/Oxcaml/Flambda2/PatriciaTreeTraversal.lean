/-
Oxcaml.Flambda2.PatriciaTreeTraversal — Patricia trees in the order of signed keys.

The bits of a key order keys as unsigned integers, so a traversal from left to
right visits the negative keys last. The traversals of the source exchange the
two sides of the root when it is on the sign bit (`order_branches`), and go
from left to right below it.

§17 has the traversals and §18 the iterators. §19 follows the bindings from
left to right (`Tree.bindings`): they are sorted in a tree without branches on
the sign bit, and `roots` are one or two such trees. §20 states what the
traversals do, and §21 what an iterator has still to yield after any sequence
of `advance` and `seek`.
-/
import Oxcaml.Lib.Unfolding
import Oxcaml.Flambda2.PatriciaTreeMaps
import Mathlib.Data.List.Sort

set_option linter.all false

namespace Oxcaml.Flambda2.PatriciaTree

open List (mem_cons mem_cons_self mem_singleton)

open Oxcaml.Lib

variable {α β σ : Type}

/-! ## §17 Traversals -/

/-- `order_branches`. The branch on the sign bit has its smaller keys on the right. -/
def orderBranches (prefixAndBit : Key) (t0 t1 : Tree α) : Tree α × Tree α :=
  if prefixAndBit <<< 1 = 0 then (t1, t0) else (t0, t1)

section Iter

variable {m : Type → Type} [Monad m]

def unsignedIter (f : Key → α → m Unit) : Tree α → m Unit
  | .leaf i d => f i d
  | .branch _ t0 t1 => do
    unsignedIter f t0
    unsignedIter f t1

/-- `iter`, where the callback has the effects of `m`. -/
def iter (f : Key → α → m Unit) : T α → m Unit
  | .empty => pure ()
  | .tree (.leaf i d) => f i d
  | .tree (.branch prefixAndBit t0 t1) => do
    let (t0, t1) := orderBranches prefixAndBit t0 t1
    unsignedIter f t0
    unsignedIter f t1

end Iter

def unsignedFold (f : Key → α → σ → σ) : Tree α → σ → σ
  | .leaf i d, acc => f i d acc
  | .branch _ t0 t1, acc => unsignedFold f t1 (unsignedFold f t0 acc)

def fold (f : Key → α → σ → σ) : T α → σ → σ
  | .empty, acc => acc
  | .tree (.leaf i d), acc => f i d acc
  | .tree (.branch prefixAndBit t0 t1), acc =>
    let (t0, t1) := orderBranches prefixAndBit t0 t1
    unsignedFold f t1 (unsignedFold f t0 acc)

/-- `loop` of `to_list`. -/
def toListLoop : List (Key × α) → Tree α → List (Key × α)
  | acc, .leaf i d => (i, d) :: acc
  | acc, .branch _ t0 t1 => toListLoop (toListLoop acc t1) t0

def toList : T α → List (Key × α)
  | .empty => []
  | .tree (.leaf i d) => [(i, d)]
  | .tree (.branch prefixAndBit t0 t1) =>
    let (t0, t1) := orderBranches prefixAndBit t0 t1
    toListLoop (toListLoop [] t1) t0

/-- `loop` of `min_binding_tree`. -/
def minBindingLoop : Tree α → Key × α
  | .leaf i d => (i, d)
  | .branch _ t0 _ => minBindingLoop t0

def minBindingTree : Tree α → Key × α
  | .leaf i d => (i, d)
  | .branch prefixAndBit t0 t1 => minBindingLoop (orderBranches prefixAndBit t0 t1).1

/-- `min_binding_opt`. Where it has no result, `min_binding` raises `Not_found`. -/
def minBindingOpt : T α → Option (Key × α)
  | .empty => none
  | .tree t => some (minBindingTree t)

/-- `loop` of `max_binding_tree`. -/
def maxBindingLoop : Tree α → Key × α
  | .leaf i d => (i, d)
  | .branch _ _ t1 => maxBindingLoop t1

def maxBindingTree : Tree α → Key × α
  | .leaf i d => (i, d)
  | .branch prefixAndBit t0 t1 => maxBindingLoop (orderBranches prefixAndBit t0 t1).2

/-- `max_binding_opt`. -/
def maxBindingOpt : T α → Option (Key × α)
  | .empty => none
  | .tree t => some (maxBindingTree t)

/-- The closures of `to_seq`: the first one, and `aux`. -/
inductive Seq (α : Type) where
  | start (t : T α)
  | aux (acc : List (Tree α))

/-- `aux acc ()`. -/
def forceAux (acc : List (Tree α)) : Option ((Key × α) × Seq α) :=
  match acc with
  | [] => none
  | .leaf i d :: r => some ((i, d), .aux r)
  | .branch _ t0 t1 :: r => forceAux (t0 :: t1 :: r)
termination_by (acc.map Tree.size).sum
decreasing_by
  simp only [List.map_cons, List.sum_cons, Tree.size]
  omega

/-- A node of the sequence. -/
def Seq.force : Seq α → Option ((Key × α) × Seq α)
  | .start .empty => none
  | .start (.tree (.leaf i d)) => some ((i, d), .aux [])
  | .start (.tree (.branch prefixAndBit t0 t1)) =>
    let (t0, t1) := orderBranches prefixAndBit t0 t1
    forceAux [t0, t1]
  | .aux acc => forceAux acc

def toSeq (t : T α) : Seq α := .start t

/-! ## §18 Iterators -/

/-- `'a iterator`. -/
inductive Iterator (α : Type) where
  | done
  | next (binding : Key × α) (rest : List (Tree α))

def iterator0 : Tree α → List (Tree α) → Iterator α
  | .leaf i d, rest => .next (i, d) rest
  | .branch _ t0 t1, rest => iterator0 t0 (t1 :: rest)

def iterator : T α → Iterator α
  | .empty => .done
  | .tree (.leaf i d) => .next (i, d) []
  | .tree (.branch prefixAndBit t0 t1) =>
    let (t0, t1) := orderBranches prefixAndBit t0 t1
    iterator0 t0 [t1]

def current : Iterator α → Option (Key × α)
  | .done => none
  | .next b _ => some b

def advance : Iterator α → Iterator α
  | .done => .done
  | .next _ [] => .done
  | .next _ (t :: rest) => iterator0 t rest

def matchPrefixAndBit (i prefixAndBit : Key) : Bool :=
  let (pre, bit) := unpack prefixAndBit
  matchPrefix i pre bit

def seek0 (k : Key) (t : Tree α) (rest : List (Tree α)) : Iterator α :=
  match t with
  | .leaf i d =>
    if k.sle i then .next (i, d) rest
    else
      match rest with
      | [] => .done
      | t' :: rest' => seek0 k t' rest'
  | .branch prefixAndBit t0 t1 =>
    if matchPrefixAndBit k prefixAndBit then
      let (_, bit) := unpack prefixAndBit
      if zeroBit k bit then seek0 k t0 (t1 :: rest) else seek0 k t1 rest
    else if k.sle (unpack prefixAndBit).1 then iterator0 t0 (t1 :: rest)
    else
      match rest with
      | [] => .done
      | t' :: rest' => seek0 k t' rest'
termination_by t.size + (rest.map Tree.size).sum
decreasing_by
  all_goals
    simp only [List.map_cons, List.sum_cons, Tree.size]
    omega

def seek (it : Iterator α) (k : Key) : Iterator α :=
  match it with
  | .done => .done
  | .next b rest =>
    if k.sle b.1 then .next b rest
    else
      match rest with
      | [] => .done
      | t' :: rest' => seek0 k t' rest'

/-- `current` and `advance` as one step. -/
def Iterator.step (it : Iterator α) : Option ((Key × α) × Iterator α) :=
  (current it).map fun b => (b, advance it)

/-! ## §19 Bindings from left to right -/

def Tree.bindings : Tree α → List (Key × α)
  | leaf i d => [(i, d)]
  | branch _ t0 t1 => t0.bindings ++ t1.bindings

/-- Strictly increasing signed keys. -/
def Sorted (l : List (Key × α)) : Prop := l.Pairwise fun b b' => b.1.slt b'.1 = true

variable {t t0 t1 : Tree α}

theorem Tree.WF.mem_bindings (h : t.WF) (b : Key × α) :
    b ∈ t.bindings ↔ findTree b.1 t = some b.2 := by
  induction t with
  | leaf i d =>
    simp only [Tree.bindings, mem_singleton, findTree, Prod.ext_iff]
    by_cases hi : i = b.1
    · simp [eq_comm]
    · simp [hi, Ne.symm hi]
  | branch pb t0 t1 ih0 ih1 =>
    rw [Tree.bindings, List.mem_append, ih0 h.2.2.2.1, ih1 h.2.2.2.2, h.find_branch]
    rcases h.disjoint b.1 with hnone | hnone <;> simp [hnone]

variable {b : Key × α}

theorem Tree.WF.find_of_mem (h : t.WF) (hb : b ∈ t.bindings) : findTree b.1 t ≠ none := by
  rw [(h.mem_bindings b).1 hb]
  exact Option.some_ne_none _

theorem Tree.bindings_ne_nil (t : Tree α) : t.bindings ≠ [] := by
  induction t with
  | leaf i d => simp [Tree.bindings]
  | branch pb t0 t1 ih0 _ => simp [Tree.bindings, ih0]

/-- A well-formed tree without a branch on the sign bit. -/
structure OneSign (t : Tree α) : Prop where
  wf : t.WF
  sign : SameSign t

section OneSign

variable {pb : Key} {t0 t1 : Tree α}

section

variable (h : OneSign (.branch pb t0 t1))
include h

theorem OneSign.left : OneSign t0 := by
  obtain ⟨hwf, s, hs⟩ := h
  exact ⟨hwf.2.2.2.1, s, fun k hk => hs k (by rwa [find_of_side_false (hwf.side0 hk)])⟩

theorem OneSign.right : OneSign t1 := by
  obtain ⟨hwf, s, hs⟩ := h
  exact ⟨hwf.2.2.2.2, s, fun k hk => hs k (by rwa [find_of_side_true (hwf.side1 hk)])⟩

theorem OneSign.slt_of_sides {i k : Key} (hi : Side pb false i)
    (hk : Side pb true k) : i.slt k = true := by
  obtain ⟨n, hn⟩ := exists_isLowest h.wf.1
  exact PatriciaTree.slt_of_sides hn (h.sign.isLowest_ne h.wf hn) hi hk

end

end OneSign

theorem OneSign.sorted (h : OneSign t) : Sorted t.bindings := by
  induction t with
  | leaf i d => exact List.pairwise_singleton _ _
  | branch pb t0 t1 ih0 ih1 =>
    refine List.pairwise_append.2 ⟨ih0 h.left, ih1 h.right, fun b hb b' hb' => ?_⟩
    exact h.slt_of_sides (h.wf.side0 (h.left.wf.find_of_mem hb))
      (h.wf.side1 (h.right.wf.find_of_mem hb'))

/-- The trees that the traversals go through from left to right. -/
def roots : T α → List (Tree α)
  | .empty => []
  | .tree (.leaf i d) => [.leaf i d]
  | .tree (.branch prefixAndBit t0 t1) =>
    [(orderBranches prefixAndBit t0 t1).1, (orderBranches prefixAndBit t0 t1).2]

/-- Trees whose bindings, one tree after the other, are sorted. -/
structure Ordered (ts : List (Tree α)) : Prop where
  oneSign : ∀ t ∈ ts, OneSign t
  sorted : Sorted (ts.flatMap Tree.bindings)

theorem Ordered.tail {t : Tree α} {ts : List (Tree α)} (h : Ordered (t :: ts)) : Ordered ts := by
  refine ⟨fun u hu => h.oneSign u (List.mem_cons_of_mem t hu), ?_⟩
  have hsorted := h.sorted
  exact (List.pairwise_append.1 hsorted).2.1

theorem flatMap_branch (pb : Key) (t0 t1 : Tree α) (ts : List (Tree α)) :
    (Tree.branch pb t0 t1 :: ts).flatMap Tree.bindings =
      (t0 :: t1 :: ts).flatMap Tree.bindings := by
  simp [Tree.bindings]

variable {pb k i : Key}

/-- A branch is replaced by its sides. -/
theorem Ordered.sides {ts : List (Tree α)}
    (h : Ordered (.branch pb t0 t1 :: ts)) : Ordered (t0 :: t1 :: ts) := by
  have hbranch := h.oneSign _ mem_cons_self
  refine ⟨fun u hu => ?_, flatMap_branch pb t0 t1 ts ▸ h.sorted⟩
  rcases mem_cons.1 hu with rfl | hu
  · exact hbranch.left
  rcases mem_cons.1 hu with rfl | hu
  · exact hbranch.right
  · exact h.oneSign u (List.mem_cons_of_mem _ hu)

/-- Two trees with sorted bindings, all keys of the first before those of the second. -/
theorem Ordered.pair (h0 : OneSign t0) (h1 : OneSign t1)
    (hlt : ∀ i k, findTree i t0 ≠ none → findTree k t1 ≠ none → i.slt k = true) :
    Ordered [t0, t1] := by
  refine ⟨fun t ht => ?_, ?_⟩
  · rcases mem_cons.1 ht with rfl | ht
    · exact h0
    · exact mem_singleton.1 ht ▸ h1
  have hsorted : Sorted (t0.bindings ++ t1.bindings) :=
    List.pairwise_append.2 ⟨h0.sorted, h1.sorted, fun b hb b' hb' =>
      hlt b.1 b'.1 (h0.wf.find_of_mem hb) (h1.wf.find_of_mem hb')⟩
  simpa using hsorted

theorem roots_ordered {t : T α} (h : t.WF) : Ordered (roots t) := by
  match t with
  | .empty => exact ⟨fun t ht => absurd ht List.not_mem_nil, List.Pairwise.nil⟩
  | .tree (.leaf i d) =>
    refine ⟨fun t ht => ?_, List.pairwise_singleton _ _⟩
    rw [mem_singleton.1 ht]
    exact ⟨trivial, i.getLsbD 62, fun k hk => by rw [eq_of_ite_ne_none hk]⟩
  | .tree (.branch pb t0 t1) =>
    obtain ⟨n, hn⟩ := exists_isLowest h.1
    simp only [roots, orderBranches, shiftLeft_one_eq_zero_iff hn]
    split
    case isTrue htop =>
      subst htop
      have h0 : OneSign t0 :=
        ⟨h.2.2.2.1, false, fun k hk => ((side_iff hn).1 (h.side0 hk)).2⟩
      have h1 : OneSign t1 :=
        ⟨h.2.2.2.2, true, fun k hk => ((side_iff hn).1 (h.side1 hk)).2⟩
      exact .pair h1 h0 fun i k hi hk => slt_of_sign_sides hn (h.side0 hk) (h.side1 hi)
    case isFalse htop =>
      have hbranch : OneSign (.branch pb t0 t1) := by
        refine ⟨h, pb.getLsbD 62, fun k hk => ?_⟩
        obtain ⟨b, hb⟩ := exists_side hk
        have hlt := hn.lt
        exact ((side_iff hn).1 hb).1 62 (by omega)
      exact .pair hbranch.left hbranch.right fun i k hi hk =>
        hbranch.slt_of_sides (h.side0 hi) (h.side1 hk)

theorem mem_roots_bindings {t : T α} (h : t.WF) (b : Key × α) :
    b ∈ (roots t).flatMap Tree.bindings ↔ findOpt b.1 t = some b.2 := by
  match t with
  | .empty => simp [roots, findOpt]
  | .tree (.leaf i d) => exact Tree.WF.mem_bindings h b
  | .tree (.branch pb t0 t1) =>
    have hmem := Tree.WF.mem_bindings h b
    rw [Tree.bindings] at hmem
    simp only [roots, orderBranches, findOpt]
    split
    · simpa [or_comm] using hmem
    · simpa using hmem

/-! ## §20 Traversals -/

section Traversals

variable (f : Key → α → σ → σ)

theorem toListLoop_eq (acc : List (Key × α)) (t : Tree α) :
    toListLoop acc t = t.bindings ++ acc := by
  induction t generalizing acc with
  | leaf i d => rfl
  | branch pb t0 t1 ih0 ih1 => simp [toListLoop, Tree.bindings, ih0, ih1]

theorem toList_eq (t : T α) : toList t = (roots t).flatMap Tree.bindings := by
  match t with
  | .empty => rfl
  | .tree (.leaf i d) => rfl
  | .tree (.branch pb t0 t1) => simp [toList, roots, toListLoop_eq]

theorem unsignedFold_eq (t : Tree α) (acc : σ) :
    unsignedFold f t acc = t.bindings.foldl (fun acc b => f b.1 b.2 acc) acc := by
  induction t generalizing acc with
  | leaf i d => rfl
  | branch pb t0 t1 ih0 ih1 => simp [unsignedFold, Tree.bindings, ih0, ih1]

theorem fold_eq (t : T α) (acc : σ) :
    fold f t acc = (toList t).foldl (fun acc b => f b.1 b.2 acc) acc := by
  rw [toList_eq]
  match t with
  | .empty => rfl
  | .tree (.leaf i d) => rfl
  | .tree (.branch pb t0 t1) => simp [fold, roots, unsignedFold_eq]

variable {m : Type → Type}

theorem unsignedIter_eq [Monad m] [LawfulMonad m] (f : Key → α → m Unit)
    (t : Tree α) : unsignedIter f t = t.bindings.forM fun b => f b.1 b.2 := by
  induction t with
  | leaf i d => simp [unsignedIter, Tree.bindings]
  | branch pb t0 t1 ih0 ih1 => simp [unsignedIter, Tree.bindings, ih0, ih1]

theorem iter_eq [Monad m] [LawfulMonad m] (f : Key → α → m Unit) (t : T α) :
    iter f t = (toList t).forM fun b => f b.1 b.2 := by
  rw [toList_eq]
  match t with
  | .empty => rfl
  | .tree (.leaf i d) => simp [iter, roots, Tree.bindings]
  | .tree (.branch pb t0 t1) => simp [iter, roots, unsignedIter_eq]

theorem minBindingLoop_eq (t : Tree α) : some (minBindingLoop t) = t.bindings.head? := by
  induction t with
  | leaf i d => rfl
  | branch pb t0 t1 ih0 _ => rw [minBindingLoop, Tree.bindings, List.head?_append, ← ih0]; rfl

theorem minBindingOpt_eq (t : T α) : minBindingOpt t = (toList t).head? := by
  rw [toList_eq]
  match t with
  | .empty => rfl
  | .tree (.leaf i d) => rfl
  | .tree (.branch pb t0 t1) =>
    rw [roots, List.flatMap_cons, List.head?_append, ← minBindingLoop_eq]
    rfl

theorem maxBindingLoop_eq (t : Tree α) : some (maxBindingLoop t) = t.bindings.getLast? := by
  induction t with
  | leaf i d => rfl
  | branch pb t0 t1 _ ih1 =>
    rw [maxBindingLoop, Tree.bindings, List.getLast?_append, ← ih1]
    rfl

theorem maxBindingOpt_eq (t : T α) : maxBindingOpt t = (toList t).getLast? := by
  rw [toList_eq]
  match t with
  | .empty => rfl
  | .tree (.leaf i d) => rfl
  | .tree (.branch pb t0 t1) =>
    rw [roots, List.flatMap_cons, List.flatMap_singleton, List.getLast?_append, ← maxBindingLoop_eq]
    rfl

end Traversals

variable {acc rest : List (Tree α)}

theorem forceAux_eq_none (h : acc.flatMap Tree.bindings = []) : forceAux acc = none := by
  cases acc with
  | nil => rw [forceAux]
  | cons t r => simp [Tree.bindings_ne_nil] at h

variable {l : List (Key × α)}

theorem forceAux_eq_some (h : acc.flatMap Tree.bindings = b :: l) :
    ∃ r, forceAux acc = some (b, .aux r) ∧ r.flatMap Tree.bindings = l := by
  fun_induction forceAux acc with
  | case1 => cases h
  | case2 i d r => obtain ⟨rfl, rfl⟩ := List.cons.inj h; exact ⟨r, rfl, rfl⟩
  | case3 pb t0 t1 r ih => exact ih (flatMap_branch pb t0 t1 r ▸ h)

/-- The bindings that a sequence has still to yield. -/
def Seq.bindings : Seq α → List (Key × α)
  | .start t => toList t
  | .aux acc => acc.flatMap Tree.bindings

theorem seq_view : View (Seq.force (α := α)) (fun _ => True) Seq.bindings := by
  constructor
  · intro s _ h
    match s with
    | .start .empty => rfl
    | .start (.tree (.leaf i d)) => cases h
    | .start (.tree (.branch pb t0 t1)) =>
      rw [Seq.bindings, toList_eq] at h
      exact forceAux_eq_none h
    | .aux acc => exact forceAux_eq_none h
  intro s b l _ h
  match s with
  | .start .empty => cases h
  | .start (.tree (.leaf i d)) => cases h; exact ⟨.aux [], rfl, trivial, rfl⟩
  | .start (.tree (.branch pb t0 t1)) =>
    rw [Seq.bindings, toList_eq] at h
    obtain ⟨r, heq, hr⟩ := forceAux_eq_some h
    exact ⟨.aux r, heq, trivial, hr⟩
  | .aux acc => obtain ⟨r, heq, hr⟩ := forceAux_eq_some h; exact ⟨.aux r, heq, trivial, hr⟩

/-! ## §21 Iterators -/

/-- The bindings that an iterator has still to yield. -/
def Iterator.remaining : Iterator α → List (Key × α)
  | .done => []
  | .next b rest => b :: rest.flatMap Tree.bindings

/-- The invariant of iterators. -/
def Iterator.Ok : Iterator α → Prop
  | .done => True
  | .next b rest => Ordered rest ∧ Sorted (b :: rest.flatMap Tree.bindings)

theorem iterator0_spec (h : Ordered (t :: rest)) :
    (iterator0 t rest).Ok ∧ (iterator0 t rest).remaining = (t :: rest).flatMap Tree.bindings := by
  induction t generalizing rest with
  | leaf i d => exact ⟨⟨h.tail, h.sorted⟩, rfl⟩
  | branch pb t0 t1 ih0 _ =>
    obtain ⟨hok, hrem⟩ := ih0 h.sides
    exact ⟨hok, hrem.trans (flatMap_branch pb t0 t1 rest).symm⟩

theorem iterator_spec {t : T α} (h : t.WF) :
    (iterator t).Ok ∧ (iterator t).remaining = toList t := by
  have hordered := roots_ordered h
  rw [toList_eq]
  match t with
  | .empty => exact ⟨trivial, rfl⟩
  | .tree (.leaf i d) => exact ⟨⟨hordered.tail, hordered.sorted⟩, rfl⟩
  | .tree (.branch pb t0 t1) => exact iterator0_spec hordered

variable {it : Iterator α}

theorem advance_spec (h : it.Ok) :
    (advance it).Ok ∧ (advance it).remaining = it.remaining.tail := by
  match it with
  | .done => exact ⟨trivial, rfl⟩
  | .next b [] => exact ⟨trivial, rfl⟩
  | .next b (t :: rest) => exact iterator0_spec h.1

theorem iterator_view : View (Iterator.step (α := α)) Iterator.Ok Iterator.remaining := by
  constructor
  · intro it _ h
    cases it with
    | done => rfl
    | next b rest => cases h
  intro it b l hok h
  cases it with
  | done => cases h
  | next b' rest =>
    obtain ⟨hok', hrem⟩ := advance_spec hok
    cases h
    exact ⟨_, rfl, hok', hrem⟩

theorem sle_iff : k.sle i = true ↔ ¬ i.slt k = true := by
  rw [BitVec.sle_eq_decide, BitVec.slt_eq_decide, decide_eq_true_iff, decide_eq_true_iff]
  omega

theorem sle_of_slt (h : k.slt i = true) : k.sle i = true := by
  rw [sle_iff, slt_asymm h]
  exact Bool.false_ne_true

theorem sle_slt_trans {j : Key} (h : k.sle i = true) (h' : i.slt j = true) : k.slt j = true := by
  rw [BitVec.sle_eq_decide, decide_eq_true_iff] at h
  rw [BitVec.slt_eq_decide, decide_eq_true_iff] at h' ⊢
  omega

/-- The bindings from the key `k` on. -/
def fromKey (k : Key) (l : List (Key × α)) : List (Key × α) := l.filter fun b => k.sle b.1

variable {l l' : List (Key × α)}

theorem fromKey_append_of_lt
    (h : ∀ b ∈ l, b.1.slt k = true) : fromKey k (l ++ l') = fromKey k l' := by
  have hnil : l.filter (fun b => k.sle b.1) = [] :=
    List.filter_eq_nil_iff.2 fun b hb hle => sle_iff.1 hle (h b hb)
  rw [fromKey, List.filter_append, hnil, List.nil_append, fromKey]

theorem fromKey_eq_self (hs : Sorted (b :: l))
    (h : k.sle b.1 = true) : fromKey k (b :: l) = b :: l := by
  refine List.filter_eq_self.2 fun b' hb' => ?_
  rcases mem_cons.1 hb' with rfl | hb'
  · exact h
  · exact sle_of_slt (sle_slt_trans h ((List.pairwise_cons.1 hs).1 b' hb'))

/-- Skipping the smaller keys of the first tree leaves the other trees. -/
theorem fromKey_flatMap_of_lt (h : ∀ b ∈ t.bindings, b.1.slt k = true) :
    fromKey k ((t :: rest).flatMap Tree.bindings) = fromKey k (rest.flatMap Tree.bindings) := by
  rw [List.flatMap_cons, fromKey_append_of_lt h]

/-- A branch whose prefix does not match compares with `k` as its prefix does. -/
theorem compare_of_not_matchPrefix
    (h : (Tree.branch pb t0 t1).WF) (hmatch : ¬ matchPrefixAndBit k pb = true)
    (hb : b ∈ (Tree.branch pb t0 t1).bindings) :
    k ≠ (unpack pb).1 ∧ k.slt b.1 = k.slt (unpack pb).1 ∧ b.1.slt k = (unpack pb).1.slt k := by
  obtain ⟨n, hn⟩ := exists_isLowest h.1
  obtain ⟨side, hside⟩ := exists_side (h.find_of_mem hb)
  exact slt_iff_slt_prefix hn hmatch hside

/-- All bindings of a branch that `seek0` skips are smaller. -/
theorem slt_of_skip (h : (Tree.branch pb t0 t1).WF)
    (hmatch : ¬ matchPrefixAndBit k pb = true) (hle : ¬ k.sle (unpack pb).1 = true) :
    ∀ b ∈ (Tree.branch pb t0 t1).bindings, b.1.slt k = true := by
  intro b hb
  rw [(compare_of_not_matchPrefix h hmatch hb).2.2]
  exact not_not.1 fun hlt => hle (sle_iff.2 hlt)

theorem seek0_spec (k : Key) (h : Ordered (t :: rest)) : (seek0 k t rest).Ok ∧
      (seek0 k t rest).remaining = fromKey k ((t :: rest).flatMap Tree.bindings) := by
  have hleaf : ∀ {i : Key} {d : α}, ¬ k.sle i = true →
      ∀ b ∈ (Tree.leaf i d).bindings, b.1.slt k = true := by
    intro i d hle b hb
    rw [mem_singleton.1 hb]
    exact not_not.1 fun hlt => hle (sle_iff.2 hlt)
  fun_induction seek0 k t rest with
  | case1 rest i d hle => exact ⟨⟨h.tail, h.sorted⟩, (fromKey_eq_self h.sorted hle).symm⟩
  | case2 i d hle => rw [fromKey_flatMap_of_lt (hleaf hle)]; exact ⟨trivial, rfl⟩
  | case3 i d hle t' rest' ih => rw [fromKey_flatMap_of_lt (hleaf hle)]; exact ih h.tail
  | case4 rest pb t0 t1 hmatch pre bit hun hz ih => rw [flatMap_branch]; exact ih h.sides
  | case5 rest pb t0 t1 hmatch pre bit hun hz ih =>
    have hbranch := h.oneSign _ mem_cons_self
    have hk : Side pb true k := by
      refine side_true hmatch fun hz' => hz ?_
      rw [hun] at hz'
      exact hz'
    rw [flatMap_branch, fromKey_flatMap_of_lt fun b hb => hbranch.slt_of_sides
      (hbranch.wf.side0 (hbranch.left.wf.find_of_mem hb)) hk]
    exact ih h.sides.tail
  | case6 rest pb t0 t1 hmatch hle =>
    have hbranch := h.oneSign _ mem_cons_self
    obtain ⟨hok, hrem⟩ := iterator0_spec h.sides
    refine ⟨hok, hrem.trans ?_⟩
    rw [← flatMap_branch pb]
    -- The first binding is not below `k`, and the others come after it.
    cases hl : (Tree.branch pb t0 t1 :: rest).flatMap Tree.bindings with
    | nil => rfl
    | cons b l =>
      have hb : b ∈ (Tree.branch pb t0 t1).bindings := by
        have hne := Tree.bindings_ne_nil (.branch pb t0 t1)
        rw [List.flatMap_cons] at hl
        obtain ⟨b', l', hl'⟩ := List.exists_cons_of_ne_nil hne
        rw [hl'] at hl
        rw [hl', (List.cons.inj hl).1]
        exact mem_cons_self
      obtain ⟨hne, hcmp, -⟩ := compare_of_not_matchPrefix hbranch.wf hmatch hb
      have hlt : k.slt (unpack pb).1 = true := slt_of_not_slt hne (sle_iff.1 hle)
      exact (fromKey_eq_self (hl ▸ h.sorted) (sle_of_slt (hcmp.trans hlt))).symm
  | case7 pb t0 t1 hmatch hle =>
    rw [fromKey_flatMap_of_lt (slt_of_skip (h.oneSign _ mem_cons_self).wf hmatch hle)]
    exact ⟨trivial, rfl⟩
  | case8 pb t0 t1 hmatch hle t' rest' ih =>
    rw [fromKey_flatMap_of_lt (slt_of_skip (h.oneSign _ mem_cons_self).wf hmatch hle)]
    exact ih h.tail

theorem seek_spec (k : Key) (h : it.Ok) :
    (seek it k).Ok ∧ (seek it k).remaining = fromKey k it.remaining := by
  cases it with
  | done => exact ⟨trivial, rfl⟩
  | next b rest =>
    simp only [seek]
    split
    case isTrue hle => exact ⟨h, (fromKey_eq_self h.2 hle).symm⟩
    case isFalse hle =>
      have hskip : fromKey k (b :: rest.flatMap Tree.bindings) =
          fromKey k (rest.flatMap Tree.bindings) :=
        fromKey_append_of_lt (l := [b]) fun b' hb' => by
          rw [mem_singleton.1 hb']
          exact not_not.1 fun hlt => hle (sle_iff.2 hlt)
      rw [Iterator.remaining, hskip]
      cases rest with
      | nil => exact ⟨trivial, rfl⟩
      | cons t' rest' => exact seek0_spec k h.1

/-! ## §22 The signed order -/

theorem Sorted.ext (h : Sorted l) (h' : Sorted l') (hmem : ∀ b, b ∈ l ↔ b ∈ l') : l = l' := by
  have : Std.Irrefl fun b b' : Key × α => b.1.slt b'.1 = true :=
    ⟨fun b hb => ne_of_slt hb rfl⟩
  have : Std.Antisymm fun b b' : Key × α => b.1.slt b'.1 = true :=
    ⟨fun b b' hb hb' => absurd (slt_asymm hb) (by simp [hb'])⟩
  exact h.eq_of_mem_iff h' hmem

theorem toList_sorted {t : T α} (h : t.WF) : Sorted (toList t) := by
  rw [toList_eq]
  exact (roots_ordered h).sorted

theorem mem_toList {t : T α} (h : t.WF) (b : Key × α) :
    b ∈ toList t ↔ findOpt b.1 t = some b.2 := by
  rw [toList_eq]
  exact mem_roots_bindings h b

/-- The list of a tree for the map `f` on the keys in `p`. -/
theorem toList_filter {t r : T α} (h : t.WF) {p : Key → Bool}
    (hr : Refines r fun k => if p k then findOpt k t else none) :
    toList r = (toList t).filter fun b => p b.1 := by
  refine (toList_sorted hr.wf).ext ((toList_sorted h).filter _) fun b => ?_
  rw [mem_toList hr.wf, hr.find, List.mem_filter, mem_toList h]
  split
  case isTrue hp => simp [hp]
  case isFalse hp => simp [hp]

/-- What the functions do that follow the order of signed keys. -/
structure InSignedOrder (t : T α) : Prop where
  sorted : Sorted (toList t)
  mem : ∀ k d, (k, d) ∈ toList t ↔ findOpt k t = some d
  fold : ∀ (σ : Type) (f : Key → α → σ → σ) (acc : σ),
    fold f t acc = (toList t).foldl (fun acc b => f b.1 b.2 acc) acc
  iter : ∀ (m : Type → Type) [Monad m] [LawfulMonad m] (f : Key → α → m Unit),
    iter f t = (toList t).forM fun b => f b.1 b.2
  toSeq : Unfolds Seq.force (toSeq t) (toList t)
  iterator : Unfolds Iterator.step (iterator t) (toList t)
  min : minBindingOpt t = (toList t).head?
  max : maxBindingOpt t = (toList t).getLast?
  split : ∀ (β : Type) (found : α → β) (notFound : β) (k : Key),
    toList (split found notFound k t).1 = (toList t).filter (fun b => b.1.slt k) ∧
      (split found notFound k t).2.1 = (findOpt k t).elim notFound found ∧
      toList (split found notFound k t).2.2 = (toList t).filter fun b => k.slt b.1

theorem patricia_trees_in_signed_order {t : T α} (h : t.WF) : InSignedOrder t where
  sorted := toList_sorted h
  mem k d := mem_toList h (k, d)
  fold _ f acc := fold_eq f t acc
  iter _ _ _ f := iter_eq f t
  toSeq := Unfolds.of_view seq_view trivial
  iterator := by
    obtain ⟨hok, hrem⟩ := iterator_spec h
    exact hrem ▸ Unfolds.of_view iterator_view hok
  min := minBindingOpt_eq t
  max := maxBindingOpt_eq t
  split _ found notFound k := by
    have hspec := split_spec found notFound k h
    exact ⟨toList_filter h (p := fun j => j.slt k) hspec.lt, hspec.mem,
      toList_filter h (p := fun j => k.slt j) hspec.gt⟩

/-- A tree with keys of both signs. -/
theorem patricia_trees_in_signed_order_signed :
    InSignedOrder (ofList [((5 : Key), true), (-1, false), (BitVec.intMin 63, true)]) :=
  patricia_trees_in_signed_order (ofList_refines _).wf

example : (toList (ofList [((5 : Key), 'a'), (-1, 'b'), (BitVec.intMin 63, 'c')])).map Prod.fst =
    [BitVec.intMin 63, -1, 5] := by decide

/-- A call on an iterator. -/
inductive Call where
  | advance
  | seek (k : Key)

def Call.run (it : Iterator α) : Call → Iterator α
  | advance => PatriciaTree.advance it
  | seek k => PatriciaTree.seek it k

/-- What a call leaves of the remaining bindings. -/
def Call.leave (l : List (Key × α)) : Call → List (Key × α)
  | advance => l.tail
  | seek k => fromKey k l

theorem Call.run_spec (c : Call) (h : it.Ok) :
    (c.run it).Ok ∧ (c.run it).remaining = c.leave it.remaining := by
  cases c with
  | advance => exact advance_spec h
  | seek k => exact seek_spec k h

theorem calls_spec (calls : List Call) (h : it.Ok) : (calls.foldl Call.run it).Ok ∧
      (calls.foldl Call.run it).remaining = calls.foldl Call.leave it.remaining := by
  induction calls generalizing it with
  | nil => exact ⟨h, rfl⟩
  | cons c calls ih =>
    obtain ⟨hok, hrem⟩ := c.run_spec h
    rw [List.foldl_cons, List.foldl_cons, ← hrem]
    exact ih hok

theorem current_eq (it : Iterator α) : current it = it.remaining.head? := by
  cases it <;> rfl

theorem fromKey_suffix (k : Key) (hs : Sorted l) : fromKey k l <:+ l := by
  induction l with
  | nil => exact List.suffix_refl _
  | cons b l ih =>
    by_cases hle : k.sle b.1 = true
    · simp [fromKey_eq_self hs hle]
    have hskip : fromKey k (b :: l) = fromKey k l :=
      List.filter_cons_of_neg (by simpa using hle)
    rw [hskip]
    exact (ih (List.pairwise_cons.1 hs).2).trans (List.suffix_cons b l)

theorem Call.leave_suffix (c : Call) (hs : Sorted l) : c.leave l <:+ l := by
  cases c with
  | advance => exact List.tail_suffix l
  | seek k => exact fromKey_suffix k hs

/-- Calls leave a final part of the sorted bindings. -/
theorem calls_suffix (calls : List Call) (hs : Sorted l) : calls.foldl Call.leave l <:+ l := by
  induction calls generalizing l with
  | nil => exact List.suffix_refl l
  | cons c calls ih =>
    have hleave := c.leave_suffix hs
    exact (ih (hs.sublist hleave.sublist)).trans hleave

/-- After any calls the iterator has a final part of the bindings before it, and `seek`
goes to the first one of them from the key on. -/
theorem iterator_seek_exact {t : T α} (h : t.WF) (calls : List Call) (k : Key) :
    ∃ l, l <:+ toList t ∧ l = calls.foldl Call.leave (toList t) ∧
      Unfolds Iterator.step (calls.foldl Call.run (iterator t)) l ∧
      current (seek (calls.foldl Call.run (iterator t)) k) = (l.filter fun b => k.sle b.1).head? ∧
      Unfolds Iterator.step (seek (calls.foldl Call.run (iterator t)) k)
        (l.filter fun b => k.sle b.1) := by
  obtain ⟨hok, hrem⟩ := iterator_spec h
  obtain ⟨hok', hrem'⟩ := calls_spec calls hok
  obtain ⟨hseek, hrem''⟩ := seek_spec k hok'
  rw [hrem] at hrem'
  rw [hrem'] at hrem''
  refine ⟨_, calls_suffix calls (toList_sorted h), rfl, ?_, ?_, ?_⟩
  · rw [← hrem']; exact Unfolds.of_view iterator_view hok'
  · rw [current_eq, hrem'']; rfl
  have hun := Unfolds.of_view iterator_view hseek
  rw [hrem''] at hun
  exact hun

/-- Across the sign boundary, after an earlier `seek`. -/
theorem iterator_seek_exact_signed :
    let t : T Bool := ofList [(5, true), (-1, false), (BitVec.intMin 63, true)]
    ∃ l, l <:+ toList t ∧ l = [Call.seek (-3), .advance].foldl Call.leave (toList t) ∧
      Unfolds Iterator.step ([Call.seek (-3), .advance].foldl Call.run (iterator t)) l ∧
      current (seek ([Call.seek (-3), .advance].foldl Call.run (iterator t)) 0) =
        (l.filter fun b => (0 : Key).sle b.1).head? ∧
      Unfolds Iterator.step (seek ([Call.seek (-3), .advance].foldl Call.run (iterator t)) 0)
        (l.filter fun b => (0 : Key).sle b.1) :=
  iterator_seek_exact (ofList_refines _).wf _ _

end Oxcaml.Flambda2.PatriciaTree
