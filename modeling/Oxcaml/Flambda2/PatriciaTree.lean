/-
Oxcaml.Flambda2.PatriciaTree — the maps of
`middle_end/flambda2/algorithms/patricia_tree.ml`.

A key is a 63-bit integer. A branch holds one word: the lowest set bit is
the position at which its two subtrees part, the bits above it are the
prefix that all its keys share ("big endian").

The functor `Tree_operations` runs on sets and maps alike; a set is a map
to `Unit`, so only maps are modelled and `is_value` disappears. Values of
type `'a t` are the same as their `descr`: empty, or a non-empty tree.

Physical equality is an oracle (`PhysEq`) that may only identify equal
values. The operations that merge two trees are all one function,
`pattern_match_pair_merge`, under different arguments (`Merge`); each of
them recurses through `both_sides` only, so the recursion is part of
`patternMatchPairMerge` here. Where the source has `assert false` the
computation runs in `Option` and `none` is the failure; elsewhere it runs
in `Id`.
-/
import Mathlib.Init

set_option linter.all false

namespace Oxcaml.Flambda2.PatriciaTree

/-! ## Keys and prefixes -/

abbrev Key := BitVec 63

/-- Leading zeros of a 63-bit integer (`caml_int_clz_tagged_to_untagged`). -/
def intClz (x : Key) : Nat := x.clz.toNat

/-- The prefix and the bit of a `prefix_and_bit`. -/
def unpack (prefixAndBit : Key) : Key × Key :=
  let bit := prefixAndBit &&& -prefixAndBit
  (prefixAndBit ^^^ bit, bit)

def pack (pre bit : Key) : Key := pre ||| bit

def zeroBit (i bit : Key) : Bool := i &&& bit == 0

/-- Most significant 1 bit. -/
def highestBit (x : Key) : Key := (1 : Key) <<< (62 - intClz x)

/-- Highest bit at which the prefixes differ. -/
def branchingBit (prefix0 prefix1 : Key) : Key := highestBit (prefix0 ^^^ prefix1)

/-- Keep only the bits strictly higher than `bit`. -/
def mask (i bit : Key) : Key := i &&& -(bit <<< 1)

def matchPrefix (i pre bit : Key) : Bool := mask i bit == pre

/-- The source compares `bit - 1` as signed integers, to order bits as
unsigned ones. -/
def higher (bit0 bit1 : Key) : Bool := (bit1 - 1).slt (bit0 - 1)

def includesPrefix (prefix0 bit0 prefix1 bit1 : Key) : Bool :=
  higher bit0 bit1 && matchPrefix prefix1 prefix0 bit0

/-! ## Trees -/

/-- `('a, non_empty) tree`. -/
inductive Tree (α : Type) where
  | leaf (key : Key) (datum : α)
  | branch (prefixAndBit : Key) (t0 t1 : Tree α)
  deriving DecidableEq

/-- `'a t`. -/
inductive T (α : Type) where
  | empty
  | tree (t : Tree α)
  deriving DecidableEq

variable {α β γ : Type}

/-- The number of leaves and branches. -/
def Tree.size : Tree α → Nat
  | leaf _ _ => 1
  | branch _ t0 t1 => t0.size + t1.size + 1

/-- `branch`, which allows empty subtrees. -/
def branch (prefixAndBit : Key) (t0 t1 : T α) : T α :=
  match t0, t1 with
  | .empty, _ => t1
  | _, .empty => t0
  | .tree t0, .tree t1 => .tree (.branch prefixAndBit t0 t1)

def branchRightNonempty (prefixAndBit : Key) (t0 : T α) (t1 : Tree α) : Tree α :=
  match t0 with
  | .empty => t1
  | .tree t0 => .branch prefixAndBit t0 t1

def branchLeftNonempty (prefixAndBit : Key) (t0 : Tree α) (t1 : T α) : Tree α :=
  match t1 with
  | .empty => t0
  | .tree t1 => .branch prefixAndBit t0 t1

def memTree (i : Key) : Tree α → Bool
  | .leaf j _ => j == i
  | .branch prefixAndBit t0 t1 =>
    let (pre, bit) := unpack prefixAndBit
    if !matchPrefix i pre bit then false
    else if zeroBit i bit then memTree i t0
    else memTree i t1

/-- `find_tree`, with `Or_null.t` as `Option`. -/
def findTree (i : Key) : Tree α → Option α
  | .leaf j d => if j = i then some d else none
  | .branch prefixAndBit t0 t1 =>
    let (pre, bit) := unpack prefixAndBit
    if !matchPrefix i pre bit then none
    else if zeroBit i bit then findTree i t0
    else findTree i t1

def findOpt (key : Key) : T α → Option α
  | .empty => none
  | .tree t => findTree key t

/-- Join two subtrees whose prefixes are disjoint. -/
def joinNonEmpty (prefix0 : Key) (t0 : Tree α) (prefix1 : Key) (t1 : Tree α) : Tree α :=
  let bit := branchingBit prefix0 prefix1
  let prefixAndBit := pack (mask prefix0 bit) bit
  let (t0, t1) := if zeroBit prefix0 bit then (t0, t1) else (t1, t0)
  .branch prefixAndBit t0 t1

/-! ## Updating one key -/

def addTree (i : Key) (d : α) : Tree α → Tree α
  | t@(.leaf j _) => if i = j then .leaf i d else joinNonEmpty i (.leaf i d) j t
  | t@(.branch prefixAndBit t0 t1) =>
    let (pre, bit) := unpack prefixAndBit
    if matchPrefix i pre bit then
      if zeroBit i bit then .branch prefixAndBit (addTree i d t0) t1
      else .branch prefixAndBit t0 (addTree i d t1)
    else joinNonEmpty i (.leaf i d) pre t

def add (i : Key) (d : α) : T α → T α
  | .empty => .tree (.leaf i d)
  | .tree t => .tree (addTree i d t)

def replaceTree (key : Key) (f : α → α) : Tree α → Tree α
  | t@(.leaf key' d) => if key = key' then .leaf key (f d) else t
  | t@(.branch prefixAndBit t0 t1) =>
    let (pre, bit) := unpack prefixAndBit
    if matchPrefix key pre bit then
      if zeroBit key bit then .branch prefixAndBit (replaceTree key f t0) t1
      else .branch prefixAndBit t0 (replaceTree key f t1)
    else t

def replace (key : Key) (f : α → α) : T α → T α
  | .empty => .empty
  | .tree t => .tree (replaceTree key f t)

/-- The local function `join` of `update_tree`. -/
def updateJoin (key : Key) (f : Option α → Option α) (pre : Key) (t : Tree α) : T α :=
  match f none with
  | none => .tree t
  | some datum => .tree (joinNonEmpty key (.leaf key datum) pre t)

def updateTree (key : Key) (f : Option α → Option α) : Tree α → T α
  | t@(.leaf key' d) =>
    if key = key' then
      match f (some d) with
      | none => .empty
      | some datum => .tree (.leaf key datum)
    else updateJoin key f key' t
  | t@(.branch prefixAndBit t0 t1) =>
    let (pre, bit) := unpack prefixAndBit
    if matchPrefix key pre bit then
      if zeroBit key bit then
        .tree (branchRightNonempty prefixAndBit (updateTree key f t0) t1)
      else .tree (branchLeftNonempty prefixAndBit t0 (updateTree key f t1))
    else updateJoin key f pre t

def update (key : Key) (f : Option α → Option α) : T α → T α
  | .empty =>
    match f none with
    | none => .empty
    | some datum => .tree (.leaf key datum)
  | .tree t => updateTree key f t

def removeTree (i : Key) : Tree α → T α
  | t@(.leaf j _) => if i = j then .empty else .tree t
  | t@(.branch prefixAndBit t0 t1) =>
    let (pre, bit) := unpack prefixAndBit
    if matchPrefix i pre bit then
      if zeroBit i bit then .tree (branchRightNonempty prefixAndBit (removeTree i t0) t1)
      else .tree (branchLeftNonempty prefixAndBit t0 (removeTree i t1))
    else .tree t

def remove (i : Key) : T α → T α
  | .empty => .empty
  | .tree t => removeTree i t

/-! ## Physical equality -/

/-- What `==` may answer on data and on trees. -/
structure PhysEq (α : Type) where
  datum : α → α → Bool
  tree : Tree α → Tree α → Bool
  datum_sound : ∀ x y, datum x y = true → x = y
  tree_sound : ∀ t t', tree t t' = true → t = t'

/-- `==` between a `'a t` and a tree seen as one. -/
def PhysEq.ofTree (peq : PhysEq α) : T α → Tree α → Bool
  | .empty, _ => false
  | .tree t, t' => peq.tree t t'

/-! ## `pattern_match_pair_merge` -/

/-- The arguments of `pattern_match_pair_merge`, and how `both_sides` views
the result of a recursive call (`descr`). -/
structure Merge (m : Type → Type) (α β γ ρ : Type) where
  empty : m ρ
  ofTree : Tree γ → ρ
  descr : ρ → T γ
  physEqShortcut : Tree α → Tree β → Option ρ
  physEqCheckBranchLeft : (origT origT0 origT1 : Tree α) → Tree γ → Tree γ → Option (Tree γ)
  physEqCheckBranchRight : (origT origT0 origT1 : Tree β) → Tree γ → Tree γ → Option (Tree γ)
  physEqCheckLeafLeft : (origT : Tree α) → (origD : α) → γ → Option (Tree γ)
  physEqCheckLeafRight : (origT : Tree β) → (origD : β) → γ → Option (Tree γ)
  onlyLeft : Tree α → T γ
  onlyRight : Tree β → T γ
  combine : Key → α → β → Option γ

section Hooks

variable {ρ : Type}

def noPhysEqShortcut : Tree α → Tree β → Option ρ := fun _ _ => none

def noPhysEqCheckBranch : Tree α → Tree α → Tree α → Tree γ → Tree γ → Option (Tree γ) :=
  fun _ _ _ _ _ => none

def noPhysEqCheckLeaf : Tree α → α → γ → Option (Tree γ) := fun _ _ _ => none

variable (peq : PhysEq α)

def physEqShortcutUnion (t0 t1 : Tree α) : Option (T α) :=
  if !peq.tree t0 t1 then none else some (.tree t0)

def physEqShortcutUnionTotal (t0 t1 : Tree α) : Option (Tree α) :=
  if !peq.tree t0 t1 then none else some t0

def physEqShortcutDiff (t0 t1 : Tree α) : Option (T α) :=
  if !peq.tree t0 t1 then none else some .empty

def physEqCheckBranch (origT origT0 origT1 t0 t1 : Tree α) : Option (Tree α) :=
  if !peq.tree t0 origT0 || !peq.tree t1 origT1 then none else some origT

def physEqCheckLeaf (origT : Tree α) (origD d : α) : Option (Tree α) :=
  if !peq.datum d origD then none else some origT

end Hooks

section PairMerge

variable {m : Type → Type} [Monad m] {ρ : Type} (h : Merge m α β γ ρ)

/-- `join_descr`. -/
def joinDescr (prefix0 : Key) (t0 : T γ) (prefix1 : Key) (t1 : T γ) : m ρ :=
  match t0, t1 with
  | .empty, .empty => h.empty
  | .tree t0, .empty => pure (h.ofTree t0)
  | .empty, .tree t1 => pure (h.ofTree t1)
  | .tree t0, .tree t1 => pure (h.ofTree (joinNonEmpty prefix0 t0 prefix1 t1))

/-- The functions `rebuild_branch_share_*`: a new branch, unless `share`
finds an old one with the same subtrees. -/
def rebuildBranch (share : Tree γ → Tree γ → Option (Tree γ)) (prefixAndBit : Key)
    (t0' t1' : T γ) : m ρ :=
  match t0', t1' with
  | .empty, .empty => h.empty
  | .empty, .tree t1' => pure (h.ofTree t1')
  | .tree t0', .empty => pure (h.ofTree t0')
  | .tree t0', .tree t1' =>
    match share t0' t1' with
    | some t' => pure (h.ofTree t')
    | none => pure (h.ofTree (.branch prefixAndBit t0' t1'))

/-- Two leaves with one key. -/
def combineLeaves (i : Key) (d0 : α) (d1 : β) : m ρ :=
  match h.combine i d0 d1 with
  | none => h.empty
  | some d =>
    match h.physEqCheckLeafLeft (.leaf i d0) d0 d with
    | some t' => pure (h.ofTree t')
    | none =>
      match h.physEqCheckLeafRight (.leaf i d1) d1 d with
      | some t' => pure (h.ofTree t')
      | none => pure (h.ofTree (.leaf i d))

/-- `pattern_match_pair_merge`, with `both_sides` the recursive call. The
cases are those of the source: `branch_0x` and `branch_1x` are those where
the left tree lies below one side of the right one, `branch_x0` and
`branch_x1` the converse. -/
def patternMatchPairMerge (t0 : Tree α) (t1 : Tree β) : m ρ :=
  match h.physEqShortcut t0 t1 with
  | some t' => pure t'
  | none =>
    match t0, t1 with
    | .leaf i0 d0, .leaf i1 d1 =>
      if i0 = i1 then combineLeaves h i0 d0 d1
      else joinDescr h i0 (h.onlyLeft (.leaf i0 d0)) i1 (h.onlyRight (.leaf i1 d1))
    | .leaf i d, .branch prefixAndBit t10 t11 =>
      let (pre, bit) := unpack prefixAndBit
      let share := h.physEqCheckBranchRight (.branch prefixAndBit t10 t11) t10 t11
      if matchPrefix i pre bit then
        if zeroBit i bit then do
          let t0' ← h.descr <$> patternMatchPairMerge (.leaf i d) t10
          rebuildBranch h share prefixAndBit t0' (h.onlyRight t11)
        else do
          let t1' ← h.descr <$> patternMatchPairMerge (.leaf i d) t11
          rebuildBranch h share prefixAndBit (h.onlyRight t10) t1'
      else
        joinDescr h i (h.onlyLeft (.leaf i d)) pre (h.onlyRight (.branch prefixAndBit t10 t11))
    | .branch prefixAndBit t00 t01, .leaf i d =>
      let (pre, bit) := unpack prefixAndBit
      let share := h.physEqCheckBranchLeft (.branch prefixAndBit t00 t01) t00 t01
      if matchPrefix i pre bit then
        if zeroBit i bit then do
          let t0' ← h.descr <$> patternMatchPairMerge t00 (.leaf i d)
          rebuildBranch h share prefixAndBit t0' (h.onlyLeft t01)
        else do
          let t1' ← h.descr <$> patternMatchPairMerge t01 (.leaf i d)
          rebuildBranch h share prefixAndBit (h.onlyLeft t00) t1'
      else
        joinDescr h pre (h.onlyLeft (.branch prefixAndBit t00 t01)) i (h.onlyRight (.leaf i d))
    | .branch prefixAndBit0 t00 t01, .branch prefixAndBit1 t10 t11 =>
      let shareLeft := h.physEqCheckBranchLeft (.branch prefixAndBit0 t00 t01) t00 t01
      let shareRight := h.physEqCheckBranchRight (.branch prefixAndBit1 t10 t11) t10 t11
      if prefixAndBit0 = prefixAndBit1 then do
        let t0' ← h.descr <$> patternMatchPairMerge t00 t10
        let t1' ← h.descr <$> patternMatchPairMerge t01 t11
        rebuildBranch h (fun a b => (shareLeft a b).or (shareRight a b)) prefixAndBit0 t0' t1'
      else
        let (prefix0, bit0) := unpack prefixAndBit0
        let (prefix1, bit1) := unpack prefixAndBit1
        if includesPrefix prefix0 bit0 prefix1 bit1 then
          if zeroBit prefix1 bit0 then do
            let t0' ← h.descr <$> patternMatchPairMerge t00 (.branch prefixAndBit1 t10 t11)
            rebuildBranch h shareLeft prefixAndBit0 t0' (h.onlyLeft t01)
          else do
            let t1' ← h.descr <$> patternMatchPairMerge t01 (.branch prefixAndBit1 t10 t11)
            rebuildBranch h shareLeft prefixAndBit0 (h.onlyLeft t00) t1'
        else if includesPrefix prefix1 bit1 prefix0 bit0 then
          if zeroBit prefix0 bit1 then do
            let t0' ← h.descr <$> patternMatchPairMerge (.branch prefixAndBit0 t00 t01) t10
            rebuildBranch h shareRight prefixAndBit1 t0' (h.onlyRight t11)
          else do
            let t1' ← h.descr <$> patternMatchPairMerge (.branch prefixAndBit0 t00 t01) t11
            rebuildBranch h shareRight prefixAndBit1 (h.onlyRight t10) t1'
        else
          joinDescr h prefix0 (h.onlyLeft (.branch prefixAndBit0 t00 t01)) prefix1
            (h.onlyRight (.branch prefixAndBit1 t10 t11))
termination_by t0.size + t1.size
decreasing_by all_goals (simp only [Tree.size]; omega)

end PairMerge

/-! ## The operations built on it -/

/-- `pattern_match_pair_merge ~empty ~of_tree` with no hooks. -/
def pairMerge (onlyLeft : Tree α → T γ) (onlyRight : Tree β → T γ)
    (combine : Key → α → β → Option γ) : Merge Id α β γ (T γ) where
  empty := pure .empty
  ofTree := .tree
  descr := id
  physEqShortcut := noPhysEqShortcut
  physEqCheckBranchLeft := noPhysEqCheckBranch
  physEqCheckBranchRight := noPhysEqCheckBranch
  physEqCheckLeafLeft := noPhysEqCheckLeaf
  physEqCheckLeafRight := noPhysEqCheckLeaf
  onlyLeft := onlyLeft
  onlyRight := onlyRight
  combine := combine

/-- `pattern_match_pair_merge_total` with no hooks: `empty` is `assert false`. -/
def pairMergeTotal (onlyLeft : Tree α → T γ) (onlyRight : Tree β → T γ)
    (combine : Key → α → β → Option γ) : Merge Option α β γ (Tree γ) where
  empty := none
  ofTree := id
  descr := .tree
  physEqShortcut := noPhysEqShortcut
  physEqCheckBranchLeft := noPhysEqCheckBranch
  physEqCheckBranchRight := noPhysEqCheckBranch
  physEqCheckLeafLeft := noPhysEqCheckLeaf
  physEqCheckLeafRight := noPhysEqCheckLeaf
  onlyLeft := onlyLeft
  onlyRight := onlyRight
  combine := combine

section Sharing

variable {m : Type → Type} {ρ : Type} (peq : PhysEq α)

/-- The hooks of `pattern_match_pair_merge_sharing`. -/
def sharingLeft (h : Merge m α β α ρ) : Merge m α β α ρ :=
  { h with
    physEqCheckBranchLeft := physEqCheckBranch peq
    physEqCheckLeafLeft := physEqCheckLeaf peq }

def sharingRight (h : Merge m β α α ρ) : Merge m β α α ρ :=
  { h with
    physEqCheckBranchRight := physEqCheckBranch peq
    physEqCheckLeafRight := physEqCheckLeaf peq }

def withShortcut (shortcut : Tree α → Tree β → Option ρ) (h : Merge m α β γ ρ) : Merge m α β γ ρ :=
  { h with physEqShortcut := shortcut }

end Sharing

def toplevelUnion (nonemptyUnion : Tree α → Tree α → T α) (t0 t1 : T α) : T α :=
  match t0 with
  | .empty => t1
  | .tree t0' =>
    match t1 with
    | .empty => t0
    | .tree t1' => nonemptyUnion t0' t1'

/-- `toplevel_union_total`; `none` when the assertion fails. -/
def toplevelUnionTotal (nonemptyUnion : Tree α → Tree α → Option (Tree α)) (t0 t1 : T α) :
    Option (T α) :=
  match t0 with
  | .empty => some t1
  | .tree t0' =>
    match t1 with
    | .empty => some t0
    | .tree t1' => .tree <$> nonemptyUnion t0' t1'

/-- The arguments that all unions share. -/
def unionMerge (f : Key → α → α → Option α) : Merge Id α α α (T α) :=
  pairMerge .tree .tree f

def unionTotalMerge (f : Key → α → α → α) : Merge Option α α α (Tree α) :=
  pairMergeTotal .tree .tree fun k t t' => some (f k t t')

def unionTree (f : Key → α → α → Option α) : Tree α → Tree α → T α :=
  patternMatchPairMerge (m := Id) (unionMerge f)

def union (f : Key → α → α → Option α) (t0 t1 : T α) : T α := toplevelUnion (unionTree f) t0 t1

section Shared

variable (peq : PhysEq α)

def unionSharingTree (f : Key → α → α → Option α) : Tree α → Tree α → T α :=
  patternMatchPairMerge (m := Id) (sharingRight peq (sharingLeft peq (unionMerge f)))

def unionSharing (f : Key → α → α → Option α) (t0 t1 : T α) : T α :=
  toplevelUnion (unionSharingTree peq f) t0 t1

def unionSharedTree (f : Key → α → α → Option α) : Tree α → Tree α → T α :=
  patternMatchPairMerge (m := Id)
    (withShortcut (physEqShortcutUnion peq) (sharingRight peq (sharingLeft peq (unionMerge f))))

def unionShared (f : Key → α → α → Option α) (t0 t1 : T α) : T α :=
  toplevelUnion (unionSharedTree peq f) t0 t1

def unionTotalTree (f : Key → α → α → α) : Tree α → Tree α → Option (Tree α) :=
  patternMatchPairMerge (unionTotalMerge f)

def unionTotal (f : Key → α → α → α) (t0 t1 : T α) : Option (T α) :=
  toplevelUnionTotal (unionTotalTree f) t0 t1

def unionTotalSharedTree (f : Key → α → α → α) : Tree α → Tree α → Option (Tree α) :=
  patternMatchPairMerge (withShortcut (physEqShortcutUnionTotal peq)
    (sharingRight peq (sharingLeft peq (unionTotalMerge f))))

def unionTotalShared (f : Key → α → α → α) (t0 t1 : T α) : Option (T α) :=
  toplevelUnionTotal (unionTotalSharedTree peq f) t0 t1

def unionLeftBiasedTree : Tree α → Tree α → Option (Tree α) :=
  unionTotalSharedTree peq fun _ t _ => t

def unionLeftBiased (t0 t1 : T α) : Option (T α) :=
  toplevelUnionTotal (unionLeftBiasedTree peq) t0 t1

def unionRightBiasedTree : Tree α → Tree α → Option (Tree α) :=
  unionTotalSharedTree peq fun _ _ t' => t'

def unionRightBiased (t0 t1 : T α) : Option (T α) :=
  toplevelUnionTotal (unionRightBiasedTree peq) t0 t1

end Shared

/-- The arguments that all differences share. -/
def diffMerge (f : Key → α → β → Option α) : Merge Id α β α (T α) :=
  pairMerge .tree (fun _ => .empty) f

def toplevelDiff (nonemptyDiff : Tree α → Tree β → T α) (t0 : T α) (t1 : T β) : T α :=
  match t0 with
  | .empty => .empty
  | .tree t0' =>
    match t1 with
    | .empty => t0
    | .tree t1' => nonemptyDiff t0' t1'

def diffTree (f : Key → α → β → Option α) : Tree α → Tree β → T α :=
  patternMatchPairMerge (m := Id) (diffMerge f)

def diff (f : Key → α → β → Option α) (t0 : T α) (t1 : T β) : T α :=
  toplevelDiff (diffTree f) t0 t1

def diffSharingTree (peq : PhysEq α) (f : Key → α → β → Option α) : Tree α → Tree β → T α :=
  patternMatchPairMerge (m := Id) (sharingLeft peq (diffMerge f))

def diffSharing (peq : PhysEq α) (f : Key → α → β → Option α) (t0 : T α) (t1 : T β) : T α :=
  toplevelDiff (diffSharingTree peq f) t0 t1

def diffSharedTree (peq : PhysEq α) (f : Key → α → α → Option α) : Tree α → Tree α → T α :=
  patternMatchPairMerge (m := Id)
    (withShortcut (physEqShortcutDiff peq) (sharingLeft peq (diffMerge f)))

def diffShared (peq : PhysEq α) (f : Key → α → α → Option α) (t0 t1 : T α) : T α :=
  toplevelDiff (diffSharedTree peq f) t0 t1

/-! ## Intersection and difference of domains -/

def interTree (f : Key → α → β → γ) (t0 : Tree α) (t1 : Tree β) : T γ :=
  match t0, t1 with
  | .leaf i d0, t1 =>
    match findTree i t1 with
    | none => .empty
    | some d1 => .tree (.leaf i (f i d0 d1))
  | .branch prefixAndBit0 t00 t01, .leaf i d1 =>
    match findTree i (.branch prefixAndBit0 t00 t01) with
    | none => .empty
    | some d0 => .tree (.leaf i (f i d0 d1))
  | .branch prefixAndBit0 t00 t01, .branch prefixAndBit1 t10 t11 =>
    if prefixAndBit0 = prefixAndBit1 then
      branch prefixAndBit0 (interTree f t00 t10) (interTree f t01 t11)
    else
      let (prefix0, bit0) := unpack prefixAndBit0
      let (prefix1, bit1) := unpack prefixAndBit1
      if includesPrefix prefix0 bit0 prefix1 bit1 then
        if zeroBit prefix1 bit0 then interTree f t00 (.branch prefixAndBit1 t10 t11)
        else interTree f t01 (.branch prefixAndBit1 t10 t11)
      else if includesPrefix prefix1 bit1 prefix0 bit0 then
        if zeroBit prefix0 bit1 then interTree f (.branch prefixAndBit0 t00 t01) t10
        else interTree f (.branch prefixAndBit0 t00 t01) t11
      else .empty
termination_by t0.size + t1.size
decreasing_by all_goals (simp only [Tree.size]; omega)

def inter (f : Key → α → β → γ) (t0 : T α) (t1 : T β) : T γ :=
  match t0, t1 with
  | .empty, _ => .empty
  | _, .empty => .empty
  | .tree t0, .tree t1 => interTree f t0 t1

def diffDomainsTree (t0 : Tree α) (t1 : Tree β) : T α :=
  match t0, t1 with
  | .leaf i d, t1 => if memTree i t1 then .empty else .tree (.leaf i d)
  | .branch prefixAndBit0 t00 t01, .leaf i _ => removeTree i (.branch prefixAndBit0 t00 t01)
  | .branch prefixAndBit0 t00 t01, .branch prefixAndBit1 t10 t11 =>
    if prefixAndBit0 = prefixAndBit1 then
      branch prefixAndBit0 (diffDomainsTree t00 t10) (diffDomainsTree t01 t11)
    else
      let (prefix0, bit0) := unpack prefixAndBit0
      let (prefix1, bit1) := unpack prefixAndBit1
      if includesPrefix prefix0 bit0 prefix1 bit1 then
        if zeroBit prefix1 bit0 then
          branch prefixAndBit0 (diffDomainsTree t00 (.branch prefixAndBit1 t10 t11)) (.tree t01)
        else
          branch prefixAndBit0 (.tree t00) (diffDomainsTree t01 (.branch prefixAndBit1 t10 t11))
      else if includesPrefix prefix1 bit1 prefix0 bit0 then
        if zeroBit prefix0 bit1 then diffDomainsTree (.branch prefixAndBit0 t00 t01) t10
        else diffDomainsTree (.branch prefixAndBit0 t00 t01) t11
      else .tree (.branch prefixAndBit0 t00 t01)
termination_by t0.size + t1.size
decreasing_by all_goals (simp only [Tree.size]; omega)

def diffDomains (t0 : T α) (t1 : T β) : T α :=
  match t0, t1 with
  | .empty, _ => .empty
  | t0, .empty => t0
  | .tree tree0, .tree tree1 => diffDomainsTree tree0 tree1

/-! ## One pass over a tree -/

/-- `leaf_or_empty`. -/
def leafOrEmpty (i : Key) : Option α → T α
  | none => .empty
  | some datum => .tree (.leaf i datum)

def filterTree (p : Key → α → Bool) : Tree α → T α
  | .leaf i d => if p i d then .tree (.leaf i d) else .empty
  | .branch prefixAndBit t0 t1 => branch prefixAndBit (filterTree p t0) (filterTree p t1)

def filter (p : Key → α → Bool) : T α → T α
  | .empty => .empty
  | .tree t => filterTree p t

def partitionTree (p : Key → α → Bool) : Tree α → T α × T α
  | .leaf i d => if p i d then (.tree (.leaf i d), .empty) else (.empty, .tree (.leaf i d))
  | .branch prefixAndBit t0 t1 =>
    let (leftTrue, leftFalse) := partitionTree p t0
    let (rightTrue, rightFalse) := partitionTree p t1
    (branch prefixAndBit leftTrue rightTrue, branch prefixAndBit leftFalse rightFalse)

def partition (p : Key → α → Bool) : T α → T α × T α
  | .empty => (.empty, .empty)
  | .tree t => partitionTree p t

def filterMapTree (f : Key → α → Option β) : Tree α → T β
  | .leaf k d => leafOrEmpty k (f k d)
  | .branch prefixAndBit t0 t1 => branch prefixAndBit (filterMapTree f t0) (filterMapTree f t1)

def filterMap (f : Key → α → Option β) : T α → T β
  | .empty => .empty
  | .tree t => filterMapTree f t

def filterMapSharingTree (peq : PhysEq α) (f : Key → α → Option α) : Tree α → T α
  | .leaf k d =>
    match f k d with
    | none => .empty
    | some d' => if peq.datum d d' then .tree (.leaf k d) else .tree (.leaf k d')
  | .branch prefixAndBit t0 t1 =>
    let t0' := filterMapSharingTree peq f t0
    let t1' := filterMapSharingTree peq f t1
    if peq.ofTree t0' t0 && peq.ofTree t1' t1 then .tree (.branch prefixAndBit t0 t1)
    else branch prefixAndBit t0' t1'

def filterMapSharing (peq : PhysEq α) (f : Key → α → Option α) : T α → T α
  | .empty => .empty
  | .tree t => filterMapSharingTree peq f t

def mapTree (f : α → β) : Tree α → Tree β
  | .leaf k d => .leaf k (f d)
  | .branch prefixAndBit t0 t1 => .branch prefixAndBit (mapTree f t0) (mapTree f t1)

def map (f : α → β) : T α → T β
  | .empty => .empty
  | .tree t => .tree (mapTree f t)

def mapSharingTree (peq : PhysEq α) (f : α → α) : Tree α → Tree α
  | .leaf k v =>
    let v' := f v
    if peq.datum v v' then .leaf k v else .leaf k v'
  | .branch prefixAndBit t0 t1 =>
    let t0' := mapSharingTree peq f t0
    let t1' := mapSharingTree peq f t1
    if peq.tree t0' t0 && peq.tree t1' t1 then .branch prefixAndBit t0 t1
    else .branch prefixAndBit t0' t1'

def mapSharing (peq : PhysEq α) (f : α → α) : T α → T α
  | .empty => .empty
  | .tree t => .tree (mapSharingTree peq f t)

/-! ## `merge` and `update_many` -/

def mergeLeft (f : Key → Option α → Option β → Option γ) : Tree α → T γ :=
  filterMapTree fun i d => f i (some d) none

def mergeRight (f : Key → Option α → Option β → Option γ) : Tree β → T γ :=
  filterMapTree fun i d => f i none (some d)

def mergeTree (f : Key → Option α → Option β → Option γ) : Tree α → Tree β → T γ :=
  patternMatchPairMerge (m := Id)
    (pairMerge (mergeLeft f) (mergeRight f) fun i d0 d1 => f i (some d0) (some d1))

def merge (f : Key → Option α → Option β → Option γ) (t0 : T α) (t1 : T β) : T γ :=
  match t0, t1 with
  | .empty, .empty => .empty
  | .empty, .tree t1 => mergeRight f t1
  | .tree t0, .empty => mergeLeft f t0
  | .tree t0, .tree t1 => mergeTree f t0 t1

def updateManyRight (f : Key → Option α → β → Option α) : Tree β → T α :=
  filterMapTree fun k d => f k none d

def updateManyTree (f : Key → Option α → β → Option α) : Tree α → Tree β → T α :=
  patternMatchPairMerge (m := Id)
    (pairMerge .tree (updateManyRight f) fun k d0 d1 => f k (some d0) d1)

def updateMany (f : Key → Option α → β → Option α) (t0 : T α) (t1 : T β) : T α :=
  match t0, t1 with
  | t0, .empty => t0
  | .empty, .tree t1 => updateManyRight f t1
  | .tree t0, .tree t1 => updateManyTree f t0 t1

/-! ## `split` and `of_list` -/

/-- `same_sign_split`. Comparisons are signed. -/
def sameSignSplit (found : α → β) (notFound : β) (i : Key) : Tree α → T α × β × T α
  | t@(.leaf j d) =>
    if i = j then (.empty, found d, .empty)
    else if j.slt i then (.tree t, notFound, .empty)
    else (.empty, notFound, .tree t)
  | t@(.branch prefixAndBit t0 t1) =>
    let (pre, bit) := unpack prefixAndBit
    if matchPrefix i pre bit then
      if zeroBit i bit then
        let (lt, mem, gt) := sameSignSplit found notFound i t0
        (lt, mem, .tree (branchRightNonempty prefixAndBit gt t1))
      else
        let (lt, mem, gt) := sameSignSplit found notFound i t1
        (.tree (branchLeftNonempty prefixAndBit t0 lt), mem, gt)
    else if i.slt pre then (.empty, notFound, .tree t)
    else (.tree t, notFound, .empty)

/-- `split`. A branch on the sign bit has its larger keys on the left. -/
def split (found : α → β) (notFound : β) (i : Key) : T α → T α × β × T α
  | .empty => (.empty, notFound, .empty)
  | .tree t =>
    match t with
    | .leaf j d => sameSignSplit found notFound i (.leaf j d)
    | .branch prefixAndBit t0 t1 =>
      if prefixAndBit <<< 1 = 0 then
        if i.slt 0 then
          let (lt, mem, gt) := sameSignSplit found notFound i t1
          (lt, mem, .tree (branchLeftNonempty prefixAndBit t0 gt))
        else
          let (lt, mem, gt) := sameSignSplit found notFound i t0
          (.tree (branchRightNonempty prefixAndBit lt t1), mem, gt)
      else sameSignSplit found notFound i (.branch prefixAndBit t0 t1)

def ofList (l : List (Key × α)) : T α := l.foldl (fun map b => add b.1 b.2 map) .empty

end Oxcaml.Flambda2.PatriciaTree
