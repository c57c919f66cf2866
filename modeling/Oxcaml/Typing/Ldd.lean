/-
Oxcaml.Typing.Ldd — the lattice-valued decision diagrams of `typing/ldd.ml`.

A node is a leaf or a block that stands for `lo ⊔ (v ⊓ hi)`; a block caches
the values of its node when all variables are bottom (`down0`) and when all
are top (`up0`). The model is written for any co-Heyting algebra `L` in place
of `Axis_lattice.t`: `⊔`, `⊓`, `\`, `≤`, `⊥`, `⊤` are its `join`, `meet`,
`co_sub`, `leq`, `bot` and `top`.

A variable of the source is a record with a mutable state, compared by
address. Here it is its identity: the number that `make_var` gave it, or the
name of a rigid variable, of which the table of `make_rigid` keeps one
variable for each name. The states of the variables and the list of pending
equations are a value of type `State`, which the solving functions pass
along. They may diverge on a cyclic state, so they are partial functions:
`none` is divergence, and `Except.error` an `invalid_arg`.

Physical equality is exact on leaves, which are integers; on blocks it is an
oracle that may only identify equal nodes.
-/
import Mathlib.Order.Heyting.Basic
import Mathlib.Data.Prod.Lex
import Mathlib.Order.WithBot
import Mathlib.Logic.Function.Basic

set_option linter.all false

namespace Oxcaml.Typing.Ldd

/-! ## Variables -/

/-- `Ldd_intf.Ordered`, with the hash that the standard library gives names. -/
class Ordered (V : Type) extends LinearOrder V where
  stableHash : V → Nat

/-- Rigid ids lie strictly above all others. -/
def rigidVarStart : Nat := 1 <<< 29

inductive Var (V : Type) where
  | nonRigid (id : Nat) (lt : id < rigidVarStart)
  | rigid (name : V)
  deriving DecidableEq

section Vars

variable {V : Type} [Ordered V]

def rigidId (name : V) : Nat :=
  let h := Ordered.stableHash name &&& (rigidVarStart - 1)
  rigidVarStart ||| (h ||| 1)

def Var.id : Var V → Nat
  | nonRigid id _ => id
  | rigid name => rigidId name

/-- `compare_var_full`, on variables whose ids collide. The source raises
`invalid_arg` when one of them is not rigid. -/
def compareVarFull : Var V → Var V → Ordering
  | .rigid na, .rigid nb => compare na nb
  | _, _ => .eq

def compareVar (a b : Var V) : Ordering :=
  if a = b then .eq
  else
    match compare a.id b.id with
    | .eq => compareVarFull a b
    | h => h

/-- The order of `compare_var`: by id, then by name. -/
def Var.key : Var V → Nat ×ₗ WithBot V
  | v@(nonRigid _ _) => toLex (v.id, ⊥)
  | v@(rigid name) => toLex (v.id, name)

/-- `land` and `lor` with one keep a rigid id strictly above the start. -/
theorem rigidVarStart_lt_rigidId (name : V) : rigidVarStart < rigidId name := by
  have hne : (rigidId name).testBit 0 = true := by simp [rigidId]
  have hle : rigidVarStart ≤ rigidId name := Nat.left_le_or
  refine lt_of_le_of_ne hle fun heq => ?_
  rw [← heq] at hne
  exact absurd hne (by decide)

theorem Var.key_injective : Function.Injective (Var.key : Var V → _) := by
  intro a b h
  match a, b with
  | nonRigid i hi, nonRigid j hj =>
    have h1 : i = j := congrArg (fun x => (ofLex x).1) h
    subst h1
    rfl
  | nonRigid i hi, rigid n =>
    have h2 : (⊥ : WithBot V) = n := congrArg (fun x => (ofLex x).2) h
    exact absurd h2 WithBot.bot_ne_coe
  | rigid n, nonRigid i hi =>
    have h2 : (n : WithBot V) = ⊥ := congrArg (fun x => (ofLex x).2) h
    exact absurd h2 WithBot.coe_ne_bot
  | rigid n, rigid m =>
    have h2 : (n : WithBot V) = m := congrArg (fun x => (ofLex x).2) h
    rw [WithBot.coe_inj.1 h2]

instance : LinearOrder (Var V) := LinearOrder.lift' Var.key Var.key_injective

variable {a b : Var V}

theorem Var.lt_iff_key : a < b ↔ a.key < b.key := Iff.rfl

theorem Var.lt_of_id_lt (h : a.id < b.id) : a < b := by
  left
  cases a <;> cases b <;> exact h

/-- `compare_var` is the order of variables; in particular it never comes to
the exception of `compare_var_full`. -/
theorem compareVar_eq (a b : Var V) :
    compareVar a b = if a = b then .eq else if a < b then .lt else .gt := by
  rw [compareVar]
  split
  case isTrue => rfl
  case isFalse hne =>
  rcases Nat.lt_trichotomy a.id b.id with hlt | heq | hgt
  · rw [Nat.compare_eq_lt.2 hlt, if_pos (Var.lt_of_id_lt hlt)]
  · rw [Nat.compare_eq_eq.2 heq]
    match a, b with
    | .nonRigid i hi, .nonRigid j hj =>
      have hij : i = j := heq
      subst hij
      exact absurd rfl hne
    | .nonRigid i hi, .rigid n =>
      have := rigidVarStart_lt_rigidId n
      simp only [Var.id] at heq
      omega
    | .rigid n, .nonRigid i hi =>
      have := rigidVarStart_lt_rigidId n
      simp only [Var.id] at heq
      omega
    | .rigid n, .rigid m =>
      have hnm : n ≠ m := fun h => hne (by rw [h])
      have hiff : (Var.rigid n : Var V) < .rigid m ↔ n < m := by
        rw [Var.lt_iff_key, Prod.Lex.lt_iff]
        simp only [Var.key, Var.id]
        simp only [Var.id] at heq
        simp [heq]
      simp only [compareVarFull, hiff]
      rcases lt_trichotomy n m with h | h | h
      · rw [if_pos h, compare_lt_iff_lt.2 h]
      · exact absurd h hnm
      · rw [if_neg h.not_gt, compare_gt_iff_gt.2 h]
  · rw [Nat.compare_eq_gt.2 hgt, if_neg (Var.lt_of_id_lt hgt).not_gt]

theorem compareVar_eq_iff : compareVar a b = .eq ↔ a = b := by
  rw [compareVar_eq]
  split_ifs <;> simp_all

theorem compareVar_lt_iff : compareVar a b = .lt ↔ a < b := by
  rw [compareVar_eq]
  split_ifs <;> simp_all

theorem compareVar_gt_iff : compareVar a b = .gt ↔ b < a := by
  rw [compareVar_eq]
  split_ifs with h1 h2
  · simp [h1]
  · simp [h2.le]
  · simp only [true_iff]; exact lt_of_le_of_ne (not_lt.1 h2) (Ne.symm h1)

end Vars

/-! ## Nodes -/

inductive Node (V L : Type) where
  | leaf (c : L)
  | block (v : Var V) (lo hi : Node V L) (down0 up0 : L)
  deriving DecidableEq

/-- The number of leaves and blocks. -/
def Node.size {V L : Type} : Node V L → Nat
  | leaf _ => 1
  | block _ lo hi _ _ => lo.size + hi.size + 1

/-- What `==` may answer on two blocks. -/
structure PhysEq (V L : Type) where
  block : Node V L → Node V L → Bool
  sound : ∀ a b, block a b = true → a = b

section Nodes

variable {V L : Type} [Ordered V] [CoheytingAlgebra L] [DecidableEq L] [DecidableLE L]

/-- `==` on nodes. -/
def PhysEq.eq (peq : PhysEq V L) : Node V L → Node V L → Bool
  | .leaf c, .leaf d => c == d
  | .leaf _, .block .. => false
  | .block .., .leaf _ => false
  | a@(.block ..), b@(.block ..) => peq.block a b

def bot : Node V L := .leaf ⊥

def top : Node V L := .leaf ⊤

/-- `node == bot`. -/
def isBotNode : Node V L → Bool
  | .leaf c => c == ⊥
  | .block .. => false

def down0 : Node V L → L
  | .leaf c => c
  | .block _ _ _ d _ => d

def up0 : Node V L → L
  | .leaf c => c
  | .block _ _ _ _ u => u

def makeNode (v : Var V) (lo hi : Node V L) : Node V L :=
  .block v lo hi (down0 lo) (up0 lo ⊔ up0 hi)

/-- Construct a node; must be in canonical form. -/
def nodeRaw (v : Var V) (lo hi : Node V L) : Node V L :=
  if isBotNode hi then lo else makeNode v lo hi

/-- The field `var_node`. -/
def nodeOfVar (v : Var V) : Node V L := nodeRaw v bot top

/-! ## Subtraction -/

variable (peq : PhysEq V L)

/-- A block whose sides have become `lo'` and `hi'`: the old one when
nothing changed. -/
def rebuild (v : Var V) (lo hi : Node V L) (d u : L) (lo' hi' : Node V L) : Node V L :=
  if peq.eq lo lo' && peq.eq hi hi' then .block v lo hi d u else nodeRaw v lo' hi'

/-- The loop of `canonicalize_right_leaf`. -/
def canonicalizeRightLeafAux (leafL : L) : Node V L → Node V L
  | .leaf h => .leaf (h \ leafL)
  | .block v lo hi d u =>
    rebuild peq v lo hi d u (canonicalizeRightLeafAux leafL lo) (canonicalizeRightLeafAux leafL hi)

/-- `canonicalize_right_leaf`, given the value of the leaf. -/
def canonicalizeRightLeaf (hi : Node V L) (leafVal : L) : Node V L :=
  if leafVal = ⊥ then hi
  else if up0 hi ≤ leafVal then bot
  else canonicalizeRightLeafAux peq leafVal hi

/-- Subtract subsets `hi - lo` (co-Heyting subtraction). -/
def canonicalize (hi lo : Node V L) : Node V L :=
  if peq.eq hi lo then bot
  else if isBotNode lo then hi
  else
    match hi, lo with
    | .leaf dh, lo =>
      if down0 lo = ⊥ then .leaf dh else .leaf (dh \ down0 lo)
    | .block hv hlo hhi hd hu, .leaf dl => canonicalizeRightLeaf peq (.block hv hlo hhi hd hu) dl
    | .block hv hlo hhi hd hu, .block lv llo lhi ld lu =>
      match compareVar hv lv with
      | .eq =>
        let hi1 := if isBotNode lhi then hhi else canonicalize hhi lhi
        rebuild peq hv hlo hhi hd hu (canonicalize hlo llo)
          (if isBotNode llo then hi1 else canonicalize hi1 llo)
      | .lt =>
        rebuild peq hv hlo hhi hd hu (canonicalize hlo (.block lv llo lhi ld lu))
          (canonicalize hhi (.block lv llo lhi ld lu))
      | .gt => canonicalize (.block hv hlo hhi hd hu) llo
termination_by (lo.size, hi.size)
decreasing_by all_goals (simp_wf; simp only [Prod.lex_def, Node.size, true_and]; omega)

/-- Build a canonical node; ensures `hi` is disjoint from `lo`. -/
def node (v : Var V) (lo hi : Node V L) : Node V L :=
  if isBotNode lo then nodeRaw v lo hi else nodeRaw v lo (canonicalize peq hi lo)

theorem eq_bot_of_isBotNode {n : Node V L} (h : isBotNode n = true) : n = bot := by
  cases n with
  | leaf c => rw [isBotNode, beq_iff_eq] at h; rw [h, bot]
  | block => cases h

theorem PhysEq.eq_sound {a b : Node V L} (h : peq.eq a b = true) : a = b := by
  match a, b with
  | .leaf c, .leaf d => rw [PhysEq.eq, beq_iff_eq] at h; rw [h]
  | .leaf _, .block .. => cases h
  | .block .., .leaf _ => cases h
  | .block .., .block .. => exact peq.sound _ _ h

variable {P : Node V L → Node V L → Node V L → Prop}

/-- Induction over the calls of `canonicalize`. The fast paths for a `lo`
that is bottom are not told apart from the general case. -/
theorem canonicalize_induction (same : ∀ n, P n n bot) (lo_bot : ∀ hi, P hi bot hi)
    (hi_leaf : ∀ dh lo, P (.leaf dh) lo (.leaf (dh \ down0 lo)))
    (lo_leaf : ∀ hi dl, P hi (.leaf dl) (canonicalizeRightLeaf peq hi dl))
    (eq : ∀ v hlo hhi hd hu llo lhi ld lu lo' hi1 hi', P hlo llo lo' → P hhi lhi hi1 →
      P hi1 llo hi' →
      P (.block v hlo hhi hd hu) (.block v llo lhi ld lu) (rebuild peq v hlo hhi hd hu lo' hi'))
    (lt : ∀ hv hlo hhi hd hu lv llo lhi ld lu lo' hi', hv < lv →
      P hlo (.block lv llo lhi ld lu) lo' → P hhi (.block lv llo lhi ld lu) hi' →
      P (.block hv hlo hhi hd hu) (.block lv llo lhi ld lu) (rebuild peq hv hlo hhi hd hu lo' hi'))
    (gt : ∀ hv hlo hhi hd hu lv llo lhi ld lu r, lv < hv →
      P (.block hv hlo hhi hd hu) llo r → P (.block hv hlo hhi hd hu) (.block lv llo lhi ld lu) r) :
    ∀ hi lo, P hi lo (canonicalize peq hi lo) := by
  intro hi lo
  induction lo generalizing hi with
  | leaf dl =>
    rw [canonicalize.eq_def]
    split
    case isTrue h => rw [peq.eq_sound h]; exact same _
    case isFalse =>
    split
    case isTrue h => rw [eq_bot_of_isBotNode h]; exact lo_bot hi
    case isFalse =>
    cases hi with
    | leaf dh =>
      dsimp only
      split
      case isTrue h => have := hi_leaf dh (.leaf dl); rwa [h, sdiff_bot] at this
      case isFalse => exact hi_leaf dh (.leaf dl)
    | block hv hlo hhi hd hu => exact lo_leaf _ dl
  | block lv llo lhi ld lu ihlo ihhi =>
    have hlobot : ∀ hi, P hi llo (if isBotNode llo then hi else canonicalize peq hi llo) := by
      intro hi
      split
      case isTrue h => rw [eq_bot_of_isBotNode h]; exact lo_bot hi
      case isFalse => exact ihlo hi
    have hhibot : ∀ hi, P hi lhi (if isBotNode lhi then hi else canonicalize peq hi lhi) := by
      intro hi
      split
      case isTrue h => rw [eq_bot_of_isBotNode h]; exact lo_bot hi
      case isFalse => exact ihhi hi
    induction hi with
    | leaf dh =>
      rw [canonicalize.eq_def]
      simp only [PhysEq.eq, isBotNode, Bool.false_eq_true, if_false]
      split
      case isTrue h => have := hi_leaf dh (.block lv llo lhi ld lu); rwa [h, sdiff_bot] at this
      case isFalse => exact hi_leaf dh _
    | block hv hlo hhi hd hu ihhlo ihhhi =>
      rw [canonicalize.eq_def]
      split
      case isTrue h => rw [peq.eq_sound h]; exact same _
      case isFalse =>
      simp only [isBotNode, Bool.false_eq_true, if_false]
      split
      case h_1 h =>
        rw [compareVar_eq_iff.1 h]
        exact eq _ _ _ _ _ _ _ _ _ _ _ _ (ihlo hlo) (hhibot hhi) (hlobot _)
      case h_2 h => exact lt _ _ _ _ _ _ _ _ _ _ _ _ (compareVar_lt_iff.1 h) ihhlo ihhhi
      case h_3 h => exact gt _ _ _ _ _ _ _ _ _ _ _ (compareVar_gt_iff.1 h) (ihlo _)

/-! ## Sizes

Every operation rebuilds nodes from parts of its arguments. The bounds on the
results are what the recursion of `join` and `meet` rests on. -/

theorem one_le_size (n : Node V L) : 1 ≤ n.size := by
  cases n <;> simp only [Node.size] <;> lia

theorem size_nodeRaw_le (v : Var V) (lo hi : Node V L) :
    (nodeRaw v lo hi).size ≤ lo.size + hi.size + 1 := by
  rw [nodeRaw]
  split
  · omega
  · simp only [makeNode, Node.size]; omega

theorem size_rebuild_le (v : Var V) {lo hi lo' hi' : Node V L} (d u : L)
    (hlo : lo'.size ≤ lo.size) (hhi : hi'.size ≤ hi.size) :
    (rebuild peq v lo hi d u lo' hi').size ≤ lo.size + hi.size + 1 := by
  rw [rebuild]
  split
  · exact le_rfl
  · exact (size_nodeRaw_le _ _ _).trans (by omega)

theorem size_canonicalizeRightLeafAux_le (l : L) (hi : Node V L) :
    (canonicalizeRightLeafAux peq l hi).size ≤ hi.size := by
  induction hi with
  | leaf h => exact le_rfl
  | block v lo hi d u ihlo ihhi => exact size_rebuild_le peq v d u ihlo ihhi

theorem size_canonicalizeRightLeaf_le (hi : Node V L) (l : L) :
    (canonicalizeRightLeaf peq hi l).size ≤ hi.size := by
  rw [canonicalizeRightLeaf]
  split
  · exact le_rfl
  split
  · exact one_le_size hi
  · exact size_canonicalizeRightLeafAux_le peq l hi

theorem size_canonicalize_le (hi lo : Node V L) : (canonicalize peq hi lo).size ≤ hi.size := by
  apply canonicalize_induction peq (P := fun hi _ r => r.size ≤ hi.size)
  case same => exact one_le_size
  case lo_bot => exact fun _ => le_rfl
  case hi_leaf => exact fun _ _ => le_rfl
  case lo_leaf => exact size_canonicalizeRightLeaf_le peq
  case eq =>
    intro v hlo hhi hd hu llo lhi ld lu lo' hi1 hi' h0 h1 h2
    exact size_rebuild_le peq v hd hu h0 (h2.trans h1)
  case lt =>
    intro hv hlo hhi hd hu lv llo lhi ld lu lo' hi' _ h0 h1
    exact size_rebuild_le peq hv hd hu h0 h1
  case gt => exact fun _ _ _ _ _ _ _ _ _ _ _ _ h => h

theorem size_node_le (v : Var V) (lo hi : Node V L) :
    (node peq v lo hi).size ≤ lo.size + hi.size + 1 := by
  rw [node]
  split
  · exact size_nodeRaw_le v lo hi
  · have := size_canonicalize_le peq hi lo; exact (size_nodeRaw_le _ _ _).trans (by omega)

/-! ## Join -/

/-- The loop of `join_with_leaf`. -/
def joinWithLeafAux (leafValue : L) : Node V L → Node V L
  | .leaf c => .leaf (leafValue ⊔ c)
  | .block v lo hi d u =>
    rebuild peq v lo hi d u (joinWithLeafAux leafValue lo) (canonicalizeRightLeaf peq hi leafValue)

def joinWithLeaf (leafValue : L) (node : Node V L) : Node V L :=
  if leafValue = ⊤ then top
  else if leafValue ≤ down0 node then node
  else if up0 node ≤ leafValue then .leaf leafValue
  else joinWithLeafAux peq leafValue node

/-- `join`, whose last case is `join'`. -/
def join (a b : Node V L) : Node V L :=
  if peq.eq a b then a
  else
    match a, b with
    | .leaf x, .leaf y => .leaf (x ⊔ y)
    | .leaf x, .block bv blo bhi bd bu => joinWithLeaf peq x (.block bv blo bhi bd bu)
    | .block av alo ahi ad au, .leaf y => joinWithLeaf peq y (.block av alo ahi ad au)
    | .block av alo ahi ad au, .block bv blo bhi bd bu =>
      match compareVar av bv with
      | .eq =>
        nodeRaw av (join alo blo) (join (canonicalize peq ahi blo) (canonicalize peq bhi alo))
      | .lt =>
        nodeRaw av (join alo (.block bv blo bhi bd bu))
          (canonicalize peq ahi (.block bv blo bhi bd bu))
      | .gt =>
        nodeRaw bv (join (.block av alo ahi ad au) blo)
          (canonicalize peq bhi (.block av alo ahi ad au))
termination_by a.size + b.size
decreasing_by
  · simp only [Node.size]; omega
  · have := size_canonicalize_le peq ahi blo
    have := size_canonicalize_le peq bhi alo
    simp only [Node.size]
    omega
  · simp only [Node.size]; omega
  · simp only [Node.size]; omega

/-- Induction over the calls of `join`. -/
theorem join_induction (same : ∀ n, P n n n)
    (leaf_leaf : ∀ x y, P (.leaf x) (.leaf y) (.leaf (x ⊔ y)))
    (leaf_left : ∀ x b, P (.leaf x) b (joinWithLeaf peq x b))
    (leaf_right : ∀ a y, P a (.leaf y) (joinWithLeaf peq y a))
    (eq : ∀ v alo ahi ad au blo bhi bd bu lo' hi', P alo blo lo' →
      P (canonicalize peq ahi blo) (canonicalize peq bhi alo) hi' →
      P (.block v alo ahi ad au) (.block v blo bhi bd bu) (nodeRaw v lo' hi'))
    (lt : ∀ av alo ahi ad au bv blo bhi bd bu lo', av < bv → P alo (.block bv blo bhi bd bu) lo' →
      P (.block av alo ahi ad au) (.block bv blo bhi bd bu)
        (nodeRaw av lo' (canonicalize peq ahi (.block bv blo bhi bd bu))))
    (gt : ∀ av alo ahi ad au bv blo bhi bd bu lo', bv < av → P (.block av alo ahi ad au) blo lo' →
      P (.block av alo ahi ad au) (.block bv blo bhi bd bu)
        (nodeRaw bv lo' (canonicalize peq bhi (.block av alo ahi ad au)))) :
    ∀ a b, P a b (join peq a b) := by
  suffices hsize : ∀ n a b, a.size + b.size = n → P a b (join peq a b) from
    fun a b => hsize _ a b rfl
  intro n
  induction n using Nat.strongRecOn with
  | ind n ih =>
  intro a b hn
  rw [join.eq_def]
  split
  case isTrue h => rw [peq.eq_sound h]; exact same b
  case isFalse =>
  match a, b with
  | .leaf x, .leaf y => exact leaf_leaf x y
  | .leaf x, .block bv blo bhi bd bu => exact leaf_left x _
  | .block av alo ahi ad au, .leaf y => exact leaf_right _ y
  | .block av alo ahi ad au, .block bv blo bhi bd bu =>
    have h0 := size_canonicalize_le peq ahi blo
    have h1 := size_canonicalize_le peq bhi alo
    simp only [Node.size] at hn
    dsimp only
    split
    case h_1 h =>
      rw [← compareVar_eq_iff.1 h]
      exact eq _ _ _ _ _ _ _ _ _ _ _ (ih _ (by omega) _ _ rfl) (ih _ (by omega) _ _ rfl)
    case h_2 h =>
      exact lt _ _ _ _ _ _ _ _ _ _ _ (compareVar_lt_iff.1 h)
        (ih _ (by simp only [Node.size]; omega) _ _ rfl)
    case h_3 h =>
      exact gt _ _ _ _ _ _ _ _ _ _ _ (compareVar_gt_iff.1 h)
        (ih _ (by simp only [Node.size]; omega) _ _ rfl)

theorem size_joinWithLeaf_le (x : L) (n : Node V L) : (joinWithLeaf peq x n).size ≤ n.size := by
  have haux : (joinWithLeafAux peq x n).size ≤ n.size := by
    induction n with
    | leaf c => exact le_rfl
    | block v lo hi d u ihlo _ =>
      exact size_rebuild_le peq v d u ihlo (size_canonicalizeRightLeaf_le peq hi x)
  rw [joinWithLeaf]
  split
  · exact one_le_size n
  split
  · exact le_rfl
  split
  · exact one_le_size n
  · exact haux

theorem size_join_le (a b : Node V L) : (join peq a b).size ≤ a.size + b.size := by
  apply join_induction peq (P := fun a b r => r.size ≤ a.size + b.size)
  case same => exact fun _ => Nat.le_add_left _ _
  case leaf_leaf => exact fun _ _ => Nat.le_add_left _ _
  case leaf_left => exact fun x b => (size_joinWithLeaf_le peq x b).trans (Nat.le_add_left _ _)
  case leaf_right => exact fun a y => (size_joinWithLeaf_le peq y a).trans (Nat.le_add_right _ _)
  case eq =>
    intro v alo ahi ad au blo bhi bd bu lo' hi' h0 h1
    have := size_canonicalize_le peq ahi blo
    have := size_canonicalize_le peq bhi alo
    refine (size_nodeRaw_le _ _ _).trans ?_
    simp only [Node.size]
    omega
  case lt =>
    intro av alo ahi ad au bv blo bhi bd bu lo' _ h0
    have := size_canonicalize_le peq ahi (.block bv blo bhi bd bu)
    refine (size_nodeRaw_le _ _ _).trans ?_
    simp only [Node.size] at *
    omega
  case gt =>
    intro av alo ahi ad au bv blo bhi bd bu lo' _ h0
    have := size_canonicalize_le peq bhi (.block av alo ahi ad au)
    refine (size_nodeRaw_le _ _ _).trans ?_
    simp only [Node.size] at *
    omega

/-! ## Meet -/

/-- A block whose sides have become `lo'` and `hi'`, canonicalized unless
nothing changed. -/
def rebuildCanonical (v : Var V) (lo hi : Node V L) (d u : L) (lo' hi' : Node V L) : Node V L :=
  if peq.eq lo' lo && peq.eq hi' hi then .block v lo hi d u else node peq v lo' hi'

/-- The loop of `meet_with_leaf`. -/
def meetWithLeafAux (leafValue : L) : Node V L → Node V L
  | .leaf c => .leaf (leafValue ⊓ c)
  | .block v lo hi d u =>
    rebuildCanonical peq v lo hi d u (meetWithLeafAux leafValue lo) (meetWithLeafAux leafValue hi)

def meetWithLeaf (leafValue : L) (other : Node V L) : Node V L :=
  if leafValue = ⊤ then other
  else if leafValue = ⊥ then bot
  else if up0 other ≤ leafValue then other
  else meetWithLeafAux peq leafValue other

/-- `meet`, whose last case is `meet'`. -/
def meet (a b : Node V L) : Node V L :=
  if peq.eq a b then a
  else
    match a, b with
    | .leaf x, .leaf y => .leaf (x ⊓ y)
    | .leaf x, .block bv blo bhi bd bu => meetWithLeaf peq x (.block bv blo bhi bd bu)
    | .block av alo ahi ad au, .leaf y => meetWithLeaf peq y (.block av alo ahi ad au)
    | .block av alo ahi ad au, .block bv blo bhi bd bu =>
      match compareVar av bv with
      | .eq => node peq av (meet alo blo) (meet (join peq ahi alo) (join peq bhi blo))
      | .lt =>
        node peq av (meet alo (.block bv blo bhi bd bu)) (meet ahi (.block bv blo bhi bd bu))
      | .gt =>
        node peq bv (meet (.block av alo ahi ad au) blo) (meet (.block av alo ahi ad au) bhi)
termination_by a.size + b.size
decreasing_by
  · simp only [Node.size]; omega
  · have := size_join_le peq ahi alo
    have := size_join_le peq bhi blo
    simp only [Node.size]
    omega
  all_goals
    simp only [Node.size]
    omega

/-- Induction over the calls of `meet`. -/
theorem meet_induction (same : ∀ n, P n n n)
    (leaf_leaf : ∀ x y, P (.leaf x) (.leaf y) (.leaf (x ⊓ y)))
    (leaf_left : ∀ x b, P (.leaf x) b (meetWithLeaf peq x b))
    (leaf_right : ∀ a y, P a (.leaf y) (meetWithLeaf peq y a))
    (eq : ∀ v alo ahi ad au blo bhi bd bu lo' hi', P alo blo lo' →
      P (join peq ahi alo) (join peq bhi blo) hi' →
      P (.block v alo ahi ad au) (.block v blo bhi bd bu) (node peq v lo' hi'))
    (lt : ∀ av alo ahi ad au bv blo bhi bd bu lo' hi', av < bv →
      P alo (.block bv blo bhi bd bu) lo' → P ahi (.block bv blo bhi bd bu) hi' →
      P (.block av alo ahi ad au) (.block bv blo bhi bd bu) (node peq av lo' hi'))
    (gt : ∀ av alo ahi ad au bv blo bhi bd bu lo' hi', bv < av →
      P (.block av alo ahi ad au) blo lo' → P (.block av alo ahi ad au) bhi hi' →
      P (.block av alo ahi ad au) (.block bv blo bhi bd bu) (node peq bv lo' hi')) :
    ∀ a b, P a b (meet peq a b) := by
  suffices hsize : ∀ n a b, a.size + b.size = n → P a b (meet peq a b) from
    fun a b => hsize _ a b rfl
  intro n
  induction n using Nat.strongRecOn with
  | ind n ih =>
  intro a b hn
  rw [meet.eq_def]
  split
  case isTrue h => rw [peq.eq_sound h]; exact same b
  case isFalse =>
  match a, b with
  | .leaf x, .leaf y => exact leaf_leaf x y
  | .leaf x, .block bv blo bhi bd bu => exact leaf_left x _
  | .block av alo ahi ad au, .leaf y => exact leaf_right _ y
  | .block av alo ahi ad au, .block bv blo bhi bd bu =>
    have h0 := size_join_le peq ahi alo
    have h1 := size_join_le peq bhi blo
    simp only [Node.size] at hn
    dsimp only
    split
    case h_1 h =>
      rw [← compareVar_eq_iff.1 h]
      exact eq _ _ _ _ _ _ _ _ _ _ _ (ih _ (by omega) _ _ rfl) (ih _ (by omega) _ _ rfl)
    case h_2 h =>
      exact lt _ _ _ _ _ _ _ _ _ _ _ _ (compareVar_lt_iff.1 h)
        (ih _ (by simp only [Node.size]; omega) _ _ rfl)
        (ih _ (by simp only [Node.size]; omega) _ _ rfl)
    case h_3 h =>
      exact gt _ _ _ _ _ _ _ _ _ _ _ _ (compareVar_gt_iff.1 h)
        (ih _ (by simp only [Node.size]; omega) _ _ rfl)
        (ih _ (by simp only [Node.size]; omega) _ _ rfl)

theorem size_meet_leaf_le (a : Node V L) (y : L) : (meet peq a (.leaf y)).size ≤ a.size := by
  have haux : ∀ n : Node V L, (meetWithLeafAux peq y n).size ≤ n.size := by
    intro n
    induction n with
    | leaf c => exact le_rfl
    | block v lo hi d u ihlo ihhi =>
      rw [meetWithLeafAux, rebuildCanonical]
      split
      · exact le_rfl
      refine (size_node_le peq _ _ _).trans ?_
      simp only [Node.size]
      omega
  have hleaf : ∀ n : Node V L, (meetWithLeaf peq y n).size ≤ n.size := by
    intro n
    rw [meetWithLeaf]
    split
    · exact le_rfl
    split
    · exact one_le_size n
    split
    · exact le_rfl
    · exact haux n
  rw [meet.eq_def]
  split
  · exact le_rfl
  cases a with
  | leaf x => exact le_rfl
  | block av alo ahi ad au => exact hleaf _

/-! ## Implication -/

def topVar : Node V L → Option (Var V)
  | .leaf _ => none
  | .block v _ _ _ _ => some v

def minTopVar (a b : Node V L) : Except String (Var V) :=
  match topVar a, topVar b with
  | none, none => .error "Ldd.imply: expected a non-leaf node"
  | some v, none | none, some v => .ok v
  | some v1, some v2 => .ok (if (compareVar v1 v2).isLE then v1 else v2)

/-- The node where `v` is bottom, and where it is top. -/
def splitOnVar (v : Var V) : Node V L → Node V L × Node V L
  | .leaf c => (.leaf c, .leaf c)
  | .block w lo hi d u =>
    match compareVar v w with
    | .lt => (.block w lo hi d u, .block w lo hi d u)
    | .eq => (lo, join peq lo hi)
    | .gt =>
      (node peq w (splitOnVar v lo).1 (splitOnVar v hi).1,
        node peq w (splitOnVar v lo).2 (splitOnVar v hi).2)

/-- The node does not start below `v`. -/
def StartsFrom (v : Var V) (n : Node V L) : Prop := ∀ w, topVar n = some w → v ≤ w

theorem minTopVar_ok {a b : Node V L} {v : Var V} (h : minTopVar a b = .ok v) :
    StartsFrom v a ∧ StartsFrom v b ∧ (topVar a = some v ∨ topVar b = some v) := by
  unfold minTopVar at h
  unfold StartsFrom
  cases ha : topVar a with
  | none =>
    cases hb : topVar b with
    | none => rw [ha, hb] at h; cases h
    | some w =>
      rw [ha, hb] at h
      cases h
      simp
  | some w =>
    cases hb : topVar b with
    | none =>
      rw [ha, hb] at h
      cases h
      simp
    | some w' =>
      rw [ha, hb] at h
      have hv := Except.ok.inj h
      rw [compareVar_eq] at hv
      rcases lt_trichotomy w w' with hlt | rfl | hgt
      · rw [if_neg hlt.ne, if_pos hlt] at hv
        simp only [Ordering.isLE] at hv
        subst hv
        simp [hlt.le]
      · subst hv; simp
      rw [if_neg hgt.ne', if_neg hgt.not_gt] at hv
      subst hv
      simp [hgt.le]

/-- Splitting on a variable that is not above the top makes no node larger, and a node
with this variable at the top smaller. -/
theorem size_splitOnVar {v : Var V} {n : Node V L} (h : StartsFrom v n) :
    (splitOnVar peq v n).1.size ≤ n.size ∧ (splitOnVar peq v n).2.size ≤ n.size ∧
      (topVar n = some v →
        (splitOnVar peq v n).1.size < n.size ∧ (splitOnVar peq v n).2.size < n.size) := by
  cases n with
  | leaf c => simp [splitOnVar, topVar]
  | block w lo hi d u =>
    have hle := h w rfl
    have hjoin := size_join_le peq lo hi
    rw [splitOnVar]
    split
    case h_1 hcmp =>
      refine ⟨le_rfl, le_rfl, fun htop => ?_⟩
      rw [Option.some.inj htop] at hcmp
      exact absurd (compareVar_lt_iff.1 hcmp) (lt_irrefl v)
    case h_2 => simp only [Node.size]; omega
    case h_3 hcmp => exact absurd (compareVar_gt_iff.1 hcmp) hle.not_gt

/-- `node == top`. -/
def isTopNode : Node V L → Bool
  | .leaf c => c == ⊤
  | .block .. => false

/-- `imply_rec`. -/
def implyRec [HImp L] (a b : Node V L) : Except String (Node V L) :=
  if peq.eq a b || isBotNode a || isTopNode b then .ok top
  else
    match a, b with
    | .leaf x, .leaf y => .ok (.leaf (x ⇨ y))
    | a, b =>
      match _h : minTopVar a b with
      | .error e => .error e
      | .ok v => do
        let hTop ← implyRec (splitOnVar peq v a).2 (splitOnVar peq v b).2
        let hBot ← implyRec (splitOnVar peq v a).1 (splitOnVar peq v b).1
        pure (node peq v (meet peq hBot hTop) hTop)
termination_by a.size + b.size
decreasing_by
  all_goals
    obtain ⟨ha, hb, htop⟩ := minTopVar_ok _h
    have hsa := size_splitOnVar peq ha
    have hsb := size_splitOnVar peq hb
    rcases htop with htop | htop
    · have := hsa.2.2 htop; omega
    · have := hsb.2.2 htop; omega

/-! ## Assignments -/

/-- Assign a variable to bottom. -/
def assignBot (var : Var V) : Node V L → Node V L
  | .leaf c => .leaf c
  | .block v lo hi d u =>
    match compareVar var v with
    | .lt => .block v lo hi d u
    | .eq => lo
    | .gt => rebuildCanonical peq v lo hi d u (assignBot var lo) (assignBot var hi)

/-- Assign a variable to top. -/
def assignTop (var : Var V) : Node V L → Node V L
  | .leaf c => .leaf c
  | .block v lo hi d u =>
    match compareVar var v with
    | .lt => .block v lo hi d u
    | .eq => join peq lo hi
    | .gt => rebuildCanonical peq v lo hi d u (assignTop var lo) (assignTop var hi)

/-! ## The states of variables -/

inductive VarState (V L : Type) where
  | unsolved
  | solved (d : Node V L)
  | rigid (name : V)

/-- The solutions of the variables that are not rigid, and `gfp_pending`. -/
structure State (V L : Type) where
  solution : Var V → Option (Node V L)
  gfpPending : List (Var V × Node V L)

/-- The field `state`. -/
def State.varState (s : State V L) : Var V → VarState V L
  | .rigid name => .rigid name
  | .nonRigid id h =>
    match s.solution (.nonRigid id h) with
    | none => .unsolved
    | some d => .solved d

/-- `v.state <- Solved d`. -/
def State.setSolved (s : State V L) (v : Var V) (d : Node V L) : State V L :=
  { s with solution := Function.update s.solution v (some d) }

/-- The state in which no variable is solved. -/
def State.fresh : State V L := ⟨fun _ => none, []⟩

/-! ## Inlining -/

def inlineSolvedVars (n : Node V L) (s : State V L) : Option (Node V L × State V L) :=
  match n with
  | .leaf c => some (.leaf c, s)
  | .block v lo hi d u =>
    match s.varState v with
    | .rigid _ => some (.block v lo hi d u, s)
    | .solved sol => do
      let (lo', s) ← (inlineSolvedVars (s := s)) lo
      let (hi', s) ← (inlineSolvedVars (s := s)) hi
      let (sol', s) ← (inlineSolvedVars (s := s)) sol
      some (join peq lo' (meet peq hi' sol'), s.setSolved v sol')
    | .unsolved => do
      let (lo', s) ← (inlineSolvedVars (s := s)) lo
      let (hi', s) ← (inlineSolvedVars (s := s)) hi
      if peq.eq lo' lo && peq.eq hi' hi then some (.block v lo hi d u, s)
      else some (join peq lo' (meet peq hi' (nodeOfVar v)), s)
partial_fixpoint

/-- Assign `var` to bottom in the inlined node. -/
def assignBotInline (var : Var V) (n : Node V L) (s : State V L) : Option (Node V L × State V L) :=
  if var.id > rigidVarStart then do
    let (n', s) ← inlineSolvedVars peq n s
    some (assignBot peq var n', s)
  else
    match n with
    | .leaf c => some (.leaf c, s)
    | .block v lo hi d u =>
      match s.varState v with
      | .solved sol => do
        let (lo', s) ← assignBotInline var lo s
        let (hi', s) ← assignBotInline var hi s
        let (forced, s) ← inlineSolvedVars peq sol s
        some (join peq lo' (meet peq hi' (assignBot peq var forced)), s.setSolved v forced)
      | .unsolved => do
        let (lo', s) ← assignBotInline var lo s
        if compareVar v var = .eq then some (lo', s)
        else do
          let (hi', s) ← assignBotInline var hi s
          if peq.eq lo' lo && peq.eq hi' hi then some (.block v lo hi d u, s)
          else some (join peq lo' (meet peq hi' (nodeOfVar v)), s)
      | .rigid _ => some (.block v lo hi d u, s)

def subSubsets (a b : Node V L) (s : State V L) : Option (Node V L × State V L) := do
  let (b', s) ← inlineSolvedVars peq b s
  let (a', s) ← inlineSolvedVars peq a s
  some (canonicalize peq a' b', s)

/-! ## Solving -/

/-- Solve the least fixpoint equation `var := rhsRaw`. -/
def solveLfp (var : Var V) (rhsRaw : Node V L) (s : State V L) :
    Option (Except String (State V L)) :=
  match s.varState var with
  | .rigid _ => some (.error "solve_lfp: rigid variable")
  | .solved _ => some (.error "solve_lfp: solved variable")
  | .unsolved => do
    let (d, s) ← assignBotInline peq var rhsRaw s
    some (.ok (s.setSolved var d))

/-- Solve the greatest fixpoint equation `var := rhsRaw`. -/
def solveGfp (var : Var V) (rhsRaw : Node V L) (s : State V L) :
    Option (Except String (State V L)) :=
  match s.varState var with
  | .rigid _ => some (.error "solve_gfp: rigid variable")
  | .solved _ => some (.error "solve_gfp: solved variable")
  | .unsolved => do
    let (forced, s) ← inlineSolvedVars peq rhsRaw s
    some (.ok (s.setSolved var (assignTop peq var forced)))

def enqueueGfp (var : Var V) (rhsRaw : Node V L) (s : State V L) : State V L :=
  { s with gfpPending := (var, rhsRaw) :: s.gfpPending }

/-- One solving function, on a list of equations from the left. -/
def iterSolve (solve : Var V → Node V L → State V L → Option (Except String (State V L))) :
    List (Var V × Node V L) → State V L → Option (Except String (State V L))
  | [], s => some (.ok s)
  | (var, rhsRaw) :: rest, s =>
    match solve var rhsRaw s with
    | some (.ok s) => iterSolve solve rest s
    | r => r

/-- `solve_pending`, which is `solve_pending_gfps`. -/
def solvePending (s : State V L) : Option (Except String (State V L)) :=
  iterSolve (solveGfp peq) s.gfpPending { s with gfpPending := [] }

/-! ## Linear terms -/

/-- `go` of `decompose_into_linear_terms`. -/
def linearTerms : List (Var V) → Node V L → List (Node V L) → Node V L × List (Node V L)
  | [], node, coeffs => (node, coeffs)
  | v :: rest, node, coeffs =>
    linearTerms rest (assignBot peq v node) (assignTop peq v node :: coeffs.map (assignBot peq v))

/-- Decompose into linear terms over the `universe` of the source. -/
def decomposeIntoLinearTerms (univ : List (Var V)) (n : Node V L) (s : State V L) :
    Option ((Node V L × List (Node V L)) × State V L) := do
  let (n', s) ← inlineSolvedVars peq n s
  let (base, linears) := linearTerms peq univ n' []
  some ((base, linears.reverse), s)

/-! ## Substituting for rigid variables -/

/-- `map_rigid_rec`. -/
def mapRigidRec (f : V → Node V L) (n : Node V L) (s : State V L) :
    ExceptT String Option (Node V L × State V L) :=
  match n with
  | .leaf c => pure (.leaf c, s)
  | .block v lo hi d u =>
    match s.varState v with
    | .rigid name => do
      let (replacement, s) ← (liftM (inlineSolvedVars peq (f name) s) : ExceptT String Option _)
      match replacement with
      | .leaf c => mapRigidRec f (join peq lo (meet peq hi (.leaf c))) s
      | .block .. => do
        let (lo', s) ← mapRigidRec f lo s
        let (hi', s) ← mapRigidRec f hi s
        pure (join peq lo' (meet peq hi' replacement), s)
    | .unsolved => do
      let (lo', s) ← mapRigidRec f lo s
      let (hi', s) ← mapRigidRec f hi s
      if peq.eq lo' lo && peq.eq hi' hi then pure (.block v lo hi d u, s)
      else pure (join peq lo' (meet peq hi' (nodeOfVar v)), s)
    | .solved _ =>
      throw "map_rigid: solved vars should not appear after inline_solved_vars"
termination_by n.size
decreasing_by
  · have := size_join_le peq lo (meet peq hi (.leaf c))
    have := size_meet_leaf_le peq hi c
    simp only [Node.size]
    omega
  all_goals
    simp only [Node.size]
    omega

def mapRigid (f : V → Node V L) (n : Node V L) (s : State V L) :
    ExceptT String Option (Node V L × State V L) := do
  let (n', s) ← (liftM (inlineSolvedVars peq n s) : ExceptT String Option _)
  mapRigidRec peq f n' s

end Nodes

end Oxcaml.Typing.Ldd
