/-
Oxcaml.Typing.Solver — the mode solver of `typing/solver.ml`.

The solver keeps, for each mode variable, an upper bound, a lower bound
and the variables directly below it (`vlower`), each under a morphism.
`submode a b` asks the value of `a` to be below the value of `b`: it
lowers upper bounds by walking `vlower` downwards and records an edge
where two variables meet. Lower bounds are raised lazily and may lag
behind.

`Solver_mono` is a functor over a collection of lattices (`LatticesMono`
here, with its contract as fields) and over hints that explain bounds
(`Hint`). Hints never decide anything; they are carried along as the
source carries them.

Mutable variables live in a store. The source recurses through `vlower`
until bounds stop changing; here `submodeVc` takes fuel and answers
`none` when it runs out (`SolverTheorems` shows how much is enough).
Every change to the store goes to the log when there is one, so that a
failed call can be undone.
-/
import Oxcaml.Typing.Morphs
import Mathlib.Data.Fintype.Defs
import Mathlib.Order.GaloisConnection.Basic

set_option linter.all false

namespace Oxcaml.Typing

open Allowance

/-! ## The functor arguments -/

/-- `Lattices_mono`: finite lattices, monotone morphisms between them that
compose, and adjoints of those that are allowed on a side. -/
structure LatticesMono where
  Obj : Type
  Elt : Obj → Type
  Morph : Obj → Obj → Allowance → Allowance → Type
  [decEqObj : DecidableEq Obj]
  [lattice : ∀ o, Lattice (Elt o)]
  [boundedOrder : ∀ o, BoundedOrder (Elt o)]
  [decidableLE : ∀ o, DecidableLE (Elt o)]
  [fintype : ∀ o, Fintype (Elt o)]
  id : ∀ {a l r}, Morph a a l r
  compose : ∀ {a b c l r}, Morph b c l r → Morph a b l r → Morph a c l r
  apply : ∀ {a b l r}, Morph a b l r → Elt a → Elt b
  leftAdjoint : ∀ {a b l}, Morph a b l allowed → Morph b a allowed disallowed
  rightAdjoint : ∀ {a b r}, Morph a b allowed r → Morph b a disallowed allowed
  allowLeft : ∀ {a b l r}, Morph a b allowed r → Morph a b l r
  allowRight : ∀ {a b l r}, Morph a b l allowed → Morph a b l r
  disallowLeft : ∀ {a b l r}, Morph a b l r → Morph a b disallowed r
  disallowRight : ∀ {a b l r}, Morph a b l r → Morph a b l disallowed
  compareMorph : ∀ {a₁ a₂ b l₁ r₁ l₂ r₂}, Morph a₁ b l₁ r₁ → Morph a₂ b l₂ r₂ → Ordering
  equalMorph : ∀ {a₁ a₂ b l₁ r₁ l₂ r₂}, Morph a₁ b l₁ r₁ → Morph a₂ b l₂ r₂ → IsEq a₁ a₂
  apply_mono : ∀ {a b l r} (f : Morph a b l r), Monotone (apply f)
  apply_id : ∀ {a l r} (x : Elt a), apply (id : Morph a a l r) x = x
  apply_compose : ∀ {a b c l r} (f : Morph b c l r) (g : Morph a b l r) (x : Elt a),
    apply (compose f g) x = apply f (apply g x)
  gc_leftAdjoint : ∀ {a b l} (f : Morph a b l allowed),
    GaloisConnection (apply (leftAdjoint f)) (apply f)
  gc_rightAdjoint : ∀ {a b r} (f : Morph a b allowed r),
    GaloisConnection (apply f) (apply (rightAdjoint f))
  apply_allowLeft : ∀ {a b l r} (f : Morph a b allowed r) (x : Elt a),
    apply (allowLeft f : Morph a b l r) x = apply f x
  apply_allowRight : ∀ {a b l r} (f : Morph a b l allowed) (x : Elt a),
    apply (allowRight f : Morph a b l r) x = apply f x
  apply_disallowLeft : ∀ {a b l r} (f : Morph a b l r) (x : Elt a),
    apply (disallowLeft f) x = apply f x
  apply_disallowRight : ∀ {a b l r} (f : Morph a b l r) (x : Elt a),
    apply (disallowRight f) x = apply f x
  /-- Morphisms that compare as 0 have one source and are one map. -/
  compareMorph_sound : ∀ {a₁ a₂ b l₁ r₁ l₂ r₂} (f : Morph a₁ b l₁ r₁) (g : Morph a₂ b l₂ r₂),
    compareMorph f g = .eq → ∃ h : a₁ = a₂, ∀ x, apply f x = apply g (h ▸ x)
  /-- Morphisms that `equal_morph` identifies have one source and are one map. -/
  equalMorph_sound : ∀ {a₁ a₂ b l₁ r₁ l₂ r₂} (f : Morph a₁ b l₁ r₁) (g : Morph a₂ b l₂ r₂),
    (equalMorph f g).toBool → ∃ h : a₁ = a₂, ∀ x, apply f x = apply g (h ▸ x)

attribute [instance] LatticesMono.decEqObj LatticesMono.lattice LatticesMono.boundedOrder
  LatticesMono.decidableLE LatticesMono.fintype

/-- The signature `Hint`: what explains morphisms and constants. -/
structure Hint where
  Pinpoint : Type
  Morph : Allowance → Allowance → Type
  Const : Allowance → Allowance → Type
  pinpointUnknown : Pinpoint
  morphUnknown : ∀ {l r}, Morph l r
  morphLeftAdjoint : ∀ {l}, Pinpoint → Morph l allowed → Pinpoint × Morph allowed disallowed
  morphRightAdjoint : ∀ {r}, Pinpoint → Morph allowed r → Pinpoint × Morph disallowed allowed
  morphAllowLeft : ∀ {l r}, Morph allowed r → Morph l r
  morphAllowRight : ∀ {l r}, Morph l allowed → Morph l r
  morphDisallowLeft : ∀ {l r}, Morph l r → Morph disallowed r
  morphDisallowRight : ∀ {l r}, Morph l r → Morph l disallowed
  constAllowLeft : ∀ {l r}, Const allowed r → Const l r
  constAllowRight : ∀ {l r}, Const l allowed → Const l r
  constDisallowLeft : ∀ {l r}, Const l r → Const disallowed r
  constDisallowRight : ∀ {l r}, Const l r → Const l disallowed

/-- The type `branch`. -/
inductive Branch : Allowance → Allowance → Type where
  | join {l : Allowance} : Branch l disallowed
  | meet {r : Allowance} : Branch disallowed r

namespace Solver

variable {C : LatticesMono} {H : Hint}

/-! ## Hints -/

/-- `Comp_hint.Morph_hint.t`. -/
inductive MorphHint (C : LatticesMono) (H : Hint) :
    C.Obj → C.Obj → Allowance → Allowance → Type where
  | base {a b : C.Obj} {l r : Allowance} (h : H.Morph l r) (m : C.Morph a b l r) :
      MorphHint C H a b l r
  | compose {a b c : C.Obj} {l r : Allowance} (f : MorphHint C H b c l r)
      (g : MorphHint C H a b l r) : MorphHint C H a c l r
  | id {a : C.Obj} {l r : Allowance} : MorphHint C H a a l r

namespace MorphHint

def leftAdjoint : {a b : C.Obj} → {l : Allowance} → H.Pinpoint → MorphHint C H a b l allowed →
    H.Pinpoint × MorphHint C H b a allowed disallowed
  | _, _, _, pp, id => (pp, id)
  | _, _, _, pp, base h m =>
    let (pp, h) := H.morphLeftAdjoint pp h
    (pp, base h (C.leftAdjoint m))
  | _, _, _, pp, compose f g =>
    let (midPp, f') := leftAdjoint pp f
    let (srcPp, g') := leftAdjoint midPp g
    (srcPp, compose g' f')

def rightAdjoint : {a b : C.Obj} → {r : Allowance} → H.Pinpoint → MorphHint C H a b allowed r →
    H.Pinpoint × MorphHint C H b a disallowed allowed
  | _, _, _, pp, id => (pp, id)
  | _, _, _, pp, base h m =>
    let (pp, h) := H.morphRightAdjoint pp h
    (pp, base h (C.rightAdjoint m))
  | _, _, _, pp, compose f g =>
    let (midPp, f') := rightAdjoint pp f
    let (srcPp, g') := rightAdjoint midPp g
    (srcPp, compose g' f')

def allowLeft : {a b : C.Obj} → {l r : Allowance} → MorphHint C H a b allowed r →
    MorphHint C H a b l r
  | _, _, _, _, id => id
  | _, _, _, _, base h m => base (H.morphAllowLeft h) (C.allowLeft m)
  | _, _, _, _, compose f g => compose (allowLeft f) (allowLeft g)

def allowRight : {a b : C.Obj} → {l r : Allowance} → MorphHint C H a b l allowed →
    MorphHint C H a b l r
  | _, _, _, _, id => id
  | _, _, _, _, base h m => base (H.morphAllowRight h) (C.allowRight m)
  | _, _, _, _, compose f g => compose (allowRight f) (allowRight g)

def disallowLeft : {a b : C.Obj} → {l r : Allowance} → MorphHint C H a b l r →
    MorphHint C H a b disallowed r
  | _, _, _, _, id => id
  | _, _, _, _, base h m => base (H.morphDisallowLeft h) (C.disallowLeft m)
  | _, _, _, _, compose f g => compose (disallowLeft f) (disallowLeft g)

def disallowRight : {a b : C.Obj} → {l r : Allowance} → MorphHint C H a b l r →
    MorphHint C H a b l disallowed
  | _, _, _, _, id => id
  | _, _, _, _, base h m => base (H.morphDisallowRight h) (C.disallowRight m)
  | _, _, _, _, compose f g => compose (disallowRight f) (disallowRight g)

end MorphHint

/-- `Comp_hint.t`. -/
inductive CompHint (C : LatticesMono) (H : Hint) : C.Obj → Allowance → Allowance → Type where
  | apply {a b : C.Obj} {l r : Allowance} (f : MorphHint C H b a l r) (h : CompHint C H b l r) :
      CompHint C H a l r
  | const {a : C.Obj} {l r : Allowance} (h : H.Const l r) (c : C.Elt a) : CompHint C H a l r
  | branch {a : C.Obj} {l r : Allowance} (b : Branch l r) (h₁ h₂ : CompHint C H a l r) :
      CompHint C H a l r
  | min {a : C.Obj} {l : Allowance} : CompHint C H a l disallowed
  | max {a : C.Obj} {r : Allowance} : CompHint C H a disallowed r
  | unknown {a : C.Obj} {l r : Allowance} (c : C.Elt a) : CompHint C H a l r

namespace CompHint

def allowLeft : {a : C.Obj} → {l r : Allowance} → CompHint C H a allowed r → CompHint C H a l r
  | _, _, _, apply f h => apply f.allowLeft h.allowLeft
  | _, _, _, const h c => const (H.constAllowLeft h) c
  | _, _, _, branch .join h₁ h₂ => branch .join h₁.allowLeft h₂.allowLeft
  | _, _, _, min => min
  | _, _, _, unknown c => unknown c

def allowRight : {a : C.Obj} → {l r : Allowance} → CompHint C H a l allowed → CompHint C H a l r
  | _, _, _, apply f h => apply f.allowRight h.allowRight
  | _, _, _, const h c => const (H.constAllowRight h) c
  | _, _, _, branch .meet h₁ h₂ => branch .meet h₁.allowRight h₂.allowRight
  | _, _, _, max => max
  | _, _, _, unknown c => unknown c

def disallowLeft : {a : C.Obj} → {l r : Allowance} → CompHint C H a l r →
    CompHint C H a disallowed r
  | _, _, _, apply f h => apply f.disallowLeft h.disallowLeft
  | _, _, _, const h c => const (H.constDisallowLeft h) c
  | _, _, _, branch .join h₁ h₂ => branch .join h₁.disallowLeft h₂.disallowLeft
  | _, _, _, branch .meet h₁ h₂ => branch .meet h₁.disallowLeft h₂.disallowLeft
  | _, _, _, min => min
  | _, _, _, max => max
  | _, _, _, unknown c => unknown c

def disallowRight : {a : C.Obj} → {l r : Allowance} → CompHint C H a l r →
    CompHint C H a l disallowed
  | _, _, _, apply f h => apply f.disallowRight h.disallowRight
  | _, _, _, const h c => const (H.constDisallowRight h) c
  | _, _, _, branch .join h₁ h₂ => branch .join h₁.disallowRight h₂.disallowRight
  | _, _, _, branch .meet h₁ h₂ => branch .meet h₁.disallowRight h₂.disallowRight
  | _, _, _, min => min
  | _, _, _, max => max
  | _, _, _, unknown c => unknown c

end CompHint

/-! ## Variables and the store -/

/-- A mode variable. The source's variables are records with an `id`
counted over all objects; the store below maps a name to such a record. -/
structure VarId (C : LatticesMono) where
  obj : C.Obj
  id : Nat
  deriving DecidableEq

/-- `Amorphvar`: a morphism applied to a variable. -/
structure MorphVar (C : LatticesMono) (H : Hint) (b : C.Obj) (l r : Allowance) where
  var : VarId C
  morph : C.Morph var.obj b l r
  hint : MorphHint C H var.obj b l r

namespace MorphVar

variable {b : C.Obj} {l r l₁ r₁ l₂ r₂ : Allowance}

def allowLeft (mv : MorphVar C H b allowed r) : MorphVar C H b l r :=
  ⟨mv.var, C.allowLeft mv.morph, mv.hint.allowLeft⟩

def allowRight (mv : MorphVar C H b l allowed) : MorphVar C H b l r :=
  ⟨mv.var, C.allowRight mv.morph, mv.hint.allowRight⟩

def disallowLeft (mv : MorphVar C H b l r) : MorphVar C H b disallowed r :=
  ⟨mv.var, C.disallowLeft mv.morph, mv.hint.disallowLeft⟩

def disallowRight (mv : MorphVar C H b l r) : MorphVar C H b l disallowed :=
  ⟨mv.var, C.disallowRight mv.morph, mv.hint.disallowRight⟩

/-- The comparison of map keys: the variable's id, then its morphism. -/
def compareKey (x : MorphVar C H b l₁ r₁) (y : MorphVar C H b l₂ r₂) : Ordering :=
  (compare x.var.id y.var.id).then (C.compareMorph x.morph y.morph)

end MorphVar

/-- `VarMap.t`, the values in the order of their keys. A value determines
its key (`get_key`), and all keys of one map have one destination object. -/
abbrev VarMap (C : LatticesMono) (H : Hint) (b : C.Obj) (l r : Allowance) :=
  List (MorphVar C H b l r)

namespace VarMap

variable {b : C.Obj} {l r : Allowance}

/-- `VarMap.add (get_key dst x) x`. -/
def add (x : MorphVar C H b l r) : VarMap C H b l r → VarMap C H b l r
  | [] => [x]
  | y :: ys =>
    match x.compareKey y with
    | .lt => x :: y :: ys
    | .eq => x :: ys
    | .gt => y :: add x ys

/-- `VarMap.mem (get_key dst x)`. -/
def mem (x : MorphVar C H b l r) (m : VarMap C H b l r) : Bool :=
  m.any fun y => x.compareKey y == .eq

/-- `union_morphvars`: where both maps have a key the first wins. -/
def union (m₀ m₁ : VarMap C H b l r) : VarMap C H b l r :=
  m₀.foldr add m₁

end VarMap

/-- The record `var`. -/
structure Var (C : LatticesMono) (H : Hint) (o : C.Obj) where
  /-- The variables directly below, each under a morphism. -/
  vlower : VarMap C H o allowed disallowed
  /-- The precise upper bound. -/
  upper : C.Elt o
  upperHint : CompHint C H o disallowed allowed
  /-- The conservative lower bound. -/
  lower : C.Elt o
  lowerHint : CompHint C H o allowed disallowed

/-- A variable that nothing constrains. -/
def Var.free (o : C.Obj) : Var C H o where
  vlower := []
  upper := ⊤
  upperHint := .max
  lower := ⊥
  lowerHint := .min

/-- The store: the records of all variables, and the counter and list the
source keeps in `vars`. A name that was never allocated maps to a free
variable, which no operation reads. -/
structure Heap (C : LatticesMono) (H : Hint) where
  next : Nat
  vars : List (VarId C)
  get : (v : VarId C) → Var C H v.obj

def Heap.empty : Heap C H := ⟨0, [], fun v => Var.free v.obj⟩

def Heap.set (h : Heap C H) (v : VarId C) (x : Var C H v.obj) : Heap C H :=
  { h with get := Function.update h.get v x }

/-- The type `change`. -/
inductive Change (C : LatticesMono) (H : Hint) where
  | cupper (v : VarId C) (upper : C.Elt v.obj) (hint : CompHint C H v.obj disallowed allowed)
  | clower (v : VarId C) (lower : C.Elt v.obj) (hint : CompHint C H v.obj allowed disallowed)
  | cvlower (v : VarId C) (vlower : VarMap C H v.obj allowed disallowed)

def undoChange (h : Heap C H) : Change C H → Heap C H
  | .cupper v upper hint => h.set v { h.get v with upper := upper, upperHint := hint }
  | .clower v lower hint => h.set v { h.get v with lower := lower, lowerHint := hint }
  | .cvlower v vlower => h.set v { h.get v with vlower := vlower }

def undoChanges (h : Heap C H) (l : List (Change C H)) : Heap C H := l.foldl undoChange h

/-- The store together with the argument `~log`. -/
structure State (C : LatticesMono) (H : Hint) where
  heap : Heap C H
  log : Option (List (Change C H))

namespace State

def get (s : State C H) (v : VarId C) : Var C H v.obj := s.heap.get v

/-- Log the old value and write the new one. -/
def write (s : State C H) (c : Change C H) (v : VarId C) (x : Var C H v.obj) : State C H :=
  ⟨s.heap.set v x, s.log.map (c :: ·)⟩

end State

/-! ## Modes -/

/-- The type `mode`. -/
inductive Mode (C : LatticesMono) (H : Hint) (o : C.Obj) : Allowance → Allowance → Type where
  | amode {l r l' r' : Allowance} (a : C.Elt o) (lowerHint : CompHint C H o l r')
      (upperHint : CompHint C H o l' r) : Mode C H o l r
  | amodevar {l r : Allowance} (mv : MorphVar C H o l r) : Mode C H o l r
  /-- `a join mv0 join mv1 join ..`. -/
  | amodejoin {l : Allowance} (a : C.Elt o) (hint : CompHint C H o l disallowed)
      (mvs : VarMap C H o l disallowed) : Mode C H o l disallowed
  /-- `a meet mv0 meet mv1 meet ..`. -/
  | amodemeet {r : Allowance} (a : C.Elt o) (hint : CompHint C H o disallowed r)
      (mvs : VarMap C H o disallowed r) : Mode C H o disallowed r

namespace Mode

variable {o : C.Obj} {l r : Allowance}

def allowLeft : Mode C H o allowed r → Mode C H o l r
  | amode c lo up => amode c lo.allowLeft up
  | amodevar mv => amodevar mv.allowLeft
  | amodejoin c h mvs => amodejoin c h.allowLeft (mvs.map MorphVar.allowLeft)

def allowRight : Mode C H o l allowed → Mode C H o l r
  | amode c lo up => amode c lo up.allowRight
  | amodevar mv => amodevar mv.allowRight
  | amodemeet c h mvs => amodemeet c h.allowRight (mvs.map MorphVar.allowRight)

def disallowLeft : Mode C H o l r → Mode C H o disallowed r
  | amode c lo up => amode c lo.disallowLeft up
  | amodevar mv => amodevar mv.disallowLeft
  | amodejoin c h mvs => amodejoin c h.disallowLeft (mvs.map MorphVar.disallowLeft)
  | amodemeet c h mvs => amodemeet c h (mvs.map MorphVar.disallowLeft)

def disallowRight : Mode C H o l r → Mode C H o l disallowed
  | amode c lo up => amode c lo up.disallowRight
  | amodevar mv => amodevar mv.disallowRight
  | amodejoin c h mvs => amodejoin c h (mvs.map MorphVar.disallowRight)
  | amodemeet c h mvs => amodemeet c h.disallowRight (mvs.map MorphVar.disallowRight)

end Mode

variable {o : C.Obj} {l r : Allowance}

def mlower (s : State C H) (mv : MorphVar C H o l r) : C.Elt o :=
  C.apply mv.morph (s.get mv.var).lower

def mlowerHint (s : State C H) (mv : MorphVar C H o allowed r) :
    CompHint C H o allowed disallowed :=
  .apply mv.hint.disallowRight (s.get mv.var).lowerHint.disallowRight

def mupper (s : State C H) (mv : MorphVar C H o l r) : C.Elt o :=
  C.apply mv.morph (s.get mv.var).upper

def mupperHint (s : State C H) (mv : MorphVar C H o l allowed) :
    CompHint C H o disallowed allowed :=
  .apply mv.hint.disallowLeft (s.get mv.var).upperHint.disallowLeft

variable {p : C.Obj}

def applyMorphvar (morph : C.Morph p o l r) (hint : MorphHint C H p o l r)
    (mv : MorphVar C H p l r) : MorphVar C H o l r :=
  ⟨mv.var, C.compose morph mv.morph, .compose hint mv.hint⟩

/-- `apply`, given the hint as an argument (`H.Morph.unknown` when the
caller has none). -/
def apply (hint : H.Morph l r) (morph : C.Morph p o l r) : Mode C H p l r → Mode C H o l r
  | .amode a lo up =>
    let hint : MorphHint C H p o l r := .base hint morph
    .amode (C.apply morph a) (.apply hint.disallowRight lo.disallowRight)
      (.apply hint.disallowLeft up.disallowLeft)
  | .amodevar mv => .amodevar (applyMorphvar morph (.base hint morph) mv)
  | .amodejoin a aHint vs =>
    let hint : MorphHint C H p o _ _ := .base hint morph
    .amodejoin (C.apply morph a) (.apply hint.disallowRight aHint)
      (vs.foldl (fun acc mv => VarMap.add (applyMorphvar morph hint.disallowRight mv) acc) [])
  | .amodemeet a aHint vs =>
    let hint : MorphHint C H p o _ _ := .base hint morph
    .amodemeet (C.apply morph a) (.apply hint.disallowLeft aHint)
      (vs.foldl (fun acc mv => VarMap.add (applyMorphvar morph hint.disallowLeft mv) acc) [])

def hintBiasedJoin (a : C.Elt o) (aHint : CompHint C H o l disallowed) (b : C.Elt o)
    (bHint : CompHint C H o l disallowed) : CompHint C H o l disallowed :=
  if b ≤ a then aHint else .branch .join aHint bHint

def hintJoin (a : C.Elt o) (aHint : CompHint C H o l disallowed) (b : C.Elt o)
    (bHint : CompHint C H o l disallowed) : CompHint C H o l disallowed :=
  if a ≤ b then bHint else hintBiasedJoin a aHint b bHint

def hintBiasedMeet (a : C.Elt o) (aHint : CompHint C H o disallowed r) (b : C.Elt o)
    (bHint : CompHint C H o disallowed r) : CompHint C H o disallowed r :=
  if b ≤ a then bHint else .branch .meet aHint bHint

def hintMeet (a : C.Elt o) (aHint : CompHint C H o disallowed r) (b : C.Elt o)
    (bHint : CompHint C H o disallowed r) : CompHint C H o disallowed r :=
  if a ≤ b then aHint else hintBiasedMeet a aHint b bHint

/-! ## Updating a variable -/

/-- The hint is chosen after the bound is written, so it compares with the
new bound. -/
def updateLower (s : State C H) (v : VarId C) (a : C.Elt v.obj)
    (aHint : CompHint C H v.obj allowed disallowed) : State C H :=
  let x := s.get v
  let lower := x.lower ⊔ a
  s.write (.clower v x.lower x.lowerHint) v
    { x with lower := lower, lowerHint := hintBiasedJoin a aHint lower x.lowerHint }

def updateUpper (s : State C H) (v : VarId C) (a : C.Elt v.obj)
    (aHint : CompHint C H v.obj disallowed allowed) : State C H :=
  let x := s.get v
  let upper := x.upper ⊓ a
  s.write (.cupper v x.upper x.upperHint) v
    { x with upper := upper, upperHint := hintBiasedMeet upper x.upperHint a aHint }

def setVlower (s : State C H) (v : VarId C) (vlower : VarMap C H v.obj allowed disallowed) :
    State C H :=
  s.write (.cvlower v (s.get v).vlower) v { s.get v with vlower := vlower }

/-- `if C.le obj v.upper v.lower then set_vlower ~log v VarMap.empty`. -/
def dropVlowerIfTight (s : State C H) (v : VarId C) : State C H :=
  if (s.get v).upper ≤ (s.get v).lower then setVlower s v [] else s

/-! ## Constraining a variable by a constant -/

/-- The error of a constraint whose left (right) side is given: the bound
found on the other side, with its hint. -/
abbrev RightError (C : LatticesMono) (H : Hint) (o : C.Obj) :=
  C.Elt o × CompHint C H o disallowed allowed

abbrev LeftError (C : LatticesMono) (H : Hint) (o : C.Obj) :=
  C.Elt o × CompHint C H o allowed disallowed

def submodeCv (s : State C H) (v : VarId C) (a' : C.Elt v.obj)
    (a'Hint : CompHint C H v.obj allowed disallowed) :
    Except (RightError C H v.obj) Unit × State C H :=
  if a' ≤ (s.get v).lower then (.ok (), s)
  else if ¬ a' ≤ (s.get v).upper then (.error ((s.get v).upper, (s.get v).upperHint), s)
  else (.ok (), dropVlowerIfTight (updateLower s v a' a'Hint) v)

/-- `submode_cmv`. The source takes `Result.get_ok` of the inner call; an
error there would raise, which is `none` here. -/
def submodeCmv (s : State C H) (pp : H.Pinpoint) (a : C.Elt o)
    (aHint : CompHint C H o allowed disallowed) (mv : MorphVar C H o l allowed) :
    Option (Except (RightError C H o) Unit × State C H) :=
  if a ≤ mlower s mv then some (.ok (), s)
  else if ¬ a ≤ mupper s mv then some (.error (mupper s mv, mupperHint s mv), s)
  else
    let f' := C.leftAdjoint mv.morph
    let f'Hint := (mv.hint.leftAdjoint pp).2
    match submodeCv s mv.var (C.apply f' a) (.apply f'Hint aHint) with
    | (.ok (), s) => some (.ok (), s)
    | (.error _, _) => none

/-- `find_error`: stops at the first error. -/
def findError {α ε : Type} (f : State C H → α → Option (Except ε Unit × State C H)) :
    State C H → List α → Option (Except ε Unit × State C H)
  | s, [] => some (.ok (), s)
  | s, x :: xs =>
    match f s x with
    | some (.ok (), s) => findError f s xs
    | some (.error e, s) => some (.error e, s)
    | none => none

/-- What `submode_vc` is to `submode_mvc`. -/
abbrev SubmodeVc (C : LatticesMono) (H : Hint) :=
  State C H → H.Pinpoint → (v : VarId C) → C.Elt v.obj → CompHint C H v.obj disallowed allowed →
    Option (Except (LeftError C H v.obj) Unit × State C H)

/-- `submode_mvc`, given `submode_vc`. -/
def submodeMvcWith (submodeVc : SubmodeVc C H) (s : State C H) (pp : H.Pinpoint)
    (mv : MorphVar C H o allowed r) (a : C.Elt o) (aHint : CompHint C H o disallowed allowed) :
    Option (Except (LeftError C H o) Unit × State C H) :=
  if mupper s mv ≤ a then some (.ok (), s)
  else if ¬ mlower s mv ≤ a then some (.error (mlower s mv, mlowerHint s mv), s)
  else
    let f' := C.rightAdjoint mv.morph
    let (srcPp, f'Hint) := mv.hint.rightAdjoint pp
    match submodeVc s srcPp mv.var (C.apply f' a) (.apply f'Hint aHint) with
    | some (.ok (), s) => some (.ok (), s)
    | some (.error (e, eHint), s) =>
      some (.error (C.apply mv.morph e, .apply mv.hint.disallowRight eHint), s)
    | none => none

/-- `update_lower` of a variable by the lower bound of one below it, as
`submode_vc` does after each successful call. -/
def raiseLower (s : State C H) (v : VarId C) (mu : MorphVar C H v.obj allowed disallowed) :
    State C H :=
  if ¬ mlower s mu ≤ (s.get v).lower then updateLower s v (mlower s mu) (mlowerHint s mu) else s

/-- The function that `submode_vc` runs on each variable below `v`. -/
def submodeBelow (submodeVc : SubmodeVc C H) (pp : H.Pinpoint) (v : VarId C) (a' : C.Elt v.obj)
    (a'Hint : CompHint C H v.obj disallowed allowed) (s : State C H)
    (mu : MorphVar C H v.obj allowed disallowed) :
    Option (Except (LeftError C H v.obj) Unit × State C H) :=
  match submodeMvcWith submodeVc s pp mu a' a'Hint with
  | some (.ok (), s) => some (.ok (), raiseLower s v mu)
  | some (.error e, s) => some (.error e, s)
  | none => none

/-- `submode_vc`. -/
def submodeVc : Nat → SubmodeVc C H
  | 0, _, _, _, _, _ => none
  | fuel + 1, s, pp, v, a', a'Hint =>
    if (s.get v).upper ≤ a' then some (.ok (), s)
    else if ¬ (s.get v).lower ≤ a' then some (.error ((s.get v).lower, (s.get v).lowerHint), s)
    else
      let s := updateUpper s v a' a'Hint
      match findError (submodeBelow (submodeVc fuel) pp v a' a'Hint) s (s.get v).vlower with
      | some (r, s) => some (r, dropVlowerIfTight s v)
      | none => none

/-- `submode_mvc`. -/
def submodeMvc (fuel : Nat) (s : State C H) (pp : H.Pinpoint) (mv : MorphVar C H o allowed r)
    (a : C.Elt o) (aHint : CompHint C H o disallowed allowed) :
    Option (Except (LeftError C H o) Unit × State C H) :=
  submodeMvcWith (submodeVc fuel) s pp mv a aHint

/-! ## Constraining a variable by a variable -/

/-- `eq_morphvar`. The source first tries physical equality, which holds
only of morphvars that the comparison below identifies too. -/
def eqMorphvar {l₀ r₀ l₁ r₁ : Allowance} (mv₀ : MorphVar C H o l₀ r₀)
    (mv₁ : MorphVar C H o l₁ r₁) : Bool :=
  if mv₀.var.id ≠ mv₁.var.id then false
  else (C.equalMorph mv₀.morph mv₁.morph).toBool

/-- The record `error_raw`. -/
structure ErrorRaw (C : LatticesMono) (H : Hint) (o : C.Obj) where
  left : C.Elt o
  leftHint : CompHint C H o allowed disallowed
  right : C.Elt o
  rightHint : CompHint C H o disallowed allowed

variable {l₀ r₀ l₁ r₁ : Allowance}

/-- The edge that `submode_mvmv` records below `u`. -/
def edge (pp : H.Pinpoint) (mv : MorphVar C H o allowed r₀) (mu : MorphVar C H o l₁ allowed) :
    MorphVar C H mu.var.obj allowed disallowed :=
  { var := mv.var
    morph := C.compose (C.leftAdjoint mu.morph) (C.disallowRight mv.morph)
    hint := .compose (mu.hint.leftAdjoint pp).2 mv.hint.disallowRight }

/-- `submode_mvmv`: `f v <= g u` becomes `f v <= g u.upper`, then
`f v.lower <= g u`, then an edge from `v` to `u`. The bound `g u.upper` is
read before the first of these runs. -/
def submodeMvmv (fuel : Nat) (s : State C H) (pp : H.Pinpoint) (mv : MorphVar C H o allowed r₀)
    (mu : MorphVar C H o l₁ allowed) : Option (Except (ErrorRaw C H o) Unit × State C H) :=
  if mupper s mv ≤ mlower s mu then some (.ok (), s)
  else if eqMorphvar mv mu then some (.ok (), s)
  else
    let muupper := mupper s mu
    let muupperHint := mupperHint s mu
    match submodeMvc fuel s pp mv muupper muupperHint with
    | none => none
    | some (.error (a, aHint), s) => some (.error ⟨a, aHint, muupper, muupperHint⟩, s)
    | some (.ok (), s) =>
      let mvlower := mlower s mv
      let mvlowerHint := mlowerHint s mv
      match submodeCmv s pp mvlower mvlowerHint mu with
      | none => none
      | some (.error (a, aHint), s) => some (.error ⟨mvlower, mvlowerHint, a, aHint⟩, s)
      | some (.ok (), s) =>
        let u := mu.var
        let x := edge pp mv mu
        if ¬ VarMap.mem x (s.get u).vlower then
          some (.ok (), setVlower s u (VarMap.add x (s.get u).vlower))
        else some (.ok (), s)

/-! ## `submode` -/

/-- One constraint between a constant or a morphvar and another. -/
inductive Atom (C : LatticesMono) (H : Hint) (o : C.Obj) where
  | cc (left : C.Elt o) (leftHint : CompHint C H o allowed disallowed)
      (right : C.Elt o) (rightHint : CompHint C H o disallowed allowed)
  | mvc {r : Allowance} (mv : MorphVar C H o allowed r)
      (right : C.Elt o) (rightHint : CompHint C H o disallowed allowed)
  | cmv {l : Allowance} (left : C.Elt o) (leftHint : CompHint C H o allowed disallowed)
      (mv : MorphVar C H o l allowed)
  | mvmv {r l : Allowance} (mv : MorphVar C H o allowed r) (mu : MorphVar C H o l allowed)

/-- The four local functions of `submode`, with errors as `error_raw`. -/
def runAtom (fuel : Nat) (pp : H.Pinpoint) (s : State C H) :
    Atom C H o → Option (Except (ErrorRaw C H o) Unit × State C H)
  | .cc left leftHint right rightHint =>
    if left ≤ right then some (.ok (), s)
    else some (.error ⟨left, leftHint, right, rightHint⟩, s)
  | .mvc mv right rightHint =>
    match submodeMvc fuel s pp mv right rightHint with
    | none => none
    | some (.ok (), s) => some (.ok (), s)
    | some (.error (left, leftHint), s) => some (.error ⟨left, leftHint, right, rightHint⟩, s)
  | .cmv left leftHint mv =>
    match submodeCmv s pp left leftHint mv with
    | none => none
    | some (.ok (), s) => some (.ok (), s)
    | some (.error (right, rightHint), s) => some (.error ⟨left, leftHint, right, rightHint⟩, s)
  | .mvmv mv mu => submodeMvmv fuel s pp mv mu

/-- The constraints that `submode a b` runs, in order. -/
def submodeAtoms {r l : Allowance} : Mode C H o allowed r → Mode C H o l allowed → List (Atom C H o)
  | .amode left lo _, .amode right _ up => [.cc left lo.disallowRight right up.disallowLeft]
  | .amodevar v, .amode right _ up => [.mvc v right up.disallowLeft]
  | .amode left lo _, .amodevar v => [.cmv left lo.disallowRight v]
  | .amodevar v, .amodevar u => [.mvmv v u]
  | .amode a lo _, .amodemeet b bHint mvs =>
    .cc a lo.disallowRight b bHint :: mvs.map fun mv => .cmv a lo.disallowRight mv
  | .amodevar mv, .amodemeet b bHint mvs =>
    .mvc mv b bHint :: mvs.map fun mv' => .mvmv mv mv'
  | .amodejoin a aHint mvs, .amode b _ up =>
    .cc a aHint b up.disallowLeft :: mvs.map fun mv' => .mvc mv' b up.disallowLeft
  | .amodejoin a aHint mvs, .amodevar mv =>
    .cmv a aHint mv :: mvs.map fun mv' => .mvmv mv' mv
  | .amodejoin a aHint mvs, .amodemeet b bHint mus =>
    .cc a aHint b bHint :: (mvs.map fun mv => .mvc mv b bHint)
      ++ (mus.map fun mu => .cmv a aHint mu)
      ++ mus.flatMap fun mu => mvs.map fun mv => .mvmv mv mu

/-- `submode`. The source chains its calls with `Result.bind` and
`find_error`, so each runs only when those before it succeeded. -/
def submode {r l : Allowance} (fuel : Nat) (s : State C H) (pp : H.Pinpoint)
    (a : Mode C H o allowed r) (b : Mode C H o l allowed) :
    Option (Except (ErrorRaw C H o) Unit × State C H) :=
  findError (runAtom fuel pp) s (submodeAtoms a b)

/-! ## Building modes -/

/-- The variable that `fresh` allocates next. -/
def freshId (h : Heap C H) (o : C.Obj) : VarId C := ⟨o, h.next⟩

/-- `fresh`: the store after allocating `freshId h o`. -/
def fresh (h : Heap C H) (o : C.Obj) (x : Var C H o) : Heap C H :=
  { h.set (freshId h o) x with next := h.next + 1, vars := freshId h o :: h.vars }

/-- `Amorphvar (v, C.id, Id)` on the variable that `fresh` allocates next. -/
def freshVar (h : Heap C H) (o : C.Obj) : MorphVar C H o l r := ⟨freshId h o, C.id, .id⟩

/-- `join`: the loop over the modes still to be joined. -/
def joinLoop (s : State C H) {r : Allowance} : C.Elt o → CompHint C H o allowed disallowed →
    VarMap C H o allowed disallowed → List (Mode C H o allowed r) →
    Mode C H o allowed disallowed
  | a, aHint, mvs, rest =>
    if ⊤ ≤ a then .amode a aHint (.max : CompHint C H o disallowed disallowed)
    else
      match rest with
      | [] => .amodejoin a aHint mvs
      | m :: xs =>
        match m.disallowRight with
        | .amode b lo _ => joinLoop s (a ⊔ b) (hintJoin a aHint b lo.disallowRight) mvs xs
        -- the lower bound of the variable joins the constant, to fail early
        | .amodevar mv =>
          joinLoop s (a ⊔ mlower s mv) (hintJoin a aHint (mlower s mv) (mlowerHint s mv))
            (VarMap.add mv mvs) xs
        | .amodejoin b bHint mvs' =>
          joinLoop s (a ⊔ b) (hintJoin a aHint b bHint) (VarMap.union mvs' mvs) xs

def join (s : State C H) {r : Allowance} (ms : List (Mode C H o allowed r)) :
    Mode C H o allowed disallowed :=
  joinLoop s ⊥ .min [] ms

/-- `meet`: the loop over the modes still to be met. -/
def meetLoop (s : State C H) {l : Allowance} : C.Elt o → CompHint C H o disallowed allowed →
    VarMap C H o disallowed allowed → List (Mode C H o l allowed) →
    Mode C H o disallowed allowed
  | a, aHint, mvs, rest =>
    if a ≤ ⊥ then .amode a (.min : CompHint C H o disallowed disallowed) aHint
    else
      match rest with
      | [] => .amodemeet a aHint mvs
      | m :: xs =>
        match m.disallowLeft with
        | .amode b _ up => meetLoop s (a ⊓ b) (hintMeet a aHint b up.disallowLeft) mvs xs
        -- the upper bound of the variable meets the constant, to fail early
        | .amodevar mv =>
          meetLoop s (a ⊓ mupper s mv) (hintMeet a aHint (mupper s mv) (mupperHint s mv))
            (VarMap.add mv mvs) xs
        | .amodemeet b bHint mvs' =>
          meetLoop s (a ⊓ b) (hintMeet a aHint b bHint) (VarMap.union mvs' mvs) xs

def meet (s : State C H) {l : Allowance} (ms : List (Mode C H o l allowed)) :
    Mode C H o disallowed allowed :=
  meetLoop s ⊤ .max [] ms

def newvar (h : Heap C H) (o : C.Obj) : Mode C H o l r × Heap C H :=
  (.amodevar (freshVar h o), fresh h o (Var.free o))

/-- `newvar_above`. -/
def newvarAbove (h : Heap C H) {r' : Allowance} (m : Mode C H o allowed r') :
    (Mode C H o l r × Bool) × Heap C H :=
  match m.disallowRight with
  | .amode a lo _ =>
    if ⊤ ≤ a then ((.amode a lo.allowLeft (.max : CompHint C H o disallowed r), false), h)
    else
      let x := { Var.free o with lower := a, lowerHint := lo.disallowRight }
      ((.amodevar (freshVar h o), true), fresh h o x)
  | .amodevar mv =>
    let s : State C H := ⟨h, none⟩
    let x := { Var.free o with lower := mlower s mv, lowerHint := mlowerHint s mv, vlower := [mv] }
    ((.amodevar (freshVar h o), true), fresh h o x)
  | .amodejoin a aHint mvs =>
    let x := { Var.free o with lower := a, lowerHint := aHint, vlower := mvs }
    ((.amodevar (freshVar h o), true), fresh h o x)

/-- `Result.get_ok`: an error would raise, which is `none`. -/
def getOk {ε : Type} : Option (Except ε Unit × State C H) → Option (State C H)
  | some (.ok (), s) => some s
  | _ => none

/-- `VarMap.iter` of `submode_mvmv mu` over `mvs`. -/
def submodeMvmvIter (fuel : Nat) (mu : MorphVar C H o allowed r) :
    State C H → VarMap C H o l allowed → Option (State C H)
  | s, [] => some s
  | s, mv :: mvs =>
    match getOk (submodeMvmv fuel s H.pinpointUnknown mu mv) with
    | some s => submodeMvmvIter fuel mu s mvs
    | none => none

/-- `newvar_below`. -/
def newvarBelow (fuel : Nat) (h : Heap C H) {l' : Allowance} (m : Mode C H o l' allowed) :
    Option ((Mode C H o l r × Bool) × Heap C H) :=
  match m.disallowLeft with
  | .amode a _ up =>
    if a ≤ ⊥ then some ((.amode a (.min : CompHint C H o l disallowed) up.allowRight, false), h)
    else
      let x := { Var.free o with upper := a, upperHint := up.disallowLeft }
      some ((.amodevar (freshVar h o), true), fresh h o x)
  | .amodevar mv =>
    let mu : MorphVar C H o allowed r := freshVar h o
    let s : State C H := ⟨fresh h o (Var.free o), none⟩
    match getOk (submodeMvmv fuel s H.pinpointUnknown mu mv) with
    | some s => some (((Mode.amodevar mu).allowLeft, true), s.heap)
    | none => none
  | .amodemeet a aHint mvs =>
    let mu : MorphVar C H o allowed r := freshVar h o
    let s : State C H := ⟨fresh h o (Var.free o), none⟩
    match getOk (submodeMvc fuel s H.pinpointUnknown mu a aHint) with
    | some s =>
      match submodeMvmvIter fuel mu s mvs with
      | some s => some (((Mode.amodevar mu).allowLeft, true), s.heap)
      | none => none
    | none => none

end Solver

end Oxcaml.Typing
