/-
Oxcaml.Typing.Lattices — the mode lattices of `typing/mode.ml`, module
`Lattices`.

Every mode axis is a small lattice. The source builds each of them with
one of two functors:

  * `Total`    a chain, ordered by an injection `ord` into the integers;
  * `Diamond`  the four-element lattice, computed with bit operations on
               the representation of the constructors.

The product lattices `Monadic` and `Comonadic_with` are componentwise.
The monadic fragment is flipped (`Opposite`) before it is handed to the
solver, which only knows monotone morphisms.

The module types `Heyting` and `CoHeyting` are records of operations
here, and a functor is a function between such records, so each lattice
below reads as the `struct` it is translated from. The fourteen objects
the solver sees are the type `Obj`. In the source an object is a GADT
indexed by its carrier. No two objects share a carrier, so indexing by
the object and computing the carrier (`Obj.El`) says the same.
-/
import Mathlib.Order.Heyting.Basic

set_option linter.all false

namespace Oxcaml.Typing

/-! ## Signatures -/

/-- The module type `Heyting`. `imply c` is the right adjoint of `meet c`. -/
structure Heyting (α : Type) where
  min : α
  max : α
  le : α → α → Bool
  join : α → α → α
  meet : α → α → α
  imply : α → α → α

/-- The module type `CoHeyting`. `subtract · c` is the left adjoint of
`join c`. -/
structure CoHeyting (α : Type) where
  min : α
  max : α
  le : α → α → Bool
  join : α → α → α
  meet : α → α → α
  subtract : α → α → α

/-- The functor `Opposite`: it turns a lattice upside down, so that the
co-implication of the original becomes the implication of the result. -/
def opposite {α : Type} (L : CoHeyting α) : Heyting α where
  min := L.max
  max := L.min
  le a b := L.le b a
  join := L.meet
  meet := L.join
  imply a b := L.subtract b a

/-! ## The functor `Total` -/

/-- The argument of the functor `Total`. -/
structure Total (α : Type) where
  min : α
  max : α
  ord : α → Nat

namespace Total

variable {α : Type} (L : Total α)

def le (a b : α) : Bool := decide (L.ord a ≤ L.ord b)

def join (a b : α) : α := if L.ord a > L.ord b then a else b

def meet (a b : α) : α := if L.ord a < L.ord b then a else b

def subtract (a c : α) : α := if L.le a c then L.min else a

def imply (c b : α) : α := if L.le c b then L.max else b

/-- `Total (L)` seen through the signature `Heyting`. -/
def heyting : Heyting α where
  min := L.min
  max := L.max
  le := L.le
  join := L.join
  meet := L.meet
  imply := L.imply

/-- `Total (L)` seen through the signature `CoHeyting`. -/
def coHeyting : CoHeyting α where
  min := L.min
  max := L.max
  le := L.le
  join := L.join
  meet := L.meet
  subtract := L.subtract

end Total

/-! ## The functor `Diamond` -/

/-- The argument of the functor `Diamond`: an enumeration with four
constructors in the order `min`, `fst`, `snd`, `max`. -/
structure Diamond (α : Type) where
  min : α
  fst : α
  snd : α
  max : α
  /-- `l_to_int`, the representation of a constructor as an OCaml integer. -/
  toInt : α → BitVec 63

namespace Diamond

variable {α : Type} (L : Diamond α)

/-- `l_of_int`. The source uses `%identity`, and only on the integers 0
to 3. -/
def ofInt (n : BitVec 63) : α :=
  if n = 0#63 then L.min
  else if n = 1#63 then L.fst
  else if n = 2#63 then L.snd
  else L.max

def mask : BitVec 63 := 3#63

def join (a b : α) : α := L.ofInt (L.toInt a ||| L.toInt b)

def meet (a b : α) : α := L.ofInt (L.toInt a &&& L.toInt b)

/-- The source compares `meet a b` with `a` by polymorphic equality, which
on immediate values is the equality of their representations. -/
def le (a b : α) : Bool := L.toInt (L.meet a b) == L.toInt a

def subtract (a c : α) : α := L.ofInt (L.toInt a &&& ~~~ L.toInt c)

def imply (c b : α) : α := L.ofInt ((~~~ L.toInt c ||| L.toInt b) &&& mask)

/-- `Diamond (L)` seen through the signature `Heyting`. -/
def heyting : Heyting α where
  min := L.min
  max := L.max
  le := L.le
  join := L.join
  meet := L.meet
  imply := L.imply

/-- `Diamond (L)` seen through the signature `CoHeyting`. -/
def coHeyting : CoHeyting α where
  min := L.min
  max := L.max
  le := L.le
  join := L.join
  meet := L.meet
  subtract := L.subtract

end Diamond

/-! ## The axes -/

inductive Locality where
  | global
  | local
  deriving DecidableEq, Repr

def locality : Total Locality where
  min := .global
  max := .local
  ord
    | .global => 0
    | .local => 1

inductive Regionality where
  | global
  | regional
  | local
  deriving DecidableEq, Repr

def regionality : Total Regionality where
  min := .global
  max := .local
  ord
    | .global => 0
    | .regional => 1
    | .local => 2

inductive Uniqueness where
  | unique
  | aliased
  deriving DecidableEq, Repr

def uniqueness : Total Uniqueness where
  min := .unique
  max := .aliased
  ord
    | .unique => 0
    | .aliased => 1

inductive Linearity where
  | many
  | once
  deriving DecidableEq, Repr

def linearity : Total Linearity where
  min := .many
  max := .once
  ord
    | .many => 0
    | .once => 1

inductive Portability where
  | portable
  | shareable
  | corruptible
  | nonportable
  deriving DecidableEq, Repr

def portability : Diamond Portability where
  min := .portable
  fst := .shareable
  snd := .corruptible
  max := .nonportable
  toInt
    | .portable => 0
    | .shareable => 1
    | .corruptible => 2
    | .nonportable => 3

inductive Contention where
  | uncontended
  | corrupted
  | shared
  | contended
  deriving DecidableEq, Repr

def contention : Diamond Contention where
  min := .uncontended
  fst := .corrupted
  snd := .shared
  max := .contended
  toInt
    | .uncontended => 0
    | .corrupted => 1
    | .shared => 2
    | .contended => 3

inductive Forkable where
  | forkable
  | unforkable
  deriving DecidableEq, Repr

def forkable : Total Forkable where
  min := .forkable
  max := .unforkable
  ord
    | .forkable => 0
    | .unforkable => 1

inductive Yielding where
  | unyielding
  | yielding
  deriving DecidableEq, Repr

def yielding : Total Yielding where
  min := .unyielding
  max := .yielding
  ord
    | .unyielding => 0
    | .yielding => 1

inductive Statefulness where
  | stateless
  | writing
  | reading
  | stateful
  deriving DecidableEq, Repr

def statefulness : Diamond Statefulness where
  min := .stateless
  fst := .writing
  snd := .reading
  max := .stateful
  toInt
    | .stateless => 0
    | .writing => 1
    | .reading => 2
    | .stateful => 3

inductive Visibility where
  | readWrite
  | read
  | write
  | immutable
  deriving DecidableEq, Repr

def visibility : Diamond Visibility where
  min := .readWrite
  fst := .read
  snd := .write
  max := .immutable
  toInt
    | .readWrite => 0
    | .read => 1
    | .write => 2
    | .immutable => 3

inductive Staticity where
  | static
  | dynamic
  deriving DecidableEq, Repr

def staticity : Total Staticity where
  min := .static
  max := .dynamic
  ord
    | .static => 0
    | .dynamic => 1

/-! ## The products -/

/-- The record type `monadic`. -/
structure Monadic where
  uniqueness : Uniqueness
  contention : Contention
  visibility : Visibility
  staticity : Staticity
  deriving DecidableEq, Repr

def monadic : CoHeyting Monadic where
  min := ⟨uniqueness.min, contention.min, visibility.min, staticity.min⟩
  max := ⟨uniqueness.max, contention.max, visibility.max, staticity.max⟩
  le m1 m2 :=
    uniqueness.le m1.uniqueness m2.uniqueness
    && contention.le m1.contention m2.contention
    && visibility.le m1.visibility m2.visibility
    && staticity.le m1.staticity m2.staticity
  join m1 m2 :=
    { uniqueness := uniqueness.join m1.uniqueness m2.uniqueness
      contention := contention.join m1.contention m2.contention
      visibility := visibility.join m1.visibility m2.visibility
      staticity := staticity.join m1.staticity m2.staticity }
  meet m1 m2 :=
    { uniqueness := uniqueness.meet m1.uniqueness m2.uniqueness
      contention := contention.meet m1.contention m2.contention
      visibility := visibility.meet m1.visibility m2.visibility
      staticity := staticity.meet m1.staticity m2.staticity }
  subtract m1 m2 :=
    { uniqueness := uniqueness.subtract m1.uniqueness m2.uniqueness
      contention := contention.subtract m1.contention m2.contention
      visibility := visibility.subtract m1.visibility m2.visibility
      staticity := staticity.subtract m1.staticity m2.staticity }

/-- The record type `'areality comonadic_with`. -/
structure ComonadicWith (α : Type) where
  areality : α
  linearity : Linearity
  portability : Portability
  forkable : Forkable
  yielding : Yielding
  statefulness : Statefulness
  deriving DecidableEq, Repr

/-- The functor `Comonadic_with`. -/
def comonadicWith {α : Type} (areality : Heyting α) : Heyting (ComonadicWith α) where
  min := ⟨areality.min, linearity.min, portability.min, forkable.min, yielding.min,
    statefulness.min⟩
  max := ⟨areality.max, linearity.max, portability.max, forkable.max, yielding.max,
    statefulness.max⟩
  le m1 m2 :=
    areality.le m1.areality m2.areality
    && linearity.le m1.linearity m2.linearity
    && portability.le m1.portability m2.portability
    && forkable.le m1.forkable m2.forkable
    && yielding.le m1.yielding m2.yielding
    && statefulness.le m1.statefulness m2.statefulness
  join m1 m2 :=
    { areality := areality.join m1.areality m2.areality
      linearity := linearity.join m1.linearity m2.linearity
      portability := portability.join m1.portability m2.portability
      forkable := forkable.join m1.forkable m2.forkable
      yielding := yielding.join m1.yielding m2.yielding
      statefulness := statefulness.join m1.statefulness m2.statefulness }
  meet m1 m2 :=
    { areality := areality.meet m1.areality m2.areality
      linearity := linearity.meet m1.linearity m2.linearity
      portability := portability.meet m1.portability m2.portability
      forkable := forkable.meet m1.forkable m2.forkable
      yielding := yielding.meet m1.yielding m2.yielding
      statefulness := statefulness.meet m1.statefulness m2.statefulness }
  imply m1 m2 :=
    { areality := areality.imply m1.areality m2.areality
      linearity := linearity.imply m1.linearity m2.linearity
      portability := portability.imply m1.portability m2.portability
      forkable := forkable.imply m1.forkable m2.forkable
      yielding := yielding.imply m1.yielding m2.yielding
      statefulness := statefulness.imply m1.statefulness m2.statefulness }

/-! ## Objects -/

/-- The type `'a areality`: which lattice stands in the areality axis. -/
inductive Areality where
  | locality
  | regionality
  deriving DecidableEq, Repr

/-- The carrier of an areality. -/
def Areality.El : Areality → Type
  | .locality => Locality
  | .regionality => Regionality

def Areality.heyting : (a : Areality) → Heyting a.El
  | .locality => Typing.locality.heyting
  | .regionality => Typing.regionality.heyting

/-- The type `'a obj`. `Locality` and `Regionality` are `areality a`, and
`Comonadic_with_locality` and `Comonadic_with_regionality` are
`comonadicWith a`. -/
inductive Obj where
  | areality (a : Areality)
  | uniquenessOp
  | linearity
  | portability
  | forkable
  | yielding
  | statefulness
  | contentionOp
  | visibilityOp
  | staticityOp
  | monadicOp
  | comonadicWith (a : Areality)
  deriving DecidableEq, Repr

namespace Obj

/-- The carrier of an object. -/
def El : Obj → Type
  | areality a => a.El
  | uniquenessOp => Uniqueness
  | linearity => Linearity
  | portability => Portability
  | forkable => Forkable
  | yielding => Yielding
  | statefulness => Statefulness
  | contentionOp => Contention
  | visibilityOp => Visibility
  | staticityOp => Staticity
  | monadicOp => Monadic
  | comonadicWith a => ComonadicWith a.El

/-- The lattice of an object. The monadic axes are flipped. -/
def heyting : (o : Obj) → Heyting o.El
  | areality a => a.heyting
  | uniquenessOp => opposite uniqueness.coHeyting
  | linearity => Typing.linearity.heyting
  | portability => Typing.portability.heyting
  | forkable => Typing.forkable.heyting
  | yielding => Typing.yielding.heyting
  | statefulness => Typing.statefulness.heyting
  | contentionOp => opposite contention.coHeyting
  | visibilityOp => opposite visibility.coHeyting
  | staticityOp => opposite staticity.coHeyting
  | monadicOp => opposite monadic
  | comonadicWith a => Typing.comonadicWith a.heyting

/-! The dispatching functions `min`, `max`, `le`, `join`, `meet` and `imply`
of `Lattices`. -/

def min (o : Obj) : o.El := o.heyting.min

def max (o : Obj) : o.El := o.heyting.max

def le (o : Obj) (a b : o.El) : Bool := o.heyting.le a b

def join (o : Obj) (a b : o.El) : o.El := o.heyting.join a b

def meet (o : Obj) (a b : o.El) : o.El := o.heyting.meet a b

def imply (o : Obj) (a b : o.El) : o.El := o.heyting.imply a b

/-- An arbitrary element of an object. -/
def arbitrary (o : Obj) : o.El := o.min

end Obj

end Oxcaml.Typing
