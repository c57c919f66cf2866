/-
Oxcaml.Typing.Morphs — the mode morphisms of `typing/mode.ml`, module
`Lattices_mono`.

A mode morphism goes from one object to another and is syntax: the
solver composes, compares and takes adjoints of morphisms without ever
tabulating them. There are four layers, each a GADT in the source and an
indexed family here:

  * `LocalityMorph`  between the two arealities (`Locality_morph`);
  * `CoreMorph`      between axes and between products (`Core_morph`);
  * `SimpleMorph`    core morphisms with a constant met or implied
                     (`Simple_morph`);
  * `Morph`          all of them (`morph`).

The last two indices say on which side of a constraint a morphism may
stand: `l = allowed` on the left (it has a right adjoint) and
`r = allowed` on the right (it has a left adjoint).

The source passes the destination object as an argument and recomputes
the other objects with `src` and `proj_obj` whenever it needs one. Here
the objects are the indices of the family, so `dst` is an explicit
argument and the others are read off the type; `Morph.src_eq` says that
`src` computes the index. Functions that return a proof of equality (`Misc.is_eq`)
return an `IsEq`.
-/
import Oxcaml.Typing.Lattices

set_option linter.all false

namespace Oxcaml.Typing

/-- Whether a morphism may stand on one side of a constraint. -/
inductive Allowance where
  | allowed
  | disallowed
  deriving DecidableEq, Repr

/-- `Misc.is_eq`: an equality test that refines the types it compares. -/
inductive IsEq {α : Type} : α → α → Type where
  | isEq {a : α} : IsEq a a
  | isNotEq {a b : α} : IsEq a b

/-- The answer of the test without the equality it carries. -/
def IsEq.toBool {α : Type} {a b : α} : IsEq a b → Bool
  | isEq => true
  | isNotEq => false

/-! ## Axes -/

/-- `Axis.t`: the projections of a product object. -/
inductive Axis : Obj → Obj → Type where
  | areality {a : Areality} : Axis (.comonadicWith a) (.areality a)
  | forkable {a : Areality} : Axis (.comonadicWith a) .forkable
  | yielding {a : Areality} : Axis (.comonadicWith a) .yielding
  | linearity {a : Areality} : Axis (.comonadicWith a) .linearity
  | statefulness {a : Areality} : Axis (.comonadicWith a) .statefulness
  | portability {a : Areality} : Axis (.comonadicWith a) .portability
  | uniqueness : Axis .monadicOp .uniquenessOp
  | visibility : Axis .monadicOp .visibilityOp
  | contention : Axis .monadicOp .contentionOp
  | staticity : Axis .monadicOp .staticityOp

namespace Axis

variable {t p q : Obj}

def equal : Axis t p → Axis t q → IsEq p q
  | areality, areality => .isEq
  | linearity, linearity => .isEq
  | portability, portability => .isEq
  | uniqueness, uniqueness => .isEq
  | contention, contention => .isEq
  | forkable, forkable => .isEq
  | yielding, yielding => .isEq
  | statefulness, statefulness => .isEq
  | visibility, visibility => .isEq
  | staticity, staticity => .isEq
  | _, _ => .isNotEq

def proj : Axis t p → t.El → p.El
  | areality, x => ComonadicWith.areality x
  | linearity, x => ComonadicWith.linearity x
  | portability, x => ComonadicWith.portability x
  | forkable, x => ComonadicWith.forkable x
  | yielding, x => ComonadicWith.yielding x
  | statefulness, x => ComonadicWith.statefulness x
  | uniqueness, x => Monadic.uniqueness x
  | contention, x => Monadic.contention x
  | visibility, x => Monadic.visibility x
  | staticity, x => Monadic.staticity x

def set : Axis t p → p.El → t.El → t.El
  | @areality a, r, x => { (x : ComonadicWith a.El) with areality := r }
  | @linearity a, r, x => { (x : ComonadicWith a.El) with linearity := r }
  | @portability a, r, x => { (x : ComonadicWith a.El) with portability := r }
  | @forkable a, r, x => { (x : ComonadicWith a.El) with forkable := r }
  | @yielding a, r, x => { (x : ComonadicWith a.El) with yielding := r }
  | @statefulness a, r, x => { (x : ComonadicWith a.El) with statefulness := r }
  | uniqueness, r, x => { (x : Monadic) with uniqueness := r }
  | contention, r, x => { (x : Monadic) with contention := r }
  | visibility, r, x => { (x : Monadic) with visibility := r }
  | staticity, r, x => { (x : Monadic) with staticity := r }

end Axis

/-- The product whose component along `ax` is `a` and whose others are
minimal. -/
def minWith {p : Obj} (dst : Obj) (ax : Axis dst p) (a : p.El) : dst.El := ax.set a dst.min

/-- The product whose component along `ax` is `a` and whose others are
maximal. -/
def maxWith {p : Obj} (dst : Obj) (ax : Axis dst p) (a : p.El) : dst.El := ax.set a dst.max

/-! ## Locality morphisms -/

/-- `Locality_morph.t`: a chain of adjunctions between the arealities. -/
inductive LocalityMorph : Areality → Areality → Allowance → Allowance → Type where
  /-- Maps local to regional, global to global. -/
  | localToRegional {l : Allowance} : LocalityMorph .locality .regionality l .disallowed
  /-- Maps regional to local, identity otherwise. -/
  | regionalToLocal {l r : Allowance} : LocalityMorph .regionality .locality l r
  /-- Injects locality into regionality. -/
  | localityAsRegionality {l r : Allowance} : LocalityMorph .locality .regionality l r
  /-- Maps regional to global, identity otherwise. -/
  | regionalToGlobal {r : Allowance} : LocalityMorph .regionality .locality .disallowed r
  | localToRegionalRegionality {l : Allowance} :
      LocalityMorph .regionality .regionality l .disallowed
  | regionalToLocalRegionality {l r : Allowance} : LocalityMorph .regionality .regionality l r
  | regionalToGlobalRegionality {r : Allowance} :
      LocalityMorph .regionality .regionality .disallowed r

namespace LocalityMorph

def localToRegionalFun : Locality → Regionality
  | .global => .global
  | .local => .regional

def regionalToLocalFun : Regionality → Locality
  | .global => .global
  | .regional => .local
  | .local => .local

def localityAsRegionalityFun : Locality → Regionality
  | .global => .global
  | .local => .local

def regionalToGlobalFun : Regionality → Locality
  | .global => .global
  | .regional => .global
  | .local => .local

def localToRegionalRegionalityFun : Regionality → Regionality
  | .global => .global
  | .regional => .regional
  | .local => .regional

def regionalToLocalRegionalityFun : Regionality → Regionality
  | .global => .global
  | .regional => .local
  | .local => .local

def regionalToGlobalRegionalityFun : Regionality → Regionality
  | .global => .global
  | .regional => .global
  | .local => .local

variable {a b c : Areality} {l r : Allowance}

/-- The areality a morphism starts from. The source has `src_restricted`
and `src_full`, which wrap this areality in `areality` and in
`comonadicWith`. -/
def src : LocalityMorph a b l r → Areality
  | localToRegional => .locality
  | regionalToLocal => .regionality
  | localityAsRegionality => .locality
  | regionalToGlobal => .regionality
  | localToRegionalRegionality => .regionality
  | regionalToLocalRegionality => .regionality
  | regionalToGlobalRegionality => .regionality

def apply : LocalityMorph a b l r → a.El → b.El
  | localToRegional, x => localToRegionalFun x
  | regionalToLocal, x => regionalToLocalFun x
  | localityAsRegionality, x => localityAsRegionalityFun x
  | regionalToGlobal, x => regionalToGlobalFun x
  | localToRegionalRegionality, x => localToRegionalRegionalityFun x
  | regionalToLocalRegionality, x => regionalToLocalRegionalityFun x
  | regionalToGlobalRegionality, x => regionalToGlobalRegionalityFun x

def rightAdjoint : LocalityMorph a b .allowed r → LocalityMorph b a .disallowed .allowed
  | localToRegional => regionalToLocal
  | regionalToLocal => localityAsRegionality
  | localityAsRegionality => regionalToGlobal
  | localToRegionalRegionality => regionalToLocalRegionality
  | regionalToLocalRegionality => regionalToGlobalRegionality

def leftAdjoint : LocalityMorph a b l .allowed → LocalityMorph b a .allowed .disallowed
  | regionalToLocal => localToRegional
  | localityAsRegionality => regionalToLocal
  | regionalToGlobal => localityAsRegionality
  | regionalToLocalRegionality => localToRegionalRegionality
  | regionalToGlobalRegionality => regionalToLocalRegionality

def allowLeft : LocalityMorph a b .allowed r → LocalityMorph a b l r
  | localToRegional => localToRegional
  | localityAsRegionality => localityAsRegionality
  | regionalToLocal => regionalToLocal
  | localToRegionalRegionality => localToRegionalRegionality
  | regionalToLocalRegionality => regionalToLocalRegionality

def allowRight : LocalityMorph a b l .allowed → LocalityMorph a b l r
  | regionalToLocal => regionalToLocal
  | localityAsRegionality => localityAsRegionality
  | regionalToGlobal => regionalToGlobal
  | regionalToLocalRegionality => regionalToLocalRegionality
  | regionalToGlobalRegionality => regionalToGlobalRegionality

def disallowLeft : LocalityMorph a b l r → LocalityMorph a b .disallowed r
  | localToRegional => localToRegional
  | regionalToLocal => regionalToLocal
  | localityAsRegionality => localityAsRegionality
  | regionalToGlobal => regionalToGlobal
  | localToRegionalRegionality => localToRegionalRegionality
  | regionalToLocalRegionality => regionalToLocalRegionality
  | regionalToGlobalRegionality => regionalToGlobalRegionality

def disallowRight : LocalityMorph a b l r → LocalityMorph a b l .disallowed
  | localToRegional => localToRegional
  | regionalToLocal => regionalToLocal
  | localityAsRegionality => localityAsRegionality
  | regionalToGlobal => regionalToGlobal
  | localToRegionalRegionality => localToRegionalRegionality
  | regionalToLocalRegionality => regionalToLocalRegionality
  | regionalToGlobalRegionality => regionalToGlobalRegionality

inductive MaybeAllowedRight (a b : Areality) (l : Allowance) : Allowance → Type where
  | allowedRight {r : Allowance} (m : LocalityMorph a b l .allowed) : MaybeAllowedRight a b l r
  | notAllowedRight : MaybeAllowedRight a b l .disallowed

def maybeAllowedRight : LocalityMorph a b l r → MaybeAllowedRight a b l r
  | regionalToLocal => .allowedRight regionalToLocal
  | localityAsRegionality => .allowedRight localityAsRegionality
  | regionalToGlobal => .allowedRight regionalToGlobal
  | regionalToLocalRegionality => .allowedRight regionalToLocalRegionality
  | regionalToGlobalRegionality => .allowedRight regionalToGlobalRegionality
  | localToRegional => .notAllowedRight
  | localToRegionalRegionality => .notAllowedRight

inductive MaybeAllowedLeft (a b : Areality) : Allowance → Allowance → Type where
  | allowedLeft {l r : Allowance} (m : LocalityMorph a b .allowed r) : MaybeAllowedLeft a b l r
  | notAllowedLeft {r : Allowance} : MaybeAllowedLeft a b .disallowed r

def maybeAllowedLeft : LocalityMorph a b l r → MaybeAllowedLeft a b l r
  | localToRegional => .allowedLeft localToRegional
  | regionalToLocal => .allowedLeft regionalToLocal
  | localityAsRegionality => .allowedLeft localityAsRegionality
  | localToRegionalRegionality => .allowedLeft localToRegionalRegionality
  | regionalToLocalRegionality => .allowedLeft regionalToLocalRegionality
  | regionalToGlobal => .notAllowedLeft
  | regionalToGlobalRegionality => .notAllowedLeft

inductive ComposeResult : Areality → Areality → Allowance → Allowance → Type where
  | id {a : Areality} {l r : Allowance} : ComposeResult a a l r
  | morph {a b : Areality} {l r : Allowance} (m : LocalityMorph a b l r) : ComposeResult a b l r
  | disallowed {a b : Areality} : ComposeResult a b .disallowed .disallowed

def compose : LocalityMorph b c l r → LocalityMorph a b l r → ComposeResult a c l r
  | localToRegional, regionalToLocal => .morph localToRegionalRegionality
  | regionalToLocal, localToRegional => .id
  | regionalToLocal, localityAsRegionality => .id
  | regionalToLocal, localToRegionalRegionality => .morph regionalToLocal
  | regionalToLocal, regionalToLocalRegionality => .morph regionalToLocal
  | regionalToLocal, regionalToGlobalRegionality => .morph regionalToGlobal
  | localityAsRegionality, regionalToLocal => .morph regionalToLocalRegionality
  | localityAsRegionality, regionalToGlobal => .morph regionalToGlobalRegionality
  | regionalToGlobal, localityAsRegionality => .id
  | regionalToGlobal, regionalToLocalRegionality => .morph regionalToLocal
  | regionalToGlobal, regionalToGlobalRegionality => .morph regionalToGlobal
  | localToRegionalRegionality, localToRegional => .morph localToRegional
  | localToRegionalRegionality, localityAsRegionality => .morph localToRegional
  | localToRegionalRegionality, localToRegionalRegionality => .morph localToRegionalRegionality
  | localToRegionalRegionality, regionalToLocalRegionality => .morph localToRegionalRegionality
  | regionalToLocalRegionality, localToRegional => .morph localityAsRegionality
  | regionalToLocalRegionality, localityAsRegionality => .morph localityAsRegionality
  | regionalToLocalRegionality, localToRegionalRegionality => .morph regionalToLocalRegionality
  | regionalToLocalRegionality, regionalToLocalRegionality => .morph regionalToLocalRegionality
  | regionalToLocalRegionality, regionalToGlobalRegionality => .morph regionalToGlobalRegionality
  | regionalToGlobalRegionality, localityAsRegionality => .morph localityAsRegionality
  | regionalToGlobalRegionality, regionalToLocalRegionality => .morph regionalToLocalRegionality
  | regionalToGlobalRegionality, regionalToGlobalRegionality => .morph regionalToGlobalRegionality
  -- operations that cannot appear on the same side
  | localToRegional, regionalToGlobal => .disallowed
  | regionalToGlobal, localToRegional => .disallowed
  | regionalToGlobal, localToRegionalRegionality => .disallowed
  | localToRegionalRegionality, regionalToGlobalRegionality => .disallowed
  | regionalToGlobalRegionality, localToRegional => .disallowed
  | regionalToGlobalRegionality, localToRegionalRegionality => .disallowed

/-- The morphism between arealities closest to the identity. -/
def idR2l : (src dst : Areality) → ComposeResult src dst l r
  | .regionality, .locality => .morph regionalToLocal
  | .locality, .regionality => .morph localityAsRegionality
  | .regionality, .regionality => .id
  | .locality, .locality => .id

end LocalityMorph

/-! ## Core morphisms -/

/-- `Core_morph.t`. -/
inductive CoreMorph : Obj → Obj → Allowance → Allowance → Type where
  | localityRestricted {a b : Areality} {l r : Allowance} (m : LocalityMorph a b l r) :
      CoreMorph (.areality a) (.areality b) l r
  | localityFull {a b : Areality} {l r : Allowance} (m : LocalityMorph a b l r) :
      CoreMorph (.comonadicWith a) (.comonadicWith b) l r
  | uniquenessOpToLinearity {l r : Allowance} : CoreMorph .uniquenessOp .linearity l r
  | linearityToUniquenessOp {l r : Allowance} : CoreMorph .linearity .uniquenessOp l r
  | contentionOpToPortability {l r : Allowance} : CoreMorph .contentionOp .portability l r
  | portabilityToContentionOp {l r : Allowance} : CoreMorph .portability .contentionOp l r
  | visibilityOpToStatefulness {l r : Allowance} : CoreMorph .visibilityOp .statefulness l r
  | statefulnessToVisibilityOp {l r : Allowance} : CoreMorph .statefulness .visibilityOp l r
  /-- Dualizes the monadic fragment to the comonadic fragment; the areality
  is set to min. -/
  | monadicOpToComonadicMin {a : Areality} {l : Allowance} :
      CoreMorph .monadicOp (.comonadicWith a) l .disallowed
  /-- Dualizes the comonadic fragment to the monadic fragment; the areality
  is ignored and the staticity set to min. -/
  | comonadicToMonadicOpMin {l : Allowance} (a : Areality) :
      CoreMorph (.comonadicWith a) .monadicOp l .disallowed
  | monadicOpToComonadicMax {a : Areality} {r : Allowance} :
      CoreMorph .monadicOp (.comonadicWith a) .disallowed r
  | comonadicToMonadicOpMax {r : Allowance} (a : Areality) :
      CoreMorph (.comonadicWith a) .monadicOp .disallowed r

namespace CoreMorph

variable {a b c p q : Obj} {l r : Allowance}

def allowLeft : CoreMorph a b .allowed r → CoreMorph a b l r
  | localityRestricted m => localityRestricted m.allowLeft
  | localityFull m => localityFull m.allowLeft
  | uniquenessOpToLinearity => uniquenessOpToLinearity
  | linearityToUniquenessOp => linearityToUniquenessOp
  | contentionOpToPortability => contentionOpToPortability
  | portabilityToContentionOp => portabilityToContentionOp
  | visibilityOpToStatefulness => visibilityOpToStatefulness
  | statefulnessToVisibilityOp => statefulnessToVisibilityOp
  | monadicOpToComonadicMin => monadicOpToComonadicMin
  | comonadicToMonadicOpMin a => comonadicToMonadicOpMin a

def allowRight : CoreMorph a b l .allowed → CoreMorph a b l r
  | localityRestricted m => localityRestricted m.allowRight
  | localityFull m => localityFull m.allowRight
  | uniquenessOpToLinearity => uniquenessOpToLinearity
  | linearityToUniquenessOp => linearityToUniquenessOp
  | contentionOpToPortability => contentionOpToPortability
  | portabilityToContentionOp => portabilityToContentionOp
  | visibilityOpToStatefulness => visibilityOpToStatefulness
  | statefulnessToVisibilityOp => statefulnessToVisibilityOp
  | comonadicToMonadicOpMax a => comonadicToMonadicOpMax a
  | monadicOpToComonadicMax => monadicOpToComonadicMax

def src : CoreMorph a b l r → Obj
  | localityRestricted m => .areality m.src
  | localityFull m => .comonadicWith m.src
  | uniquenessOpToLinearity => .uniquenessOp
  | linearityToUniquenessOp => .linearity
  | contentionOpToPortability => .contentionOp
  | portabilityToContentionOp => .portability
  | visibilityOpToStatefulness => .visibilityOp
  | statefulnessToVisibilityOp => .statefulness
  | monadicOpToComonadicMin => .monadicOp
  | comonadicToMonadicOpMin a => .comonadicWith a
  | monadicOpToComonadicMax => .monadicOp
  | comonadicToMonadicOpMax a => .comonadicWith a

def uniquenessOpToLinearityFun : Uniqueness → Linearity
  | .unique => .once
  | .aliased => .many

def linearityToUniquenessOpFun : Linearity → Uniqueness
  | .many => .aliased
  | .once => .unique

def contentionOpToPortabilityFun : Contention → Portability
  | .contended => .portable
  | .shared => .shareable
  | .corrupted => .corruptible
  | .uncontended => .nonportable

def portabilityToContentionOpFun : Portability → Contention
  | .portable => .contended
  | .shareable => .shared
  | .corruptible => .corrupted
  | .nonportable => .uncontended

def visibilityOpToStatefulnessFun : Visibility → Statefulness
  | .immutable => .stateless
  | .read => .reading
  | .write => .writing
  | .readWrite => .stateful

def statefulnessToVisibilityOpFun : Statefulness → Visibility
  | .stateless => .immutable
  | .writing => .write
  | .reading => .read
  | .stateful => .readWrite

def monadicOpToComonadicMinFun (a : Areality) (m : Monadic) : ComonadicWith a.El where
  areality := a.heyting.min
  linearity := uniquenessOpToLinearityFun m.uniqueness
  portability := contentionOpToPortabilityFun m.contention
  forkable := Typing.forkable.min
  yielding := Typing.yielding.min
  statefulness := visibilityOpToStatefulnessFun m.visibility

def comonadicToMonadicOpMinFun {a : Areality} (m : ComonadicWith a.El) : Monadic where
  uniqueness := linearityToUniquenessOpFun m.linearity
  contention := portabilityToContentionOpFun m.portability
  visibility := statefulnessToVisibilityOpFun m.statefulness
  staticity := Obj.staticityOp.min

def monadicOpToComonadicMaxFun (a : Areality) (m : Monadic) : ComonadicWith a.El where
  areality := a.heyting.max
  linearity := uniquenessOpToLinearityFun m.uniqueness
  portability := contentionOpToPortabilityFun m.contention
  forkable := Typing.forkable.max
  yielding := Typing.yielding.max
  statefulness := visibilityOpToStatefulnessFun m.visibility

def comonadicToMonadicOpMaxFun {a : Areality} (m : ComonadicWith a.El) : Monadic where
  uniqueness := linearityToUniquenessOpFun m.linearity
  contention := portabilityToContentionOpFun m.portability
  visibility := statefulnessToVisibilityOpFun m.statefulness
  staticity := Obj.staticityOp.max

def apply (dst : Obj) : CoreMorph a dst l r → a.El → dst.El
  | localityRestricted m, x => m.apply x
  | @localityFull a b _ _ m, x =>
    let y : ComonadicWith a.El := x
    let res : ComonadicWith b.El := { y with areality := m.apply y.areality }
    res
  | uniquenessOpToLinearity, x => uniquenessOpToLinearityFun x
  | linearityToUniquenessOp, x => linearityToUniquenessOpFun x
  | contentionOpToPortability, x => contentionOpToPortabilityFun x
  | portabilityToContentionOp, x => portabilityToContentionOpFun x
  | visibilityOpToStatefulness, x => visibilityOpToStatefulnessFun x
  | statefulnessToVisibilityOp, x => statefulnessToVisibilityOpFun x
  | @monadicOpToComonadicMin a _, x => monadicOpToComonadicMinFun a x
  | comonadicToMonadicOpMin _, x => comonadicToMonadicOpMinFun x
  | @monadicOpToComonadicMax a _, x => monadicOpToComonadicMaxFun a x
  | comonadicToMonadicOpMax _, x => comonadicToMonadicOpMaxFun x

def rightAdjoint (dst : Obj) : CoreMorph a dst .allowed r → CoreMorph dst a .disallowed .allowed
  | localityRestricted m => localityRestricted m.rightAdjoint
  | localityFull m => localityFull m.rightAdjoint
  | uniquenessOpToLinearity => linearityToUniquenessOp
  | linearityToUniquenessOp => uniquenessOpToLinearity
  | contentionOpToPortability => portabilityToContentionOp
  | portabilityToContentionOp => contentionOpToPortability
  | visibilityOpToStatefulness => statefulnessToVisibilityOp
  | statefulnessToVisibilityOp => visibilityOpToStatefulness
  | @monadicOpToComonadicMin a _ => comonadicToMonadicOpMax a
  | comonadicToMonadicOpMin _ => monadicOpToComonadicMax

def leftAdjoint (dst : Obj) : CoreMorph a dst l .allowed → CoreMorph dst a .allowed .disallowed
  | localityRestricted m => localityRestricted m.leftAdjoint
  | localityFull m => localityFull m.leftAdjoint
  | uniquenessOpToLinearity => linearityToUniquenessOp
  | linearityToUniquenessOp => uniquenessOpToLinearity
  | contentionOpToPortability => portabilityToContentionOp
  | portabilityToContentionOp => contentionOpToPortability
  | visibilityOpToStatefulness => statefulnessToVisibilityOp
  | statefulnessToVisibilityOp => visibilityOpToStatefulness
  | @monadicOpToComonadicMax a _ => comonadicToMonadicOpMin a
  | comonadicToMonadicOpMax _ => monadicOpToComonadicMin

inductive MaybeAllowedRight (a b : Obj) (l : Allowance) : Allowance → Type where
  | allowedRight {r : Allowance} (m : CoreMorph a b l .allowed) : MaybeAllowedRight a b l r
  | notAllowedRight : MaybeAllowedRight a b l .disallowed

def maybeAllowedRight : CoreMorph a b l r → MaybeAllowedRight a b l r
  | localityRestricted lm =>
    match lm.maybeAllowedRight with
    | .allowedRight lm => .allowedRight (localityRestricted lm)
    | .notAllowedRight => .notAllowedRight
  | localityFull lm =>
    match lm.maybeAllowedRight with
    | .allowedRight lm => .allowedRight (localityFull lm)
    | .notAllowedRight => .notAllowedRight
  | uniquenessOpToLinearity => .allowedRight uniquenessOpToLinearity
  | linearityToUniquenessOp => .allowedRight linearityToUniquenessOp
  | contentionOpToPortability => .allowedRight contentionOpToPortability
  | portabilityToContentionOp => .allowedRight portabilityToContentionOp
  | visibilityOpToStatefulness => .allowedRight visibilityOpToStatefulness
  | statefulnessToVisibilityOp => .allowedRight statefulnessToVisibilityOp
  | monadicOpToComonadicMin => .notAllowedRight
  | comonadicToMonadicOpMin _ => .notAllowedRight
  | monadicOpToComonadicMax => .allowedRight monadicOpToComonadicMax
  | comonadicToMonadicOpMax a => .allowedRight (comonadicToMonadicOpMax a)

inductive MaybeAllowedLeft (a b : Obj) : Allowance → Allowance → Type where
  | allowedLeft {l r : Allowance} (m : CoreMorph a b .allowed r) : MaybeAllowedLeft a b l r
  | notAllowedLeft {r : Allowance} : MaybeAllowedLeft a b .disallowed r

def maybeAllowedLeft : CoreMorph a b l r → MaybeAllowedLeft a b l r
  | localityRestricted lm =>
    match lm.maybeAllowedLeft with
    | .allowedLeft lm => .allowedLeft (localityRestricted lm)
    | .notAllowedLeft => .notAllowedLeft
  | localityFull lm =>
    match lm.maybeAllowedLeft with
    | .allowedLeft lm => .allowedLeft (localityFull lm)
    | .notAllowedLeft => .notAllowedLeft
  | uniquenessOpToLinearity => .allowedLeft uniquenessOpToLinearity
  | linearityToUniquenessOp => .allowedLeft linearityToUniquenessOp
  | contentionOpToPortability => .allowedLeft contentionOpToPortability
  | portabilityToContentionOp => .allowedLeft portabilityToContentionOp
  | visibilityOpToStatefulness => .allowedLeft visibilityOpToStatefulness
  | statefulnessToVisibilityOp => .allowedLeft statefulnessToVisibilityOp
  | monadicOpToComonadicMin => .allowedLeft monadicOpToComonadicMin
  | comonadicToMonadicOpMin a => .allowedLeft (comonadicToMonadicOpMin a)
  | monadicOpToComonadicMax => .notAllowedLeft
  | comonadicToMonadicOpMax _ => .notAllowedLeft

/-- Commutes a meet through a morphism from the right. The source
dispatches on the morphism and answers `apply dst m c` in every case. -/
def commuteMeetConstFromRight (dst : Obj) (m : CoreMorph a dst l r) (c : a.El) : dst.El :=
  apply dst m c

/-- Commutes an implication through a morphism from the left. -/
def commuteImplyFromLeft (dst : Obj) (c : dst.El) (m : CoreMorph a dst l .allowed) : a.El :=
  commuteMeetConstFromRight a (leftAdjoint dst m) c

inductive ComposeProjResult : Obj → Obj → Allowance → Allowance → Type where
  | projCore {a b p : Obj} {l r : Allowance} (m : CoreMorph p b l r) (ax : Axis a p) :
      ComposeProjResult a b l r
  | projId {a : Areality} {p : Obj} {l r : Allowance} (ax : Axis (.comonadicWith a) p) :
      ComposeProjResult (.comonadicWith a) p l r
  | projConstMax {a b : Obj} {r : Allowance} : ComposeProjResult a b .disallowed r
  | projConstMin {a b : Obj} {l : Allowance} : ComposeProjResult a b l .disallowed

def composeProjectionLocalityFull {a b : Areality} :
    Axis (.comonadicWith b) p → LocalityMorph a b l r → ComposeProjResult (.comonadicWith a) p l r
  | .forkable, _ => .projId .forkable
  | .yielding, _ => .projId .yielding
  | .linearity, _ => .projId .linearity
  | .statefulness, _ => .projId .statefulness
  | .portability, _ => .projId .portability
  | .areality, lm1 => .projCore (localityRestricted lm1) .areality

def composeProjectionCore : Axis b p → CoreMorph a b l r → ComposeProjResult a p l r
  | .areality, monadicOpToComonadicMin => .projConstMin
  | .forkable, monadicOpToComonadicMin => .projConstMin
  | .yielding, monadicOpToComonadicMin => .projConstMin
  | .linearity, monadicOpToComonadicMin => .projCore uniquenessOpToLinearity .uniqueness
  | .statefulness, monadicOpToComonadicMin => .projCore visibilityOpToStatefulness .visibility
  | .portability, monadicOpToComonadicMin => .projCore contentionOpToPortability .contention
  | .uniqueness, comonadicToMonadicOpMin _ => .projCore linearityToUniquenessOp .linearity
  | .visibility, comonadicToMonadicOpMin _ => .projCore statefulnessToVisibilityOp .statefulness
  | .contention, comonadicToMonadicOpMin _ => .projCore portabilityToContentionOp .portability
  | .staticity, comonadicToMonadicOpMin _ => .projConstMin
  | .areality, monadicOpToComonadicMax => .projConstMax
  | .forkable, monadicOpToComonadicMax => .projConstMax
  | .yielding, monadicOpToComonadicMax => .projConstMax
  | .linearity, monadicOpToComonadicMax => .projCore uniquenessOpToLinearity .uniqueness
  | .statefulness, monadicOpToComonadicMax => .projCore visibilityOpToStatefulness .visibility
  | .portability, monadicOpToComonadicMax => .projCore contentionOpToPortability .contention
  | .uniqueness, comonadicToMonadicOpMax _ => .projCore linearityToUniquenessOp .linearity
  | .visibility, comonadicToMonadicOpMax _ => .projCore statefulnessToVisibilityOp .statefulness
  | .contention, comonadicToMonadicOpMax _ => .projCore portabilityToContentionOp .portability
  | .staticity, comonadicToMonadicOpMax _ => .projConstMax
  | ax0, localityFull lm => composeProjectionLocalityFull ax0 lm

inductive ComposeAndMaxResult : Obj → Obj → Allowance → Allowance → Type where
  | andMaxCore {s q p : Obj} {r : Allowance} (ax : Axis s q) (m : CoreMorph p q .disallowed r) :
      ComposeAndMaxResult p s .disallowed r
  | constMaxCore {a b : Obj} {r : Allowance} : ComposeAndMaxResult a b .disallowed r
  | andMaxId {c : Areality} {q : Obj} {l r : Allowance} (ax : Axis (.comonadicWith c) q) :
      ComposeAndMaxResult q (.comonadicWith c) l r
  | disallowed {a b : Obj} : ComposeAndMaxResult a b .disallowed .disallowed

/-- What `compose_locality_full_max_with` answers on every axis but the
areality: `id` unless `lm1` may not stand on the right. -/
def andMaxIdIfAllowed {b c : Areality} (ax : Axis (.comonadicWith c) q) :
    LocalityMorph b c .disallowed r → ComposeAndMaxResult q (.comonadicWith c) .disallowed r
  | .localToRegional => .disallowed
  | .localToRegionalRegionality => .disallowed
  | .regionalToLocal => .andMaxId ax
  | .localityAsRegionality => .andMaxId ax
  | .regionalToGlobal => .andMaxId ax
  | .regionalToLocalRegionality => .andMaxId ax
  | .regionalToGlobalRegionality => .andMaxId ax

def composeLocalityFullMaxWith {b c : Areality} :
    LocalityMorph b c .disallowed r → Axis (.comonadicWith b) q →
      ComposeAndMaxResult q (.comonadicWith c) .disallowed r
  | lm1, .forkable => andMaxIdIfAllowed .forkable lm1
  | lm1, .yielding => andMaxIdIfAllowed .yielding lm1
  | lm1, .linearity => andMaxIdIfAllowed .linearity lm1
  | lm1, .statefulness => andMaxIdIfAllowed .statefulness lm1
  | lm1, .portability => andMaxIdIfAllowed .portability lm1
  | lm1, .areality => .andMaxCore .areality (localityRestricted lm1)

def composeCoreMaxWith :
    CoreMorph b c .disallowed r → Axis b q → ComposeAndMaxResult q c .disallowed r
  | comonadicToMonadicOpMax _, .portability => .andMaxCore .contention portabilityToContentionOp
  | comonadicToMonadicOpMax _, .statefulness => .andMaxCore .visibility statefulnessToVisibilityOp
  | comonadicToMonadicOpMax _, .linearity => .andMaxCore .uniqueness linearityToUniquenessOp
  | comonadicToMonadicOpMax _, .yielding => .constMaxCore
  | comonadicToMonadicOpMax _, .forkable => .constMaxCore
  | comonadicToMonadicOpMax _, .areality => .constMaxCore
  | monadicOpToComonadicMax, .staticity => .constMaxCore
  | monadicOpToComonadicMax, .contention => .andMaxCore .portability contentionOpToPortability
  | monadicOpToComonadicMax, .visibility => .andMaxCore .statefulness visibilityOpToStatefulness
  | monadicOpToComonadicMax, .uniqueness => .andMaxCore .linearity uniquenessOpToLinearity
  | localityFull lm, ax0 => composeLocalityFullMaxWith lm ax0
  | monadicOpToComonadicMin, _ => .disallowed
  | comonadicToMonadicOpMin _, _ => .disallowed

inductive ComposeAndMinResult : Obj → Obj → Allowance → Allowance → Type where
  | andMinCore {s q p : Obj} {l : Allowance} (ax : Axis s q) (m : CoreMorph p q l .disallowed) :
      ComposeAndMinResult p s l .disallowed
  | constMinCore {a b : Obj} {l : Allowance} : ComposeAndMinResult a b l .disallowed
  | andMinId {c : Areality} {q : Obj} {l r : Allowance} (ax : Axis (.comonadicWith c) q) :
      ComposeAndMinResult q (.comonadicWith c) l r
  | disallowed {a b : Obj} : ComposeAndMinResult a b .disallowed .disallowed

/-- Unlike its counterpart for max, this one never asks whether `lm1` may
stand on the left. -/
def composeLocalityFullMinWith {b c : Areality} :
    LocalityMorph b c l .disallowed → Axis (.comonadicWith b) q →
      ComposeAndMinResult q (.comonadicWith c) l .disallowed
  | _, .forkable => .andMinId .forkable
  | _, .yielding => .andMinId .yielding
  | _, .linearity => .andMinId .linearity
  | _, .statefulness => .andMinId .statefulness
  | _, .portability => .andMinId .portability
  | lm1, .areality => .andMinCore .areality (localityRestricted lm1)

def composeCoreMinWith :
    CoreMorph b c l .disallowed → Axis b q → ComposeAndMinResult q c l .disallowed
  | comonadicToMonadicOpMin _, .portability => .andMinCore .contention portabilityToContentionOp
  | comonadicToMonadicOpMin _, .statefulness => .andMinCore .visibility statefulnessToVisibilityOp
  | comonadicToMonadicOpMin _, .linearity => .andMinCore .uniqueness linearityToUniquenessOp
  | comonadicToMonadicOpMin _, .yielding => .constMinCore
  | comonadicToMonadicOpMin _, .forkable => .constMinCore
  | comonadicToMonadicOpMin _, .areality => .constMinCore
  | monadicOpToComonadicMin, .staticity => .constMinCore
  | monadicOpToComonadicMin, .contention => .andMinCore .portability contentionOpToPortability
  | monadicOpToComonadicMin, .visibility => .andMinCore .statefulness visibilityOpToStatefulness
  | monadicOpToComonadicMin, .uniqueness => .andMinCore .linearity uniquenessOpToLinearity
  | localityFull lm, ax0 => composeLocalityFullMinWith lm ax0
  | monadicOpToComonadicMax, _ => .disallowed
  | comonadicToMonadicOpMax _, _ => .disallowed

inductive ComposeResult : Obj → Obj → Allowance → Allowance → Type where
  | id {a : Obj} {l r : Allowance} : ComposeResult a a l r
  | morph {a b : Obj} {l r : Allowance} (m : CoreMorph a b l r) : ComposeResult a b l r
  | disallowed {a b : Obj} : ComposeResult a b .disallowed .disallowed

def liftLocalityComposeResult {a b : Areality} : LocalityMorph.ComposeResult a b l r →
      ComposeResult (.comonadicWith a) (.comonadicWith b) l r
  | .id => .id
  | .morph lm => .morph (localityFull lm)
  | .disallowed => .disallowed

/-- The morphism between products closest to the identity. The source
decides through `Axis.owner` whether both products are monadic or both
comonadic; the axes determine it. -/
def idExceptForAreality : (src dst : Obj) → Axis src p → Axis dst p → ComposeResult src dst l r
  | .monadicOp, .monadicOp, _, _ => .id
  | .comonadicWith s, .comonadicWith d, _, _ =>
    liftLocalityComposeResult (LocalityMorph.idR2l s d)
  | .monadicOp, .comonadicWith _, .uniqueness, ax1 => nomatch ax1
  | .monadicOp, .comonadicWith _, .visibility, ax1 => nomatch ax1
  | .monadicOp, .comonadicWith _, .contention, ax1 => nomatch ax1
  | .monadicOp, .comonadicWith _, .staticity, ax1 => nomatch ax1
  | .comonadicWith _, .monadicOp, ax0, .uniqueness => nomatch ax0
  | .comonadicWith _, .monadicOp, ax0, .visibility => nomatch ax0
  | .comonadicWith _, .monadicOp, ax0, .contention => nomatch ax0
  | .comonadicWith _, .monadicOp, ax0, .staticity => nomatch ax0

/-- Takes a core morphism between axes to one between products that does
the same on these axes. It may not stand on the left. -/
def liftR (src dst : Obj) :
    CoreMorph p q l r → Axis src p → Axis dst q → ComposeResult src dst .disallowed r
  | uniquenessOpToLinearity, .uniqueness, .linearity => .morph monadicOpToComonadicMax
  | linearityToUniquenessOp, .linearity, .uniqueness => .morph (comonadicToMonadicOpMax _)
  | contentionOpToPortability, .contention, .portability => .morph monadicOpToComonadicMax
  | portabilityToContentionOp, .portability, .contention => .morph (comonadicToMonadicOpMax _)
  | visibilityOpToStatefulness, .visibility, .statefulness => .morph monadicOpToComonadicMax
  | statefulnessToVisibilityOp, .statefulness, .visibility => .morph (comonadicToMonadicOpMax _)
  | localityRestricted lm, .areality, .areality => .morph (localityFull lm.disallowLeft)

/-- Takes a core morphism between axes to one between products that does
the same on these axes. It may not stand on the right. -/
def liftL (src dst : Obj) :
    CoreMorph p q l r → Axis src p → Axis dst q → ComposeResult src dst l .disallowed
  | uniquenessOpToLinearity, .uniqueness, .linearity => .morph monadicOpToComonadicMin
  | linearityToUniquenessOp, .linearity, .uniqueness => .morph (comonadicToMonadicOpMin _)
  | contentionOpToPortability, .contention, .portability => .morph monadicOpToComonadicMin
  | portabilityToContentionOp, .portability, .contention => .morph (comonadicToMonadicOpMin _)
  | visibilityOpToStatefulness, .visibility, .statefulness => .morph monadicOpToComonadicMin
  | statefulnessToVisibilityOp, .statefulness, .visibility => .morph (comonadicToMonadicOpMin _)
  | localityRestricted lm, .areality, .areality => .morph (localityFull lm.disallowRight)

end CoreMorph

/-! ## Simple morphisms -/

/-- `Simple_morph.t`. -/
inductive SimpleMorph : Obj → Obj → Allowance → Allowance → Type where
  | id {a : Obj} {l r : Allowance} : SimpleMorph a a l r
  | core {a b : Obj} {l r : Allowance} (m : CoreMorph a b l r) : SimpleMorph a b l r
  /-- Meets the input with the parameter. -/
  | meetConst {a : Obj} {l : Allowance} (c : a.El) : SimpleMorph a a l .disallowed
  /-- The right adjoint of `meetConst`. -/
  | implyConst {a : Obj} {r : Allowance} (c : a.El) : SimpleMorph a a .disallowed r
  | meetConstCore {a b : Obj} {l : Allowance} (c : b.El) (m : CoreMorph a b l .disallowed) :
      SimpleMorph a b l .disallowed
  | coreImplyConst {a b : Obj} {r : Allowance} (m : CoreMorph a b .disallowed r) (c : a.El) :
      SimpleMorph a b .disallowed r
  /-- A composition that has no normal form of its own. It may stand on
  neither side. -/
  | compose {a b c : Obj} (mb : SimpleMorph b c .disallowed .disallowed)
      (ma : SimpleMorph a b .disallowed .disallowed) :
      SimpleMorph a c .disallowed .disallowed

namespace SimpleMorph

variable {a b p q : Obj} {l r : Allowance}

def allowLeft : SimpleMorph a b .allowed r → SimpleMorph a b l r
  | id => id
  | core m => core m.allowLeft
  | meetConst c => meetConst c
  | meetConstCore c m => meetConstCore c m.allowLeft

def allowRight : SimpleMorph a b l .allowed → SimpleMorph a b l r
  | id => id
  | core m => core m.allowRight
  | implyConst c => implyConst c
  | coreImplyConst m c => coreImplyConst m.allowRight c

def src : {a : Obj} → {l r : Allowance} → (dst : Obj) → SimpleMorph a dst l r → Obj
  | _, _, _, dst, id => dst
  | _, _, _, _, core m => m.src
  | _, _, _, dst, meetConst _ => dst
  | _, _, _, dst, implyConst _ => dst
  | _, _, _, _, meetConstCore _ m => m.src
  | _, _, _, _, coreImplyConst m _ => m.src
  | _, _, _, _, @compose _ mid _ _ ma => src mid ma

def apply : {a : Obj} → {l r : Allowance} → (dst : Obj) → SimpleMorph a dst l r → a.El → dst.El
  | _, _, _, _, id, x => x
  | _, _, _, dst, core m, x => m.apply dst x
  | _, _, _, dst, meetConst c, x => dst.meet c x
  | _, _, _, dst, implyConst c, x => dst.imply c x
  | _, _, _, dst, meetConstCore c m, x => dst.meet c (m.apply dst x)
  | a, _, _, dst, coreImplyConst m c, x => m.apply dst (a.imply c x)
  | _, _, _, dst, @compose _ mid _ mb ma, x => apply dst mb (apply mid ma x)

def rightAdjoint (dst : Obj) : SimpleMorph a dst .allowed r → SimpleMorph dst a .disallowed .allowed
  | id => id
  | core m => core (m.rightAdjoint dst)
  | meetConst c => implyConst c
  | meetConstCore c m => coreImplyConst (m.rightAdjoint dst) c

def leftAdjoint (dst : Obj) : SimpleMorph a dst l .allowed → SimpleMorph dst a .allowed .disallowed
  | id => id
  | core m => core (m.leftAdjoint dst)
  | implyConst c => meetConst c
  | coreImplyConst m c => meetConstCore c (m.leftAdjoint dst)

inductive MaybeAllowedRight (a b : Obj) (l : Allowance) : Allowance → Type where
  | allowedRight {r : Allowance} (m : SimpleMorph a b l .allowed) : MaybeAllowedRight a b l r
  | notAllowedRight : MaybeAllowedRight a b l .disallowed

def maybeAllowedRight : SimpleMorph a b l r → MaybeAllowedRight a b l r
  | id => .allowedRight id
  | core m =>
    match m.maybeAllowedRight with
    | .allowedRight m => .allowedRight (core m)
    | .notAllowedRight => .notAllowedRight
  | meetConst _ => .notAllowedRight
  | implyConst c => .allowedRight (implyConst c)
  | meetConstCore _ _ => .notAllowedRight
  | coreImplyConst m c =>
    match m.maybeAllowedRight with
    | .allowedRight m => .allowedRight (coreImplyConst m c)
    | .notAllowedRight => .notAllowedRight
  | compose _ _ => .notAllowedRight

inductive MaybeAllowedLeft (a b : Obj) : Allowance → Allowance → Type where
  | allowedLeft {l r : Allowance} (m : SimpleMorph a b .allowed r) : MaybeAllowedLeft a b l r
  | notAllowedLeft {r : Allowance} : MaybeAllowedLeft a b .disallowed r

def maybeAllowedLeft : SimpleMorph a b l r → MaybeAllowedLeft a b l r
  | id => .allowedLeft id
  | core m =>
    match m.maybeAllowedLeft with
    | .allowedLeft m => .allowedLeft (core m)
    | .notAllowedLeft => .notAllowedLeft
  | meetConst c => .allowedLeft (meetConst c)
  | implyConst _ => .notAllowedLeft
  | meetConstCore c m =>
    match m.maybeAllowedLeft with
    | .allowedLeft m => .allowedLeft (meetConstCore c m)
    | .notAllowedLeft => .notAllowedLeft
  | coreImplyConst _ _ => .notAllowedLeft
  | compose _ _ => .notAllowedLeft

def composeMeetConstLeft (dst : Obj) (c : dst.El) :
    SimpleMorph a dst l .disallowed → SimpleMorph a dst l .disallowed
  | id => meetConst c
  | core m => meetConstCore c m
  | meetConst c' => meetConst (a.meet c c')
  | meetConstCore c' m => meetConstCore (dst.meet c c') m
  | implyConst c' => compose (meetConst c) (implyConst c')
  | coreImplyConst m c' => compose (meetConst c) (coreImplyConst m c')
  | compose mb ma => compose (meetConst c) (compose mb ma)

def composeImplyConstRight (dst : Obj) :
    SimpleMorph a dst .disallowed r → a.El → SimpleMorph a dst .disallowed r
  | id, c => implyConst c
  | core m, c => coreImplyConst m c
  | implyConst c', c => implyConst (a.meet c c')
  | coreImplyConst m c', c => coreImplyConst m (a.meet c' c)
  | meetConst c', c => compose (meetConst c') (implyConst c)
  | meetConstCore c' m, c => compose (meetConstCore c' m) (implyConst c)
  | compose mb ma, c => compose (compose mb ma) (implyConst c)

def composeMeetConstRight (dst : Obj) :
    SimpleMorph a dst l .disallowed → a.El → SimpleMorph a dst l .disallowed
  | id, c => meetConst c
  | core m, c => meetConstCore (m.commuteMeetConstFromRight dst c) m
  | meetConst c', c => meetConst (a.meet c' c)
  | meetConstCore c' m, c => meetConstCore (dst.meet c' (m.commuteMeetConstFromRight dst c)) m
  | implyConst c', c => compose (implyConst c') (meetConst c)
  | coreImplyConst m c', c => compose (coreImplyConst m c') (meetConst c)
  | compose mb ma, c => compose (compose mb ma) (meetConst c)

def composeImplyConstLeft (dst : Obj) (c : dst.El) :
    SimpleMorph a dst .disallowed r → SimpleMorph a dst .disallowed r
  | id => implyConst c
  | core m =>
    match m.maybeAllowedRight with
    | .notAllowedRight => compose (implyConst c) (core m)
    | .allowedRight m' => coreImplyConst m (CoreMorph.commuteImplyFromLeft dst c m')
  | implyConst c' => implyConst (a.meet c c')
  | coreImplyConst m c' =>
    match m.maybeAllowedRight with
    | .notAllowedRight => compose (implyConst c) (coreImplyConst m c')
    | .allowedRight m' =>
      coreImplyConst m (a.meet (CoreMorph.commuteImplyFromLeft dst c m') c')
  | meetConst c' => compose (implyConst c) (meetConst c')
  | meetConstCore c' m => compose (implyConst c) (meetConstCore c' m)
  | compose mb ma => compose (implyConst c) (compose mb ma)

def composeCore (dst : Obj) : CoreMorph b dst l r → CoreMorph a b l r → SimpleMorph a dst l r
  | .localityRestricted lm1, .localityRestricted lm2 =>
    match l, r, lm1, lm2, lm1.compose lm2 with
    | _, _, _, _, .id => id
    | _, _, _, _, .morph lm => core (.localityRestricted lm)
    | _, _, lm1, lm2, .disallowed =>
      compose (core (.localityRestricted lm1)) (core (.localityRestricted lm2))
  | .localityFull lm1, .localityFull lm2 =>
    match l, r, lm1, lm2, lm1.compose lm2 with
    | _, _, _, _, .id => id
    | _, _, _, _, .morph lm => core (.localityFull lm)
    | _, _, lm1, lm2, .disallowed =>
      compose (core (.localityFull lm1)) (core (.localityFull lm2))
  | .uniquenessOpToLinearity, .linearityToUniquenessOp => id
  | .linearityToUniquenessOp, .uniquenessOpToLinearity => id
  | .contentionOpToPortability, .portabilityToContentionOp => id
  | .portabilityToContentionOp, .contentionOpToPortability => id
  | .visibilityOpToStatefulness, .statefulnessToVisibilityOp => id
  | .statefulnessToVisibilityOp, .visibilityOpToStatefulness => id
  | .comonadicToMonadicOpMin areality, .monadicOpToComonadicMin =>
    let c := CoreMorph.apply (l := .disallowed) .monadicOp (.comonadicToMonadicOpMin areality)
      (Obj.comonadicWith areality).max
    meetConst c
  | @CoreMorph.monadicOpToComonadicMin d _, .comonadicToMonadicOpMin areality =>
    let c := CoreMorph.apply (l := .disallowed) (.comonadicWith d) .monadicOpToComonadicMin
      Obj.monadicOp.max
    match areality, d, c with
    | .locality, .locality, c => meetConst c
    | .regionality, .locality, c => meetConstCore c (.localityFull .regionalToLocal)
    | .locality, .regionality, c => meetConstCore c (.localityFull .localityAsRegionality)
    | .regionality, .regionality, c => meetConst c
  | @CoreMorph.monadicOpToComonadicMax d _, .comonadicToMonadicOpMax areality =>
    let c := CoreMorph.apply (l := .disallowed) (.comonadicWith areality)
      .monadicOpToComonadicMin Obj.monadicOp.max
    match areality, d, c with
    | .locality, .locality, c => implyConst c
    | .regionality, .locality, c => coreImplyConst (.localityFull .regionalToLocal) c
    | .locality, .regionality, c => coreImplyConst (.localityFull .localityAsRegionality) c
    | .regionality, .regionality, c => implyConst c
  | .comonadicToMonadicOpMax areality, .monadicOpToComonadicMax =>
    let c := CoreMorph.apply (l := .disallowed) .monadicOp (.comonadicToMonadicOpMin areality)
      (Obj.comonadicWith areality).max
    implyConst c
  | .comonadicToMonadicOpMin a, .monadicOpToComonadicMax =>
    compose (core (.comonadicToMonadicOpMin a)) (core .monadicOpToComonadicMax)
  | .monadicOpToComonadicMax, .comonadicToMonadicOpMin a =>
    compose (core .monadicOpToComonadicMax) (core (.comonadicToMonadicOpMin a))
  | .comonadicToMonadicOpMax a, .monadicOpToComonadicMin =>
    compose (core (.comonadicToMonadicOpMax a)) (core .monadicOpToComonadicMin)
  | .monadicOpToComonadicMin, .comonadicToMonadicOpMax a =>
    compose (core .monadicOpToComonadicMin) (core (.comonadicToMonadicOpMax a))
  | .comonadicToMonadicOpMin _, .localityFull _ => core (.comonadicToMonadicOpMin _)
  | .comonadicToMonadicOpMax _, .localityFull _ => core (.comonadicToMonadicOpMax _)
  | .localityFull lm1, .monadicOpToComonadicMin =>
    match l, lm1, lm1.maybeAllowedLeft with
    -- it has a right adjoint, so it preserves min
    | _, _, .allowedLeft _ => core .monadicOpToComonadicMin
    | _, lm1, .notAllowedLeft => compose (core (.localityFull lm1)) (core .monadicOpToComonadicMin)
  | .localityFull lm1, .monadicOpToComonadicMax =>
    match r, lm1, lm1.maybeAllowedRight with
    -- it has a left adjoint, so it preserves max
    | _, _, .allowedRight _ => core .monadicOpToComonadicMax
    | _, lm1, .notAllowedRight =>
      compose (core (.localityFull lm1)) (core .monadicOpToComonadicMax)

def composeCoreRight (dst : Obj) : SimpleMorph b dst l r → CoreMorph a b l r → SimpleMorph a dst l r
  | id, m2 => core m2
  | core m1, m2 => composeCore dst m1 m2
  | implyConst c1, m2 =>
    match r, m2, m2.maybeAllowedRight with
    | _, m2, .notAllowedRight => compose (implyConst c1) (core m2)
    | _, m2, .allowedRight m2' => coreImplyConst m2 (CoreMorph.commuteImplyFromLeft b c1 m2')
  | coreImplyConst m1 c1, m2 =>
    match r, m1, m2, m2.maybeAllowedRight with
    | _, m1, m2, .notAllowedRight => compose (coreImplyConst m1 c1) (core m2)
    | _, m1, m2, .allowedRight m2' =>
      composeImplyConstRight dst (composeCore dst m1 m2) (CoreMorph.commuteImplyFromLeft b c1 m2')
  | meetConst c1, m2 => meetConstCore c1 m2
  | meetConstCore c1 m1, m2 => composeMeetConstLeft dst c1 (composeCore dst m1 m2)
  | compose mb ma, m2 => compose (compose mb ma) (core m2)

def composeCoreLeft (dst : Obj) : CoreMorph b dst l r → SimpleMorph a b l r → SimpleMorph a dst l r
  | m1, id => core m1
  | m1, core m2 => composeCore dst m1 m2
  | m1, implyConst c2 => coreImplyConst m1 c2
  | m1, coreImplyConst m2 c2 => composeImplyConstRight dst (composeCore dst m1 m2) c2
  | m1, meetConst c2 => meetConstCore (m1.commuteMeetConstFromRight dst c2) m1
  | m1, meetConstCore c2 m2 =>
    composeMeetConstLeft dst (m1.commuteMeetConstFromRight dst c2) (composeCore dst m1 m2)
  | m1, compose mb ma => compose (core m1) (compose mb ma)

/-- `Simple_morph.compose`. -/
def comp (dst : Obj) : SimpleMorph b dst l r → SimpleMorph a b l r → SimpleMorph a dst l r
  | m1, id => m1
  | id, m2 => m2
  | m1, meetConst c2 => composeMeetConstRight dst m1 c2
  | meetConst c1, m2 => composeMeetConstLeft _ c1 m2
  | m1, implyConst c2 => composeImplyConstRight dst m1 c2
  | implyConst c1, m2 => composeImplyConstLeft _ c1 m2
  | m1, core m2 => composeCoreRight dst m1 m2
  | core m1, m2 => composeCoreLeft dst m1 m2
  | m1, meetConstCore c2 m2 => composeCoreRight dst (composeMeetConstRight dst m1 c2) m2
  | meetConstCore c1 m1, m2 => composeMeetConstLeft dst c1 (composeCoreLeft dst m1 m2)
  | m1, coreImplyConst m2 c2 => composeImplyConstRight dst (composeCoreRight dst m1 m2) c2
  | coreImplyConst m1 c1, m2 => composeCoreLeft dst m1 (composeImplyConstLeft b c1 m2)
  | compose mb ma, m2 => compose (compose mb ma) m2

def liftCoreComposeResultR : CoreMorph.ComposeResult a b l .allowed → SimpleMorph a b l .allowed
  | .id => id
  | .morph m => core m

def liftCoreComposeResultL : CoreMorph.ComposeResult a b .allowed r → SimpleMorph a b .allowed r
  | .id => id
  | .morph m => core m

/-- `push_to_max`, local to `lift_max`. -/
def pushToMax (dst : Obj) (ax1 : Axis dst q) (m : SimpleMorph a dst .disallowed .allowed) :
    SimpleMorph a dst .disallowed .allowed :=
  comp dst (implyConst (minWith dst ax1 q.max)) m

/-- `lift_max` on a core morphism. The source reaches it by one recursive
call, from `Core_imply_const`. -/
def liftMaxCore (src dst : Obj) (m : CoreMorph p q .disallowed .allowed) (ax0 : Axis src p)
    (ax1 : Axis dst q) : SimpleMorph src dst .disallowed .allowed :=
  pushToMax dst ax1 (liftCoreComposeResultR (m.liftR src dst ax0 ax1))

def liftMax (src dst : Obj) : SimpleMorph p q .disallowed .allowed → Axis src p → Axis dst q →
      SimpleMorph src dst .disallowed .allowed
  | id, ax0, ax1 =>
    pushToMax dst ax1 (liftCoreComposeResultR (CoreMorph.idExceptForAreality src dst ax0 ax1))
  | core m, ax0, ax1 => liftMaxCore src dst m ax0 ax1
  | implyConst c, ax0, ax1 =>
    comp dst (implyConst (ax1.set c dst.min))
      (liftCoreComposeResultR (CoreMorph.idExceptForAreality src dst ax0 ax1))
  | coreImplyConst m c, ax0, ax1 =>
    comp dst (liftMaxCore src dst m ax0 ax1) (implyConst (ax0.set c src.arbitrary))

/-- `push_to_min`, local to `lift_min`. -/
def pushToMin (dst : Obj) (ax1 : Axis dst q) (m : SimpleMorph a dst .allowed .disallowed) :
    SimpleMorph a dst .allowed .disallowed :=
  comp dst (meetConst (minWith dst ax1 q.max)) m

/-- `lift_min` on a core morphism. -/
def liftMinCore (src dst : Obj) (m : CoreMorph p q .allowed .disallowed) (ax0 : Axis src p)
    (ax1 : Axis dst q) : SimpleMorph src dst .allowed .disallowed :=
  pushToMin dst ax1 (liftCoreComposeResultL (m.liftL src dst ax0 ax1))

def liftMin (src dst : Obj) : SimpleMorph p q .allowed .disallowed → Axis src p → Axis dst q →
      SimpleMorph src dst .allowed .disallowed
  | id, ax0, ax1 =>
    pushToMin dst ax1 (liftCoreComposeResultL (CoreMorph.idExceptForAreality src dst ax0 ax1))
  | core m, ax0, ax1 => liftMinCore src dst m ax0 ax1
  | meetConst c, ax0, ax1 =>
    comp dst (meetConst (ax1.set c dst.min))
      (liftCoreComposeResultL (CoreMorph.idExceptForAreality src dst ax0 ax1))
  | meetConstCore c m, ax0, ax1 =>
    comp dst (meetConst (ax1.set c dst.arbitrary)) (liftMinCore src dst m ax0 ax1)

end SimpleMorph

/-! ## Morphisms -/

/-- The type `morph`. -/
inductive Morph : Obj → Obj → Allowance → Allowance → Type where
  | simple {a b : Obj} {l r : Allowance} (m : SimpleMorph a b l r) : Morph a b l r
  | constMax {c : Obj} {r : Allowance} (a : Obj) : Morph a c .disallowed r
  | constMin {c : Obj} {l : Allowance} (a : Obj) : Morph a c l .disallowed
  | const {c : Obj} (a : Obj) (x : c.El) : Morph a c .disallowed .disallowed
  /-- A projection followed by a simple morphism. -/
  | simpleProj {p q s : Obj} {l r : Allowance} (m : SimpleMorph p q l r) (ax : Axis s p) :
      Morph s q l r
  /-- A simple morphism whose result is completed with maxima. -/
  | maxWithSimple {s q p : Obj} {r : Allowance} (ax : Axis s q)
      (m : SimpleMorph p q .disallowed r) : Morph p s .disallowed r
  /-- A simple morphism whose result is completed with minima. -/
  | minWithSimple {s q p : Obj} {l : Allowance} (ax : Axis s q)
      (m : SimpleMorph p q l .disallowed) : Morph p s l .disallowed
  | compose {a b c : Obj} (mb : Morph b c .disallowed .disallowed)
      (ma : Morph a b .disallowed .disallowed) : Morph a c .disallowed .disallowed

namespace Morph

variable {a b p q q0 q1 : Obj} {l r : Allowance}

def allowLeft : Morph a b .allowed r → Morph a b l r
  | simple m => simple m.allowLeft
  | simpleProj m ax => simpleProj m.allowLeft ax
  | minWithSimple ax m => minWithSimple ax m.allowLeft
  | constMin src => constMin src

def allowRight : Morph a b l .allowed → Morph a b l r
  | simple m => simple m.allowRight
  | simpleProj m ax => simpleProj m.allowRight ax
  | maxWithSimple ax m => maxWithSimple ax m.allowRight
  | constMax src => constMax src

def src : {a : Obj} → {l r : Allowance} → (dst : Obj) → Morph a dst l r → Obj
  | _, _, _, dst, simple m => m.src dst
  | _, _, _, _, @simpleProj _ _ s _ _ _ _ => s
  | _, _, _, _, @maxWithSimple _ q _ _ _ m => m.src q
  | _, _, _, _, @minWithSimple _ q _ _ _ m => m.src q
  | _, _, _, _, constMin src => src
  | _, _, _, _, constMax src => src
  | _, _, _, _, const src _ => src
  | _, _, _, _, @compose _ mid _ _ ma => src mid ma

def apply : {a : Obj} → {l r : Allowance} → (dst : Obj) → Morph a dst l r → a.El → dst.El
  | _, _, _, dst, simple m, x => m.apply dst x
  | _, _, _, dst, simpleProj m ax, x => m.apply dst (ax.proj x)
  | _, _, _, dst, @maxWithSimple _ q _ _ ax m, x => maxWith dst ax (m.apply q x)
  | _, _, _, dst, @minWithSimple _ q _ _ ax m, x => minWith dst ax (m.apply q x)
  | _, _, _, dst, constMax _, _ => dst.max
  | _, _, _, dst, constMin _, _ => dst.min
  | _, _, _, _, const _ c, _ => c
  | _, _, _, dst, @compose _ mid _ mb ma, x => apply dst mb (apply mid ma x)

def rightAdjoint (dst : Obj) : Morph a dst .allowed r → Morph dst a .disallowed .allowed
  | simple m => simple (m.rightAdjoint dst)
  | simpleProj m ax => maxWithSimple ax (m.rightAdjoint dst)
  | @minWithSimple _ q _ _ ax m => simpleProj (m.rightAdjoint q) ax
  | constMin _ => constMax dst

def leftAdjoint (dst : Obj) : Morph a dst l .allowed → Morph dst a .allowed .disallowed
  | simple m => simple (m.leftAdjoint dst)
  | simpleProj m ax => minWithSimple ax (m.leftAdjoint dst)
  | @maxWithSimple _ q _ _ ax m => simpleProj (m.leftAdjoint q) ax
  | constMax _ => constMin dst

def constMaxOrApply (dst : Obj) (m : SimpleMorph p dst .disallowed r) (obj : Obj) :
    Morph obj dst .disallowed r :=
  match r, m, m.maybeAllowedRight with
  | _, _, .allowedRight _ => constMax obj
  | _, m, .notAllowedRight => const obj (m.apply dst p.max)

def constMinOrApply (dst : Obj) (m : SimpleMorph p dst l .disallowed) (obj : Obj) :
    Morph obj dst l .disallowed :=
  match l, m, m.maybeAllowedLeft with
  | _, _, .allowedLeft _ => constMin obj
  | _, m, .notAllowedLeft => const obj (m.apply dst p.min)

def composeSimpleProjCore (dst : Obj) :
    SimpleMorph p dst l r → CoreMorph.ComposeProjResult a p l r → Morph a dst l r
  | m0, .projCore m1 ax1 => simpleProj (m0.comp dst (.core m1)) ax1
  | m0, .projId ax1 => simpleProj m0 ax1
  | m0, .projConstMax => constMaxOrApply dst m0 a
  | m0, .projConstMin => constMinOrApply dst m0 a

def composeSimpleProjMeetConstCore (dst : Obj) :
    SimpleMorph p dst l .disallowed → p.El → CoreMorph.ComposeProjResult a p l .disallowed →
      Morph a dst l .disallowed
  | m0, c1, .projCore m1 ax1 => simpleProj (m0.comp dst (.meetConstCore c1 m1)) ax1
  | m0, c1, .projId ax1 => simpleProj (m0.comp dst (.meetConst c1)) ax1
  | m0, c1, .projConstMax => const a (m0.apply dst c1)
  | m0, _, .projConstMin => constMinOrApply dst m0 a

def composeSimpleProjCoreImplyConst (dst : Obj) :
    SimpleMorph p dst .disallowed r → a.El → CoreMorph.ComposeProjResult a p .disallowed r →
      Morph a dst .disallowed r
  | m0, c1, .projCore m1 ax1 => simpleProj (m0.comp dst (.coreImplyConst m1 (ax1.proj c1))) ax1
  | m0, c1, .projId ax1 => simpleProj (m0.comp dst (.implyConst (ax1.proj c1))) ax1
  | m0, _, .projConstMax => constMaxOrApply dst m0 a
  | m0, _, .projConstMin => constMinOrApply dst m0 a

def composeSimpleProjWithSimple (dst : Obj) :
    SimpleMorph p dst l r → Axis b p → SimpleMorph a b l r → Morph a dst l r
  | m0, ax0, .id => simpleProj m0 ax0
  | m0, ax0, .core m1 => composeSimpleProjCore dst m0 (CoreMorph.composeProjectionCore ax0 m1)
  | m0, ax0, .meetConst c1 => simpleProj (m0.comp dst (.meetConst (ax0.proj c1))) ax0
  | m0, ax0, .implyConst c1 => simpleProj (m0.comp dst (.implyConst (ax0.proj c1))) ax0
  | m0, ax0, .meetConstCore c1 m1 =>
    composeSimpleProjMeetConstCore dst m0 (ax0.proj c1) (CoreMorph.composeProjectionCore ax0 m1)
  | m0, ax0, .coreImplyConst m1 c1 =>
    composeSimpleProjCoreImplyConst dst m0 c1 (CoreMorph.composeProjectionCore ax0 m1)
  | m0, ax0, .compose mb ma => compose (simpleProj m0 ax0) (simple (.compose mb ma))

/-- The four results of `compose_core_max_with` on a core morphism. -/
def composeAndMaxCore (dst : Obj) (m0 : CoreMorph b dst .disallowed r) (ax1 : Axis b q)
    (m1 : SimpleMorph a q .disallowed r) : Morph a dst .disallowed r :=
  match dst, r, m0, m1, CoreMorph.composeCoreMaxWith m0 ax1 with
  | _, _, _, m1, @CoreMorph.ComposeAndMaxResult.andMaxCore _ obj0 _ _ ax1' m0' =>
    maxWithSimple ax1' (SimpleMorph.comp obj0 (.core m0') m1)
  | _, _, _, _, .constMaxCore => constMax a
  | _, _, _, m1, .andMaxId ax1' => maxWithSimple ax1' m1
  | _, _, m0, m1, .disallowed => compose (simple (.core m0)) (maxWithSimple ax1 m1)

/-- The four results of `compose_core_max_with` on a core morphism after an
implication. -/
def composeAndMaxCoreImplyConst (dst : Obj) (m0 : CoreMorph b dst .disallowed r) (c0 : b.El)
    (ax1 : Axis b q) (m1 : SimpleMorph a q .disallowed r) : Morph a dst .disallowed r :=
  match dst, r, m0, m1, CoreMorph.composeCoreMaxWith m0 ax1 with
  | _, _, _, m1, @CoreMorph.ComposeAndMaxResult.andMaxCore _ obj0 _ _ ax1' m0' =>
    maxWithSimple ax1' (SimpleMorph.comp obj0 (.coreImplyConst m0' (ax1.proj c0)) m1)
  | _, _, _, _, .constMaxCore => constMax a
  | _, _, _, m1, .andMaxId ax1' =>
    maxWithSimple ax1' (SimpleMorph.comp q (.implyConst (ax1.proj c0)) m1)
  | _, _, m0, m1, .disallowed => compose (simple (.coreImplyConst m0 c0)) (maxWithSimple ax1 m1)

def composeSimpleMaxWithSimple (dst : Obj) :
    SimpleMorph b dst .disallowed r → Axis b q → SimpleMorph a q .disallowed r →
      Morph a dst .disallowed r
  | .id, ax1, m1 => maxWithSimple ax1 m1
  | .core m0, ax1, m1 => composeAndMaxCore dst m0 ax1 m1
  | .implyConst c0, ax1, m1 =>
    maxWithSimple ax1 (SimpleMorph.comp q (.implyConst (ax1.proj c0)) m1)
  | .coreImplyConst m0 c0, ax1, m1 => composeAndMaxCoreImplyConst dst m0 c0 ax1 m1
  | .meetConstCore c0 m0, ax1, m1 =>
    compose (simple (.meetConstCore c0 m0)) (maxWithSimple ax1 m1)
  | .meetConst c0, ax1, m1 => compose (simple (.meetConst c0)) (maxWithSimple ax1 m1)
  | .compose mb ma, ax1, m1 => compose (simple (.compose mb ma)) (maxWithSimple ax1 m1)

/-- The four results of `compose_core_min_with` on a core morphism. -/
def composeAndMinCore (dst : Obj) (m0 : CoreMorph b dst l .disallowed) (ax1 : Axis b q)
    (m1 : SimpleMorph a q l .disallowed) : Morph a dst l .disallowed :=
  match dst, l, m0, m1, CoreMorph.composeCoreMinWith m0 ax1 with
  | _, _, _, m1, @CoreMorph.ComposeAndMinResult.andMinCore _ obj0 _ _ ax1' m0' =>
    minWithSimple ax1' (SimpleMorph.comp obj0 (.core m0') m1)
  | _, _, _, _, .constMinCore => constMin a
  | _, _, _, m1, .andMinId ax1' => minWithSimple ax1' m1
  | _, _, m0, m1, .disallowed => compose (simple (.core m0)) (minWithSimple ax1 m1)

/-- The four results of `compose_core_min_with` on a core morphism under a
meet. -/
def composeAndMinMeetConstCore (dst : Obj) (c0 : dst.El) (m0 : CoreMorph b dst l .disallowed)
    (ax1 : Axis b q) (m1 : SimpleMorph a q l .disallowed) : Morph a dst l .disallowed :=
  match dst, l, c0, m0, m1, CoreMorph.composeCoreMinWith m0 ax1 with
  | _, _, c0, _, m1, @CoreMorph.ComposeAndMinResult.andMinCore _ obj0 _ _ ax1' m0' =>
    minWithSimple ax1' (SimpleMorph.comp obj0 (.meetConstCore (ax1'.proj c0) m0') m1)
  | _, _, _, _, _, .constMinCore => constMin a
  | _, _, c0, _, m1, .andMinId ax1' =>
    minWithSimple ax1' (SimpleMorph.comp q (.meetConst (ax1'.proj c0)) m1)
  | _, _, c0, m0, m1, .disallowed => compose (simple (.meetConstCore c0 m0)) (minWithSimple ax1 m1)

def composeSimpleMinWithSimple (dst : Obj) :
    SimpleMorph b dst l .disallowed → Axis b q → SimpleMorph a q l .disallowed →
      Morph a dst l .disallowed
  | .id, ax1, m1 => minWithSimple ax1 m1
  | .core m0, ax1, m1 => composeAndMinCore dst m0 ax1 m1
  | .meetConst c0, ax1, m1 =>
    minWithSimple ax1 (SimpleMorph.comp q (.meetConst (ax1.proj c0)) m1)
  | .meetConstCore c0 m0, ax1, m1 => composeAndMinMeetConstCore dst c0 m0 ax1 m1
  | .implyConst c0, ax1, m1 => compose (simple (.implyConst c0)) (minWithSimple ax1 m1)
  | .coreImplyConst m0 c0, ax1, m1 =>
    compose (simple (.coreImplyConst m0 c0)) (minWithSimple ax1 m1)
  | .compose mb ma, ax1, m1 => compose (simple (.compose mb ma)) (minWithSimple ax1 m1)

/-! The source closes the remaining cases of `compose` with refutation
cases, on the ground that a simple morphism never leads from a product to
an axis or back. It can refute every simple morphism but `Compose`, which
it maps to a composition. -/

/-- Whether an object is a product of axes. -/
def isProduct : Obj → Bool
  | .monadicOp => true
  | .comonadicWith _ => true
  | _ => false

theorem isProduct_of_axis {t : Obj} : Axis t p → isProduct t = true ∧ isProduct p = false
  | .areality => ⟨rfl, rfl⟩
  | .forkable => ⟨rfl, rfl⟩
  | .yielding => ⟨rfl, rfl⟩
  | .linearity => ⟨rfl, rfl⟩
  | .statefulness => ⟨rfl, rfl⟩
  | .portability => ⟨rfl, rfl⟩
  | .uniqueness => ⟨rfl, rfl⟩
  | .visibility => ⟨rfl, rfl⟩
  | .contention => ⟨rfl, rfl⟩
  | .staticity => ⟨rfl, rfl⟩

theorem isProduct_of_core (m : CoreMorph a b l r) : isProduct a = isProduct b := by
  cases m <;> rfl

theorem isProduct_of_simple (m : SimpleMorph a b l r) : isProduct a = isProduct b := by
  induction m with
  | id => rfl
  | core m => exact isProduct_of_core m
  | meetConst _ | implyConst _ => rfl
  | meetConstCore _ m | coreImplyConst m _ => exact isProduct_of_core m
  | compose _ _ ihb iha => exact iha.trans ihb

/-- There is no simple morphism from a product to an axis. -/
theorem not_product_to_axis {dst : Obj} (ax0 : Axis dst q0) (m : SimpleMorph b q0 l r)
    (ax1 : Axis b q1) : False := by
  have h := isProduct_of_simple m
  rw [(isProduct_of_axis ax1).1, (isProduct_of_axis ax0).2] at h
  cases h

/-- There is no simple morphism from an axis to a product. -/
theorem not_axis_to_product (ax0 : Axis b q0) (m : SimpleMorph q1 b l r) (ax1 : Axis a q1) :
    False := by
  have h := isProduct_of_simple m
  rw [(isProduct_of_axis ax1).2, (isProduct_of_axis ax0).1] at h
  cases h

def refuteComposeAndWith (dst : Obj) (ax0 : Axis dst q0) (m0' : SimpleMorph b q0 l r)
    (ax1 : Axis b q1) (m0 : Morph b dst l r) (m1 : Morph a b l r) : Morph a dst l r :=
  match l, r, m0', m0, m1 with
  | _, _, .compose _ _, m0, m1 => compose m0 m1
  | _, _, _, _, _ => (not_product_to_axis ax0 m0' ax1).elim

/-- The case `_, Simple_proj (Compose _, _, _)` of `compose` and the three
refutations before it. -/
def refuteComposeProj (dst : Obj) (ax0 : Axis b q0) (m1' : SimpleMorph q1 b l r)
    (ax1 : Axis a q1) (m0 : Morph b dst l r) (m1 : Morph a b l r) : Morph a dst l r :=
  match l, r, m1', m0, m1 with
  | _, _, .compose _ _, m0, m1 => compose m0 m1
  | _, _, _, _, _ => (not_axis_to_product ax0 m1' ax1).elim

/-- `(Simple_proj, Max_with_simple)`. -/
def composeProjMaxWith (dst : Obj) (m0 : SimpleMorph p dst .disallowed r) (ax0 : Axis b p)
    (ax1 : Axis b q) (m1 : SimpleMorph a q .disallowed r) : Morph a dst .disallowed r :=
  match p, q, m0, m1, ax0.equal ax1 with
  | _, _, m0, m1, .isEq => simple (m0.comp dst m1)
  | _, _, m0, _, .isNotEq => constMaxOrApply dst m0 a

/-- `(Simple_proj, Min_with_simple)`. -/
def composeProjMinWith (dst : Obj) (m0 : SimpleMorph p dst l .disallowed) (ax0 : Axis b p)
    (ax1 : Axis b q) (m1 : SimpleMorph a q l .disallowed) : Morph a dst l .disallowed :=
  match p, q, m0, m1, ax0.equal ax1 with
  | _, _, m0, m1, .isEq => simple (m0.comp dst m1)
  | _, _, m0, _, .isNotEq => constMinOrApply dst m0 a

/-- `(Max_with_simple, Simple_proj)`. -/
def composeMaxWithProj (dst : Obj) (ax0 : Axis dst q) (m0 : SimpleMorph b q .disallowed r)
    (m1 : SimpleMorph p b .disallowed r) (ax1 : Axis a p) : Morph a dst .disallowed r :=
  match r, m0, m1, (m0.comp q m1).maybeAllowedRight with
  | _, _, _, .allowedRight m0m1 => allowRight (simple (SimpleMorph.liftMax a dst m0m1 ax1 ax0))
  | _, m0, m1, .notAllowedRight => compose (maxWithSimple ax0 m0) (simpleProj m1 ax1)

/-- `(Min_with_simple, Simple_proj)`. -/
def composeMinWithProj (dst : Obj) (ax0 : Axis dst q) (m0 : SimpleMorph b q l .disallowed)
    (m1 : SimpleMorph p b l .disallowed) (ax1 : Axis a p) : Morph a dst l .disallowed :=
  match l, m0, m1, (m0.comp q m1).maybeAllowedLeft with
  | _, _, _, .allowedLeft m0m1 => allowLeft (simple (SimpleMorph.liftMin a dst m0m1 ax1 ax0))
  | _, m0, m1, .notAllowedLeft => compose (minWithSimple ax0 m0) (simpleProj m1 ax1)

/-- `(Min_with_simple, Const_min)`. -/
def composeMinWithConstMin (dst : Obj) (ax0 : Axis dst q) (m0 : SimpleMorph b q l .disallowed)
    (obj1 : Obj) : Morph obj1 dst l .disallowed :=
  match l, m0, m0.maybeAllowedLeft with
  | _, _, .allowedLeft _ => constMin obj1
  | _, m0, .notAllowedLeft => const obj1 (minWith dst ax0 (m0.apply q b.min))

/-- `(Max_with_simple, Const_max)`. -/
def composeMaxWithConstMax (dst : Obj) (ax0 : Axis dst q) (m0 : SimpleMorph b q .disallowed r)
    (obj1 : Obj) : Morph obj1 dst .disallowed r :=
  match r, m0, m0.maybeAllowedRight with
  | _, _, .allowedRight _ => constMax obj1
  | _, m0, .notAllowedRight => const obj1 (maxWith dst ax0 (m0.apply q b.max))

/-- `compose` of `Lattices_mono`. -/
def comp (dst : Obj) : Morph b dst l r → Morph a b l r → Morph a dst l r
  | simple m0, simple m1 => simple (m0.comp dst m1)
  | constMax _, _ => constMax a
  | constMin _, _ => constMin a
  | const _ c, _ => const a c
  | simple m0, simpleProj m1 ax1 => simpleProj (m0.comp dst m1) ax1
  | simpleProj m0 ax0, simple m1 => composeSimpleProjWithSimple dst m0 ax0 m1
  | @maxWithSimple _ q _ _ ax0 m0, simple m1 => maxWithSimple ax0 (m0.comp q m1)
  | simple m0, maxWithSimple ax1 m1 => composeSimpleMaxWithSimple dst m0 ax1 m1
  | @minWithSimple _ q _ _ ax0 m0, simple m1 => minWithSimple ax0 (m0.comp q m1)
  | simple m0, minWithSimple ax1 m1 => composeSimpleMinWithSimple dst m0 ax1 m1
  | simpleProj m0 ax0, maxWithSimple ax1 m1 => composeProjMaxWith dst m0 ax0 ax1 m1
  | simpleProj m0 ax0, minWithSimple ax1 m1 => composeProjMinWith dst m0 ax0 ax1 m1
  | maxWithSimple ax0 m0, simpleProj m1 ax1 => composeMaxWithProj dst ax0 m0 m1 ax1
  | minWithSimple ax0 m0, simpleProj m1 ax1 => composeMinWithProj dst ax0 m0 m1 ax1
  | simple m0, constMax obj1 => constMaxOrApply dst m0 obj1
  | simple m0, constMin obj1 => constMinOrApply dst m0 obj1
  | simpleProj m0 _, constMax obj1 => constMaxOrApply dst m0 obj1
  | simpleProj m0 _, constMin obj1 => constMinOrApply dst m0 obj1
  | @minWithSimple _ q _ _ ax0 m0, constMax obj1 =>
    const obj1 (minWith dst ax0 (m0.apply q b.max))
  | minWithSimple ax0 m0, constMin obj1 => composeMinWithConstMin dst ax0 m0 obj1
  | maxWithSimple ax0 m0, constMax obj1 => composeMaxWithConstMax dst ax0 m0 obj1
  | @maxWithSimple _ q _ _ ax0 m0, constMin obj1 =>
    const obj1 (maxWith dst ax0 (m0.apply q b.min))
  | m0, const obj1 c1 => const obj1 (m0.apply dst c1)
  | m0, compose m1 m2 => compose (compose m0 m1) m2
  | compose m0 m1, m2 => compose (compose m0 m1) m2
  | m0@(simpleProj _ ax0), m1@(simpleProj m1' ax1) => refuteComposeProj dst ax0 m1' ax1 m0 m1
  | m0@(maxWithSimple ax0 m0'), m1@(maxWithSimple ax1 _) =>
    refuteComposeAndWith dst ax0 m0' ax1 m0 m1
  | m0@(maxWithSimple ax0 m0'), m1@(minWithSimple ax1 _) =>
    refuteComposeAndWith dst ax0 m0' ax1 m0 m1
  | m0@(minWithSimple ax0 m0'), m1@(maxWithSimple ax1 _) =>
    refuteComposeAndWith dst ax0 m0' ax1 m0 m1
  | m0@(minWithSimple ax0 m0'), m1@(minWithSimple ax1 _) =>
    refuteComposeAndWith dst ax0 m0' ax1 m0 m1

end Morph

end Oxcaml.Typing
