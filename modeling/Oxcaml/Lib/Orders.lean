/-
Oxcaml.Lib.Orders — the comparison of a linear order, as the ordered maps of the standard
library and `Finset.sort` ask for it.

Each instance names what instance search puts together from several others.
-/
import Mathlib.Data.Finset.Sort
import Mathlib.Data.List.Lex
import Std.Data.ExtTreeMap

namespace Oxcaml.Lib

variable {ν : Type} [LinearOrder ν]

instance transCmp_compare : Std.TransCmp (compare : ν → ν → Ordering) := inferInstance

instance transOrd_list : Std.TransOrd (List ν) := inferInstance

instance isTrans_le : IsTrans ν fun x y => x ≤ y := inferInstance

instance antisymm_le : Std.Antisymm fun x y : ν => x ≤ y := inferInstance

end Oxcaml.Lib
