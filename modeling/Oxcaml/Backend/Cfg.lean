/-
Oxcaml.Backend.Cfg — the control flow graph of `backend/operation.ml`,
`backend/cfg/cfg_intf.ml` and `backend/cfg/cfg.ml`.

A register is an element of `R`. What an operation carries besides is in one
payload of type `P`, for the operations whose payload no pass here looks at; an
item of allocation debug info is a `D`. The mutable arrays of an instruction are
lists, and its fields that no pass here reads are left out.
-/
import Mathlib.Data.Finset.Basic

namespace Oxcaml.Backend.Cfg

/-! ## §1 Operations -/

/-- `Cmm.Alloc_mode.t`. -/
inductive AllocMode
  | heap
  | localMode
  deriving DecidableEq

inductive IntegerOperation (P : Type)
  | iadd
  | isub
  | imul
  | imulh (payload : P)
  | idiv (payload : P)
  | imod (payload : P)
  | iand
  | ior
  | ixor
  | ilsl
  | ilsr
  | iasr
  | iclz
  | ictz
  | ipopcnt
  | icomp (payload : P)
  deriving DecidableEq

inductive ReinterpretCast (P : Type)
  | intOfValue
  | valueOfInt
  | other (payload : P)
  deriving DecidableEq

inductive Operation (P D : Type)
  | move
  | spill
  | reload
  | constInt (payload : P)
  | constFloat32 (payload : P)
  | constFloat (payload : P)
  | constSymbol (payload : P)
  | constVec128 (payload : P)
  | constVec256 (payload : P)
  | constVec512 (payload : P)
  | constMask (payload : P)
  | stackoffset (n : Int)
  | load (payload : P)
  | store (payload : P)
  | intop (op : IntegerOperation P)
  | int128op (payload : P)
  | intopImm (op : IntegerOperation P) (n : Int)
  | intopAtomic (payload : P)
  | floatop (payload : P)
  | csel (payload : P)
  | reinterpretCast (cast : ReinterpretCast P)
  | staticCast (payload : P)
  | probeIsEnabled (payload : P)
  | isOpaque
  | beginRegion
  | endRegion
  | specific (payload : P)
  | nameForDebugger (payload : P)
  | dlsGet
  | tlsGet
  | domainIndex
  | poll
  | pause
  | alloc (bytes : Int) (dbginfo : List D) (mode : AllocMode)
  deriving DecidableEq

/-! ## §2 Instructions -/

inductive Basic (P D : Type)
  | op (o : Operation P D)
  | reloadretaddr
  | pushtrap (lblHandler : Nat)
  | poptrap (lblHandler : Nat)
  | prologue
  | epilogue
  | stackCheck (maxFrameSizeBytes : Nat)
  deriving DecidableEq

structure Instruction (R A : Type) where
  desc : A
  id : Nat
  arg : List R
  res : List R
  deriving DecidableEq

end Oxcaml.Backend.Cfg
