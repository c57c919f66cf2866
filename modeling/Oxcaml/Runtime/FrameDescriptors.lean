/-
Oxcaml.Runtime.FrameDescriptors — the table of the frame descriptors,
`runtime/frame_descriptors.c`.

A frame table is its address and the return addresses that `frametable_iter_next` yields,
in their order; the pointer to a descriptor is the address of its table and its position
in it. A linked list of frame tables is a list, and a slot whose `fd` is NULL is `none`.
The fields of type `int` wrap around; `intnat` counts descriptors in memory and does not
overflow. A loop over the slots has as fuel the number of the slots, so that a loop
without an end is `outOfFuel`. Allocation succeeds.
-/
import Oxcaml.Lib.Arrays
import Mathlib.Data.Nat.Bitwise

namespace Oxcaml.Runtime.FrameDescriptors

inductive Exn
  | assertFailure
  | outOfBounds
  | nullDereference
  | outOfFuel
  deriving DecidableEq

structure Frametable where
  address : ℕ
  retaddrs : List ℕ
  deriving DecidableEq

/-- A pointer to a descriptor. -/
structure FrameDescr where
  frametable : ℕ
  position : ℕ
  deriving DecidableEq

structure FrameDescrEntry where
  retaddr : ℕ
  fd : FrameDescr
  deriving DecidableEq

abbrev Slots := List (Option FrameDescrEntry)

structure FrameDescrs where
  numDescr : ℤ
  mask : ℤ
  descriptors : Slots
  frametables : List Frametable
  zombies : List Frametable
  deriving DecidableEq

def read (descriptors : Slots) (h : ℕ) : Except Exn (Option FrameDescrEntry) :=
  Lib.read .outOfBounds descriptors h

def write (descriptors : Slots) (h : ℕ) (entry : Option FrameDescrEntry) : Except Exn Slots :=
  Lib.write .outOfBounds descriptors h entry

/-- Conversion to `int`. -/
def int (x : ℤ) : ℤ := Int.bmod x (2 ^ 32)

/-- Conversion of an `int` to `uintnat`. -/
def uintnat (x : ℤ) : ℕ := (x % 2 ^ 64).toNat

def hashRetaddr (addr : ℕ) (mask : ℤ) : ℕ :=
  (addr * 52437813 % 2 ^ 64 / 2 ^ 5) &&& uintnat mask

/-- `(h+1) & mask`. -/
def nextSlot (mask : ℤ) (h : ℕ) : ℕ := (h + 1) % 2 ^ 64 &&& uintnat mask

/-- The descriptors of a table, as `frametable_iter_next` yields them. -/
def frametableIter (tbl : Frametable) : List FrameDescrEntry :=
  tbl.retaddrs.zipIdx.map fun (retaddr, i) => ⟨retaddr, ⟨tbl.address, i⟩⟩

def countDescriptors (list : List Frametable) : ℤ :=
  (list.map fun cur => (cur.retaddrs.length : ℤ)).sum

def isPowerOf2 (x : ℤ) : Bool := 0 < x && x.toNat &&& (x - 1).toNat == 0

def capacity (table : FrameDescrs) : Except Exn ℤ :=
  let capacity := int (table.mask + 1)
  if capacity = 0 ∨ isPowerOf2 capacity then pure capacity else throw .assertFailure

/-! ## §1 The hash table -/

/-- The loops that go from slot to slot until they find one that they stop at. -/
def probe (mask : ℤ) (stop : Option FrameDescrEntry → Bool) (descriptors : Slots) :
    ℕ → ℕ → Except Exn ℕ
  | 0, _ => throw .outOfFuel
  | fuel + 1, h => do
    if stop (← read descriptors h) then pure h
    else probe mask stop descriptors fuel (nextSlot mask h)

/-- The body of the loop of `fill_hashtable`. -/
def fillEntry (mask : ℤ) (descriptors : Slots) (entry : FrameDescrEntry) : Except Exn Slots := do
  let h ← probe mask Option.isNone descriptors descriptors.length (hashRetaddr entry.retaddr mask)
  write descriptors h (some entry)

def fillHashtable (mask : ℤ) (descriptors : Slots) (newFrametables : List Frametable) :
    Except Exn Slots :=
  newFrametables.foldlM (fun descriptors cur => (frametableIter cur).foldlM (fillEntry mask)
    descriptors) descriptors

/-- The loop from `r2` on; slot `j` is the hole. -/
def removeLoop (mask : ℤ) : ℕ → Slots → ℕ → ℕ → Except Exn Slots
  | 0, _, _, _ => throw .outOfFuel
  | fuel + 1, descriptors, j, i => do
    let i := nextSlot mask i
    match ← read descriptors i with
    | none => pure descriptors
    | some entry =>
      let r := hashRetaddr entry.retaddr mask
      if (j < r ∧ r ≤ i) ∨ (i < j ∧ j < r) ∨ (r ≤ i ∧ i < j) then
        removeLoop mask fuel descriptors j i
      else do
        let descriptors ← write descriptors j (some entry)
        let descriptors ← write descriptors i none
        removeLoop mask fuel descriptors i i

def removeEntry (mask : ℤ) (descriptors : Slots) (entry : FrameDescrEntry) : Except Exn Slots := do
  let i ← probe mask (fun slot => slot.any (·.fd = entry.fd)) descriptors descriptors.length
    (hashRetaddr entry.retaddr mask)
  let descriptors ← write descriptors i none
  removeLoop mask descriptors.length descriptors i i

def cleanFrameDescriptors (table : FrameDescrs) : Except Exn FrameDescrs := do
  let descriptors ← table.zombies.foldlM (fun descriptors cur =>
    (frametableIter cur).foldlM (removeEntry table.mask) descriptors) table.descriptors
  pure { table with
    descriptors
    numDescr := int (table.numDescr - countDescriptors table.zombies)
    zombies := [] }

/-! ## §2 Registration -/

/-- `while (tblsize < 2 * num_descr) tblsize *= 2`. -/
def growTblsize (numDescr : ℤ) : ℕ → ℕ → Except Exn ℕ
  | 0, _ => throw .outOfFuel
  | fuel + 1, tblsize =>
    if tblsize < 2 * numDescr then growTblsize numDescr fuel (tblsize * 2) else pure tblsize

def addFrameDescriptors (table : FrameDescrs) (newFrametables : List Frametable) :
    Except Exn FrameDescrs := do
  if newFrametables = [] then throw .assertFailure
  let increase := countDescriptors newFrametables
  let tblsize ← capacity table
  if tblsize < (table.numDescr + increase) * 2 then
    let newFrametables := newFrametables ++ table.frametables
    let numDescr := table.numDescr + increase
    let tblsize ← growTblsize numDescr (2 * numDescr.toNat + 1) 4
    let mask := int (tblsize - 1)
    let descriptors ← fillHashtable mask (List.replicate tblsize none) newFrametables
    pure { table with numDescr := int numDescr, mask, descriptors, frametables := newFrametables }
  else
    let descriptors ← fillHashtable table.mask table.descriptors newFrametables
    pure { table with
      numDescr := int (table.numDescr + increase)
      descriptors
      frametables := newFrametables ++ table.frametables }

/-- The start value of `current_frame_descrs`. -/
def start : FrameDescrs := ⟨0, -1, [], [], []⟩

/-- `init_frame_descriptors`, when `tables` is the array `caml_frametable`. -/
def initFrameDescriptors (tables : List Frametable) : Except Exn FrameDescrs :=
  addFrameDescriptors start (tables.foldl (fun frametables table => table :: frametables) [])

def registerFrametables (table : FrameDescrs) (tables : List Frametable) :
    Except Exn FrameDescrs := do
  let newFrametables := tables.foldl (fun newFrametables table => table :: newFrametables) []
  let table ← cleanFrameDescriptors table
  addFrameDescriptors table newFrametables

/-! ## §3 Unregistration -/

/-- The loop of `remove_frame_descriptors` over what is left of the list: what stays in the
list, and the zombies. It has been `resumed` without a test for the end of the list when it
has just moved a table. The requests are the first `ntables` entries of the array. -/
def removeFrametables : Bool → List Frametable → List ℕ → List Frametable →
    Except Exn (List Frametable × List Frametable)
  | true, [], _, _ => throw .nullDereference
  | false, [], _, zombies => pure ([], zombies)
  | _, current :: next, frametables, zombies =>
    match frametables.idxOf? current.address with
    | none => do
      let (kept, zombies) ← removeFrametables false next frametables zombies
      pure (current :: kept, zombies)
    | some i =>
      let ntables := frametables.length - 1
      if ntables = 0 then pure (next, current :: zombies)
      else
        -- the last request takes the place of the one that is done
        removeFrametables true next ((frametables.set i (frametables.getD ntables 0)).take ntables)
          (current :: zombies)

def removeFrameDescriptors (table : FrameDescrs) (frametables : List ℕ) :
    Except Exn FrameDescrs := do
  let (kept, zombies) ← removeFrametables false table.frametables frametables table.zombies
  pure { table with frametables := kept, zombies }

/-! ## §4 Search and histories -/

/-- `none` is NULL. -/
def findFrameDescr (fds : FrameDescrs) (pc : ℕ) : Except Exn (Option FrameDescr) := do
  let h ← probe fds.mask (fun slot => slot.all (·.retaddr = pc)) fds.descriptors
    fds.descriptors.length (hashRetaddr pc fds.mask)
  pure ((← read fds.descriptors h).map (·.fd))

inductive Event
  | register (tables : List Frametable)
  | unregister (frametables : List ℕ)

def step (table : FrameDescrs) : Event → Except Exn FrameDescrs
  | .register tables => registerFrametables table tables
  | .unregister frametables => removeFrameDescriptors table frametables

def run (events : List Event) : Except Exn FrameDescrs := events.foldlM step start

end Oxcaml.Runtime.FrameDescriptors
