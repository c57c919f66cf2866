/-
Oxcaml.Backend.Comballoc — `backend/cfg/cfg_comballoc.ml`: allocations of one
block are combined.

A block body is a list, and the cell where a scan stops is what is left of the
list; the source changes the cells of a doubly linked list in place, all of them
between the first allocation and the cell where the scan stops. An array access out
of bounds and the fatal error are the constructors of `Exn`. Sizes do not
overflow.

§2 is the machine: registers, the two allocation pointers, and the rest of the
state. An allocation moves its pointer down and returns the address of the block.
What the other instructions do is arbitrary, but only polls and the instructions
that stop every scan may read or write both pointers, and only region
instructions the local one.
-/
import Oxcaml.Backend.Cfg

set_option linter.all false

namespace Oxcaml.Backend.Cfg.Comballoc

open BitVec (ofInt)

variable {R P D : Type}

/-! ## §1 The pass -/

inductive Exn
  | indexOutOfBounds
  | fatal
  deriving DecidableEq

/-- `Config.max_young_wosize` and `Arch.size_addr`. -/
structure Config where
  maxYoungWosize : Int
  sizeAddr : Int

abbrev Instr (R P D : Type) := Instruction R (Basic P D)

/-- The first allocation of a body, and what stands before and after it. -/
structure Allocation (R P D : Type) where
  before : List (Instr R P D)
  bytes : Int
  dbginfo : List D
  mode : AllocMode
  instr : Instr R P D
  after : List (Instr R P D)

def findNextAllocation : List (Instr R P D) → Option (Allocation R P D)
  | [] => none
  | instr :: rest =>
    match instr.desc with
    | .op (.alloc bytes dbginfo mode) => some ⟨[], bytes, dbginfo, mode, instr, rest⟩
    | _ => (findNextAllocation rest).map fun a => { a with before := instr :: a.before }

/-- The match of `loop`: the size to go on with, or `none` where the scan stops. -/
def nextSize (config : Config) (currMode : AllocMode) (currSize : Int) (instr : Instr R P D) :
    Option Int :=
  match instr.desc with
  | .op (.alloc bytes _ mode) =>
    if mode = currMode ∧ (currSize + bytes ≤ (config.maxYoungWosize + 1) * config.sizeAddr ∨
        mode = .localMode) then some (currSize + bytes)
    else none
  | .op .beginRegion | .op .endRegion =>
    match currMode with
    | .localMode => none
    | .heap => some currSize
  | .op .poll => none
  | .reloadretaddr | .poptrap _ | .prologue | .epilogue | .pushtrap _ | .stackCheck _ => none
  | .op _ => some currSize

/-- The instructions that are walked over, and those from `next_cell` on. Every
allocation that is walked over is compatible. -/
def findCompatibleAllocations (config : Config) (currMode : AllocMode) :
    List (Instr R P D) → Int → List (Instr R P D) × List (Instr R P D)
  | [], _ => ([], [])
  | instr :: rest, currSize =>
    match nextSize config currMode currSize instr with
    | none => ([], instr :: rest)
    | some size =>
      let (passed, next) := findCompatibleAllocations config currMode rest size
      (instr :: passed, next)

def isAlloc (instr : Instr R P D) : Bool :=
  match instr.desc with
  | .op (.alloc _ _ _) => true
  | _ => false

/-- `instr.res.(0)`. -/
def res0 (instr : Instr R P D) : Except Exn R :=
  match instr.res with
  | r :: _ => pure r
  | [] => throw .indexOutOfBounds

/-- What the fold over the other allocations accumulates. -/
structure Others (R D : Type) where
  size : Int
  dbginfos : List D
  prevRes0 : R

/-- Every allocation becomes an offset from the result of the one before it. -/
def replaceOthers : List (Instr R P D) → Others R D → Except Exn (List (Instr R P D) × Others R D)
  | [], acc => pure ([], acc)
  | instr :: rest, acc =>
    match instr.desc with
    | .op (.alloc bytes dbginfo _) => do
      let r ← res0 instr
      let (rest, result) ← replaceOthers rest ⟨acc.size + bytes, dbginfo ++ acc.dbginfos, r⟩
      pure ({ instr with desc := .op (.intopImm .iadd (-bytes)), arg := [acc.prevRes0] } :: rest,
        result)
    | _ => do
      let (rest, result) ← replaceOthers rest acc
      pure (instr :: rest, result)

variable {body : List (Instr R P D)}

/-- The first allocation splits the body. -/
theorem findNextAllocation_some {a : Allocation R P D} (h : findNextAllocation body = some a) :
    body = a.before ++ a.instr :: a.after ∧ (∀ i ∈ a.before, isAlloc i = false) ∧
      a.instr.desc = .op (.alloc a.bytes a.dbginfo a.mode) := by
  induction body generalizing a with
  | nil => cases h
  | cons instr rest ih =>
    rw [findNextAllocation] at h
    split at h
    · rename_i hdesc
      cases h
      exact ⟨rfl, fun _ hi => (nomatch hi), hdesc⟩
    rename_i hdesc
    obtain ⟨a', ha', rfl⟩ := Option.map_eq_some_iff.1 h
    obtain ⟨hbody, hbefore, hinstr⟩ := ih ha'
    refine ⟨congrArg (instr :: ·) hbody, fun i hi => ?_, hinstr⟩
    rcases List.mem_cons.1 hi with rfl | hi
    · rw [isAlloc]
      split
      · exact absurd ‹_› (hdesc _ _ _)
      · rfl
    · exact hbefore i hi

theorem findCompatibleAllocations_append (config : Config) (mode : AllocMode)
    (body : List (Instr R P D)) (size : Int) :
    (findCompatibleAllocations config mode body size).1 ++
      (findCompatibleAllocations config mode body size).2 = body := by
  induction body generalizing size with
  | nil => rfl
  | cons instr rest ih =>
    rw [findCompatibleAllocations]
    split
    · rfl
    · exact congrArg (instr :: ·) (ih _)

theorem length_next {first : Allocation R P D}
    (h : findNextAllocation body = some first) (config : Config) :
    (findCompatibleAllocations config first.mode first.after first.bytes).2.length <
      body.length := by
  obtain ⟨hbody, -, -⟩ := findNextAllocation_some h
  have happend := congrArg List.length
    (findCompatibleAllocations_append config first.mode first.after first.bytes)
  rw [hbody]
  rw [List.length_append] at happend
  rw [List.length_append, List.length_cons]
  omega

/-- The body and the next instruction identifier, `instr_id`. -/
def combine (config : Config) (instrId : Nat) (body : List (Instr R P D)) :
    Except Exn (List (Instr R P D) × Nat) :=
  match _h : findNextAllocation body with
  | none => pure (body, instrId)
  | some first =>
    if first.dbginfo.length ≠ 1 then throw .fatal
    else
      let passed := (findCompatibleAllocations config first.mode first.after first.bytes).1
      let next := (findCompatibleAllocations config first.mode first.after first.bytes).2
      if passed.any isAlloc then do
        let r0 ← res0 first.instr
        let (passed, others) ← replaceOthers passed ⟨0, [], r0⟩
        let combined := { first.instr with
          desc := .op (.alloc (first.bytes + others.size) (others.dbginfos ++ first.dbginfo)
            first.mode) }
        let adjusted := { first.instr with
          desc := .op (.intopImm .iadd others.size), arg := [r0], res := [r0], id := instrId }
        let (next, instrId) ← combine config (instrId + 1) next
        pure (first.before ++ combined :: adjusted :: passed ++ next, instrId)
      else do
        let (next, instrId) ← combine config instrId next
        pure (first.before ++ first.instr :: passed ++ next, instrId)
termination_by body.length
decreasing_by all_goals exact length_next ‹_› config

/-! ## §2 The machine -/

/-- Registers hold words, and values of other sizes. -/
inductive Value (X : Type)
  | word (w : BitVec 64)
  | wide (x : X)

structure State (R X σ : Type) where
  regs : R → Value X
  youngPtr : BitVec 64
  localSp : BitVec 64
  rest : σ

def isRegion (desc : Basic P D) : Bool :=
  match desc with
  | .op .beginRegion | .op .endRegion => true
  | _ => false

/-- Polls, and what stops a scan whatever the mode is. -/
def isBarrier (desc : Basic P D) : Bool :=
  match desc with
  | .op .poll => true
  | .reloadretaddr | .poptrap _ | .prologue | .epilogue | .pushtrap _ | .stackCheck _ => true
  | .op _ => false

/-- What the instructions besides allocations do, with the values of their arguments:
the values of their results, and the new state. -/
structure Machine (P D X σ : Type) where
  localTop : BitVec 64
  plain : Basic P D → List (Value X) → σ → List (Value X) × σ
  region : Basic P D → List (Value X) → BitVec 64 → σ → List (Value X) × BitVec 64 × σ
  barrier : Basic P D → List (Value X) → BitVec 64 → BitVec 64 → σ →
    List (Value X) × BitVec 64 × BitVec 64 × σ

variable {X σ : Type} [DecidableEq R]

/-- The results are written one after the other. -/
def write (regs : R → Value X) : List R → List (Value X) → R → Value X
  | r :: res, v :: values => write (Function.update regs r v) res values
  | _, _ => regs

namespace State

/-- The allocation pointer of the mode goes down. -/
def lower (mode : AllocMode) (bytes : Int) (s : State R X σ) : State R X σ :=
  match mode with
  | .heap => { s with youngPtr := s.youngPtr - ofInt 64 bytes }
  | .localMode => { s with localSp := s.localSp - ofInt 64 bytes }

/-- The address of the block that starts at the allocation pointer. -/
def address (config : Config) (M : Machine P D X σ) (mode : AllocMode) (s : State R X σ) :
    BitVec 64 :=
  match mode with
  | .heap => s.youngPtr + ofInt 64 config.sizeAddr
  | .localMode => s.localSp + M.localTop + ofInt 64 config.sizeAddr

end State

variable (config : Config) (M : Machine P D X σ)

/-- An instruction whose description is `desc`. -/
def execDesc (desc : Basic P D) (arg res : List R) (s : State R X σ) : State R X σ :=
  let values := arg.map s.regs
  let plain :=
    let (results, rest) := M.plain desc values s.rest
    { s with regs := write s.regs res results, rest := rest }
  match desc with
  | .op (.alloc bytes _ mode) =>
    let s' := s.lower mode bytes
    { s' with regs := write s.regs res [.word (s'.address config M mode)] }
  | .op (.intopImm .iadd n) =>
    match values with
    | [.word w] => { s with regs := write s.regs res [.word (w + ofInt 64 n)] }
    | _ => plain
  | _ =>
    if isRegion desc then
      let (results, localSp, rest) := M.region desc values s.localSp s.rest
      { s with regs := write s.regs res results, localSp := localSp, rest := rest }
    else if isBarrier desc then
      let (results, youngPtr, localSp, rest) :=
        M.barrier desc values s.youngPtr s.localSp s.rest
      ⟨write s.regs res results, youngPtr, localSp, rest⟩
    else plain

def exec (instr : Instr R P D) (s : State R X σ) : State R X σ :=
  execDesc config M instr.desc instr.arg instr.res s

def run (body : List (Instr R P D)) (s : State R X σ) : State R X σ :=
  body.foldl (fun s instr => exec config M instr s) s

end Oxcaml.Backend.Cfg.Comballoc
