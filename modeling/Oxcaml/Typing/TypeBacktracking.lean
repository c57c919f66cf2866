/-
Oxcaml.Typing.TypeBacktracking — the mutable type graph and its undo log
(typing/types.ml).

Type nodes, row-field extensions, field kinds, commutation flags,
univars and abbreviation names are mutable, and unification changes them in
place. Every change is logged in a linked list of `changes` cells
whose open end is `trail`; a snapshot is the address of a cell together with the
`last_snapshot` of the moment. Changes of nodes that are younger than the
last snapshot are not logged. `repr` compresses paths and logs that too;
`undo_compress` takes such entries back and unlinks their cells.

The store is a record of maps from addresses to contents. A type node is
known by its `id`. A description is a heap block: it has an address beside
its contents, and `==` compares both. Jkinds, the other forms of descriptions
and the paths of names are parameters, since nothing here looks inside.
`invalid_arg`, `failwith`, a fatal error and `assert false` are errors; fuel bounds the
recursive functions.
-/
import Oxcaml.Lib.LinkedLog
import Mathlib.Data.BitVec

set_option linter.all false

namespace Oxcaml.Typing.Types

open Function (update)

open Oxcaml.Lib

/-! ## Types -/

/-- A type node, by its `id`. -/
abbrev TypeExpr := ℤ

/-- `field_kind`; the variable is given by its address. -/
inductive FieldKind
  | fkVar (k : Nat)
  | fkPublic
  | fkAbsent
  deriving DecidableEq

/-- `commutable`. -/
inductive Commutable
  | cVar (c : Nat)
  | cOk
  deriving DecidableEq

/-- `row_field`; the extension is given by its address. -/
inductive RowField
  | rfPresent (ty : Option TypeExpr)
  | rfEither (noArg : Bool) (argType : List TypeExpr) (matched : Bool) (ext : Nat)
  | rfAbsent

/-- The contents of a description: the forms that the functions below
look at, and all others. -/
inductive Body (J P : Type)
  | tLink (t : TypeExpr)
  | tField (label : String) (kind : FieldKind) (t rest : TypeExpr)
  | tVar (name : Option String) (jkind : J)
  | other (p : P)
  deriving DecidableEq

/-- `type_desc`, a heap block. -/
structure Desc (J P : Type) where
  addr : Nat
  body : Body J P
  deriving DecidableEq

variable {J P A : Type}

/-- What the mutable fields of all nodes and references hold. An empty
`kind` is `FKprivate`, an empty `ext` is `RFnone`, an empty `commu` is `Cunknown`. -/
structure Store (J P A : Type) where
  desc : TypeExpr → Desc J P
  level : TypeExpr → ℤ
  scope : TypeExpr → BitVec 63
  kind : Nat → Option FieldKind
  ext : Nat → Option RowField
  commu : Nat → Option Commutable
  univar : Nat → Option TypeExpr
  name : Nat → Option (A × List TypeExpr)

namespace Store

def setDesc (σ : Store J P A) (ty : TypeExpr) (d : Desc J P) : Store J P A :=
  { σ with desc := update σ.desc ty d }

def setLevel (σ : Store J P A) (ty : TypeExpr) (level : ℤ) : Store J P A :=
  { σ with level := update σ.level ty level }

def setScope (σ : Store J P A) (ty : TypeExpr) (scope : BitVec 63) : Store J P A :=
  { σ with scope := update σ.scope ty scope }

def setKind (σ : Store J P A) (k : Nat) (kind : Option FieldKind) : Store J P A :=
  { σ with kind := update σ.kind k kind }

def setExt (σ : Store J P A) (e : Nat) (ext : Option RowField) : Store J P A :=
  { σ with ext := update σ.ext e ext }

def setCommu (σ : Store J P A) (c : Nat) (commu : Option Commutable) : Store J P A :=
  { σ with commu := update σ.commu c commu }

def setUnivar (σ : Store J P A) (r : Nat) (v : Option TypeExpr) : Store J P A :=
  { σ with univar := update σ.univar r v }

def setName (σ : Store J P A) (r : Nat) (v : Option (A × List TypeExpr)) : Store J P A :=
  { σ with name := update σ.name r v }

end Store

/-- `change`, less the changes that other modules log. -/
inductive Change (J P A : Type)
  | cType (ty : TypeExpr) (desc : Desc J P)
  | cCompress (ty : TypeExpr) (desc d : Desc J P)
  | cLevel (ty : TypeExpr) (level : ℤ)
  | cScope (ty : TypeExpr) (scope : BitVec 63)
  | cName (r : Nat) (v : Option (A × List TypeExpr))
  | cRow (r : Nat)
  | cKind (r : Nat)
  | cCommu (r : Nat)
  | cUniv (r : Nat) (v : Option TypeExpr)

/-- The contents of a `changes ref`: `Change`, `Unchanged` or `Invalid`. -/
abbrev Changes (J P A : Type) := Cell (Change J P A)

/-- The state of the module. `fresh` is the next unused address of a `changes ref`;
`names` and `univars` count the references of the two kinds. The `journal` is
history: it has all changes that were ever logged, the last first,
and no function reads it. -/
structure State (J P A : Type) where
  store : Store J P A
  changes : Nat → Changes J P A
  fresh : Nat
  trail : Nat
  newId : ℤ
  lastSnapshot : ℤ
  names : Nat
  univars : Nat
  journal : List (Change J P A)

inductive Failure
  | invalidArg
  | failwith
  | assertFalse
  | fatalError
  | outOfFuel
  deriving DecidableEq

/-- `log_change`. -/
def logChange (ch : Change J P A) (s : State J P A) : State J P A :=
  { s with
    changes :=
      update (update s.changes s.fresh .unchanged) s.trail (.change ch s.fresh)
    fresh := s.fresh + 1
    trail := s.fresh
    journal := ch :: s.journal }

/-! ## Representatives -/

/-- `field_kind_internal_repr`. -/
def fieldKindInternalRepr (kind : Nat → Option FieldKind) :
    Nat → FieldKind → Except Failure FieldKind
  | 0, _ => .error .outOfFuel
  | fuel + 1, .fkVar k =>
    match kind k with
    | some fk => fieldKindInternalRepr kind fuel fk
    | none => .ok (.fkVar k)
  | _ + 1, .fkPublic => .ok .fkPublic
  | _ + 1, .fkAbsent => .ok .fkAbsent

/-- The node that `repr` goes on to from a description: that of a link, or
the rest of a field whose kind is absent. -/
def Desc.followed (fuel : Nat) (σ : Store J P A) (d : Desc J P) :
    Except Failure (Option TypeExpr) :=
  match d.body with
  | .tLink t => .ok (some t)
  | .tField _ k _ rest => do
    let k ← fieldKindInternalRepr σ.kind fuel k
    pure (if k = .fkAbsent then some rest else none)
  | _ => .ok none

/-- `repr_link`. -/
def reprLink (t : TypeExpr) :
    Nat → Desc J P → TypeExpr → State J P A → Except Failure (TypeExpr × State J P A)
  | 0, _, _, _ => .error .outOfFuel
  | fuel + 1, d, t', s => do
    let d' := s.store.desc t'
    match ← d'.followed fuel s.store with
    | some t'' => reprLink t fuel d' t'' s
    | none =>
      let s := logChange (.cCompress t (s.store.desc t) d) s
      pure (t', { s with store := s.store.setDesc t d })

/-- `repr_link1`. -/
def reprLink1 (fuel : Nat) (t t' : TypeExpr) (s : State J P A) :
    Except Failure (TypeExpr × State J P A) := do
  let d' := s.store.desc t'
  match ← d'.followed fuel s.store with
  | some t'' => reprLink t fuel d' t'' s
  | none => pure (t', s)

/-- `repr`. -/
def repr (fuel : Nat) (t : TypeExpr) (s : State J P A) :
    Except Failure (TypeExpr × State J P A) := do
  match ← (s.store.desc t).followed fuel s.store with
  | some t' => reprLink1 fuel t t' s
  | none => pure (t, s)

/-! ## Mutation -/

def scopeMask : BitVec 63 := (1#63 <<< 27) - 1

def marksMask : BitVec 63 := BitVec.allOnes 63 ^^^ scopeMask

/-- `Transient_expr.set_scope`: the marks stay. -/
def Transient.setScope (ty : TypeExpr) (sc : BitVec 63) (σ : Store J P A) :
    Except Failure (Store J P A) :=
  if sc &&& marksMask ≠ 0 then .error .invalidArg
  else .ok (σ.setScope ty ((σ.scope ty &&& marksMask) ||| sc))

/-- `Transient_expr.set_var_jkind`; the new description gets the address `addr`. -/
def Transient.setVarJkind (addr : Nat) (ty : TypeExpr) (jkind' : J) (σ : Store J P A) :
    Except Failure (Store J P A) :=
  match (σ.desc ty).body with
  | .tVar name _ => .ok (σ.setDesc ty ⟨addr, .tVar name jkind'⟩)
  | _ => .error .fatalError

/-- `proto_newty3`. -/
def newty3 (level : ℤ) (scope : BitVec 63) (desc : Desc J P) (s : State J P A) : State J P A :=
  let id := s.newId + 1
  { s with
    newId := id
    store := ((s.store.setDesc id desc).setLevel id level).setScope id scope }

/-- A new reference that holds a name. -/
def newName (v : Option (A × List TypeExpr)) (s : State J P A) : State J P A :=
  { s with names := s.names + 1, store := s.store.setName s.names v }

/-- A new reference that holds a univar. -/
def newUnivar (v : Option TypeExpr) (s : State J P A) : State J P A :=
  { s with univars := s.univars + 1, store := s.store.setUnivar s.univars v }

/-- `log_type`. -/
def logType (ty : TypeExpr) (s : State J P A) : State J P A :=
  if ty ≤ s.lastSnapshot then logChange (.cType ty (s.store.desc ty)) s else s

/-- `Transient_expr.set_desc`. -/
def setDesc (ty : TypeExpr) (d : Desc J P) (s : State J P A) : State J P A :=
  { s with store := s.store.setDesc ty d }

/-- The variable `ty'` gets the user's name of the variable that was linked to it. -/
def renameVar (addr : Nat) (ty' : TypeExpr) (name : Option String) (jkind' : J)
    (s : State J P A) : State J P A :=
  setDesc ty' ⟨addr, .tVar name jkind'⟩ (logType ty' s)

/-- `link_type`; the link and the renamed variable get the addresses
`addr` and `addr'`. -/
def linkType (fuel addr addr' : Nat) (ty ty' : TypeExpr) (s : State J P A) :
    Except Failure (State J P A) := do
  let (ty, s) ← repr fuel ty s
  let (ty', s) ← repr fuel ty' s
  if ty = ty' then pure s
  else
    let s := logType ty s
    let desc := s.store.desc ty
    let s := setDesc ty ⟨addr, .tLink ty'⟩ s
    match desc.body, (s.store.desc ty').body with
    | .tVar name _, .tVar name' jkind' =>
      match name, name' with
      | some _, none => pure (renameVar addr' ty' name jkind' s)
      | none, some _ => pure s
      | some _, some _ =>
        pure (if s.store.level ty < s.store.level ty' then renameVar addr' ty' name jkind' s else s)
      | none, none => pure s
    | _, _ => pure s

/-- `set_type_desc`. -/
def setTypeDesc [DecidableEq J] [DecidableEq P] (fuel : Nat) (ty : TypeExpr) (td : Desc J P)
    (s : State J P A) : Except Failure (State J P A) := do
  let (ty, s) ← repr fuel ty s
  pure (if td ≠ s.store.desc ty then setDesc ty td (logType ty s) else s)

/-- `set_level`. -/
def setLevel (fuel : Nat) (ty : TypeExpr) (level : ℤ) (s : State J P A) :
    Except Failure (State J P A) := do
  let (ty, s) ← repr fuel ty s
  if level ≠ s.store.level ty then
    let s := if ty ≤ s.lastSnapshot then logChange (.cLevel ty (s.store.level ty)) s else s
    pure { s with store := s.store.setLevel ty level }
  else pure s

/-- `set_scope`. -/
def setScope (fuel : Nat) (ty : TypeExpr) (scope : BitVec 63) (s : State J P A) :
    Except Failure (State J P A) := do
  let (ty, s) ← repr fuel ty s
  let prevScope := s.store.scope ty &&& scopeMask
  if scope ≠ prevScope then
    let s := if ty ≤ s.lastSnapshot then logChange (.cScope ty prevScope) s else s
    let store ← Transient.setScope ty scope s.store
    pure { s with store := store }
  else pure s

/-- `set_var_jkind`. -/
def setVarJkind (fuel addr : Nat) (ty : TypeExpr) (jkind : J) (s : State J P A) :
    Except Failure (State J P A) := do
  let (ty, s) ← repr fuel ty s
  let s := logType ty s
  let store ← Transient.setVarJkind addr ty jkind s.store
  pure { s with store := store }

/-- `set_univar`. -/
def setUnivar (rty : Nat) (ty : TypeExpr) (s : State J P A) : State J P A :=
  let s := logChange (.cUniv rty (s.store.univar rty)) s
  { s with store := s.store.setUnivar rty (some ty) }

/-- `set_name`. -/
def setName (nm : Nat) (v : Option (A × List TypeExpr)) (s : State J P A) : State J P A :=
  let s := logChange (.cName nm (s.store.name nm)) s
  { s with store := s.store.setName nm v }

/-- `link_row_field_ext`. -/
def linkRowFieldExt : Nat → RowField → RowField → State J P A → Except Failure (State J P A)
  | 0, _, _, _ => .error .outOfFuel
  | fuel + 1, .rfEither _ _ _ e, v, s =>
    match s.store.ext e with
    | none =>
      let s := logChange (.cRow e) s
      .ok { s with store := s.store.setExt e (some v) }
    | some rf => linkRowFieldExt fuel rf v s
  | _ + 1, _, _, _ => .error .invalidArg

/-- `link_kind`. -/
def linkKind : Nat → FieldKind → FieldKind → State J P A → Except Failure (State J P A)
  | 0, _, _, _ => .error .outOfFuel
  | fuel + 1, .fkVar rk, k, s =>
    match s.store.kind rk with
    | none => do
      let k ← fieldKindInternalRepr s.store.kind fuel k
      if k ≠ .fkVar rk then
        let s := logChange (.cKind rk) s
        pure { s with store := s.store.setKind rk (some k) }
      else pure s
    | some inside => linkKind fuel inside k s
  | _ + 1, _, _, _ => .error .invalidArg

/-- `commu_repr`. -/
def commuRepr (commu : Nat → Option Commutable) : Nat → Commutable → Except Failure Commutable
  | 0, _ => .error .outOfFuel
  | fuel + 1, .cVar c =>
    match commu c with
    | some c' => commuRepr commu fuel c'
    | none => .ok (.cVar c)
  | _ + 1, .cOk => .ok .cOk

/-- `link_commu`. -/
def linkCommu : Nat → Commutable → Commutable → State J P A → Except Failure (State J P A)
  | 0, _, _, _ => .error .outOfFuel
  | fuel + 1, .cVar rc, c, s =>
    match s.store.commu rc with
    | none => do
      let c ← commuRepr s.store.commu fuel c
      if c ≠ .cVar rc then
        let s := logChange (.cCommu rc) s
        pure { s with store := s.store.setCommu rc (some c) }
      else pure s
    | some inside => linkCommu fuel inside c s
  | _ + 1, .cOk, _, _ => .error .invalidArg

/-! ## Backtracking -/

/-- `undo_change`. -/
def undoChange (σ : Store J P A) : Change J P A → Except Failure (Store J P A)
  | .cType ty desc => .ok (σ.setDesc ty desc)
  | .cCompress ty desc _ => .ok (σ.setDesc ty desc)
  | .cLevel ty level => .ok (σ.setLevel ty level)
  | .cScope ty scope => Transient.setScope ty scope σ
  | .cName r v => .ok (σ.setName r v)
  | .cRow r => .ok (σ.setExt r none)
  | .cKind r => .ok (σ.setKind r none)
  | .cCommu r => .ok (σ.setCommu r none)
  | .cUniv r v => .ok (σ.setUnivar r v)

/-- A snapshot: the cell that was the open end of the log, and the
`last_snapshot` that was replaced. -/
structure Snapshot where
  changes : Nat
  old : ℤ

/-- `snapshot`. -/
def snapshot (s : State J P A) : Snapshot × State J P A :=
  (⟨s.trail, s.lastSnapshot⟩, { s with lastSnapshot := s.newId })

/-- `rev_log`, with the memory of the cells. -/
def revLog : Nat → (Nat → Changes J P A) → List (Change J P A) → Changes J P A →
    Except Failure (List (Change J P A) × (Nat → Changes J P A))
  | 0, _, _, _ => .error .outOfFuel
  | _ + 1, m, accu, .unchanged => .ok (accu, m)
  | _ + 1, _, _, .invalid => .error .assertFalse
  | fuel + 1, m, accu, .change ch next =>
    revLog fuel (update m next .invalid) (ch :: accu) (m next)

/-- `backtrack`. The caller's `cleanup_abbrev` empties caches that are not
modelled. -/
def backtrack (fuel : Nat) (snap : Snapshot) (s : State J P A) : Except Failure (State J P A) :=
  match s.changes snap.changes with
  | .unchanged => .ok { s with lastSnapshot := snap.old }
  | .invalid => .error .failwith
  | .change ch next => do
    let (backlog, m) ← revLog fuel s.changes [] (.change ch next)
    let store ← backlog.foldlM undoChange s.store
    pure { s with
      store := store
      changes := update m snap.changes .unchanged
      lastSnapshot := snap.old
      trail := snap.changes }

/-- `rev_compress_log`. -/
def revCompressLog (m : Nat → Changes J P A) : Nat → List Nat → Nat → Except Failure (List Nat)
  | 0, _, _ => .error .outOfFuel
  | fuel + 1, l, r =>
    match m r with
    | .unchanged => .ok l
    | .invalid => .ok l
    | .change (.cCompress _ _ _) next => revCompressLog m fuel (r :: l) next
    | .change _ next => revCompressLog m fuel l next

/-- One round of the loop of `undo_compress`. -/
def undoCompressAt [DecidableEq J] [DecidableEq P] (s : State J P A) (r : Nat) : State J P A :=
  match s.changes r with
  | .change (.cCompress ty desc d) next =>
    if s.store.desc ty = d then
      { s with
        store := s.store.setDesc ty desc
        changes := update s.changes r (s.changes next) }
    else s
  | _ => s

/-- `undo_compress`. -/
def undoCompress [DecidableEq J] [DecidableEq P] (fuel : Nat) (snap : Snapshot)
    (s : State J P A) : Except Failure (State J P A) :=
  match s.changes snap.changes with
  | .unchanged => .ok s
  | .invalid => .ok s
  | .change _ _ => do
    let l ← revCompressLog s.changes fuel [] snap.changes
    pure (l.foldl undoCompressAt s)

end Oxcaml.Typing.Types
