/-
Oxcaml.Typing.TypeSessions — programs that use the type log, and what they
may expect of it.

A `Config` is the state of the module and the snapshots that the program
still holds, the last first. With each it remembers what the snapshot
promises: the state when it was taken, the changes that were logged since
and have not been taken back, and whether an older snapshot has been
backtracked to. A step is a call of one of the functions of `types.ml`, or the
program lets go of a snapshot.

`Config.Sound` is what the comments in `types.mli` promise. It does not hold in
every run; `Config.Meets` is the condition on the steps under which it does.
-/
import Oxcaml.Typing.TypeBacktrackingTheorems

set_option linter.all false

namespace Oxcaml.Typing.Types

open Oxcaml.Lib

variable {J P A : Type}

/-- What existed in the saved state is as it was, descriptions up to the
links on the way to them. -/
structure Restored (saved : State J P A) (σ : Store J P A) : Prop where
  level : ∀ z ≤ saved.newId, σ.level z = saved.store.level z
  scope : ∀ z ≤ saved.newId, σ.scope z = saved.store.scope z
  ends : ∀ z ≤ saved.newId, ∀ u, Ends σ.next z u ↔ Ends saved.store.next z u
  desc : ∀ z ≤ saved.newId, saved.store.next z = none → σ.desc z = saved.store.desc z
  kind : σ.kind = saved.store.kind
  ext : σ.ext = saved.store.ext
  commu : σ.commu = saved.store.commu
  univar : ∀ r < saved.univars, σ.univar r = saved.store.univar r
  name : ∀ r < saved.names, σ.name r = saved.store.name r

/-! ## Calls -/

/-- A call that may change types, with its arguments and the addresses of
the descriptions that it allocates. -/
inductive Mutation (J P A : Type)
  | repr (t : TypeExpr)
  | linkType (addr addr' : Nat) (ty ty' : TypeExpr)
  | setTypeDesc (ty : TypeExpr) (td : Desc J P)
  | setLevel (ty : TypeExpr) (level : ℤ)
  | setScope (ty : TypeExpr) (scope : BitVec 63)
  | setVarJkind (addr : Nat) (ty : TypeExpr) (jkind : J)
  | setUnivar (rty : Nat) (ty : TypeExpr)
  | setName (nm : Nat) (v : Option (A × List TypeExpr))
  | linkRowFieldExt (inside v : RowField)
  | linkKind (inside k : FieldKind)
  | linkCommu (inside c : Commutable)
  | newty3 (level : ℤ) (scope : BitVec 63) (desc : Desc J P)
  | newName (v : Option (A × List TypeExpr))
  | newUnivar (v : Option TypeExpr)

def Mutation.run [DecidableEq J] [DecidableEq P] (fuel : Nat) (s : State J P A) :
    Mutation J P A → Except Failure (State J P A)
  | repr t => (Types.repr fuel t s).map Prod.snd
  | linkType addr addr' ty ty' => Types.linkType fuel addr addr' ty ty' s
  | setTypeDesc ty td => Types.setTypeDesc fuel ty td s
  | setLevel ty level => Types.setLevel fuel ty level s
  | setScope ty scope => Types.setScope fuel ty scope s
  | setVarJkind addr ty jkind => Types.setVarJkind fuel addr ty jkind s
  | setUnivar rty ty => .ok (Types.setUnivar rty ty s)
  | setName nm v => .ok (Types.setName nm v s)
  | linkRowFieldExt inside v => Types.linkRowFieldExt fuel inside v s
  | linkKind inside k => Types.linkKind fuel inside k s
  | linkCommu inside c => Types.linkCommu fuel inside c s
  | newty3 level scope desc => .ok (Types.newty3 level scope desc s)
  | newName v => .ok (Types.newName v s)
  | newUnivar v => .ok (Types.newUnivar v s)

/-- The nodes and references that the call is given exist. -/
def Mutation.Exists (s : State J P A) : Mutation J P A → Prop
  | repr t => t ≤ s.newId
  | linkType _ _ ty ty' => ty ≤ s.newId ∧ ty' ≤ s.newId
  | setTypeDesc ty td => ty ≤ s.newId ∧ td.Known s.newId
  | setLevel ty _ => ty ≤ s.newId
  | setScope ty _ => ty ≤ s.newId
  | setVarJkind _ ty _ => ty ≤ s.newId
  | setUnivar rty ty => rty < s.univars ∧ ty ≤ s.newId
  | setName nm _ => nm < s.names
  | newty3 _ _ desc => desc.Known s.newId
  | _ => True

/-- `link_type` gives the name of the variable `u` to the variable `u'`. -/
def TakesName (σ : Store J P A) (u u' : TypeExpr) : Prop :=
  match (σ.desc u).body, (σ.desc u').body with
  | .tVar (some _) _, .tVar none _ => True
  | .tVar (some _) _, .tVar (some _) _ => σ.level u < σ.level u'
  | _, _ => False

/-- The call overwrites the description, the level or the scope of the node. -/
def Mutation.Overwrites (σ : Store J P A) : Mutation J P A → TypeExpr → Prop
  | linkType _ _ ty ty', z => ∃ u u', Ends σ.next ty u ∧ Ends σ.next ty' u' ∧ u ≠ u' ∧
      (z = u ∨ z = u' ∧ TakesName σ u u')
  | setTypeDesc ty td, z => Ends σ.next ty z ∧ td ≠ σ.desc z
  | setLevel ty level, z => Ends σ.next ty z ∧ level ≠ σ.level z
  | setScope ty scope, z => Ends σ.next ty z ∧ scope ≠ σ.scope z &&& scopeMask
  | setVarJkind _ ty _, z => Ends σ.next ty z
  | _, _ => False

/-! ## Configurations -/

/-- A snapshot that the program holds. -/
structure Held (J P A : Type) where
  snap : Snapshot
  saved : State J P A
  since : List (Change J P A)
  overtaken : Bool

namespace Held

variable (h : Held J P A)

/-- Changes have been logged. -/
def see (cs : List (Change J P A)) : Held J P A :=
  if h.overtaken then h else { h with since := cs ++ h.since }

/-- The last changes, those in `cs`, have been taken back. -/
def rewound (cs : List (Change J P A)) : Held J P A :=
  if h.overtaken then h else { h with since := h.since.drop cs.length }

/-- The compressions among the last changes, those in `cs`, have been taken back. -/
def struck (cs : List (Change J P A)) : Held J P A :=
  if h.overtaken then h
  else { h with since := kept (h.since.take cs.length) ++ h.since.drop cs.length }

/-- An older snapshot has been backtracked to. -/
def overtake : Held J P A := { h with overtaken := true }

end Held

structure Config (J P A : Type) where
  state : State J P A
  held : List (Held J P A)

/-- The store in which nothing has been made; `p` is `Tnil`. -/
def Store.empty (p : P) : Store J P A where
  desc := fun _ => ⟨0, .other p⟩
  level := fun _ => 0
  scope := fun _ => 0
  kind := fun _ => none
  ext := fun _ => none
  commu := fun _ => none
  univar := fun _ => none
  name := fun _ => none

/-- The start of the compiler. -/
def Config.initial (p : P) : Config J P A where
  state :=
    { store := Store.empty p
      changes := fun _ => .unchanged
      fresh := 1
      trail := 0
      newId := -1
      lastSnapshot := 0
      names := 0
      univars := 0
      journal := [] }
  held := []

/-- A step of the program. Snapshots are given by their place among those
that it holds. -/
inductive Op (J P A : Type)
  | mutate (m : Mutation J P A)
  | snapshot
  | backtrack (i : Nat)
  | undoCompress (i : Nat)
  | forget (i : Nat)

/-- The changes that were logged between two states. -/
def logged (s s' : State J P A) : List (Change J P A) :=
  s'.journal.take (s'.journal.length - s.journal.length)

/-- A node may be overwritten: it is logged, or no snapshot that is held
is old enough to know it. -/
def Config.Covers (c : Config J P A) (z : TypeExpr) : Prop :=
  z ≤ c.state.lastSnapshot ∨ ∀ h ∈ c.held, h.overtaken = false → h.saved.newId < z

/-- The cell is the open end of the log, or where a valid snapshot was taken. -/
def Config.Pins (c : Config J P A) (r : Nat) : Prop :=
  r = c.state.trail ∨ ∃ h ∈ c.held, h.overtaken = false ∧ r = h.snap.changes

/-- The condition on a step. What is overwritten is covered; no younger
valid snapshot was taken at the place that is backtracked to; and no
compression that is undone is directly followed by a cell that something
other than the log points to. -/
def Config.Meets (c : Config J P A) : Op J P A → Prop
  | .mutate m => ∀ z, m.Overwrites c.state.store z → c.Covers z
  | .backtrack i => ∀ h, c.held[i]? = some h → ∀ k ∈ c.held.take i, k.overtaken = false →
      k.snap.changes ≠ h.snap.changes
  | .undoCompress i => ∀ h, c.held[i]? = some h → ∀ es r ch n,
      Path c.state.changes h.snap.changes es r → c.state.changes r = .change ch n →
        ch.isCompress = true → ¬ c.Pins n
  | _ => True

variable [DecidableEq J] [DecidableEq P]

inductive Step : Config J P A → Op J P A → Config J P A → Prop
  | mutate {c : Config J P A} {m : Mutation J P A} {fuel : Nat} {s' : State J P A} :
    m.Exists c.state → m.run fuel c.state = .ok s' →
    Step c (.mutate m) ⟨s', c.held.map (·.see (logged c.state s'))⟩
  | snapshot {c : Config J P A} {snap : Snapshot} {s' : State J P A} :
    Types.snapshot c.state = (snap, s') →
    Step c .snapshot ⟨s', ⟨snap, c.state, [], false⟩ :: c.held⟩
  | backtrack {c : Config J P A} {younger older : List (Held J P A)} {h : Held J P A}
      {fuel : Nat} {s' : State J P A} :
    c.held = younger ++ h :: older → h.overtaken = false →
    Types.backtrack fuel h.snap c.state = .ok s' →
    Step c (.backtrack younger.length) ⟨s', younger.map Held.overtake ++ { h with since := [] } ::
        older.map (·.rewound h.since)⟩
  | undoCompress {c : Config J P A} {younger older : List (Held J P A)} {h : Held J P A}
      {fuel : Nat} {s' : State J P A} :
    c.held = younger ++ h :: older → h.overtaken = false →
    Types.undoCompress fuel h.snap c.state = .ok s' →
    Step c (.undoCompress younger.length) ⟨s', c.held.map (·.struck h.since)⟩
  | undoCompressOvertaken {c : Config J P A} {younger older : List (Held J P A)}
      {h : Held J P A} {fuel : Nat} {s' : State J P A} :
    c.held = younger ++ h :: older → h.overtaken = true →
    Types.undoCompress fuel h.snap c.state = .ok s' →
    Step c (.undoCompress younger.length) ⟨s', c.held⟩
  | forget {c : Config J P A} {younger older : List (Held J P A)} {h : Held J P A} :
    c.held = younger ++ h :: older →
    Step c (.forget younger.length) ⟨c.state, younger ++ older⟩

/-! ## What the program expects -/

/-- Snapshots are reported invalid exactly when an older one has been
backtracked to; backtracking to any other restores what was there; the
changes since are in the log; undoing compressions changes no
representative. -/
structure Config.Sound (c : Config J P A) : Prop where
  reported : ∀ h ∈ c.held,
    (∃ N, ∀ fuel, N ≤ fuel → backtrack fuel h.snap c.state = .error .failwith) ↔ h.overtaken = true
  restores : ∀ h ∈ c.held, h.overtaken = false → ∃ N s',
    (∀ fuel, N ≤ fuel → backtrack fuel h.snap c.state = .ok s') ∧ Restored h.saved s'.store
  reachable : ∀ h ∈ c.held, h.overtaken = false →
    Path c.state.changes h.snap.changes h.since.reverse c.state.trail
  representatives : ∀ h ∈ c.held, ∃ N s',
    (∀ fuel, N ≤ fuel → undoCompress fuel h.snap c.state = .ok s') ∧
      SameEnds c.state.store.next s'.store.next

/-- The configurations that a program reaches by steps that are allowed. -/
def Reaches (allowed : Config J P A → Op J P A → Prop) : Config J P A → Config J P A → Prop :=
  Relation.ReflTransGen fun c c' => ∃ op, allowed c op ∧ Step c op c'

end Oxcaml.Typing.Types
