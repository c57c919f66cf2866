/-
Oxcaml.Backend.ZeroAllocDomain — the symbolic values `V.t` of
`backend/zero_alloc_checker.ml`.

An abstract value is `Bot < Safe < Top`, or a term over the summaries of callees
that are not known yet. Terms are kept in a normal form: a join of variables and
of transforms, where a transform is a set of variables and perhaps `Top`, and the
transforms of a join are in a map whose key is their set of variables.

OCaml's maps are `Std.ExtTreeMap`s, folded over in increasing order; a key
`Var.Set.t` is the list of its elements, in order, and `Set.compare` is the
lexicographic order of these lists. Witnesses are sets, all of them kept
(`zero_alloc_checker_details_cutoff` is `Keep_all`). `Config.join` is the flag
`zero_alloc_checker_join`. Exceptions, failed assertions and fatal errors are the
constructors of `Exn`.
-/
import Oxcaml.Lib.Orders
import Mathlib.Data.Finset.Basic
import Mathlib.Data.List.Lex

set_option linter.all false

namespace Oxcaml.Backend.ZeroAlloc

/-! ## §1 Variables and transforms -/

abbrev Witnesses (ω : Type) := Finset ω

/-- Variables with witnesses. -/
abbrev Vars (ν ω : Type) [LinearOrder ν] := Std.ExtTreeMap ν (Witnesses ω)

variable {ν ω : Type} [LinearOrder ν] [DecidableEq ω]

namespace Vars

def update (t : Vars ν ω) (var : ν) (witnesses : Witnesses ω) : Vars ν ω :=
  match t[var]? with
  | none => t.insert var witnesses
  | some w => t.insert var (w ∪ witnesses)

/-- The function on witnesses is their union. -/
def join (t1 t2 : Vars ν ω) : Vars ν ω := t2.foldl update t1

def singleton (var : ν) (w : Witnesses ω) : Vars ν ω := (∅ : Vars ν ω).insert var w

def hasWitnesses (t : Vars ν ω) : Bool := t.toList.any fun (_, w) => !decide (w = ∅)

def replaceWitnesses (t : Vars ν ω) (w : Witnesses ω) : Vars ν ω := t.map fun _ _ => w

end Vars

inductive Transform (ν ω : Type) [LinearOrder ν]
  | args (vars : Vars ν ω)
  | argsWithTop (w : Witnesses ω) (vars : Vars ν ω)

instance : DecidableEq (Transform ν ω)
  | .args vars1, .args vars2 => decidable_of_iff (vars1 = vars2) (by simp)
  | .argsWithTop w1 vars1, .argsWithTop w2 vars2 =>
    decidable_of_iff (w1 = w2 ∧ vars1 = vars2) (by simp)
  | .args _, .argsWithTop _ _ => isFalse (by simp)
  | .argsWithTop _ _, .args _ => isFalse (by simp)

/-- `Widen` is raised by `Transforms`, and caught by `bounded_join`. -/
inductive Exn (ω : Type)
  | widen (w : Witnesses ω)
  | joinTooBig (cardinal : Nat)
  | joinTopWithoutWitnesses
  | assertFailure

namespace Transform

def varWithTop (var : ν) (varWitnesses w : Witnesses ω) : Transform ν ω :=
  argsWithTop w (Vars.singleton var varWitnesses)

def vars (var1 : ν) (w1 : Witnesses ω) (var2 : ν) (w2 : Witnesses ω) :
    Except (Exn ω) (Transform ν ω) :=
  if var1 = var2 then throw .assertFailure
  else pure (args ((Vars.singleton var1 w1).update var2 w2))

def addTop (t : Transform ν ω) (w : Witnesses ω) : Transform ν ω :=
  match t with
  | args vars => argsWithTop w vars
  | argsWithTop w' vars => argsWithTop (w ∪ w') vars

def addVar (t : Transform ν ω) (var : ν) (witnesses : Witnesses ω) : Transform ν ω :=
  match t with
  | args vars => args (vars.update var witnesses)
  | argsWithTop w vars => argsWithTop w (vars.update var witnesses)

def flatten : Transform ν ω → Transform ν ω → Transform ν ω
  | argsWithTop w1 vars1, argsWithTop w2 vars2 => argsWithTop (w1 ∪ w2) (vars1.join vars2)
  | argsWithTop w vars, args vars' => argsWithTop w (vars.join vars')
  | args vars', argsWithTop w vars => argsWithTop w (vars.join vars')
  | args vars1, args vars2 => args (vars1.join vars2)

def getTop : Transform ν ω → Option (Witnesses ω)
  | argsWithTop w _ => some w
  | args _ => none

def getVars : Transform ν ω → Vars ν ω
  | argsWithTop _ vars => vars
  | args vars => vars

/-- `Transforms.get_key`. -/
def key (tr : Transform ν ω) : List ν := tr.getVars.keys

def sameVars (t1 t2 : Transform ν ω) : Bool := t1.key == t2.key

def hasWitnesses : Transform ν ω → Bool
  | argsWithTop w vars => vars.hasWitnesses || !decide (w = ∅)
  | args vars => vars.hasWitnesses

def replaceWitnesses (t : Transform ν ω) (w : Witnesses ω) : Transform ν ω :=
  match t with
  | args vars => args (vars.replaceWitnesses w)
  | argsWithTop _ vars => argsWithTop w (vars.replaceWitnesses w)

end Transform

/-! ## §2 Sets of transforms -/

inductive JoinPolicy
  | keepAll
  | widen (n : Nat)
  | error (n : Nat)
  deriving DecidableEq

structure Config (ω : Type) where
  join : JoinPolicy
  /-- `Witnesses.widen`. -/
  widen : Witnesses ω

abbrev Transforms (ν ω : Type) [LinearOrder ν] := Std.ExtTreeMap (List ν) (Transform ν ω)

variable (config : Config ω)

namespace Transforms

def elements (t : Transforms ν ω) : List (Transform ν ω) := t.toList.map Prod.snd

def maybeWiden (t : Transforms ν ω) : Except (Exn ω) (Transforms ν ω) :=
  match config.join with
  | .keepAll => pure t
  | .widen n =>
    if n < t.size then
      if (elements t).any Transform.hasWitnesses then throw (.widen config.widen)
      else throw (.widen ∅)
    else pure t
  | .error n => if n < t.size then throw (.joinTooBig t.size) else pure t

def add (tr : Transform ν ω) (t : Transforms ν ω) : Except (Exn ω) (Transforms ν ω) :=
  maybeWiden config (t.insert tr.key tr)

/-- `M.union`, where a key of both maps has the two transforms flattened. -/
def union (t1 t2 : Transforms ν ω) : Transforms ν ω :=
  t2.foldl (fun acc key tr2 =>
    match acc[key]? with
    | none => acc.insert key tr2
    | some tr1 => acc.insert key (tr1.flatten tr2)) t1

def join (t1 t2 : Transforms ν ω) : Except (Exn ω) (Transforms ν ω) :=
  maybeWiden config (union t1 t2)

def map (f : Transform ν ω → Transform ν ω) (t : Transforms ν ω) :
    Except (Exn ω) (Transforms ν ω) :=
  (elements t).foldlM (fun acc tr => add config (f tr) acc) ∅

end Transforms

/-! ## §3 Members of a join -/

structure Args (ν ω : Type) [LinearOrder ν] where
  vars : Vars ν ω
  trs : Transforms ν ω

instance : DecidableEq (Args ν ω)
  | ⟨vars1, trs1⟩, ⟨vars2, trs2⟩ =>
    decidable_of_iff (vars1 = vars2 ∧ trs1 = trs2) (by simp)

namespace Args

def empty : Args ν ω := ⟨∅, ∅⟩

def addVar (t : Args ν ω) (var : ν) (witnesses : Witnesses ω) : Args ν ω :=
  { t with vars := t.vars.update var witnesses }

def addTr (t : Args ν ω) (tr : Transform ν ω) : Except (Exn ω) (Args ν ω) := do
  pure { t with trs := ← Transforms.add config tr t.trs }

def join (t t' : Args ν ω) : Except (Exn ω) (Args ν ω) := do
  pure { vars := t.vars.join t'.vars, trs := ← Transforms.join config t.trs t'.trs }

/-- Replace each element `x` with "transform x tr". -/
def transform (t : Args ν ω) (tr : Transform ν ω) : Except (Exn ω) (Args ν ω) := do
  let fromVars ← t.vars.toList.foldlM
    (fun acc (var, w) => Transforms.add config (tr.addVar var w) acc) ∅
  let fromTrs ← Transforms.map config (fun tr' => tr.flatten tr') t.trs
  pure { vars := ∅, trs := ← Transforms.join config fromVars fromTrs }

/-- Replace each element `x` with "transform x (Top w)". -/
def transformTop (t : Args ν ω) (w : Witnesses ω) : Except (Exn ω) (Args ν ω) := do
  let fromVars ← t.vars.toList.foldlM
    (fun acc (var, varWitnesses) =>
      Transforms.add config (.varWithTop var varWitnesses w) acc) ∅
  let fromTrs ← Transforms.map config (fun tr => tr.addTop w) t.trs
  pure { vars := ∅, trs := ← Transforms.join config fromVars fromTrs }

/-- Replace each element `x` with "transform x var". -/
def transformVar (t : Args ν ω) (var : ν) (witnesses : Witnesses ω) :
    Except (Exn ω) (Args ν ω) := do
  let acc ← t.vars.toList.foldlM
    (fun args (var1, w1) =>
      if var1 = var then pure (args.addVar var witnesses)
      else do
        let tr ← Transform.vars var1 w1 var witnesses
        args.addTr config tr) empty
  let fromTrs ← Transforms.map config (fun tr => tr.addVar var witnesses) t.trs
  pure { acc with trs := ← Transforms.join config fromTrs acc.trs }

def transformJoin (t t' : Args ν ω) : Except (Exn ω) (Args ν ω) := do
  let acc ← t'.vars.toList.foldlM
    (fun acc (var, witnesses) => do acc.join config (← t.transformVar config var witnesses)) empty
  (Transforms.elements t'.trs).foldlM
    (fun acc tr => do acc.join config (← t.transform config tr)) acc

def hasWitnesses (t : Args ν ω) : Bool :=
  t.vars.hasWitnesses || (Transforms.elements t.trs).any Transform.hasWitnesses

def replaceWitnesses (t : Args ν ω) (w : Witnesses ω) : Except (Exn ω) (Args ν ω) := do
  pure { vars := t.vars.replaceWitnesses w
         trs := ← Transforms.map config (fun tr => tr.replaceWitnesses w) t.trs }

end Args

/-! ## §4 Joins -/

inductive Join (ν ω : Type) [LinearOrder ν]
  | argsWithSafe (args : Args ν ω)
  | argsWithTop (w : Witnesses ω) (args : Args ν ω)
  | args (args : Args ν ω)

instance : DecidableEq (Join ν ω)
  | .argsWithSafe a1, .argsWithSafe a2 => decidable_of_iff (a1 = a2) (by simp)
  | .args a1, .args a2 => decidable_of_iff (a1 = a2) (by simp)
  | .argsWithTop w1 a1, .argsWithTop w2 a2 =>
    decidable_of_iff (w1 = w2 ∧ a1 = a2) (by simp)
  | .argsWithSafe _, .argsWithTop _ _ => isFalse (by simp)
  | .argsWithSafe _, .args _ => isFalse (by simp)
  | .argsWithTop _ _, .argsWithSafe _ => isFalse (by simp)
  | .argsWithTop _ _, .args _ => isFalse (by simp)
  | .args _, .argsWithSafe _ => isFalse (by simp)
  | .args _, .argsWithTop _ _ => isFalse (by simp)

namespace Join

/-- The constructor `args_with_top`. -/
def withTop (w : Witnesses ω) (args : Args ν ω) : Except (Exn ω) (Join ν ω) :=
  if !args.hasWitnesses then throw .joinTopWithoutWitnesses else pure (argsWithTop w args)

def trWithSafe (tr : Transform ν ω) : Except (Exn ω) (Join ν ω) := do
  pure (argsWithSafe (← Args.empty.addTr config tr))

def trWithTop (tr : Transform ν ω) (w : Witnesses ω) : Except (Exn ω) (Join ν ω) := do
  withTop w (← Args.empty.addTr config tr)

def varWithTop (var : ν) (varWitnesses w : Witnesses ω) : Except (Exn ω) (Join ν ω) :=
  withTop w (Args.empty.addVar var varWitnesses)

def varWithSafe (var : ν) (w : Witnesses ω) : Join ν ω :=
  argsWithSafe (Args.empty.addVar var w)

def trs (tr1 tr2 : Transform ν ω) : Except (Exn ω) (Join ν ω) :=
  if tr1 = tr2 then throw .assertFailure
  else do pure (args (← (← Args.empty.addTr config tr1).addTr config tr2))

def vars (var1 : ν) (w1 : Witnesses ω) (var2 : ν) (w2 : Witnesses ω) : Except (Exn ω) (Join ν ω) :=
  if var1 = var2 then throw .assertFailure
  else pure (args ((Args.empty.addVar var2 w2).addVar var1 w1))

def varWithTr (var : ν) (w : Witnesses ω) (tr : Transform ν ω) : Except (Exn ω) (Join ν ω) := do
  pure (args ((← Args.empty.addTr config tr).addVar var w))

def addSafe : Join ν ω → Join ν ω
  | argsWithTop w a => argsWithTop w a
  | argsWithSafe a => argsWithSafe a
  | args a => argsWithSafe a

def addTop (t : Join ν ω) (witnesses : Witnesses ω) : Except (Exn ω) (Join ν ω) :=
  match t with
  | argsWithTop w a => withTop (w ∪ witnesses) a
  | argsWithSafe a => withTop witnesses a
  | args a => withTop witnesses a

def addVar (t : Join ν ω) (var : ν) (witnesses : Witnesses ω) : Except (Exn ω) (Join ν ω) :=
  match t with
  | argsWithSafe a => pure (argsWithSafe (a.addVar var witnesses))
  | args a => pure (args (a.addVar var witnesses))
  | argsWithTop w a => withTop w (a.addVar var witnesses)

def addTr (t : Join ν ω) (tr : Transform ν ω) : Except (Exn ω) (Join ν ω) := do
  match t with
  | argsWithSafe a => pure (argsWithSafe (← a.addTr config tr))
  | args a => pure (args (← a.addTr config tr))
  | argsWithTop w a => withTop w (← a.addTr config tr)

def flatten (t1 t2 : Join ν ω) : Except (Exn ω) (Join ν ω) := do
  match t1, t2 with
  | args a1, args a2 => pure (args (← a1.join config a2))
  | argsWithSafe a1, argsWithSafe a2 => pure (argsWithSafe (← a1.join config a2))
  | argsWithTop w a1, args a2 => withTop w (← a1.join config a2)
  | argsWithTop w a1, argsWithSafe a2 => withTop w (← a1.join config a2)
  | args a2, argsWithTop w a1 => withTop w (← a1.join config a2)
  | argsWithSafe a2, argsWithTop w a1 => withTop w (← a1.join config a2)
  | argsWithTop w1 a1, argsWithTop w2 a2 => withTop (w1 ∪ w2) (← a1.join config a2)
  | args a1, argsWithSafe a2 => pure (argsWithSafe (← a1.join config a2))
  | argsWithSafe a1, args a2 => pure (argsWithSafe (← a1.join config a2))

def distributeTransformOverJoin (t : Join ν ω) (tr : Transform ν ω) :
    Except (Exn ω) (Join ν ω) := do
  match t with
  | argsWithSafe a => pure (args (← (← a.transform config tr).addTr config tr))
  | argsWithTop w a => pure (args (← (← a.transform config tr).addTr config (tr.addTop w)))
  | args a => pure (args (← a.transform config tr))

def distributeTransformVarOverJoin (t : Join ν ω) (var : ν) (witnesses : Witnesses ω) :
    Except (Exn ω) (Join ν ω) := do
  match t with
  | argsWithSafe a =>
    pure (args ((← a.transformVar config var witnesses).addVar var witnesses))
  | argsWithTop w a =>
    pure (args (← (← a.transformVar config var witnesses).addTr config
      (.varWithTop var witnesses w)))
  | args a => pure (args (← a.transformVar config var witnesses))

def distributeTransformTopOverJoin (t : Join ν ω) (w : Witnesses ω) :
    Except (Exn ω) (Join ν ω) := do
  match t with
  | argsWithSafe a => withTop w (← a.transformTop config w)
  | argsWithTop w' a => withTop (w' ∪ w) (← a.transformTop config w)
  | args a => pure (args (← a.transformTop config w))

/-- The case of `distribute_transform_over_joins` for `Safe` on one side only. -/
def distributeSafe (a1 a2 : Args ν ω) : Except (Exn ω) (Join ν ω) := do
  let newArgs ← a1.transformJoin config a2
  pure (args (← a2.join config newArgs))

/-- The case of `distribute_transform_over_joins` for `Top` on one side only. -/
def distributeTop (w : Witnesses ω) (a1 a2 : Args ν ω) : Except (Exn ω) (Args ν ω) := do
  let newArgs ← a1.transformJoin config a2
  let argsTop ← a2.transformTop config w
  newArgs.join config argsTop

def distributeTransformOverJoins (t1 t2 : Join ν ω) : Except (Exn ω) (Join ν ω) := do
  match t1, t2 with
  | args a1, args a2 => pure (args (← a1.transformJoin config a2))
  | argsWithSafe a1, argsWithSafe a2 =>
    let newArgs ← a1.transformJoin config a2
    pure (argsWithSafe (← a1.join config (← a2.join config newArgs)))
  | argsWithSafe a1, args a2 => distributeSafe config a1 a2
  | args a2, argsWithSafe a1 => distributeSafe config a1 a2
  | argsWithTop w1 a1, argsWithTop w2 a2 =>
    let newArgs ← a1.transformJoin config a2
    let argsTop ← (← a1.transformTop config w2).join config (← a2.transformTop config w1)
    withTop (w1 ∪ w2) (← newArgs.join config argsTop)
  | argsWithTop w a1, args a2 => pure (args (← distributeTop config w a1 a2))
  | args a2, argsWithTop w a1 => pure (args (← distributeTop config w a1 a2))
  | argsWithTop w a1, argsWithSafe a2 => withTop w (← distributeTop config w a1 a2)
  | argsWithSafe a2, argsWithTop w a1 => withTop w (← distributeTop config w a1 a2)

def getTop : Join ν ω → Option (Witnesses ω)
  | argsWithTop w _ => some w
  | args _ => none
  | argsWithSafe _ => none

def hasSafe : Join ν ω → Bool
  | argsWithSafe _ => true
  | args _ => false
  | argsWithTop _ _ => false

def get : Join ν ω → Args ν ω
  | argsWithTop _ a => a
  | args a => a
  | argsWithSafe a => a

def hasWitnesses : Join ν ω → Bool
  | argsWithSafe a => a.hasWitnesses
  | args a => a.hasWitnesses
  | argsWithTop w a => !decide (w = ∅) || a.hasWitnesses

def replaceWitnesses (t : Join ν ω) (witnesses : Witnesses ω) : Except (Exn ω) (Join ν ω) := do
  match t with
  | argsWithSafe a => pure (argsWithSafe (← a.replaceWitnesses config witnesses))
  | args a => pure (args (← a.replaceWitnesses config witnesses))
  | argsWithTop _ a => withTop witnesses (← a.replaceWitnesses config witnesses)

end Join

/-! ## §5 Values -/

/-- The abstract value of one component. -/
inductive V (ν ω : Type) [LinearOrder ν]
  | top (w : Witnesses ω)
  | safe
  | bot
  | var (var : ν) (witnesses : Witnesses ω)
  | ofTransform (tr : Transform ν ω)
  | ofJoin (j : Join ν ω)
  deriving DecidableEq

namespace V

def isResolved : V ν ω → Bool
  | top _ => true
  | safe => true
  | bot => true
  | _ => false

def boundedJoin (result : Except (Exn ω) (Join ν ω)) : Except (Exn ω) (V ν ω) :=
  match result with
  | .ok j => .ok (ofJoin j)
  | .error (.widen witnesses) => .ok (top witnesses)
  | .error e => .error e

/-- `Join j`, outside `bounded_join`. -/
def unboundedJoin (result : Except (Exn ω) (Join ν ω)) : Except (Exn ω) (V ν ω) :=
  result.map ofJoin

def joinTopVar (w : Witnesses ω) (x : ν) (witnesses : Witnesses ω) : Except (Exn ω) (V ν ω) :=
  if witnesses = ∅ then pure (top w) else unboundedJoin (Join.varWithTop x witnesses w)

def joinTopTransform (w : Witnesses ω) (tr : Transform ν ω) : Except (Exn ω) (V ν ω) :=
  if tr.hasWitnesses then unboundedJoin (Join.trWithTop config tr w) else pure (top w)

def joinTopJoin (w : Witnesses ω) (j : Join ν ω) : Except (Exn ω) (V ν ω) :=
  if j.hasWitnesses then unboundedJoin (j.addTop w) else pure (top w)

def join (t1 t2 : V ν ω) : Except (Exn ω) (V ν ω) :=
  match t1, t2 with
  | bot, bot => pure bot
  | safe, safe => pure safe
  | top w1, top w2 => pure (top (w1 ∪ w2))
  | safe, bot => pure safe
  | bot, safe => pure safe
  | top w, bot => pure (top w)
  | top w, safe => pure (top w)
  | bot, top w => pure (top w)
  | safe, top w => pure (top w)
  | bot, t2 => pure t2
  | t1, bot => pure t1
  | safe, ofTransform tr => unboundedJoin (Join.trWithSafe config tr)
  | ofTransform tr, safe => unboundedJoin (Join.trWithSafe config tr)
  | safe, var x witnesses => pure (ofJoin (Join.varWithSafe x witnesses))
  | var x witnesses, safe => pure (ofJoin (Join.varWithSafe x witnesses))
  | top w, var x witnesses => joinTopVar w x witnesses
  | var x witnesses, top w => joinTopVar w x witnesses
  | var var1 w1, var var2 w2 =>
    if var1 = var2 then pure (var var1 (w1 ∪ w2)) else unboundedJoin (Join.vars var1 w1 var2 w2)
  | var x witnesses, ofTransform tr => unboundedJoin (Join.varWithTr config x witnesses tr)
  | ofTransform tr, var x witnesses => unboundedJoin (Join.varWithTr config x witnesses tr)
  | ofTransform tr1, ofTransform tr2 =>
    if tr1 = tr2 then pure (ofTransform tr1)
    else if tr1.sameVars tr2 then pure (ofTransform (tr1.flatten tr2))
    else boundedJoin (Join.trs config tr1 tr2)
  | top w, ofTransform tr => joinTopTransform config w tr
  | ofTransform tr, top w => joinTopTransform config w tr
  | top w, ofJoin j => joinTopJoin w j
  | ofJoin j, top w => joinTopJoin w j
  | safe, ofJoin j => pure (ofJoin j.addSafe)
  | ofJoin j, safe => pure (ofJoin j.addSafe)
  | var x witnesses, ofJoin j => unboundedJoin (j.addVar x witnesses)
  | ofJoin j, var x witnesses => unboundedJoin (j.addVar x witnesses)
  | ofJoin j, ofTransform tr => boundedJoin (j.addTr config tr)
  | ofTransform tr, ofJoin j => boundedJoin (j.addTr config tr)
  | ofJoin j1, ofJoin j2 => boundedJoin (Join.flatten config j1 j2)

def lessequal (t1 t2 : V ν ω) : Except (Exn ω) Bool :=
  match t1, t2 with
  | bot, bot => pure true
  | safe, safe => pure true
  | top w1, top w2 => pure (decide (w1 ⊆ w2))
  | bot, safe => pure true
  | bot, top _ => pure true
  | safe, top _ => pure true
  | top _, bot => pure false
  | top _, safe => pure false
  | safe, bot => pure false
  | bot, _ => pure true
  | _, bot => pure false
  | t1, t2 => do pure (decide ((← join config t1 t2) = t2))

def transformTopJoin (w : Witnesses ω) (j : Join ν ω) : Except (Exn ω) (V ν ω) :=
  if j.hasSafe && !j.hasWitnesses then pure (top w)
  else boundedJoin (j.distributeTransformTopOverJoin config w)

def transform (t t' : V ν ω) : Except (Exn ω) (V ν ω) :=
  match t, t' with
  | bot, _ => pure bot
  | _, bot => pure bot
  | safe, t' => pure t'
  | t, safe => pure t
  | top w, top w' => pure (top (w ∪ w'))
  | top w, ofTransform tr => pure (ofTransform (tr.addTop w))
  | ofTransform tr, top w => pure (ofTransform (tr.addTop w))
  | top w, var x witnesses => pure (ofTransform (.varWithTop x witnesses w))
  | var x witnesses, top w => pure (ofTransform (.varWithTop x witnesses w))
  | var x witnesses, ofTransform tr => pure (ofTransform (tr.addVar x witnesses))
  | ofTransform tr, var x witnesses => pure (ofTransform (tr.addVar x witnesses))
  | var var1 w1, var var2 w2 =>
    if var1 = var2 then pure (var var1 (w1 ∪ w2))
    else (Transform.vars var1 w1 var2 w2).map ofTransform
  | ofTransform tr1, ofTransform tr2 => pure (ofTransform (tr1.flatten tr2))
  | ofTransform tr, ofJoin j => boundedJoin (j.distributeTransformOverJoin config tr)
  | ofJoin j, ofTransform tr => boundedJoin (j.distributeTransformOverJoin config tr)
  | top w, ofJoin j => transformTopJoin config w j
  | ofJoin j, top w => transformTopJoin config w j
  | var x witnesses, ofJoin j => boundedJoin (j.distributeTransformVarOverJoin config x witnesses)
  | ofJoin j, var x witnesses => boundedJoin (j.distributeTransformVarOverJoin config x witnesses)
  | ofJoin j1, ofJoin j2 => boundedJoin (Join.distributeTransformOverJoins config j1 j2)

def replaceWitnesses (w : Witnesses ω) (t : V ν ω) : Except (Exn ω) (V ν ω) :=
  match t with
  | top _ => pure (top w)
  | bot => pure bot
  | safe => pure safe
  | ofJoin j => unboundedJoin (j.replaceWitnesses config w)
  | ofTransform tr => pure (ofTransform (tr.replaceWitnesses w))
  | var x _ => pure (var x w)

section Apply

variable (env : ν → Option (V ν ω))

/-- The local `get` of `apply`. -/
def getEnv (x : ν) (w : Witnesses ω) : Except (Exn ω) (V ν ω) :=
  match env x with
  | none => pure (var x w)
  | some v => v.replaceWitnesses config w

def containsAny (vars : Vars ν ω) : Bool := vars.keys.any fun x => (env x).isSome

/-- The case `Transform` of the local `aux` of `apply`. -/
def applyTransform (tr : Transform ν ω) : Except (Exn ω) (V ν ω) :=
  if !containsAny env tr.getVars then pure (ofTransform tr)
  else
    let init := match tr.getTop with
      | none => safe
      | some w => top w
    tr.getVars.toList.foldlM
      (fun acc (x, w) => do transform config (← getEnv config env x w) acc) init

/-- The case `Join` of the local `aux` of `apply`. -/
def applyJoin (j : Join ν ω) : Except (Exn ω) (V ν ω) :=
  let vars := j.get.vars
  let trs := Transforms.elements j.get.trs
  if !containsAny env vars && !trs.any fun tr => containsAny env tr.getVars then pure (ofJoin j)
  else do
    let init := match j.getTop with
      | none => if j.hasSafe then safe else bot
      | some w => top w
    let acc ← vars.toList.foldlM
      (fun acc (x, w) => do join config (← getEnv config env x w) acc) init
    trs.foldlM (fun acc tr => do join config (← applyTransform config env tr) acc) acc

def apply (t : V ν ω) : Except (Exn ω) (V ν ω) :=
  match t with
  | bot => pure bot
  | safe => pure safe
  | top w => pure (top w)
  | var x witnesses => getEnv config env x witnesses
  | ofTransform tr => applyTransform config env tr
  | ofJoin j => applyJoin config env j

end Apply

end V

end Oxcaml.Backend.ZeroAlloc
