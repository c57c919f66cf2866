/-
Oxcaml.Lambda.Switch — the compilation of switches, `lambda/switch.ml`.

The functor parameter is the structure `Arg`; its `bind` is a variable for the argument
and the code around the body, so that the body can be made with the memo table.
Locations and layouts are left out. Arrays are lists, and an access out of bounds is
an error. Integers have 63 bits: `norm` wraps. `Memo` is the state of the functor,
the table `t` and the flag `ok_inter`.

Arguments are evaluated from right to left. The recursion has as fuel the number of
cases. The test of `dense` in floating point numbers is a parameter (`FloatTest`),
with the fact that a range of more than 2^61 values is not dense.
-/
import Oxcaml.Lib.Spans

set_option linter.all false

namespace Oxcaml.Lambda.Switch

open Lib (Span)

/-! ## §1 Integers and arrays -/

def minInt : ℤ := -2 ^ 62

def maxInt : ℤ := 2 ^ 62 - 1

/-- The integer of 63 bits. -/
def norm (z : ℤ) : ℤ := (z + 2 ^ 62) % 2 ^ 63 - 2 ^ 62

def abs (z : ℤ) : ℤ := if z < 0 then norm (-z) else z

inductive Exn
  | indexOutOfBounds
  | invalidArg
  | assertFailure
  | outOfFuel
  deriving DecidableEq

/-- `(low, high, act)`, where `act` is an index of the actions. -/
abbrev Case := Span ℕ

section Arrays

variable {α : Type}

def get (a : List α) (i : ℤ) : Except Exn α :=
  if i < 0 then throw .indexOutOfBounds
  else
    match a[i.toNat]? with
    | some x => pure x
    | none => throw .indexOutOfBounds

def set (a : List α) (i : ℤ) (x : α) : Except Exn (List α) :=
  if i < 0 ∨ a.length ≤ i.toNat then throw .indexOutOfBounds else pure (a.set i.toNat x)

/-- `Array.sub`. -/
def sub (a : List α) (ofs len : ℤ) : Except Exn (List α) :=
  if ofs < 0 ∨ len < 0 ∨ a.length < ofs + len then throw .invalidArg
  else pure ((a.drop ofs.toNat).take len.toNat)

/-- `Array.make`. -/
def make (len : ℤ) (x : α) : Except Exn (List α) :=
  if len < 0 then throw .invalidArg else pure (List.replicate len.toNat x)

end Arrays

/-! ## §2 Costs -/

structure CTests where
  n : ℕ
  ni : ℕ
  deriving DecidableEq

def tooMuch : CTests := ⟨2 ^ 62 - 1, 2 ^ 62 - 1⟩

def lessTests (c1 c2 : CTests) : Bool :=
  if c1.n < c2.n then true else if c1.n = c2.n then decide (c1.ni < c2.ni) else false

def eqTests (c1 c2 : CTests) : Bool := c1.n = c2.n && c1.ni = c2.ni

def less2tests (c1 c2 : CTests × CTests) : Bool :=
  if eqTests c1.1 c2.1 then lessTests c1.2 c2.2 else lessTests c1.1 c2.1

def addTest (t1 t2 : CTests) : CTests := ⟨t1.n + t2.n, t1.ni + t2.ni⟩

/-- The cost of a test, in the worst case and in all, with the costs of its two branches. -/
def combine (test : CTests) (c1 c2 : CTests × CTests) : CTests × CTests :=
  (if lessTests c1.1 c2.1 then addTest test c2.1 else addTest test c1.1,
    addTest (addTest test c1.2) c2.2)

inductive TRet
  | inter (i j : ℤ)
  | sep (i : ℤ)
  | no
  deriving DecidableEq

/-! ## §3 Cutting cases -/

def coupe (cases : List Case) (i : ℤ) : Except Exn (ℤ × List Case × List Case) := do
  let c ← get cases i
  let left ← sub cases 0 i
  let right ← sub cases i (cases.length - i)
  pure (c.low, left, right)

def caseAppend (c1 c2 : List Case) : List Case :=
  match c1.getLast?, c2 with
  | none, c2 => c2
  | some _, [] => c1
  | some ⟨l1, h1, act1⟩, ⟨l2, h2, act2⟩ :: rest2 =>
    if act1 = act2 then
      let l := match c1.dropLast.getLast? with
        | none => l1
        | some previous => min (norm (previous.high + 1)) l1
      let h := match rest2 with
        | [] => h2
        | next :: _ => max h2 (norm (next.low - 1))
      c1.dropLast ++ ⟨l, h, act1⟩ :: rest2
    else if h1 > l1 then c1.dropLast ++ ⟨l1, norm (l2 - 1), act1⟩ :: ⟨l2, h2, act2⟩ :: rest2
    else if h2 > l2 then c1 ++ ⟨norm (h1 + 1), h2, act2⟩ :: rest2
    else c1 ++ ⟨l2, h2, act2⟩ :: rest2

def coupeInter (i j : ℤ) (cases : List Case) :
    Except Exn (ℤ × ℤ × List Case × List Case) := do
  let ci ← get cases i
  let cj ← get cases j
  let inside ← sub cases i (j - i + 1)
  let before ← sub cases 0 i
  let after ← sub cases (j + 1) (cases.length - (j + 1))
  pure (ci.low, cj.high, inside, caseAppend before after)

/-! ## §4 Keys -/

inductive Kind
  | value (index : ℕ)
  | inter (index : ℕ)
  | empty
  deriving DecidableEq

/-- The actions that have been seen, with their indices. -/
abbrev Seen := List (ℕ × ℕ)

/-- `got_it`: the index of the action, and the actions seen. -/
def gotIt (act : ℕ) (seen : Seen) : ℕ × Seen :=
  match seen.find? fun p => p.1 = act with
  | some p => (p.2, seen)
  | none => (seen.length, (act, seen.length) :: seen)

def makeOne (c : Case) (seen : Seen) : Kind × Seen :=
  let (index, seen) := gotIt c.act seen
  (if c.low = c.high then .value index else .inter index, seen)

/-- The key of the cases before one that starts at `pl`, from the last to the first. -/
def makeRec : List Case → ℤ → List Kind × Seen
  | [], _ => ([], [])
  | c :: rem, pl =>
    let (tail, seen) := makeRec rem c.low
    let (kind, seen) := makeOne c seen
    (if pl = norm (c.high + 1) then kind :: tail else .empty :: kind :: tail, seen)

def makeKey (cases : List Case) : Except Exn (List Kind) :=
  match cases.reverse with
  | [] => throw .indexOutOfBounds
  | c :: rem =>
    let (tail, seen) := makeRec rem c.low
    pure ((makeOne c seen).1 :: tail)

/-- Do all cases have the same action? -/
def sameAct (t : List Case) : Except Exn Bool := do
  let last ← get t (t.length - 1)
  pure (t.dropLast.all fun c => c.act = last.act)

/-! ## §5 The search for a test -/

abbrev Ret := TRet × (CTests × CTests)

structure Memo where
  t : List (List Kind × Ret)
  okInter : Bool

abbrev M := StateT Memo (Except Exn)

def smallSizeLimit : ℕ := 8

def mediumSizeLimit : ℕ := 16

section Search

variable (optCount : List Case → M Ret)

/-- A cut at `i`, and its cost. -/
def sepCost (cases : List Case) (i : ℤ) : M (CTests × CTests) := do
  let (_, left, right) ← coupe cases i
  let (_, c1) ← optCount left
  let (_, c2) ← optCount right
  pure (combine ⟨1, 0⟩ c1 c2)

/-- An interval test, and its cost; `none` when it is not for one value and `single` is asked. -/
def interCost (single : Bool) (cases : List Case) (i j : ℤ) : M (Option (CTests × CTests)) := do
  let (low, high, inside, outside) ← coupeInter i j cases
  if single && low ≠ high then pure none
  else do
    let (_, c1) ← optCount inside
    let (_, c2) ← optCount outside
    pure (some (combine ⟨1, if low = high then 0 else 1⟩ c1 c2))

def divide (cases : List Case) : M Ret := do
  let m : ℤ := (cases.length / 2 : ℕ)
  let c ← sepCost optCount cases m
  pure (.sep m, c)

def heuristic (cases : List Case) : M Ret := do
  let lcases : ℤ := cases.length
  let (sep, csep) ← divide optCount cases
  let (inter, cinter) ← do
    if (← getThe Memo).okInter then do
      let first ← get cases 0
      let last ← get cases (lcases - 1)
      if first.act = last.act then do
        match ← interCost optCount false cases 1 (lcases - 2) with
        | some c => pure (TRet.inter 1 (lcases - 2), c)
        | none => pure (TRet.inter (-1) (-1), (tooMuch, tooMuch))
      else pure (TRet.inter (-1) (-1), (tooMuch, tooMuch))
    else pure (TRet.inter (-1) (-1), (tooMuch, tooMuch))
  pure (if less2tests csep cinter then (sep, csep) else (inter, cinter))

/-- `for i = first to last`. -/
def upTo (first last : ℕ) : List ℕ := List.range' first (last + 1 - first)

def bestSep (cases : List Case) : M (ℤ × (CTests × CTests)) :=
  (upTo 1 (cases.length - 1)).foldlM (fun best (i : ℕ) => do
    let c ← sepCost optCount cases i
    pure (if less2tests c best.2 then ((i : ℤ), c) else best)) (-1, (tooMuch, tooMuch))

/-- One step of the search for an interval test. -/
def tryInter (single : Bool) (cases : List Case) (best : (ℤ × ℤ) × (CTests × CTests)) (i j : ℕ) :
    M ((ℤ × ℤ) × (CTests × CTests)) := do
  match ← interCost optCount single cases i j with
  | none => pure best
  | some c => pure (if less2tests c best.2 then (((i : ℤ), (j : ℤ)), c) else best)

def bestInter (cases : List Case) : M ((ℤ × ℤ) × (CTests × CTests)) := do
  let start : (ℤ × ℤ) × (CTests × CTests) := ((-1, -1), (tooMuch, tooMuch))
  if !(← getThe Memo).okInter then
    (upTo 1 (cases.length - 2)).foldlM (fun best i => tryInter optCount true cases best i i) start
  else
    (upTo 1 (cases.length - 2)).foldlM (fun best i =>
      (upTo i (cases.length - 2)).foldlM (fun best j =>
        tryInter optCount false cases best i j) best)
      start

def enum (cases : List Case) : M Ret := do
  let (lim, withSep) ← bestSep optCount cases
  let ((ilow, ihigh), withInter) ← bestInter optCount cases
  pure (if less2tests withSep withInter then (.sep lim, withSep)
    else (.inter ilow ihigh, withInter))

/-- `opt_count`, for a key that is not in the table. -/
def search (cases : List Case) : M Ret := do
  if cases.length = 0 then throw .assertFailure
  else if ← (sameAct cases : Except Exn Bool) then pure (.no, (⟨0, 0⟩, ⟨0, 0⟩))
  else if cases.length < smallSizeLimit then enum optCount cases
  else if cases.length < mediumSizeLimit then heuristic optCount cases
  else divide optCount cases

end Search

def optCount : ℕ → List Case → M Ret
  | 0, _ => throw .outOfFuel
  | fuel + 1, cases => do
    let key ← (makeKey cases : Except Exn (List Kind))
    match (← getThe Memo).t.lookup key with
    | some r => pure r
    | none => do
      let r ← search (optCount fuel) cases
      modifyThe Memo fun memo => { memo with t := (key, r) :: memo.t }
      pure r

/-! ## §6 Code -/

inductive Primitive
  | eqint
  | neint
  | leint
  | ltint
  | geint
  | gtint

/-- The functor parameter. -/
structure Arg (arg test act : Type) where
  /-- The variable of `bind`. -/
  newarg : arg → arg
  /-- The code of `bind` around its body. -/
  bindIn : arg → act → act
  makeConst : ℤ → arg
  makeOffset : arg → ℤ → arg
  makePrim : Primitive → arg → arg → test
  makeIsout : arg → arg → test
  makeIsin : arg → arg → test
  makeIsNonzero : arg → test
  argAsTest : arg → test
  makeIf : test → act → act → act
  makeSwitch : arg → List ℕ → List act → act
  /-- The catch of a label, with its handler and its body. -/
  makeCatch : ℕ → act → act → act
  makeExit : ℕ → act

structure Ctx (arg : Type) where
  off : ℤ
  arg : arg

/-- The actions of a switch, which take the argument with its offset. -/
abbrev Actions (arg act : Type) := List (Ctx arg → Except Exn act)

section Code

variable {arg test act : Type} (A : Arg arg test act)

def makeIfTest (p : Primitive) (a : arg) (i : ℤ) (ifso ifnot : act) : act :=
  A.makeIf (A.makePrim p a (A.makeConst i)) ifso ifnot

def makeIfLt (a : arg) (i : ℤ) (ifso ifnot : act) : act :=
  if i = 1 then makeIfTest A .leint a 0 ifso ifnot else makeIfTest A .ltint a i ifso ifnot

def makeIfGe (a : arg) (i : ℤ) (ifso ifnot : act) : act :=
  if i = 1 then makeIfTest A .gtint a 0 ifso ifnot else makeIfTest A .geint a i ifso ifnot

def makeIfEq (a : arg) (i : ℤ) (ifso ifnot : act) : act := makeIfTest A .eqint a i ifso ifnot

def makeIfNe (a : arg) (i : ℤ) (ifso ifnot : act) : act := makeIfTest A .neint a i ifso ifnot

def makeIfNonzero (a : arg) (ifso ifnot : act) : act := A.makeIf (A.makeIsNonzero a) ifso ifnot

def makeIfBool (a : arg) (ifso ifnot : act) : act := A.makeIf (A.argAsTest a) ifso ifnot

/-- `make_if_out` and `make_if_in`, by the test that they make. -/
def makeIfRange (makeTest : arg → arg → test) (ctx : Ctx arg) (l d : ℤ)
    (mkIfso mkIfno : Ctx arg → M act) : M act :=
  if l = 0 then do
    let ifno ← mkIfno ctx
    let ifso ← mkIfso ctx
    pure (A.makeIf (makeTest (A.makeConst d) ctx.arg) ifso ifno)
  else do
    let shifted := A.makeOffset ctx.arg (norm (-l))
    let newarg := A.newarg shifted
    let ctx : Ctx arg := ⟨norm (norm (-l) + ctx.off), newarg⟩
    let ifno ← mkIfno ctx
    let ifso ← mkIfso ctx
    pure (A.bindIn shifted (A.makeIf (makeTest (A.makeConst d) newarg) ifso ifno))

def makeIfOut (ctx : Ctx arg) (l d : ℤ) (mkIfso mkIfno : Ctx arg → M act) : M act :=
  makeIfRange A A.makeIsout ctx l d mkIfso mkIfno

def makeIfIn (ctx : Ctx arg) (l d : ℤ) (mkIfso mkIfno : Ctx arg → M act) : M act :=
  makeIfRange A A.makeIsin ctx l d mkIfso mkIfno

/-- The action of the first case. -/
def firstAction (actions : Actions arg act) (cases : List Case) (ctx : Ctx arg) :
    Except Exn act := do
  let c ← get cases 0
  (← get actions c.act) ctx

/-- The search, with enough fuel. -/
def optCountOf (cases : List Case) : M Ret := optCount cases.length cases

/-- `c_test` for an interval test; `rec` is the recursive call. -/
def cTestInter (rec : Ctx arg → List Case → M act) (ctx : Ctx arg) (cases : List Case) (i j : ℤ) :
    M act := do
  let (low, high, inside, outside) ← coupeInter i j cases
  let (_, cinside, _) ← optCountOf inside
  let (_, coutside, _) ← optCountOf outside
  if low = high then
    if lessTests coutside cinside then do
      let ifnot ← rec ctx outside
      let ifso ← rec ctx inside
      pure (makeIfEq A ctx.arg (norm (low + ctx.off)) ifso ifnot)
    else do
      let ifnot ← rec ctx inside
      let ifso ← rec ctx outside
      pure (makeIfNe A ctx.arg (norm (low + ctx.off)) ifso ifnot)
  else if lessTests coutside cinside then
    makeIfIn A ctx (norm (low + ctx.off)) (norm (high - low))
      (fun ctx => rec ctx inside) (fun ctx => rec ctx outside)
  else
    makeIfOut A ctx (norm (low + ctx.off)) (norm (high - low))
      (fun ctx => rec ctx outside) (fun ctx => rec ctx inside)

/-- `c_test` for a cut. -/
def cTestSep (rec : Ctx arg → List Case → M act) (ctx : Ctx arg) (cases : List Case) (i : ℤ) :
    M act := do
  let (lim, left, right) ← coupe cases i
  let (_, cleft, _) ← optCountOf left
  let (_, cright, _) ← optCountOf right
  let first ← get cases 0
  if i = 1 ∧ norm (lim + ctx.off) = 1 ∧ norm (first.low + ctx.off) = 0 then do
    let second ← get cases 1
    let ifnot ← rec ctx left
    let ifso ← rec ctx right
    if cases.length = 2 ∧ norm (second.high + ctx.off) = 1 then
      pure (makeIfBool A ctx.arg ifso ifnot)
    else pure (makeIfNonzero A ctx.arg ifso ifnot)
  else if lessTests cright cleft then do
    let ifnot ← rec ctx right
    let ifso ← rec ctx left
    pure (makeIfLt A ctx.arg (norm (lim + ctx.off)) ifso ifnot)
  else do
    let ifnot ← rec ctx left
    let ifso ← rec ctx right
    pure (makeIfGe A ctx.arg (norm (lim + ctx.off)) ifso ifnot)

def cTest (actions : Actions arg act) : ℕ → Ctx arg → List Case → M act
  | 0, _, _ => throw .outOfFuel
  | fuel + 1, ctx, cases => do
    if cases.length = 0 then throw .assertFailure
    else if cases.length = 1 then firstAction actions cases ctx
    else do
      let (w, _) ← optCountOf cases
      match w with
      | .no => firstAction actions cases ctx
      | .inter i j => cTestInter A (cTest actions fuel) ctx cases i j
      | .sep i => cTestSep A (cTest actions fuel) ctx cases i

/-! ## §7 Clusters -/

/-- `float_of_int ntests +. 1.0 >= theta *. (float_of_int h -. float_of_int l +. 1.0)`. -/
structure FloatTest where
  dense : (ntests l h : ℤ) → Bool
  /-- A range of more than 2^61 values is not dense for the tests of an array. -/
  sparse : ∀ ntests l h, ntests < 2 ^ 55 → 2 ^ 61 ≤ h - l → dense ntests l h = false

def switchMin : ℕ := 3

def particularCase (cases : List Case) (i j : ℤ) : Except Exn Bool :=
  if j - i = 2 then do
    let c1 ← get cases i
    let c2 ← get cases (i + 1)
    let c3 ← get cases (i + 2)
    pure (norm (c1.low + 1) = c2.low && norm (c2.low + 1) = c3.low && c3.low = c3.high &&
      c1.act ≠ c3.act)
  else pure false

def approxCount (cases : List Case) (i j : ℤ) : M ℕ := do
  let l := j - i + 1
  if l < smallSizeLimit then do
    let (_, _, c) ← optCountOf (← (sub cases i l : Except Exn _))
    pure c.n
  else pure (l - 1).toNat

def dense (F : FloatTest) (cases : List Case) (i j : ℤ) : M Bool := do
  if i = j then pure true
  else do
    let ci ← get cases i
    let cj ← get cases j
    let ntests ← approxCount cases i j
    if ← (particularCase cases i j : Except Exn Bool) then pure true
    else pure (switchMin ≤ ntests && F.dense ntests ci.low cj.high)

/-- `get_min`. -/
def getMin (minClusters : List ℕ) (i : ℤ) : Except Exn ℕ :=
  if i < 0 then pure 0 else get minClusters i

/-- The body of the loops of `comp_clusters`. -/
def clusterStep (F : FloatTest) (cases : List Case) (i : ℕ) (acc : List ℕ × List ℕ) (j : ℕ) :
    M (List ℕ × List ℕ) := do
  if ← dense F cases j i then do
    let before ← getMin acc.1 (j - 1)
    let current ← get acc.1 i
    if before + 1 < current then do
      let k ← set acc.2 i j
      let minClusters ← set acc.1 i (before + 1)
      pure (minClusters, k)
    else pure acc
  else pure acc

def compClusters (F : FloatTest) (cases : List Case) : M (ℕ × List ℕ) := do
  let len := cases.length
  let (minClusters, k) ← (List.range len).foldlM (fun acc i =>
    (List.range (i + 1)).foldlM (clusterStep F cases i) acc)
    (List.replicate len maxInt.toNat, List.replicate len 0)
  pure (← get minClusters (len - 1), k)

/-- The indices of the actions, in the order of their first use. -/
def getIndex (actOf : ℕ) (t : List ℕ) : ℕ × List ℕ :=
  match t.findIdx? (· = actOf) with
  | some i => (i, t)
  | none => (t.length, t ++ [actOf])

/-- The loop `for kk = l - ll to h - ll`. -/
def fill (tbl : List ℕ) (first count : ℕ) (index : ℕ) : Except Exn (List ℕ) :=
  (List.range' first count).foldlM (fun tbl (kk : ℕ) => set tbl kk index) tbl

/-- The table of `make_switch`, and the actions that it uses. -/
def switchTable (cases : List Case) (i j : ℕ) : Except Exn (ℤ × List ℕ × List ℕ) := do
  let ci ← get cases i
  let cj ← get cases j
  let ll := ci.low
  let tbl ← make (norm (norm (cj.high - ll) + 1)) 0
  let (tbl, t) ← (upTo i j).foldlM (fun (acc : List ℕ × List ℕ) (k : ℕ) => do
    let c ← get cases k
    let (index, t) := getIndex c.act acc.2
    let tbl ← fill acc.1 (c.low - ll).toNat (c.high - c.low + 1).toNat index
    pure (tbl, t)) (tbl, [])
  pure (ll, tbl, t)

/-- The function that `make_switch` returns. -/
def switchCode (ll : ℤ) (tbl : List ℕ) (acts : List act) (ctx : Ctx arg) : Except Exn act :=
  let offset := norm (norm (-ll) - ctx.off)
  if offset = 0 then pure (A.makeSwitch ctx.arg tbl acts)
  else
    let shifted := A.makeOffset ctx.arg offset
    pure (A.bindIn shifted (A.makeSwitch (A.newarg shifted) tbl acts))

def makeSwitch (cases : List Case) (actions : List act) (i j : ℕ) :
    Except Exn (Ctx arg → Except Exn act) := do
  let (ll, tbl, t) ← switchTable cases i j
  let acts ← t.mapM fun (a : ℕ) => get actions a
  pure (switchCode A ll tbl acts)

/-- An action of the clusters: an action of the cases, or a switch. -/
inductive ClusterAct (arg act : Type)
  | action (index : ℕ)
  | switch (code : Ctx arg → Except Exn act)

/-- The state of `make_clusters`: the clusters, and the table of their actions. -/
structure Clusters (arg act : Type) where
  r : List Case
  t : List (ClusterAct arg act)

/-- `get_index` of `make_clusters`. -/
def getClusterIndex (actOf : ℕ) (t : List (ClusterAct arg act)) : ℕ × List (ClusterAct arg act) :=
  match t.findIdx? (fun c => match c with
    | .action index => index = actOf
    | .switch _ => false) with
  | some i => (i, t)
  | none => (t.length, t ++ [.action actOf])

/-- The cluster of the cases `i` to `j`, in `r.(ir)`. -/
def addCluster (cases : List Case) (actions : List act) (i j : ℕ) (ir : ℤ) (s : Clusters arg act) :
    Except Exn (Clusters arg act) :=
  if i = j then do
    let c ← get cases i
    let (index, t) := getClusterIndex c.act s.t
    pure ⟨← set s.r ir ⟨c.low, c.high, index⟩, t⟩
  else do
    let ci ← get cases i
    let cj ← get cases j
    let code ← makeSwitch A cases actions i j
    pure ⟨← set s.r ir ⟨ci.low, cj.high, s.t.length⟩, s.t ++ [.switch code]⟩

/-- The local `zyva` of `make_clusters`; its recursion goes down from `j`. -/
def clusterZyva (cases : List Case) (actions : List act) (k : List ℕ) :
    ℕ → ℕ → ℤ → Clusters arg act → Except Exn (Clusters arg act)
  | 0, _, _, _ => throw .outOfFuel
  | fuel + 1, j, ir, s => do
    let i ← get k j
    let s ← addCluster A cases actions i j ir s
    if 0 < i then clusterZyva cases actions k fuel (i - 1) (ir - 1) s else pure s

/-- The code of an action of the clusters. -/
def clusterCode (actions : List act) : ClusterAct arg act → Ctx arg → Except Exn act
  | .action index => fun _ => get actions index
  | .switch code => code

def makeClusters (cases : List Case) (actions : List act) (nClusters : ℕ) (k : List ℕ) :
    Except Exn (List Case × Actions arg act) := do
  let s ← clusterZyva A cases actions k cases.length (cases.length - 1) ((nClusters : ℤ) - 1)
    ⟨List.replicate nClusters ⟨0, 0, 0⟩, []⟩
  pure (s.r, s.t.map (clusterCode actions))

/-! ## §8 Entry points -/

def interLimit : ℤ := 2 ^ 16

/-- The flag is set, and the table cleared when it changes. -/
def setOkInter (okInter : Bool) : M Unit :=
  modifyThe Memo fun memo => if memo.okInter = okInter then memo else ⟨[], okInter⟩

def doZyva (F : FloatTest) (low high : ℤ) (a : arg) (cases : List Case) (actions : List act) :
    M act := do
  setOkInter (abs low ≤ interLimit && abs high ≤ interLimit)
  let (nClusters, k) ← compClusters F cases
  let (clusters, acts) ← makeClusters A cases actions nClusters k
  cTest A acts clusters.length ⟨0, a⟩ clusters

inductive Shared (act : Type)
  | shared (a : act)
  | single (a : act)

/-- The handlers around the code, and the actions; `label` is the next fresh label. -/
def abstractShared (label : ℕ) : List (Shared act) → (act → act) × List act
  | [] => (id, [])
  | .single a :: rest =>
    let (handlers, actions) := abstractShared label rest
    (handlers, a :: actions)
  | .shared a :: rest =>
    let (handlers, actions) := abstractShared (label + 1) rest
    (fun body => handlers (A.makeCatch label a body), A.makeExit label :: actions)

def zyva (F : FloatTest) (label : ℕ) (low high : ℤ) (a : arg) (cases : List Case)
    (actions : List (Shared act)) : M act := do
  if cases.length = 0 then throw .assertFailure
  else do
    let (hs, actions) := abstractShared A label actions
    let code ← doZyva A F low high a cases actions
    pure (hs code)

def testSequence (label : ℕ) (a : arg) (cases : List Case) (actions : List (Shared act)) :
    M act := do
  if cases.length = 0 then throw .assertFailure
  else do
    let (hs, actions) := abstractShared A label actions
    setOkInter false
    let code ← cTest A (actions.map fun action _ => pure action) cases.length ⟨0, a⟩ cases
    pure (hs code)

end Code

end Oxcaml.Lambda.Switch
